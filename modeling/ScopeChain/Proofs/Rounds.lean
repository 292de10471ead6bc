import ScopeChain.Proofs.Grammar

/-! The loops of the parser go round only after they have taken a token, whatever the texts that
their parts give up on. -/
namespace ScopeChain.Parser

open Token (Kind)

variable {α β ρ : Type}

/-- A state whose tokens come to an end, and fuel for it: all that its tokens can take, and so
much beyond. -/
structure State.Fuelled (extra fuel : Nat) (s : State) : Prop where
  ends : ∃ last, s.tokens.getLast? = some last ∧ last.kind = .endOfFile
  spare : 16 * s.tokens.length + extra ≤ fuel

namespace State.Fuelled

variable {b b' fuel : Nat} {s : State}

theorem mono (h : s.Fuelled b fuel) (hb : b' ≤ b) : s.Fuelled b' fuel :=
  ⟨h.ends, Nat.le_trans (by omega) h.spare⟩

theorem deep (h : s.Fuelled b fuel) (d d' : Nat) :
    State.Fuelled b fuel { s with depth := d, functionDepth := d' } := ⟨h.ends, h.spare⟩

/-- The last token stays, so behind each other one there is one more. -/
theorem rest_ne_nil (h : s.Fuelled b fuel) (hk : s.token.kind ≠ .endOfFile) : s.rest ≠ [] := by
  obtain ⟨last, hlast, hkind⟩ := h.ends
  intro hrest
  rw [State.tokens, hrest] at hlast
  obtain rfl := Option.some.inj hlast
  exact hk hkind

/-- Of some fuel one unit pays for a call. -/
theorem succ_iff : s.Fuelled (b + 1) (fuel + 1) ↔ s.Fuelled b fuel :=
  ⟨fun h => ⟨h.ends, by have := h.spare; omega⟩, fun h => ⟨h.ends, by have := h.spare; omega⟩⟩

theorem not_zero (h : s.Fuelled b 0) : False := by
  have := h.spare
  rw [State.tokens, List.length_cons] at this
  omega

end State.Fuelled

theorem getLast?_of_suffix {l l' : List Token} (h : l' <:+ l) (hne : l' ≠ []) :
    l'.getLast? = l.getLast? := by
  obtain ⟨front, rfl⟩ := h
  rw [List.getLast?_append_of_ne_nil _ hne]

theorem Onward.fuelled {b fuel : Nat} {s s' : State} (h : Onward s s')
    (hs : s.Fuelled b fuel) : s'.Fuelled b fuel where
  ends := by
    rw [getLast?_of_suffix h.tokens (List.cons_ne_nil _ _)]
    exact hs.ends
  spare := by
    have := h.tokens.length_le
    have := hs.spare
    omega

/-- Every token but the last pays for sixteen calls. -/
theorem fuelled_advance {b fuel : Nat} {s : State} (hs : s.Fuelled b fuel)
    (hk : s.token.kind ≠ .endOfFile) : (advance s).2.Fuelled (b + 16) fuel := by
  obtain ⟨u, us, hrest⟩ := List.exists_cons_of_ne_nil (hs.rest_ne_nil hk)
  have hspare := hs.spare
  refine ⟨((goesOn_advance s).fuelled hs).ends, ?_⟩
  rw [State.tokens, List.length_cons, hrest, List.length_cons] at hspare
  rw [advance_of_cons hrest, State.tokens, List.length_cons]
  dsimp only
  omega

/-- A reader that begins at `P` ends at `Q`. -/
def Leads (P : State → Prop) (f : ParseM α) (Q : α → State → Prop) : Prop :=
  ∀ s, P s → Q (f s).1 (f s).2

/-- Two readers do the same wherever they begin at `P`. -/
def Same (P : State → Prop) (f g : ParseM α) : Prop := ∀ s, P s → f s = g s

section Rules

variable {P P' : State → Prop} {f g : ParseM α} {f' g' : α → ParseM β} {Q : α → State → Prop}
  {R : β → State → Prop} {b fuel : Nat} {k : Kind}

theorem Leads.bind (hf : Leads P f Q) (h : ∀ a, Leads (Q a) (f' a) R) : Leads P (f >>= f') R :=
  fun s hs => h _ _ (hf s hs)

theorem Leads.pure {a : α} (h : ∀ s, P s → Q a s) : Leads P (pure a) Q := h

theorem GoesOn.leads (h : GoesOn f) :
    Leads (State.Fuelled b fuel) f fun _ => State.Fuelled b fuel := fun s hs => (h s).fuelled hs

theorem Leads.kind_bind {f' : Kind → ParseM β}
    (h : ∀ k, Leads (fun s => P s ∧ s.token.kind = k) (f' k) R) : Leads P (kind >>= f') R :=
  fun s hs => h _ s ⟨hs, rfl⟩

theorem leads_advance (hk : k ≠ .endOfFile) :
    Leads (fun s => s.Fuelled b fuel ∧ s.token.kind = k) advance
      fun _ => State.Fuelled (b + 16) fuel :=
  fun _ hs => fuelled_advance hs.1 (hs.2 ▸ hk)

theorem leads_accept (hk : k ≠ .endOfFile) :
    Leads (State.Fuelled b fuel) (accept k)
      fun c => State.Fuelled (b + if c = true then 16 else 0) fuel := by
  refine Leads.kind_bind fun k' => ?_
  split
  · next heq => exact (leads_advance (heq ▸ hk)).bind fun _ => .pure fun _ hs => hs
  · exact .pure fun _ hs => hs.1

theorem leads_expect (p : Punctuator) :
    Leads (State.Fuelled b fuel) (expect p)
      fun c => State.Fuelled (b + if c = true then 16 else 0) fuel := by
  refine (leads_accept (by simp)).bind fun c => ?_
  cases c with
  | true => exact .pure fun _ hs => hs
  | false =>
    exact Leads.bind (GoesOn.leads (goesOn_report (m := .tokenExpected) rfl [p.text]))
      fun _ => .pure fun _ hs => hs

theorem Same.refl (f : ParseM α) : Same P f f := fun _ _ => rfl

theorem Same.of_pre (h : Same P f g) (hP : ∀ s, P' s → P s) : Same P' f g :=
  fun s hs => h s (hP s hs)

theorem Same.bind (hf : Same P f g) (hQ : Leads P f Q) (h : ∀ a, Same (Q a) (f' a) (g' a)) :
    Same P (f >>= f') (g >>= g') := by
  intro s hs
  have hrest := h _ _ (hQ s hs)
  change f' (f s).1 (f s).2 = g' (g s).1 (g s).2
  rw [← hf s hs]
  exact hrest

/-- One step that is common to both readers. -/
theorem Same.then (hQ : Leads P f Q) (h : ∀ a, Same (Q a) (f' a) (g' a)) :
    Same P (f >>= f') (f >>= g') := (Same.refl f).bind hQ h

theorem Same.past (hf : Same (State.Fuelled b fuel) f g) (hgo : GoesOn f)
    (h : ∀ a, Same (State.Fuelled b fuel) (f' a) (g' a)) :
    Same (State.Fuelled b fuel) (f >>= f') (g >>= g') := hf.bind hgo.leads h

theorem Same.on (hgo : GoesOn f) (h : ∀ a, Same (State.Fuelled b fuel) (f' a) (g' a)) :
    Same (State.Fuelled b fuel) (f >>= f') (f >>= g') := (Same.refl f).past hgo h

theorem Same.map {h : α → β} (hf : Same P f g) : Same P (h <$> f) (h <$> g) := by
  intro s hs
  change (h (f s).1, (f s).2) = (h (g s).1, (g s).2)
  rw [hf s hs]

theorem Same.kind_bind {f' g' : Kind → ParseM β}
    (h : ∀ k, Same (fun s => P s ∧ s.token.kind = k) (f' k) (g' k)) :
    Same P (kind >>= f') (kind >>= g') := fun s hs => h _ s ⟨hs, rfl⟩

theorem Same.span_bind {f' g' : Span → ParseM β} (h : ∀ at_, Same P (f' at_) (g' at_)) :
    Same P (span >>= f') (span >>= g') := fun s hs => h _ s hs

theorem Same.nested {m : Message} {a : α} (h : Same (State.Fuelled b fuel) f g) :
    Same (State.Fuelled b fuel) (nested m a f) (nested m a g) := by
  intro s hs
  rw [nested_run, nested_run, h { s with depth := s.depth + 1 } (hs.deep _ _)]

theorem Same.inFunction (h : Same (State.Fuelled b fuel) f g) :
    Same (State.Fuelled b fuel) (inFunction f) (inFunction g) := by
  intro s hs
  exact congrArg (fun r => (r.1, { r.2 with functionDepth := r.2.functionDepth - 1 }))
    (h { s with functionDepth := s.functionDepth + 1 } (hs.deep _ _))

end Rules

/-- Drops a token that still stands where a statement should have begun. -/
def dropAt (start : Nat) : ParseM Unit := do
  if (← span).start = start && (← kind) ≠ .endOfFile then advance

/-- A statement, or the place where statements end. -/
def statementRound (fuel : Nat) (ends : Kind → Bool) (strict : Bool) :
    ParseM (List Stmt ⊕ Stmt) := do
  if ends (← kind) then return .inl []
  let start := (← span).start
  let s ← statement fuel strict
  dropAt start
  return .inr s

/-- A directive with the strictness behind it, or the end of the prologue. -/
def directiveRound (fuel : Nat) (strict : Bool) :
    ParseM ((List Stmt × Bool) ⊕ (Stmt × Bool)) := do
  match ← kind with
  | .string value =>
    let s ← statement fuel strict
    if isDirective s then return .inr (s, strict || value = "use strict")
    return .inl ([s], strict)
  | _ => return .inl ([], strict)

def declaratorRound (fuel : Nat) (strict : Bool) : ParseM (List Declarator ⊕ Declarator) := do
  let target ← identifier
  checkBinding strict target
  let value ←
    if ← accept (.punctuator .assign) then some <$> expression fuel strict else pure none
  if ← accept (.punctuator .comma) then return .inr ⟨target, value⟩
  return .inl [⟨target, value⟩]

def paramRound : ParseM (List Identifier ⊕ Identifier) := do
  let p ← identifier
  if ← accept (.punctuator .comma) then return .inr p
  return .inl [p]

def argumentRound (fuel : Nat) (strict : Bool) : ParseM (List Expr ⊕ Expr) := do
  let e ← expression fuel strict
  if ← accept (.punctuator .comma) then return .inr e
  return .inl [e]

/-- An operator and its right operand, joined to the left one. -/
def operatorRound (fuel : Nat) (strict : Bool) (least : Nat) (left : Expr) :
    ParseM (Expr ⊕ Expr) := do
  match binaryOp? (← kind) with
  | some (op, strength) =>
    if strength < least then return .inl left
    advance
    let right ← binary fuel strict (strength + 1)
    return .inr (.binary op left right)
  | none => return .inl left

/-- A list of arguments behind a callee. -/
def callRound (fuel : Nat) (strict : Bool) (start : Nat) (callee : Expr) :
    ParseM (Expr ⊕ Expr) := do
  if ← accept (.punctuator .openParen) then
    let args ← if (← kind) = .punctuator .closeParen then pure [] else arguments fuel strict
    let stop := (← span).stop
    let _ ← expect .closeParen
    return .inr (.call callee args ⟨start, stop⟩)
  else return .inl callee

/-- A loop is a round, and goes on as `again` says unless the round was the last. Before it goes on
it has taken one of some tokens. -/
structure GoesRound (tokens : List Token) (loop : ParseM α) (round : ParseM (α ⊕ ρ))
    (again : ρ → ParseM α) : Prop where
  unfolds : loop = round >>= Sum.elim pure again
  takes : ∀ (s : State) (r : ρ), s.tokens <:+ tokens → (round s).1 = .inr r →
    (round s).2.tokens.length < s.tokens.length

/-- Every loop takes a token in each round but the last. -/
structure RoundsTake (tokens : List Token) (fuel : Nat) : Prop where
  statements : ∀ ends strict, ends .endOfFile = true →
    GoesRound tokens (statements (fuel + 1) ends strict) (statementRound fuel ends strict)
      fun s => (s :: ·) <$> statements fuel ends strict
  directives : ∀ strict,
    GoesRound tokens (directives (fuel + 1) strict) (directiveRound fuel strict)
      fun r => (fun rest => (r.1 :: rest.1, rest.2)) <$> directives fuel r.2
  declarators : ∀ strict,
    GoesRound tokens (declarators (fuel + 1) strict) (declaratorRound fuel strict)
      fun d => (d :: ·) <$> declarators fuel strict
  params : GoesRound tokens (params (fuel + 1)) paramRound fun p => (p :: ·) <$> params fuel
  arguments : ∀ strict,
    GoesRound tokens (arguments (fuel + 1) strict) (argumentRound fuel strict)
      fun e => (e :: ·) <$> arguments fuel strict
  operators : ∀ strict least left,
    GoesRound tokens (binaryRest (fuel + 1) strict least left)
      (operatorRound fuel strict least left) (binaryRest fuel strict least)
  calls : ∀ strict start callee,
    GoesRound tokens (callRest (fuel + 1) strict start callee)
      (callRound fuel strict start callee) (callRest fuel strict start)

section Loops

variable {fuel : Nat}

theorem ite_bind {c : Prop} [Decidable c] (f g : ParseM α) (h : α → ParseM β) :
    (if c then f else g) >>= h = if c then f >>= h else g >>= h := by
  split <;> rfl

theorem statements_succ (ends : Kind → Bool) (strict : Bool) :
    statements (fuel + 1) ends strict = statementRound fuel ends strict >>=
      Sum.elim pure fun s => (s :: ·) <$> statements fuel ends strict := by
  rw [statements, statementRound]
  simp [dropAt, bind_assoc, ite_bind]

theorem directives_succ (strict : Bool) :
    directives (fuel + 1) strict = directiveRound fuel strict >>=
      Sum.elim pure fun r => (fun rest => (r.1 :: rest.1, rest.2)) <$> directives fuel r.2 := by
  rw [directives, directiveRound, bind_assoc]
  congr 1
  funext k
  cases k with
  | string value => simp [bind_assoc, ite_bind]
  | _ => rfl

theorem declarators_succ (strict : Bool) :
    declarators (fuel + 1) strict = declaratorRound fuel strict >>=
      Sum.elim pure fun d => (d :: ·) <$> declarators fuel strict := by
  rw [declarators, declaratorRound]
  simp [bind_assoc, ite_bind]

theorem params_succ : params (fuel + 1) = paramRound >>=
    Sum.elim pure fun p => (p :: ·) <$> params fuel := by
  rw [params, paramRound]
  simp [bind_assoc, ite_bind]

theorem arguments_succ (strict : Bool) :
    arguments (fuel + 1) strict = argumentRound fuel strict >>=
      Sum.elim pure fun e => (e :: ·) <$> arguments fuel strict := by
  rw [arguments, argumentRound]
  simp [bind_assoc, ite_bind]

theorem binaryRest_succ (strict : Bool) (least : Nat) (left : Expr) :
    binaryRest (fuel + 1) strict least left = operatorRound fuel strict least left >>=
      Sum.elim pure (binaryRest fuel strict least) := by
  rw [binaryRest, operatorRound, bind_assoc]
  congr 1
  funext k
  cases binaryOp? k with
  | none => rfl
  | some o => simp [bind_assoc, ite_bind]

theorem callRest_succ (strict : Bool) (start : Nat) (callee : Expr) :
    callRest (fuel + 1) strict start callee = callRound fuel strict start callee >>=
      Sum.elim pure (callRest fuel strict start) := by
  rw [callRest, callRound]
  simp [bind_assoc, ite_bind]

/-- A round that goes on leaves more fuel. -/
theorem GoesRound.of_leads {tokens : List Token} {loop : ParseM α} {round : ParseM (α ⊕ ρ)}
    {again : ρ → ParseM α} (hends : ∃ last, tokens.getLast? = some last ∧ last.kind = .endOfFile)
    (hunfolds : loop = round >>= Sum.elim pure again)
    (htakes : ∀ n, Leads (State.Fuelled 0 n) round fun r s => r.isRight = true → s.Fuelled 16 n) :
    GoesRound tokens loop round again := by
  refine ⟨hunfolds, fun s r hs hr => ?_⟩
  have hfuelled : s.Fuelled 0 (16 * s.tokens.length) := by
    refine ⟨?_, Nat.le_refl _⟩
    rw [getLast?_of_suffix hs (List.cons_ne_nil _ _)]
    exact hends
  have hspare := (htakes _ s hfuelled (by rw [hr]; rfl)).spare
  omega

variable {b n : Nat} {k : Kind}

/-- What is read at last, if it goes on, is a comma. -/
theorem leads_comma {f g : ParseM (α ⊕ ρ)} (hf : GoesOn f)
    (hg : Leads (State.Fuelled b n) g fun r _ => r.isRight = false) :
    Leads (State.Fuelled b n) (do if ← accept (.punctuator .comma) then f else g)
      fun r s => r.isRight = true → s.Fuelled (b + 16) n := by
  refine (leads_accept (by simp)).bind fun c => ?_
  cases c with
  | true => exact fun s hs _ => (hf s).fuelled hs
  | false => exact fun s hs hr => Bool.noConfusion ((hg s hs).symm.trans hr)

theorem Onward.fuelled_of_ne {s s' : State} (h : Onward s s') (hs : s.Fuelled b n)
    (hne : s'.tokens ≠ s.tokens) : s'.Fuelled (b + 16) n := by
  have hlt : s'.tokens.length < s.tokens.length :=
    Nat.lt_of_le_of_ne h.tokens.length_le fun heq => hne (h.tokens.eq_of_length heq)
  have := hs.spare
  exact ⟨(h.fuelled hs).ends, by omega⟩

@[grind ←]
theorem goesOn_dropAt (start : Nat) : GoesOn (dropAt start) := by grind [dropAt]

theorem dropAt_token {s : State} (hk : s.token.kind ≠ .endOfFile) :
    dropAt s.token.span.start s = advance s := by
  have hrun : dropAt s.token.span.start s =
      (if s.token.span.start = s.token.span.start && s.token.kind ≠ .endOfFile then advance
        else pure () : ParseM Unit) s := rfl
  rw [hrun, if_pos (by simpa using hk)]

/-- A statement that took nothing leaves a token, which is dropped then. -/
theorem leads_statementRound (ends : Kind → Bool) (strict : Bool) (h : ends .endOfFile = true) :
    Leads (State.Fuelled b n) (statementRound fuel ends strict)
      fun r s => r.isRight = true → s.Fuelled (b + 16) n := by
  refine Leads.kind_bind fun k => ?_
  split
  · exact .pure fun _ _ hr => Bool.noConfusion hr
  · next hk =>
    rintro s ⟨hs, rfl⟩ -
    have hend : s.token.kind ≠ .endOfFile := fun heq => hk (heq ▸ h)
    have hgo := (allGoOn fuel).statement strict s
    have hdrop := goesOn_dropAt s.token.span.start (statement fuel strict s).2
    change (dropAt s.token.span.start (statement fuel strict s).2).2.Fuelled (b + 16) n
    by_cases hsame : (statement fuel strict s).2.tokens = s.tokens
    · obtain ⟨htoken, -⟩ := List.cons.inj hsame
      rw [← htoken] at hend ⊢
      rw [dropAt_token hend]
      exact fuelled_advance (hgo.fuelled hs) hend
    · exact hdrop.fuelled (hgo.fuelled_of_ne hs hsame)

/-- Where a string comes next, what is read has taken it, unless it is given up. -/
def TakesString (f : ParseM α) (X : α → Prop) : Prop :=
  ∀ {b n : Nat} {v : String}, Leads (fun s => s.Fuelled b n ∧ s.token.kind = .string v) f
    fun a s => X a → s.Fuelled (b + 16) n

theorem TakesString.nested {f : ParseM α} {X : α → Prop} (h : TakesString f X) {m : Message} {a : α}
    (ha : ¬ X a) : TakesString (nested m a f) X := by
  intro b n v s hs
  rw [nested_run]
  split
  · exact fun hX => (ha hX).elim
  · exact fun hX => (h { s with depth := s.depth + 1 } ⟨hs.1.deep _ _, hs.2⟩ hX).deep _ _

theorem null_ne_string : ¬ ∃ v, Expr.null = .string v := by
  rintro ⟨v, h⟩
  cases h

/-- The right side of an assignment, after which it is known whether there was a name on the left. -/
def assignment (fuel : Nat) (strict : Bool) (at_ : Span) (left : Expr) : ParseM Expr := do
  let value ← expression fuel strict
  match left.identifier? with
  | some target =>
    checkBinding strict target
    return .assign target value
  | none =>
    reportAt at_ .assignmentTarget []
    return value

theorem goesOn_assignment (fuel : Nat) (strict : Bool) (at_ : Span) (left : Expr) :
    GoesOn (assignment fuel strict at_ left) :=
  ((allGoOn fuel).expression strict).bind fun value => by grind [Message.assignmentTarget]

theorem takesString_primary (strict : Bool) :
    TakesString (primary fuel strict) fun e => ∃ v, e = .string v := by
  intro b n v
  cases fuel with
  | zero => exact .pure fun _ _ h => (null_ne_string h).elim
  | succ fuel =>
    intro s hs
    rw [Parser.primary, run_span_bind, run_kind_bind, hs.2]
    exact fun _ => fuelled_advance hs.1 (by simp [hs.2])

theorem takesString_unary (strict : Bool) :
    TakesString (unary fuel strict) fun e => ∃ v, e = .string v := by
  cases fuel with
  | zero => exact .pure fun _ _ h => (null_ne_string h).elim
  | succ fuel =>
    rw [Parser.unary]
    refine TakesString.nested (fun {b n v} s hs => ?_) (by exact null_ne_string)
    rw [run_span_bind, run_kind_bind, hs.2]
    rintro ⟨w, hw⟩
    have hprimary : (primary fuel strict s).2.Fuelled (b + 16) n :=
      takesString_primary strict s hs ⟨w, answers_callRest fuel strict _ _ _ w hw⟩
    exact ((allGoOn fuel).callRest strict _ _ _).fuelled hprimary

theorem takesString_binary (strict : Bool) (least : Nat) :
    TakesString (binary fuel strict least) fun e => ∃ v, e = .string v := by
  cases fuel with
  | zero => exact .pure fun _ _ h => (null_ne_string h).elim
  | succ fuel =>
    rintro b n v s hs ⟨w, hw⟩
    have hunary : (unary fuel strict s).2.Fuelled (b + 16) n :=
      takesString_unary strict s hs ⟨w, answers_binaryRest fuel strict _ _ _ w hw⟩
    exact ((allGoOn fuel).binaryRest strict _ _ _).fuelled hunary

theorem takesString_expression (strict : Bool) :
    TakesString (expression fuel strict) fun e => ∃ v, e = .string v := by
  cases fuel with
  | zero => exact .pure fun _ _ h => (null_ne_string h).elim
  | succ fuel =>
    rw [Parser.expression]
    refine TakesString.nested (fun {b n v} => ?_) (by exact null_ne_string)
    have hbinary : Leads (fun s => s.Fuelled b n ∧ s.token.kind = .string v)
        (binary fuel strict 0) fun e s =>
          s.Fuelled b n ∧ ((∃ v, e = .string v) → s.Fuelled (b + 16) n) := fun s hs =>
      ⟨((allGoOn fuel).binary strict 0 s).fuelled hs.1, takesString_binary strict 0 s hs⟩
    refine Leads.bind (f := span) (Q := fun _ s => s.Fuelled b n ∧ s.token.kind = .string v)
      (fun _ h => h) fun at_ => hbinary.bind fun left => ?_
    refine Leads.bind (Q := fun c s => if c = true then s.Fuelled (b + 16) n
      else (∃ v, left = .string v) → s.Fuelled (b + 16) n) (fun s hs => ?_) fun c => ?_
    · have haccept := leads_accept (k := .punctuator .assign) (by simp) s hs.1
      have hgo := goesOn_accept (.punctuator .assign) s
      dsimp only at haccept ⊢
      split
      · next hc => simpa [hc] using haccept
      · exact fun hleft => hgo.fuelled (hs.2 hleft)
    · cases c with
      | false => exact .pure fun _ h => h
      | true => exact fun s hs _ => (goesOn_assignment fuel strict at_ left s).fuelled hs

theorem takesString_statement (strict : Bool) :
    TakesString (statement fuel strict) (isDirective · = true) := by
  cases fuel with
  | zero => exact .pure fun _ _ h => Bool.noConfusion h
  | succ fuel =>
    rw [Parser.statement]
    refine TakesString.nested (fun {b n v} => Leads.kind_bind fun k => ?_) (by simp [isDirective])
    rintro s ⟨⟨hs, hv⟩, rfl⟩
    rw [hv]
    have hread : Leads (fun s => s.Fuelled b n ∧ s.token.kind = .string v)
        (do
          let e ← expression fuel strict
          endStatement
          return Stmt.expr e)
        fun st s => isDirective st = true → s.Fuelled (b + 16) n := by
      refine (takesString_expression strict).bind fun e s hs hdirective => ?_
      refine (goesOn_endStatement s).fuelled (hs ?_)
      cases e with
      | string v => exact ⟨v, rfl⟩
      | _ => cases hdirective
    exact hread s ⟨hs, hv⟩

theorem leads_directiveRound (strict : Bool) :
    Leads (State.Fuelled b n) (directiveRound fuel strict)
      fun r s => r.isRight = true → s.Fuelled (b + 16) n := by
  refine Leads.kind_bind fun k => ?_
  cases k with
  | string value =>
    refine (takesString_statement strict).bind fun st => ?_
    split
    · next hdirective => exact .pure fun s hs _ => hs hdirective
    · exact .pure fun _ _ hr => Bool.noConfusion hr
  | _ => exact .pure fun _ _ hr => Bool.noConfusion hr

theorem leads_declaratorRound (strict : Bool) :
    Leads (State.Fuelled b n) (declaratorRound fuel strict)
      fun r s => r.isRight = true → s.Fuelled (b + 16) n := by
  have hcomma (target : Identifier) (value : Option Expr) :=
    leads_comma (b := b) (n := n) (f := pure (.inr ⟨target, value⟩ : List Declarator ⊕ Declarator))
      (g := pure (.inl [⟨target, value⟩])) (goesOn_pure _) (.pure fun _ _ => rfl)
  refine goesOn_identifier.leads.bind fun target => (goesOn_checkBinding _ _).leads.bind fun _ =>
    (goesOn_accept _).leads.bind fun c => ?_
  split
  · exact ((allGoOn fuel).expression strict).map.leads.bind (hcomma target)
  · exact (goesOn_pure none).leads.bind (hcomma target)

theorem leads_paramRound :
    Leads (State.Fuelled b n) paramRound fun r s => r.isRight = true → s.Fuelled (b + 16) n :=
  goesOn_identifier.leads.bind fun _ => leads_comma (goesOn_pure _) (.pure fun _ _ => rfl)

theorem leads_argumentRound (strict : Bool) :
    Leads (State.Fuelled b n) (argumentRound fuel strict)
      fun r s => r.isRight = true → s.Fuelled (b + 16) n :=
  ((allGoOn fuel).expression strict).leads.bind fun _ =>
    leads_comma (goesOn_pure _) (.pure fun _ _ => rfl)

theorem leads_operatorRound (strict : Bool) (least : Nat) (left : Expr) :
    Leads (State.Fuelled b n) (operatorRound fuel strict least left)
      fun r s => r.isRight = true → s.Fuelled (b + 16) n := by
  refine Leads.kind_bind fun k => ?_
  cases hop : binaryOp? k with
  | none => exact .pure fun _ _ hr => Bool.noConfusion hr
  | some o =>
    have hk : k ≠ .endOfFile := by
      rintro rfl
      cases hop
    dsimp only
    split
    · exact .pure fun _ _ hr => Bool.noConfusion hr
    · exact (leads_advance hk).bind fun _ =>
        ((allGoOn fuel).binary strict _).leads.bind fun _ => .pure fun _ hs _ => hs

theorem leads_callRound (strict : Bool) (start : Nat) (callee : Expr) :
    Leads (State.Fuelled b n) (callRound fuel strict start callee)
      fun r s => r.isRight = true → s.Fuelled (b + 16) n := by
  refine (leads_accept (by simp)).bind fun c => ?_
  cases c with
  | false => exact .pure fun _ _ hr => Bool.noConfusion hr
  | true =>
    have hargs : GoesOn (do
        let args ← if (← kind) = .punctuator .closeParen then pure [] else arguments fuel strict
        let stop := (← span).stop
        let _ ← expect .closeParen
        return (.inr (.call callee args ⟨start, stop⟩) : Expr ⊕ Expr)) := by
      have := (allGoOn fuel).arguments strict
      grind
    exact fun s hs _ => (hargs s).fuelled hs

theorem roundsTake {tokens : List Token}
    (h : ∃ last, tokens.getLast? = some last ∧ last.kind = .endOfFile) (fuel : Nat) :
    RoundsTake tokens fuel where
  statements ends strict hends :=
    .of_leads h (statements_succ ends strict) fun _ => leads_statementRound ends strict hends
  directives strict := .of_leads h (directives_succ strict) fun _ => leads_directiveRound strict
  declarators strict := .of_leads h (declarators_succ strict) fun _ => leads_declaratorRound strict
  params := .of_leads h params_succ fun _ => leads_paramRound
  arguments strict := .of_leads h (arguments_succ strict) fun _ => leads_argumentRound strict
  operators strict least left :=
    .of_leads h (binaryRest_succ strict least left) fun _ => leads_operatorRound strict least left
  calls strict start callee :=
    .of_leads h (callRest_succ strict start callee) fun _ => leads_callRound strict start callee

end Loops

end ScopeChain.Parser
