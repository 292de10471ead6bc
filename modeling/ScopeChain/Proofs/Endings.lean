import ScopeChain.Proofs.Rounds

/-! Reading comes to an end. Each round of a loop takes a token, so the fuel for a text is more than
its program takes, and it is read up to the end of the file. -/
namespace ScopeChain.Parser

open Token (Kind)

variable {α β ρ : Type}

/-- With enough fuel a reader does what it does with one unit more. -/
structure AllSame (fuel : Nat) : Prop where
  statement : ∀ {b} strict, 5 ≤ b →
    Same (State.Fuelled b fuel) (statement fuel strict) (statement (fuel + 1) strict)
  condition : ∀ {b} strict, 5 ≤ b →
    Same (State.Fuelled b fuel) (condition fuel strict) (condition (fuel + 1) strict)
  declarators : ∀ {b} strict, 5 ≤ b →
    Same (State.Fuelled b fuel) (declarators fuel strict) (declarators (fuel + 1) strict)
  statements : ∀ {b} ends strict, ends .endOfFile = true → 6 ≤ b →
    Same (State.Fuelled b fuel) (statements fuel ends strict) (statements (fuel + 1) ends strict)
  block : ∀ {b} strict, 1 ≤ b →
    Same (State.Fuelled b fuel) (block fuel strict) (block (fuel + 1) strict)
  catchRest : ∀ {b} strict, 2 ≤ b →
    Same (State.Fuelled b fuel) (catchRest fuel strict) (catchRest (fuel + 1) strict)
  directives : ∀ {b} strict, 6 ≤ b →
    Same (State.Fuelled b fuel) (directives fuel strict) (directives (fuel + 1) strict)
  functionRest : ∀ {b} strict declaration, 1 ≤ b →
    Same (State.Fuelled b fuel) (functionRest fuel strict declaration)
      (functionRest (fuel + 1) strict declaration)
  expression : ∀ {b} strict, 4 ≤ b →
    Same (State.Fuelled b fuel) (expression fuel strict) (expression (fuel + 1) strict)
  binary : ∀ {b} strict least, 3 ≤ b →
    Same (State.Fuelled b fuel) (binary fuel strict least) (binary (fuel + 1) strict least)
  binaryRest : ∀ {b} strict least left, 1 ≤ b →
    Same (State.Fuelled b fuel) (binaryRest fuel strict least left)
      (binaryRest (fuel + 1) strict least left)
  unary : ∀ {b} strict, 2 ≤ b →
    Same (State.Fuelled b fuel) (unary fuel strict) (unary (fuel + 1) strict)
  callRest : ∀ {b} strict start callee, 1 ≤ b →
    Same (State.Fuelled b fuel) (callRest fuel strict start callee)
      (callRest (fuel + 1) strict start callee)
  arguments : ∀ {b} strict, 5 ≤ b →
    Same (State.Fuelled b fuel) (arguments fuel strict) (arguments (fuel + 1) strict)
  primary : ∀ {b} strict, 1 ≤ b →
    Same (State.Fuelled b fuel) (primary fuel strict) (primary (fuel + 1) strict)

section Fuel

variable {b fuel : Nat}

theorem allSame_zero : AllSame 0 := by
  constructor <;> intros <;> exact fun _ hs => hs.not_zero.elim

/-- A loop does the same if each of its rounds does. -/
theorem Same.round {P : State → Prop} {f g : ParseM (α ⊕ ρ)} {f' g' : ρ → ParseM α}
    (h : Same P f g)
    (hl : Leads P f fun r s => r.isRight = true → s.Fuelled (b + 16) fuel)
    (h' : ∀ r, Same (State.Fuelled (b + 16) fuel) (f' r) (g' r)) :
    Same P (f >>= Sum.elim pure f') (g >>= Sum.elim pure g') := by
  refine h.bind hl fun r => ?_
  cases r with
  | inl a => exact .refl _
  | inr r => exact (h' r).of_pre fun s hs => hs rfl

theorem same_statements (ih : AllSame fuel) (ends : Kind → Bool) (strict : Bool)
    (hends : ends .endOfFile = true) (hb : 5 ≤ b) :
    Same (State.Fuelled b fuel) (statements (fuel + 1) ends strict)
      (statements (fuel + 2) ends strict) := by
  rw [statements_succ, statements_succ]
  refine Same.round (Same.kind_bind fun k => ?_) (leads_statementRound ends strict hends)
    fun st => Same.map (ih.statements ends strict hends (by omega))
  split
  · exact .refl _
  · refine Same.of_pre (Same.span_bind fun at_ => ?_) fun s hs => hs.1
    exact (ih.statement strict hb).past ((allGoOn fuel).statement strict) fun _ => .refl _

theorem same_directives (ih : AllSame fuel) (strict : Bool) (hb : 5 ≤ b) :
    Same (State.Fuelled b fuel) (directives (fuel + 1) strict) (directives (fuel + 2) strict) := by
  rw [directives_succ, directives_succ]
  refine Same.round (Same.kind_bind fun k => ?_) (leads_directiveRound strict)
    fun r => Same.map (ih.directives r.2 (by omega))
  cases k with
  | string value =>
    exact Same.of_pre ((ih.statement strict hb).past ((allGoOn fuel).statement strict)
      fun _ => .refl _) fun s hs => hs.1
  | _ => exact .refl _

theorem same_declarators (ih : AllSame fuel) (strict : Bool) (hb : 4 ≤ b) :
    Same (State.Fuelled b fuel) (declarators (fuel + 1) strict)
      (declarators (fuel + 2) strict) := by
  rw [declarators_succ, declarators_succ]
  refine Same.round ?_ (leads_declaratorRound strict)
    fun d => Same.map (ih.declarators strict (by omega))
  refine Same.on goesOn_identifier fun target => Same.on (goesOn_checkBinding _ _) fun _ =>
    Same.on (goesOn_accept _) fun c => ?_
  split
  · exact (ih.expression strict hb).map.past ((allGoOn fuel).expression strict).map
      fun _ => .refl _
  · exact .refl _

theorem same_params (fuel : Nat) : ∀ {b},
    Same (State.Fuelled b fuel) (params fuel) (params (fuel + 1)) := by
  induction fuel with
  | zero => exact fun _ hs => hs.not_zero.elim
  | succ fuel ih =>
    intro b
    rw [params_succ, params_succ]
    refine Same.of_pre (P := State.Fuelled b (fuel + 1))
      (Same.round (.refl _) leads_paramRound fun p => Same.map ?_) fun _ hs => hs
    exact (@ih (b + 15)).of_pre fun s hs => State.Fuelled.succ_iff.1 hs

theorem same_arguments (ih : AllSame fuel) (strict : Bool) (hb : 4 ≤ b) :
    Same (State.Fuelled b fuel) (arguments (fuel + 1) strict) (arguments (fuel + 2) strict) := by
  rw [arguments_succ, arguments_succ]
  exact Same.round ((ih.expression strict hb).past ((allGoOn fuel).expression strict)
    fun _ => .refl _) (leads_argumentRound strict) fun e =>
      Same.map (ih.arguments strict (by omega))

theorem same_binaryRest (ih : AllSame fuel) (strict : Bool) (least : Nat) (left : Expr) :
    Same (State.Fuelled b fuel) (binaryRest (fuel + 1) strict least left)
      (binaryRest (fuel + 2) strict least left) := by
  rw [binaryRest_succ, binaryRest_succ]
  refine Same.round (Same.kind_bind fun k => ?_) (leads_operatorRound strict least left)
    fun e => ih.binaryRest strict least e (by omega)
  cases hop : binaryOp? k with
  | none => exact .refl _
  | some o =>
    have hk : k ≠ .endOfFile := by
      rintro rfl
      cases hop
    dsimp only
    split
    · exact .refl _
    · exact Same.then (leads_advance hk) fun _ =>
        (ih.binary strict _ (by omega)).past ((allGoOn fuel).binary strict _) fun _ => .refl _

theorem same_callRest (ih : AllSame fuel) (strict : Bool) (start : Nat) (callee : Expr) :
    Same (State.Fuelled b fuel) (callRest (fuel + 1) strict start callee)
      (callRest (fuel + 2) strict start callee) := by
  rw [callRest_succ, callRest_succ]
  refine Same.round (Same.then (leads_accept (by simp)) fun c => ?_)
    (leads_callRound strict start callee) fun e => ih.callRest strict start e (by omega)
  cases c with
  | false => exact .refl _
  | true =>
    refine Same.of_pre (P := State.Fuelled (b + 16) fuel) (Same.on goesOn_kind fun k => ?_)
      fun s hs => hs
    split
    · exact .refl _
    · exact (ih.arguments strict (by omega)).past ((allGoOn fuel).arguments strict)
        fun _ => .refl _

theorem same_condition (ih : AllSame fuel) (strict : Bool) (hb : 4 ≤ b) :
    Same (State.Fuelled b fuel) (condition (fuel + 1) strict) (condition (fuel + 2) strict) :=
  Same.on (goesOn_expect _) fun _ =>
    (ih.expression strict hb).past ((allGoOn fuel).expression strict) fun _ => .refl _

theorem same_block (ih : AllSame fuel) (strict : Bool) :
    Same (State.Fuelled b fuel) (block (fuel + 1) strict) (block (fuel + 2) strict) := by
  refine Same.then (leads_expect _) fun c => ?_
  cases c with
  | false => exact .refl _
  | true =>
    exact (ih.statements _ strict rfl (by simp)).past ((allGoOn fuel).statements _ strict)
      fun _ => .refl _

theorem same_catchRest (ih : AllSame fuel) (strict : Bool) (hb : 1 ≤ b) :
    Same (State.Fuelled b fuel) (catchRest (fuel + 1) strict) (catchRest (fuel + 2) strict) :=
  Same.on goesOn_freshId fun _ => Same.on (goesOn_expect _) fun _ => Same.on goesOn_identifier
    fun _ => Same.on (goesOn_checkBinding _ _) fun _ => Same.on (goesOn_expect _) fun _ =>
      (ih.block strict (by omega)).past ((allGoOn fuel).block strict) fun _ => .refl _

theorem same_functionBody (ih : AllSame fuel) (outer : Bool) :
    Same (State.Fuelled b fuel)
      (do
        if ← expect .openBrace then
          let (ds, strict) ← directives fuel outer
          let ss ← statements fuel atBlockEnd strict
          let _ ← expect .closeBrace
          return (ds ++ ss, strict)
        return ([], outer))
      (do
        if ← expect .openBrace then
          let (ds, strict) ← directives (fuel + 1) outer
          let ss ← statements (fuel + 1) atBlockEnd strict
          let _ ← expect .closeBrace
          return (ds ++ ss, strict)
        return ([], outer)) := by
  refine Same.then (leads_expect _) fun c => ?_
  cases c with
  | false => exact .refl _
  | true =>
    refine (ih.directives outer (by simp)).past ((allGoOn fuel).directives outer) fun r => ?_
    exact (ih.statements _ r.2 rfl (by simp)).past ((allGoOn fuel).statements _ r.2)
      fun _ => .refl _

theorem same_functionRest (ih : AllSame fuel) (outer declaration : Bool) :
    Same (State.Fuelled b fuel) (functionRest (fuel + 1) outer declaration)
      (functionRest (fuel + 2) outer declaration) := by
  refine Same.on goesOn_span fun at_ => Same.on goesOn_freshId fun id => Same.on goesOn_kind
    fun k => ?_
  extract_lets named afterSelf afterSelf'
  have hself : ∀ self, Same (State.Fuelled b fuel) (afterSelf self) (afterSelf' self) := by
    intro self
    refine Same.on (goesOn_expect _) fun _ => Same.on goesOn_kind fun k => ?_
    extract_lets afterParams afterParams'
    have hparams : ∀ ps, Same (State.Fuelled b fuel) (afterParams ps) (afterParams' ps) := fun ps =>
      Same.on (goesOn_expect _) fun _ => (same_functionBody ih outer).inFunction.past
        (goesOn_functionBody_succ (allGoOn fuel) outer).inFunction fun _ => .refl _
    split
    · exact Same.on (goesOn_pure _) hparams
    · exact (same_params fuel).past (goesOn_params fuel) hparams
  split
  · exact Same.on goesOn_identifier.map hself
  · exact Same.on (goesOn_pure _) hself

theorem same_expression (ih : AllSame fuel) (strict : Bool) (hb : 3 ≤ b) :
    Same (State.Fuelled b fuel) (expression (fuel + 1) strict) (expression (fuel + 2) strict) := by
  rw [Parser.expression, Parser.expression]
  refine Same.nested (Same.on goesOn_span fun at_ => ?_)
  refine (ih.binary strict 0 hb).past ((allGoOn fuel).binary strict 0) fun left => ?_
  refine Same.then (leads_accept (by simp)) fun c => ?_
  cases c with
  | false => exact .refl _
  | true =>
    exact (ih.expression strict (by simp)).past ((allGoOn fuel).expression strict)
      fun _ => .refl _

theorem same_binary (ih : AllSame fuel) (strict : Bool) (least : Nat) (hb : 2 ≤ b) :
    Same (State.Fuelled b fuel) (binary (fuel + 1) strict least)
      (binary (fuel + 2) strict least) :=
  (ih.unary strict hb).past ((allGoOn fuel).unary strict) fun e =>
    ih.binaryRest strict least e (by omega)

theorem same_unary (ih : AllSame fuel) (strict : Bool) (hb : 1 ≤ b) :
    Same (State.Fuelled b fuel) (unary (fuel + 1) strict) (unary (fuel + 2) strict) := by
  rw [Parser.unary, Parser.unary]
  refine Same.nested (Same.on goesOn_span fun at_ => Same.kind_bind fun k => ?_)
  have hoperand (k : Kind) (hk : k ≠ .endOfFile) {f : Expr → ParseM Expr} :
      Same (fun s => s.Fuelled b fuel ∧ s.token.kind = k) (do advance; f (← unary fuel strict))
        (do advance; f (← unary (fuel + 1) strict)) :=
    Same.then (leads_advance hk) fun _ =>
      (ih.unary strict (by omega)).past ((allGoOn fuel).unary strict) fun _ => .refl _
  split
  · exact hoperand _ (by simp)
  · exact hoperand _ (by simp)
  · split
    · next hop =>
      refine hoperand _ ?_
      rintro rfl
      cases hop
    · exact Same.of_pre ((ih.primary strict hb).past ((allGoOn fuel).primary strict) fun e =>
        ih.callRest strict _ e (by omega)) fun s hs => hs.1

theorem same_primary (ih : AllSame fuel) (strict : Bool) :
    Same (State.Fuelled b fuel) (primary (fuel + 1) strict) (primary (fuel + 2) strict) := by
  rw [Parser.primary, Parser.primary]
  refine Same.on goesOn_span fun at_ => Same.kind_bind fun k => ?_
  split
  case h_8 =>
    exact Same.then (leads_advance (by simp)) fun _ =>
      (ih.functionRest strict false (by omega)).past ((allGoOn fuel).functionRest strict false)
        fun _ => .refl _
  case h_9 =>
    exact Same.then (leads_advance (by simp)) fun _ =>
      (ih.expression strict (by omega)).past ((allGoOn fuel).expression strict) fun _ => .refl _
  all_goals exact .refl _

theorem same_statement (ih : AllSame fuel) (strict : Bool) (hb : 4 ≤ b) :
    Same (State.Fuelled b fuel) (statement (fuel + 1) strict) (statement (fuel + 2) strict) := by
  rw [Parser.statement, Parser.statement]
  refine Same.nested (Same.kind_bind fun k => ?_)
  split
  · exact Same.then (leads_advance (by simp)) fun _ =>
      (ih.declarators strict (by omega)).past ((allGoOn fuel).declarators strict) fun _ => .refl _
  · exact Same.then (leads_advance (by simp)) fun _ =>
      (ih.functionRest strict true (by omega)).past ((allGoOn fuel).functionRest strict true)
        fun _ => .refl _
  · refine Same.of_pre (Same.on goesOn_span fun at_ => Same.on goesOn_get fun s₀ => ?_)
      fun s hs => hs.1
    extract_lets ending reading reading'
    have hreading : ∀ u, Same (State.Fuelled b fuel) (reading u) (reading' u) := by
      intro u
      refine Same.on goesOn_advance fun _ => Same.on goesOn_get fun s₁ => ?_
      extract_lets t
      split
      · exact .refl _
      · exact (ih.expression strict hb).map.past ((allGoOn fuel).expression strict).map
          fun _ => .refl _
    split
    · exact Same.on (goesOn_report rfl _) hreading
    · exact hreading ()
  · refine Same.then (leads_advance (by simp)) fun _ =>
      (ih.condition strict (by omega)).past ((allGoOn fuel).condition strict) fun _ =>
        (ih.statement strict (by omega)).past ((allGoOn fuel).statement strict) fun _ =>
          Same.on (goesOn_accept _) fun c => ?_
    split
    · exact (ih.statement strict (by omega)).past ((allGoOn fuel).statement strict)
        fun _ => .refl _
    · exact .refl _
  · exact Same.then (leads_advance (by simp)) fun _ =>
      (ih.condition strict (by omega)).past ((allGoOn fuel).condition strict) fun _ =>
        (ih.statement strict (by omega)).past ((allGoOn fuel).statement strict) fun _ => .refl _
  · exact Same.of_pre ((ih.block strict (by omega)).past ((allGoOn fuel).block strict)
      fun _ => .refl _) fun s hs => hs.1
  · refine Same.then (leads_advance (by simp)) fun _ =>
      (ih.block strict (by omega)).past ((allGoOn fuel).block strict) fun body =>
        Same.on (goesOn_accept _) fun c => ?_
    extract_lets afterHandler afterHandler'
    have hhandler : ∀ h, Same (State.Fuelled (b + 16) fuel) (afterHandler h) (afterHandler' h) := by
      intro h
      refine Same.on (goesOn_accept _) fun c => ?_
      split
      · exact (ih.block strict (by omega)).map.past ((allGoOn fuel).block strict).map
          fun _ => .refl _
      · exact .refl _
    split
    · exact (ih.catchRest strict (by omega)).map.past ((allGoOn fuel).catchRest strict).map hhandler
    · exact Same.on (goesOn_pure _) hhandler
  · exact Same.then (leads_advance (by simp)) fun _ =>
      (ih.expression strict (by omega)).past ((allGoOn fuel).expression strict) fun _ => .refl _
  · exact .refl _
  · exact .refl _
  · exact .refl _
  · exact Same.of_pre ((ih.expression strict hb).past ((allGoOn fuel).expression strict)
      fun _ => .refl _) fun s hs => hs.1

theorem allSame (fuel : Nat) : AllSame fuel := by
  induction fuel with
  | zero => exact allSame_zero
  | succ fuel ih =>
    have hpaid (b : Nat) (s : State) (hs : s.Fuelled b (fuel + 1)) (hb : 1 ≤ b) :
        s.Fuelled (b - 1) fuel := State.Fuelled.succ_iff.1 (by rwa [Nat.sub_add_cancel hb])
    constructor
    all_goals intros
    all_goals intro s hs
    · exact same_statement ih _ (by omega) s (hpaid _ s hs (by omega))
    · exact same_condition ih _ (by omega) s (hpaid _ s hs (by omega))
    · exact same_declarators ih _ (by omega) s (hpaid _ s hs (by omega))
    · exact same_statements ih _ _ ‹_› (by omega) s (hpaid _ s hs (by omega))
    · exact same_block ih _ s (hpaid _ s hs (by omega))
    · exact same_catchRest ih _ (by omega) s (hpaid _ s hs (by omega))
    · exact same_directives ih _ (by omega) s (hpaid _ s hs (by omega))
    · exact same_functionRest ih _ _ s (hpaid _ s hs (by omega))
    · exact same_expression ih _ (by omega) s (hpaid _ s hs (by omega))
    · exact same_binary ih _ _ (by omega) s (hpaid _ s hs (by omega))
    · exact same_binaryRest ih _ _ _ s (hpaid _ s hs (by omega))
    · exact same_unary ih _ (by omega) s (hpaid _ s hs (by omega))
    · exact same_callRest ih _ _ _ s (hpaid _ s hs (by omega))
    · exact same_arguments ih _ (by omega) s (hpaid _ s hs (by omega))
    · exact same_primary ih _ s (hpaid _ s hs (by omega))

theorem same_program (file : String) (strict : Bool) (hb : 6 ≤ b) :
    Same (State.Fuelled b fuel) (program fuel file strict) (program (fuel + 1) file strict) :=
  Same.on goesOn_freshId fun _ =>
    ((allSame fuel).directives strict hb).past ((allGoOn fuel).directives strict) fun r =>
      ((allSame fuel).statements _ r.2 rfl hb).past ((allGoOn fuel).statements _ r.2)
        fun _ => .refl _

/-- No fuel beyond what is enough makes a difference. -/
theorem program_of_le {file : String} {strict : Bool} {s : State} {fuel' : Nat}
    (hs : s.Fuelled 16 fuel) (h : fuel ≤ fuel') :
    program fuel' file strict s = program fuel file strict s := by
  induction h with
  | refl => rfl
  | @step fuel' h ih =>
    have hs' : s.Fuelled 16 fuel' := ⟨hs.ends, Nat.le_trans hs.spare h⟩
    rw [← ih]
    exact (same_program file strict (by omega) s hs').symm

theorem leads_last_statementRound (ends : Kind → Bool) (strict : Bool) :
    Leads (fun _ => True) (statementRound fuel ends strict)
      fun r s => r.isLeft = true → ends s.token.kind = true := by
  refine Leads.kind_bind fun k => ?_
  split
  · next hk => exact .pure fun s hs _ => hs.2 ▸ hk
  · exact fun _ _ hr => Bool.noConfusion hr

/-- Statements are read up to where they end. -/
theorem ends_statements (ends : Kind → Bool) (strict : Bool) (hends : ends .endOfFile = true) :
    Leads (State.Fuelled b fuel) (statements fuel ends strict)
      fun _ s => ends s.token.kind = true := by
  induction fuel generalizing b with
  | zero => exact fun _ hs => hs.not_zero.elim
  | succ fuel ih =>
    rw [statements_succ]
    intro s hs
    have htakes := @leads_statementRound fuel _ _ ends strict hends s hs
    have hlast : _ → ends (statementRound fuel ends strict s).2.token.kind = true :=
      leads_last_statementRound ends strict s trivial
    generalize hrun : statementRound fuel ends strict s = r at htakes hlast
    change ends ((Sum.elim pure fun st => (st :: ·) <$> statements fuel ends strict : _ → ParseM _)
      (statementRound fuel ends strict s).1
      (statementRound fuel ends strict s).2).2.token.kind = true
    rw [hrun]
    obtain ⟨r | st, s'⟩ := r
    · exact hlast rfl
    · exact ih s' ((State.Fuelled.succ_iff (b := b + 15)).1 (htakes rfl))

end Fuel

section Texts

variable {file text : String} {strict : Bool} {names : Interner}

theorem fuelled_start (text : String) (names : Interner) :
    (State.start (Lexer.read text).tokens names).Fuelled 16
      (fuelFor (Lexer.read text).tokens) := by
  refine ⟨?_, ?_⟩
  · rw [tokens_start_read]
    exact Lexer.getLast?_read text
  · rw [tokens_start_read]
    exact Nat.le_refl _

/-- Where the end of the file is next, nothing is left. -/
theorem rest_eq_nil {s : State} (h : s.tokens <:+ (Lexer.read text).tokens)
    (hk : s.token.kind = .endOfFile) : s.rest = [] := by
  obtain ⟨init, last, htokens, -, hinit⟩ := Lexer.exists_tokens_read text
  obtain ⟨front, hfront⟩ := h
  by_contra hne
  have hmem : s.token ∈ init := by
    rw [htokens, State.tokens, ← List.dropLast_append_getLast hne] at hfront
    have hinit := congrArg List.dropLast hfront
    rw [← List.cons_append, ← List.append_assoc, List.dropLast_concat, List.dropLast_concat]
      at hinit
    exact hinit ▸ List.mem_append_right _ List.mem_cons_self
  exact hinit _ hmem hk

/-- A program is read up to the end of its text, and no fuel beyond what it has would make it
another one. All that is counted on the way is counted back, and no loop goes round without taking
a token. -/
theorem program_reads_to_end (file text : String) (strict : Bool) (names : Interner) :
    let tokens := (Lexer.read text).tokens
    ∃ s, (∀ fuel, fuelFor tokens ≤ fuel →
        program fuel file strict (.start tokens names) =
          ((parse file text strict names).program, s)) ∧
      s.token.kind = .endOfFile ∧ s.rest = [] ∧ s.depth = 0 ∧ s.functionDepth = 0 ∧
      ∀ fuel, RoundsTake tokens fuel := by
  intro tokens
  have hstart := fuelled_start text names
  have hgo : Onward (.start tokens names) (reading file text strict names).2 := by
    rw [reading]
    exact goesOn_program _ file strict _
  have hend : Leads (State.Fuelled 16 (fuelFor tokens)) (program (fuelFor tokens) file strict)
      fun _ s => s.token.kind = .endOfFile :=
    goesOn_freshId.leads.bind fun _ => ((allGoOn _).directives strict).leads.bind fun r =>
      Leads.bind (ends_statements (· = .endOfFile) r.2 rfl) fun _ _ hs => of_decide_eq_true hs
  have hleft : (reading file text strict names).2.tokens <:+ tokens := by
    have htokens := hgo.tokens
    rwa [tokens_start_read] at htokens
  have hlast : (reading file text strict names).2.token.kind = .endOfFile := by
    rw [reading]
    exact hend _ hstart
  refine ⟨(reading file text strict names).2, fun fuel h => ?_, hlast, rest_eq_nil hleft hlast,
    hgo.depth, hgo.functionDepth, roundsTake (Lexer.getLast?_read text)⟩
  rw [program_parse, reading]
  exact program_of_le hstart h

end Texts

end ScopeChain.Parser
