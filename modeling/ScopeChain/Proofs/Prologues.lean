import ScopeChain.Proofs.Rounds

/-! Directive prologues. A directive is a string that is a statement by itself, told from other
strings by the token behind it. -/
namespace ScopeChain.Parser

open Token (Kind)

/-- Whether a string before such a token is part of a longer expression. -/
def continues (k : Kind) : Bool :=
  k = .punctuator .openParen || (binaryOp? k).isSome || k = .punctuator .assign

/-- The directives at the head of a body that begins with some tokens. -/
def prologue : List Token → List String
  | ⟨.string v, _, _⟩ :: t :: ts =>
    if continues t.kind then []
    else if t.kind = .punctuator .semicolon then v :: prologue ts
    else v :: prologue (t :: ts)
  | _ => []

theorem prologue_of_string {tok u : Token} {us : List Token} {v : String}
    (h : tok.kind = .string v) : prologue (tok :: u :: us) =
      if continues u.kind then []
      else v :: prologue (if u.kind = .punctuator .semicolon then us else u :: us) := by
  obtain ⟨k, at_, b⟩ := tok
  subst h
  rw [prologue]
  split
  · rfl
  · split <;> rfl

theorem prologue_of_ne {tok : Token} {ts : List Token} (h : ∀ v, tok.kind ≠ .string v) :
    prologue (tok :: ts) = [] := by
  unfold prologue
  split
  · next heq =>
    obtain ⟨rfl, -⟩ := List.cons.inj heq
    exact (h _ rfl).elim
  · rfl

section Runs

variable {s : State} {fuel : Nat} {strict : Bool}

theorem accept_of_eq {k : Kind} (h : s.token.kind = k) :
    accept k s = (true, (advance s).2) := by
  have hrun : accept k s = (if s.token.kind = k then do advance; return true
    else return false : ParseM Bool) s := rfl
  rw [hrun, if_pos h]
  rfl

theorem accept_of_ne {k : Kind} (h : s.token.kind ≠ k) : accept k s = (false, s) := by
  have hrun : accept k s = (if s.token.kind = k then do advance; return true
    else return false : ParseM Bool) s := rfl
  rw [hrun, if_neg h]
  rfl

theorem run_bind {α β : Type} (f : ParseM α) (g : α → ParseM β) (s : State) :
    (f >>= g) s = g (f s).1 (f s).2 := rfl

/-- A callee that is not called stays. -/
theorem callRest_of_ne {start : Nat} {e : Expr} (h : s.token.kind ≠ .punctuator .openParen) :
    callRest fuel strict start e s = (e, s) := by
  cases fuel with
  | zero => rfl
  | succ fuel =>
    rw [callRest, run_bind, accept_of_ne h]
    rfl

/-- What is called is no string. -/
theorem callRest_ne_string {start : Nat} {e : Expr} (h : s.token.kind = .punctuator .openParen)
    (v : String) : (callRest (fuel + 1) strict start e s).1 ≠ .string v := by
  have hread (args : List Expr) : Answers (do
      let stop := (← span).stop
      let _ ← expect .closeParen
      callRest fuel strict start (.call e args ⟨start, stop⟩)) (· ≠ .string v) :=
    .bind fun _ => .bind fun _ s heq =>
      Expr.noConfusion (answers_callRest fuel strict start _ s v heq)
  rw [callRest, run_bind, accept_of_eq h]
  dsimp only
  rw [if_pos rfl, run_kind_bind]
  split
  · exact hread [] _
  · exact hread _ _

/-- An operand that no operator follows stays. -/
theorem binaryRest_of_none {least : Nat} {e : Expr} (h : binaryOp? s.token.kind = none) :
    binaryRest fuel strict least e s = (e, s) := by
  cases fuel with
  | zero => rfl
  | succ fuel =>
    rw [binaryRest, run_kind_bind, h]
    rfl

theorem binaryRest_ne_string {e : Expr} (h : (binaryOp? s.token.kind).isSome) (v : String) :
    (binaryRest (fuel + 1) strict 0 e s).1 ≠ .string v := by
  obtain ⟨⟨op, strength⟩, hop⟩ := Option.isSome_iff_exists.1 h
  rw [binaryRest, run_kind_bind, hop]
  dsimp only
  rw [if_neg (Nat.not_lt_zero _)]
  exact fun heq => Expr.noConfusion (answers_binaryRest fuel strict 0 _ _ v heq)

/-- A reader takes a string for all that it reads, unless a token follows at which it goes on. -/
def TakesWhole (goesOnAt : Kind → Bool) (f : ParseM Expr) : Prop :=
  ∀ s v u us, s.token.kind = .string v → s.rest = u :: us → (f s).2.problems = [] →
    (goesOnAt u.kind = true → ∀ w, (f s).1 ≠ .string w) ∧
    (goesOnAt u.kind = false → (f s).1 = .string v ∧ (f s).2.tokens = u :: us)

theorem Onward.clean {s s' : State} (h : Onward s s') (hs : s'.problems = []) :
    s.problems = [] := by
  obtain ⟨new, hnew, -⟩ := h.problems
  exact (List.append_eq_nil_iff.1 (hnew.symm.trans hs)).2

theorem TakesWhole.nested {goesOnAt : Kind → Bool} {m : Message} {a : Expr} {f : ParseM Expr}
    (h : TakesWhole goesOnAt f) : TakesWhole goesOnAt (nested m a f) := by
  intro s v u us hv hrest hclean
  rw [nested_run] at hclean ⊢
  split at hclean
  · exact (List.cons_ne_nil _ _ hclean).elim
  · next hdepth =>
    rw [if_neg hdepth]
    exact h { s with depth := s.depth + 1 } v u us hv hrest hclean

theorem takesWhole_unary (fuel : Nat) (strict : Bool) :
    TakesWhole (· = .punctuator .openParen) (unary (fuel + 2) strict) := by
  rw [Parser.unary]
  refine TakesWhole.nested fun s v u us hv hrest _ => ?_
  have hrun : primary (fuel + 1) strict s = (.string v, (advance s).2) := by
    rw [Parser.primary, run_span_bind, run_kind_bind, hv]
    rfl
  rw [run_span_bind, run_kind_bind, hv]
  dsimp only [unaryOp?]
  rw [run_bind, hrun, advance_of_cons hrest]
  refine ⟨fun hparen => callRest_ne_string (of_decide_eq_true hparen), fun hparen => ?_⟩
  rw [callRest_of_ne (of_decide_eq_false hparen)]
  exact ⟨rfl, rfl⟩

theorem takesWhole_binary (fuel : Nat) (strict : Bool) :
    TakesWhole (fun k => k = .punctuator .openParen || (binaryOp? k).isSome)
      (binary (fuel + 3) strict 0) := by
  intro s v u us hv hrest hclean
  rw [binary, run_bind] at hclean ⊢
  obtain ⟨hpart, hwhole⟩ := takesWhole_unary fuel strict s v u us hv hrest
    (((allGoOn (fuel + 2)).binaryRest strict 0 _ _).clean hclean)
  refine ⟨fun hon w heq => ?_, fun hoff => ?_⟩
  · cases hparen : decide (u.kind = .punctuator .openParen) with
    | true => exact hpart hparen w (answers_binaryRest _ strict 0 _ _ w heq)
    | false =>
      have hop := (Bool.or_eq_true_iff.1 hon).resolve_left (by simp [hparen])
      obtain ⟨htoken, -⟩ := List.cons.inj (hwhole hparen).2
      exact binaryRest_ne_string (by rwa [htoken]) w heq
  · obtain ⟨hparen, hop⟩ := Bool.or_eq_false_iff.1 hoff
    have hunary := hwhole hparen
    obtain ⟨htoken, -⟩ := List.cons.inj hunary.2
    rw [← htoken, Option.isSome_eq_false_iff, Option.isNone_iff_eq_none] at hop
    rw [binaryRest_of_none hop]
    exact hunary

theorem takesWhole_expression (fuel : Nat) (strict : Bool) :
    TakesWhole continues (expression (fuel + 4) strict) := by
  rw [Parser.expression]
  refine TakesWhole.nested fun s v u us hv hrest hclean => ?_
  have hgo (left : Expr) : GoesOn (do
      if ← accept (.punctuator .assign) then assignment (fuel + 3) strict s.token.span left
      else return left) := by
    have := goesOn_assignment (fuel + 3) strict s.token.span left
    grind
  rw [run_span_bind, run_bind] at hclean ⊢
  obtain ⟨hpart, hwhole⟩ :=
    takesWhole_binary fuel strict s v u us hv hrest ((hgo _ _).clean hclean)
  generalize binary (fuel + 3) strict 0 s = r at hpart hwhole hclean ⊢
  by_cases hassign : r.2.token.kind = .punctuator .assign
  · -- Only a name is assigned, and an assignment is no string.
    rw [run_bind, accept_of_eq hassign] at hclean ⊢
    dsimp only at hclean ⊢
    rw [if_pos rfl, run_bind] at hclean ⊢
    refine ⟨fun _ w heq => ?_, fun hoff => ?_⟩
    · cases htarget : r.1.identifier? with
      | some target =>
        rw [htarget] at heq
        cases heq
      | none =>
        rw [htarget] at hclean
        exact List.cons_ne_nil _ _ hclean
    · obtain ⟨hoff, hne⟩ := Bool.or_eq_false_iff.1 hoff
      obtain ⟨htoken, -⟩ := List.cons.inj (hwhole hoff).2
      exact (of_decide_eq_false hne (htoken ▸ hassign)).elim
  · rw [run_bind, accept_of_ne hassign] at hclean ⊢
    refine ⟨fun hon => ?_, fun hoff => hwhole (Bool.or_eq_false_iff.1 hoff).1⟩
    rcases Bool.or_eq_true_iff.1 hon with hon | heq
    · exact hpart hon
    · cases hparen : decide (u.kind = .punctuator .openParen) || (binaryOp? u.kind).isSome with
      | true => exact hpart hparen
      | false =>
        obtain ⟨htoken, -⟩ := List.cons.inj (hwhole hparen).2
        exact (hassign (htoken ▸ of_decide_eq_true heq)).elim

/-- What is left behind a statement that ends before some tokens. -/
def afterEnd (u : Token) (us : List Token) : List Token :=
  if u.kind = .punctuator .semicolon then us else u :: us

theorem tokens_endStatement {b : Nat} (hs : s.Fuelled b fuel) :
    (endStatement s).2.tokens = afterEnd s.token s.rest := by
  unfold endStatement afterEnd
  split
  · next hsemi =>
    obtain ⟨t, ts, hrest⟩ := List.exists_cons_of_ne_nil (hs.rest_ne_nil (by simp [hsemi]))
    rw [run_bind, accept_of_eq hsemi, advance_of_cons hrest, hrest]
    rfl
  · next hsemi =>
    rw [run_bind, accept_of_ne hsemi]
    dsimp only
    rw [if_neg Bool.false_ne_true, run_bind]
    split <;> rfl

/-- A string that nothing continues is a statement, and any other one is only a part of one. -/
theorem statement_string {b : Nat} {v : String} {u : Token} {us : List Token}
    (hs : s.Fuelled b (fuel + 5)) (hv : s.token.kind = .string v) (hrest : s.rest = u :: us)
    (hclean : (statement (fuel + 5) strict s).2.problems = []) :
    (continues u.kind = true → isDirective (statement (fuel + 5) strict s).1 = false) ∧
    (continues u.kind = false → (statement (fuel + 5) strict s).1 = .expr (.string v) ∧
      (statement (fuel + 5) strict s).2.tokens = afterEnd u us) := by
  rw [Parser.statement, nested_run] at hclean ⊢
  split at hclean
  · exact (List.cons_ne_nil _ _ hclean).elim
  next hdepth =>
  rw [if_neg hdepth]
  dsimp only at hclean ⊢
  rw [run_kind_bind] at hclean ⊢
  dsimp only at hclean ⊢
  rw [hv] at hclean ⊢
  have hgo := goesOn_endStatement (expression (fuel + 4) strict { s with depth := s.depth + 1 }).2
  obtain ⟨hpart, hwhole⟩ := takesWhole_expression fuel strict { s with depth := s.depth + 1 } v u us
    hv hrest (hgo.clean hclean)
  refine ⟨fun hon => ?_, fun hoff => ?_⟩
  · have hne := hpart hon
    change isDirective (.expr (expression (fuel + 4) strict _).1) = false
    unfold isDirective
    split
    · next heq => exact (hne _ (Stmt.expr.inj heq)).elim
    · rfl
  · obtain ⟨he, htokens⟩ := hwhole hoff
    have hfuelled := ((allGoOn (fuel + 4)).expression strict
      { s with depth := s.depth + 1 }).fuelled (hs.deep _ _)
    obtain ⟨htoken, hrest⟩ := List.cons.inj htokens
    refine ⟨congrArg Stmt.expr he, ?_⟩
    rw [← htoken, ← hrest]
    exact tokens_endStatement hfuelled

/-- A body is strict where its code is, or by one of the directives that it begins with. -/
theorem strict_directives (hs : s.Fuelled 6 fuel)
    (hclean : (directives fuel strict s).2.problems = []) :
    (directives fuel strict s).1.2 = (strict || decide ("use strict" ∈ prologue s.tokens)) := by
  induction fuel generalizing s strict with
  | zero => exact hs.not_zero.elim
  | succ fuel ih =>
    cases hv : s.token.kind with
    | string v =>
      have hs' := State.Fuelled.succ_iff.1 hs
      have hspare := hs'.spare
      obtain ⟨n, rfl⟩ : ∃ n, fuel = n + 5 := ⟨fuel - 5, by omega⟩
      obtain ⟨u, us, hrest⟩ := List.exists_cons_of_ne_nil (hs.rest_ne_nil (by simp [hv]))
      have hgo (strict : Bool) := (allGoOn (n + 5)).directives strict
      rw [directives, run_kind_bind, hv] at hclean ⊢
      dsimp only at hclean ⊢
      rw [run_bind] at hclean ⊢
      have hgoes := (allGoOn (n + 5)).statement strict s
      have hstatement := @statement_string s n strict _ v u us hs' hv hrest
      generalize statement (n + 5) strict s = r at hclean hgoes hstatement ⊢
      have hread : r.2.problems = [] := by
        split at hclean
        · exact (hgo _ _).clean hclean
        · exact hclean
      rw [State.tokens, hrest, prologue_of_string hv]
      cases hon : continues u.kind with
      | true =>
        rw [if_neg (by simp [(hstatement hread).1 hon]), if_pos rfl]
        simp only [List.not_mem_nil, decide_false, Bool.or_false]
        rfl
      | false =>
        obtain ⟨hst, htokens⟩ := (hstatement hread).2 hon
        rw [if_pos (by rw [hst]; rfl)] at hclean ⊢
        have hlt : r.2.tokens.length < s.tokens.length := by
          rw [htokens, afterEnd, State.tokens, hrest]
          split
          · exact Nat.lt_succ_of_lt (Nat.lt_succ_self _)
          · exact Nat.lt_succ_self _
        have hleft : r.2.Fuelled 6 (n + 5) := ⟨(hgoes.fuelled hs).ends, by omega⟩
        refine (ih hleft hclean).trans ?_
        rw [htokens, if_neg Bool.false_ne_true, Bool.or_assoc, ← Bool.decide_or]
        refine congrArg (strict || ·) (decide_eq_decide.2 ?_)
        rw [List.mem_cons, eq_comm, afterEnd]
    | _ =>
      rw [State.tokens, prologue_of_ne (by simp [hv]), directives, run_kind_bind, hv]
      simp only [List.not_mem_nil, decide_false, Bool.or_false]
      rfl

end Runs

end ScopeChain.Parser
