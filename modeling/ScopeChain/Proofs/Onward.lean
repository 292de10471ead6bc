import ScopeChain.Program.Parser

/-! Reading only goes on: it drops tokens from the front, adds problems and names to those it
finds, and comes back to the depth at which it began. -/
namespace ScopeChain

namespace Interner

variable {t t' t'' : Interner} {s : String} {n : Name}

/-- The names of an interner are names of a later one, for the same texts. -/
instance : LE Interner := ⟨fun t t' => t.texts.toList <+: t'.texts.toList⟩

theorem le_refl (t : Interner) : t ≤ t := List.prefix_rfl

theorem le_trans (h : t ≤ t') (h' : t' ≤ t'') : t ≤ t'' := List.IsPrefix.trans h h'

/-- The name of a text is the place where it stands first. -/
theorem find?_eq_some : t.find? s = some n ↔
    ∃ h : n.index < t.texts.toList.length, t.texts.toList[n.index] = s ∧
      ∀ (j : Nat) (_ : j < n.index), ¬ t.texts.toList[j] = s := by
  obtain ⟨⟨l⟩⟩ := t
  obtain ⟨i⟩ := n
  rw [find?, List.idxOf?_toArray, ← List.idxOf?_eq_some_iff]
  cases l.idxOf? s <;> simp

theorem find?_of_le (h : t ≤ t') (hs : t.find? s = some n) : t'.find? s = some n := by
  rw [find?_eq_some] at hs ⊢
  obtain ⟨hn, hs, hfirst⟩ := hs
  have hsame (j : Nat) (hj : j < t.texts.toList.length) :=
    List.IsPrefix.getElem h hj
  refine ⟨Nat.lt_of_lt_of_le hn (List.IsPrefix.length_le h), (hsame _ hn).symm.trans hs, ?_⟩
  exact fun j hj hjs => hfirst j hj ((hsame j (Nat.lt_trans hj hn)).trans hjs)

theorem text_of_find? (h : t.find? s = some n) : t.text n = s := by
  obtain ⟨hn, hs, -⟩ := find?_eq_some.1 h
  rw [Array.length_toList] at hn
  rw [text, Array.getElem?_eq_getElem hn, ← Array.getElem_toList, hs]
  rfl

theorem le_intern (t : Interner) (s : String) : t ≤ (t.intern s).2 := by
  unfold intern
  split
  · exact le_refl t
  · exact ⟨[s], by simp⟩

theorem find?_intern (t : Interner) (s : String) :
    (t.intern s).2.find? s = some (t.intern s).1 := by
  unfold intern
  split
  · next h => exact h
  · next h =>
    have hnew : s ∉ t.texts.toList := by
      obtain ⟨⟨l⟩⟩ := t
      rw [find?, Option.map_eq_none_iff, List.idxOf?_toArray, List.idxOf?_eq_none_iff] at h
      exact h
    refine find?_eq_some.2 ⟨by simp [size], by simp [size], fun j hj hs => hnew ?_⟩
    have hlt : j < t.texts.toList.length := by simpa [size] using hj
    simp only [Array.toList_push, List.getElem_append_left hlt] at hs
    exact hs ▸ List.getElem_mem hlt

theorem laws : Interning find? intern text where
  le_refl := le_refl
  le_trans := le_trans
  le_intern := le_intern
  find?_intern := find?_intern
  find?_of_le := find?_of_le
  text_of_find? := text_of_find?

theorem find?_this : wellKnown.find? "this" = some .this :=
  find?_eq_some.2 ⟨by decide, by decide, by decide⟩

theorem find?_undefined : wellKnown.find? "undefined" = some .undefined :=
  find?_eq_some.2 ⟨by decide, by decide, by decide⟩

theorem find?_eval : wellKnown.find? "eval" = some .eval :=
  find?_eq_some.2 ⟨by decide, by decide, by decide⟩

theorem find?_arguments : wellKnown.find? "arguments" = some .arguments :=
  find?_eq_some.2 ⟨by decide, by decide, by decide⟩

end Interner

/-- An error that names no file yet, as all do that are found while a text is read. -/
structure Diagnostic.Fault (d : Diagnostic) : Prop where
  isError : d.isError = true
  file : d.file = some ""

theorem Diagnostic.fault_located (span : Span) {m : Message} (h : m.severity = .error)
    (args : List String) : (Diagnostic.located "" span m args).Fault :=
  ⟨decide_eq_true h, rfl⟩

namespace Parser

variable {α β : Type}

/-- The tokens that are still to be read. -/
def State.tokens (s : State) : List Token := s.token :: s.rest

/-- What reading may change. -/
structure Onward (s s' : State) : Prop where
  problems : ∃ new, s'.problems = new ++ s.problems ∧ ∀ d ∈ new, d.Fault
  names : s.names ≤ s'.names
  tokens : s'.tokens <:+ s.tokens
  depth : s'.depth = s.depth
  functionDepth : s'.functionDepth = s.functionDepth

theorem Onward.refl (s : State) : Onward s s :=
  ⟨⟨[], rfl, nofun⟩, Interner.laws.le_refl _, List.suffix_rfl, rfl, rfl⟩

theorem Onward.trans {s s' s'' : State} (h : Onward s s') (h' : Onward s' s'') :
    Onward s s'' where
  problems := by
    obtain ⟨new, hs, hnew⟩ := h.problems
    obtain ⟨new', hs', hnew'⟩ := h'.problems
    refine ⟨new' ++ new, by rw [hs', hs, List.append_assoc], fun d hd => ?_⟩
    exact (List.mem_append.1 hd).elim (hnew' d) (hnew d)
  names := Interner.laws.le_trans h.names h'.names
  tokens := h'.tokens.trans h.tokens
  depth := h'.depth.trans h.depth
  functionDepth := h'.functionDepth.trans h.functionDepth

def GoesOn (f : ParseM α) : Prop := ∀ s, Onward s (f s).2

section Rules

variable {f : ParseM α} {g : α → ParseM β}

@[grind ←]
theorem goesOn_pure (a : α) : GoesOn (pure a : ParseM α) := Onward.refl

@[grind ←]
theorem GoesOn.bind (hf : GoesOn f) (hg : ∀ a, GoesOn (g a)) : GoesOn (f >>= g) :=
  fun s => (hf s).trans (hg _ _)

@[grind ←]
theorem GoesOn.map {h : α → β} (hf : GoesOn f) : GoesOn (h <$> f) := hf

theorem goesOn_ite {p : Prop} [Decidable p] {f g : ParseM α} (hf : GoesOn f) (hg : GoesOn g) :
    GoesOn (if p then f else g) := by
  split
  · exact hf
  · exact hg

@[grind ←]
theorem goesOn_get : GoesOn (get : ParseM State) := Onward.refl

@[grind ←]
theorem goesOn_kind : GoesOn kind := goesOn_get.bind fun _ => goesOn_pure _

@[grind ←]
theorem goesOn_span : GoesOn span := goesOn_get.bind fun _ => goesOn_pure _

theorem advance_of_nil {s : State} (h : s.rest = []) : (advance s).2 = s := by
  cases s
  cases h
  rfl

theorem advance_of_cons {s : State} {u : Token} {us : List Token} (h : s.rest = u :: us) :
    (advance s).2 = { s with token := u, rest := us } := by
  cases s
  cases h
  rfl

@[grind ←]
theorem goesOn_advance : GoesOn advance := fun s => by
  cases h : s.rest with
  | nil =>
    rw [advance_of_nil h]
    exact .refl s
  | cons t ts =>
    rw [advance_of_cons h]
    refine ⟨⟨[], rfl, nofun⟩, Interner.laws.le_refl _, ⟨[s.token], ?_⟩, rfl, rfl⟩
    simp only [State.tokens, h, List.singleton_append]

@[grind ←]
theorem goesOn_reportAt (at_ : Span) {m : Message} (h : m.severity = .error)
    (args : List String) : GoesOn (reportAt at_ m args) := fun s => by
  refine ⟨⟨[_], rfl, fun d hd => ?_⟩, Interner.laws.le_refl _, List.suffix_rfl, rfl, rfl⟩
  rw [List.mem_singleton.1 hd]
  exact Diagnostic.fault_located at_ h args

@[grind ←]
theorem goesOn_report {m : Message} (h : m.severity = .error) (args : List String) :
    GoesOn (report m args) := goesOn_span.bind fun _ => goesOn_reportAt _ h args

@[grind ←]
theorem goesOn_freshId : GoesOn freshId :=
  fun _ => ⟨⟨[], rfl, nofun⟩, Interner.laws.le_refl _, List.suffix_rfl, rfl, rfl⟩

@[grind ←]
theorem goesOn_intern (text : String) : GoesOn (intern text) :=
  fun s => ⟨⟨[], rfl, nofun⟩, Interner.laws.le_intern s.names text, List.suffix_rfl, rfl, rfl⟩

@[grind ←]
theorem goesOn_accept (k : Token.Kind) : GoesOn (accept k) := by grind [accept]

@[grind ←]
theorem goesOn_expect (p : Punctuator) : GoesOn (expect p) := by
  grind [expect, Message.tokenExpected]

@[grind ←]
theorem goesOn_endStatement : GoesOn endStatement := by
  grind [endStatement, Message.tokenExpected]

@[grind ←]
theorem goesOn_identifier : GoesOn identifier := by
  refine goesOn_span.bind fun at_ => goesOn_kind.bind fun k => ?_
  split <;> grind [Message.identifierExpected]

@[grind ←]
theorem goesOn_checkBinding (strict : Bool) (i : Identifier) : GoesOn (checkBinding strict i) := by
  grind [checkBinding, Message.strictName]

@[grind ←]
theorem goesOn_checkParams (strict : Bool) (earlier : List Name) (ps : List Identifier) :
    GoesOn (checkParams strict earlier ps) := by
  induction ps generalizing earlier with
  | nil => exact goesOn_pure _
  | cons p ps ih => grind [checkParams, Message.duplicateParameter]

@[grind ←]
theorem goesOn_spanFrom (start : Nat) : GoesOn (spanFrom start) := by grind [spanFrom]

/-- A level is left again. -/
@[grind ←]
theorem GoesOn.nested {m : Message} (h : m.severity = .error) {a : α} (hf : GoesOn f) :
    GoesOn (nested m a f) := by
  refine goesOn_get.bind fun s => goesOn_ite ?_ fun s => ?_
  · exact (goesOn_report h []).bind fun _ => goesOn_pure _
  · have hgo := hf { s with depth := s.depth + 1 }
    exact ⟨hgo.problems, hgo.names, hgo.tokens, congrArg (· - 1) hgo.depth, hgo.functionDepth⟩

@[grind ←]
theorem GoesOn.inFunction (hf : GoesOn f) : GoesOn (inFunction f) := fun s => by
  have hgo := hf { s with functionDepth := s.functionDepth + 1 }
  exact ⟨hgo.problems, hgo.names, hgo.tokens, hgo.depth, congrArg (· - 1) hgo.functionDepth⟩

@[grind ←]
theorem goesOn_params (fuel : Nat) : GoesOn (params fuel) := by
  induction fuel with
  | zero => exact goesOn_pure _
  | succ fuel ih => grind [params]

end Rules

/-- Every reader goes on. -/
structure AllGoOn (fuel : Nat) : Prop where
  statement : ∀ strict, GoesOn (statement fuel strict)
  condition : ∀ strict, GoesOn (condition fuel strict)
  declarators : ∀ strict, GoesOn (declarators fuel strict)
  statements : ∀ ends strict, GoesOn (statements fuel ends strict)
  block : ∀ strict, GoesOn (block fuel strict)
  catchRest : ∀ strict, GoesOn (catchRest fuel strict)
  directives : ∀ strict, GoesOn (directives fuel strict)
  functionRest : ∀ strict declaration, GoesOn (functionRest fuel strict declaration)
  expression : ∀ strict, GoesOn (expression fuel strict)
  binary : ∀ strict least, GoesOn (binary fuel strict least)
  binaryRest : ∀ strict least left, GoesOn (binaryRest fuel strict least left)
  unary : ∀ strict, GoesOn (unary fuel strict)
  callRest : ∀ strict start callee, GoesOn (callRest fuel strict start callee)
  arguments : ∀ strict, GoesOn (arguments fuel strict)
  primary : ∀ strict, GoesOn (primary fuel strict)

section Readers

variable {fuel : Nat}

theorem goesOn_statement_succ (ih : AllGoOn fuel) (strict : Bool) :
    GoesOn (statement (fuel + 1) strict) := by
  have := ih.declarators
  have := ih.functionRest
  have := ih.expression
  have := ih.condition
  have := ih.statement
  have := ih.block
  have := ih.catchRest
  rw [Parser.statement]
  refine GoesOn.nested rfl (goesOn_kind.bind fun k => ?_)
  split <;> grind [Message.returnOutsideFunction, Message.catchOrFinallyExpected,
    Message.statementExpected]

theorem goesOn_statements_succ (ih : AllGoOn fuel) (ends : Token.Kind → Bool) (strict : Bool) :
    GoesOn (statements (fuel + 1) ends strict) := by
  have := ih.statement
  have := ih.statements
  refine goesOn_kind.bind fun k => goesOn_ite (goesOn_pure _) fun s => ?_
  refine goesOn_span.bind (fun at_ => ?_) s
  exact (ih.statement strict).bind fun st => by grind

theorem goesOn_functionBody_succ (ih : AllGoOn fuel) (outer : Bool) :
    GoesOn (do
      if ← expect .openBrace then
        let (ds, strict) ← directives fuel outer
        let ss ← statements fuel atBlockEnd strict
        let _ ← expect .closeBrace
        return (ds ++ ss, strict)
      return ([], outer)) := by
  have := ih.directives
  have := ih.statements
  grind

theorem goesOn_functionRest_succ (ih : AllGoOn fuel) (outer declaration : Bool) :
    GoesOn (functionRest (fuel + 1) outer declaration) := by
  have := goesOn_functionBody_succ ih outer
  refine goesOn_span.bind fun at_ => goesOn_freshId.bind fun id => goesOn_kind.bind fun k => ?_
  extract_lets named afterSelf
  have hself : ∀ self, GoesOn (afterSelf self) := by
    intro self
    refine (goesOn_expect _).bind fun _ => goesOn_kind.bind fun k => ?_
    extract_lets afterParams
    have hparams : ∀ ps, GoesOn (afterParams ps) := fun ps =>
      (goesOn_expect _).bind fun _ => this.inFunction.bind fun r => by cases self <;> grind
    exact goesOn_ite ((goesOn_pure _).bind hparams) ((goesOn_params fuel).bind hparams)
  exact goesOn_ite (goesOn_identifier.map.bind hself) ((goesOn_pure _).bind hself)

theorem goesOn_expression_succ (ih : AllGoOn fuel) (strict : Bool) :
    GoesOn (expression (fuel + 1) strict) := by
  rw [Parser.expression]
  refine GoesOn.nested rfl (goesOn_span.bind fun at_ => (ih.binary strict 0).bind fun left => ?_)
  refine (goesOn_accept _).bind fun assigned => goesOn_ite ?_ (goesOn_pure _)
  exact (ih.expression strict).bind fun value => by grind [Message.assignmentTarget]

theorem goesOn_unary_succ (ih : AllGoOn fuel) (strict : Bool) : GoesOn (unary (fuel + 1) strict) := by
  have := ih.unary
  have := ih.primary
  have := ih.callRest
  rw [Parser.unary]
  refine GoesOn.nested rfl (goesOn_span.bind fun at_ => goesOn_kind.bind fun k => ?_)
  split
  · grind
  · exact goesOn_advance.bind fun _ => (ih.unary strict).bind fun e => by
      grind [Message.strictDelete]
  · grind

theorem goesOn_primary_succ (ih : AllGoOn fuel) (strict : Bool) :
    GoesOn (primary (fuel + 1) strict) := by
  have := ih.expression
  have := ih.functionRest
  rw [Parser.primary]
  grind [Message.expressionExpected]

theorem allGoOn (fuel : Nat) : AllGoOn fuel := by
  induction fuel with
  | zero =>
    constructor <;> intros <;> grind [statement, condition, declarators, statements, block,
      catchRest, directives, functionRest, expression, binary, binaryRest, unary, callRest,
      arguments, primary]
  | succ fuel ih =>
    exact {
      statement := goesOn_statement_succ ih
      condition := fun strict => by grind [condition, AllGoOn]
      declarators := fun strict => by grind [declarators, AllGoOn]
      statements := goesOn_statements_succ ih
      block := fun strict => by grind [block, AllGoOn]
      catchRest := fun strict => by grind [catchRest, AllGoOn]
      directives := fun strict => by grind [directives, AllGoOn]
      functionRest := goesOn_functionRest_succ ih
      expression := goesOn_expression_succ ih
      binary := fun strict least => by grind [binary, AllGoOn]
      binaryRest := fun strict least left => by grind [binaryRest, AllGoOn]
      unary := goesOn_unary_succ ih
      callRest := fun strict start callee => by grind [callRest, AllGoOn]
      arguments := fun strict => by grind [arguments, AllGoOn]
      primary := goesOn_primary_succ ih }

end Readers

end Parser

end ScopeChain
