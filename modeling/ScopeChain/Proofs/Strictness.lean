import ScopeChain.Proofs.Endings
import ScopeChain.Proofs.Features
import ScopeChain.Proofs.Prologues
import ScopeChain.Proofs.Tiling

/-! Which functions of a program are strict, and what strict code contains. -/
namespace ScopeChain

open Token (Kind)

namespace Parser

variable {α β : Type}

/-- The tokens behind the first brace that opens. -/
def behindBrace (tokens : List Token) : List Token :=
  (tokens.dropWhile (·.kind ≠ .punctuator .openBrace)).tail

/-- The tokens from the body of a function on, whose place begins behind its keyword. -/
def bodyTokens (tokens : List Token) (f : FunctionDef) : List Token :=
  behindBrace (tokens.dropWhile (·.span.start < f.span.start))

/-- A reader reads no brace that opens. -/
def Skips (f : ParseM α) : Prop := ∀ s, behindBrace (f s).2.tokens = behindBrace s.tokens

section Heads

variable {f : ParseM α} {g : α → ParseM β} {k : Kind}

theorem Skips.bind (hf : Skips f) (hg : ∀ a, Skips (g a)) : Skips (f >>= g) :=
  fun s => (hg _ _).trans (hf s)

theorem Skips.map {h : α → β} (hf : Skips f) : Skips (h <$> f) := hf

theorem skips_of_same (h : ∀ s, (f s).2.tokens = s.tokens) : Skips f :=
  fun s => congrArg behindBrace (h s)

theorem skips_pure (a : α) : Skips (pure a : ParseM α) := fun _ => rfl

theorem behindBrace_advance {s : State} (h : s.token.kind ≠ .punctuator .openBrace) :
    behindBrace (advance s).2.tokens = behindBrace s.tokens := by
  cases hrest : s.rest with
  | nil => rw [advance_of_nil hrest]
  | cons u us =>
    rw [advance_of_cons hrest]
    have hdrop := List.dropWhile_cons_of_pos (l := u :: us)
      (p := (·.kind ≠ .punctuator .openBrace)) (decide_eq_true h)
    rw [State.tokens, State.tokens, hrest, behindBrace, behindBrace, hdrop]

theorem skips_accept (h : k ≠ .punctuator .openBrace) : Skips (accept k) := by
  intro s
  by_cases hk : s.token.kind = k
  · rw [accept_of_eq hk]
    exact behindBrace_advance (hk ▸ h)
  · rw [accept_of_ne hk]

theorem skips_expect {p : Punctuator} (h : p ≠ .openBrace) : Skips (expect p) := by
  refine (skips_accept (by simpa using h)).bind fun c => ?_
  split
  · exact skips_pure _
  · exact skips_of_same fun _ => rfl

theorem skips_identifier : Skips identifier := by
  intro s
  unfold identifier
  rw [run_span_bind, run_kind_bind]
  cases hk : s.token.kind with
  | identifier text =>
    have hne : s.token.kind ≠ .punctuator .openBrace := by simp [hk]
    exact behindBrace_advance (s := (intern text s).2) hne
  | _ => rfl

theorem skips_params (fuel : Nat) : Skips (params fuel) := by
  induction fuel with
  | zero => exact skips_pure _
  | succ fuel ih =>
    refine skips_identifier.bind fun p => (skips_accept (by simp)).bind fun c => ?_
    split
    · exact ih.bind fun _ => skips_pure _
    · exact skips_pure _

variable {start : Nat} {outer : Bool} {fuel : Nat}

/-- What is read is a function that begins at `start`, and it is strict where the code around it
is or by a directive behind the next brace. -/
def ReadsHead (start : Nat) (outer : Bool) (fuel : Nat) (f : ParseM FunctionDef) : Prop :=
  ∀ s, s.Fuelled 0 fuel → (f s).2.problems = [] → (f s).1.span.start = start ∧
    (f s).1.strict = (outer || decide ("use strict" ∈ prologue (behindBrace s.tokens)))

theorem Skips.readsHead {g : α → ParseM FunctionDef} (hf : Skips f) (hgo : GoesOn f)
    (hg : ∀ a, ReadsHead start outer fuel (g a)) : ReadsHead start outer fuel (f >>= g) := by
  intro s hs hclean
  have hrest := hg _ _ ((hgo s).fuelled hs) hclean
  rwa [hf s] at hrest

/-- The body of a function between its braces, and whether it is strict. -/
def functionBody (fuel : Nat) (outer : Bool) : ParseM (List Stmt × Bool) := do
  if ← expect .openBrace then
    let (ds, strict) ← directives fuel outer
    let ss ← statements fuel atBlockEnd strict
    let _ ← expect .closeBrace
    return (ds ++ ss, strict)
  return ([], outer)

theorem expect_of_eq {s : State} {p : Punctuator} (h : s.token.kind = .punctuator p) :
    expect p s = (true, (advance s).2) := by
  rw [expect, run_bind, accept_of_eq h]
  rfl

theorem expect_of_ne {s : State} {p : Punctuator} (h : s.token.kind ≠ .punctuator p) :
    (expect p s).2.problems ≠ [] := by
  rw [expect, run_bind, accept_of_ne h]
  exact List.cons_ne_nil _ _

theorem strict_functionBody {s : State} (hs : s.Fuelled 0 fuel)
    (hclean : (functionBody fuel outer s).2.problems = []) :
    (functionBody fuel outer s).1.2 =
      (outer || decide ("use strict" ∈ prologue (behindBrace s.tokens))) := by
  have hdirectives := (allGoOn fuel).directives
  have hstatements := (allGoOn fuel).statements
  by_cases hk : s.token.kind = .punctuator .openBrace
  · rw [functionBody, run_bind, expect_of_eq hk] at hclean ⊢
    dsimp only at hclean ⊢
    rw [if_pos rfl, run_bind] at hclean ⊢
    have hne : s.token.kind ≠ .endOfFile := by simp [hk]
    obtain ⟨u, us, hrest⟩ := List.exists_cons_of_ne_nil (hs.rest_ne_nil hne)
    have hbehind : behindBrace s.tokens = (advance s).2.tokens := by
      have hdrop := List.dropWhile_cons_of_neg (a := s.token) (l := s.rest)
        (p := (·.kind ≠ .punctuator .openBrace)) (by simp [hk])
      rw [behindBrace, State.tokens, hdrop, List.tail_cons, advance_of_cons hrest, hrest]
      rfl
    rw [hbehind]
    refine strict_directives ?_ ?_
    · exact (fuelled_advance hs hne).mono (by decide)
    · have hgo (r : List Stmt × Bool) : GoesOn (do
          let ss ← statements fuel atBlockEnd r.2
          let _ ← expect .closeBrace
          return (r.1 ++ ss, r.2)) := by grind
      exact (hgo _ _).clean hclean
  · have hgo (c : Bool) : GoesOn (do
        if c then
          let (ds, strict) ← directives fuel outer
          let ss ← statements fuel atBlockEnd strict
          let _ ← expect .closeBrace
          return (ds ++ ss, strict)
        return ([], outer)) := by grind
    exact (expect_of_ne hk ((hgo _ _).clean hclean)).elim

theorem readsHead_body {g : List Stmt × Bool → ParseM FunctionDef} (hgo : ∀ r, GoesOn (g r))
    (hg : ∀ r, Answers (g r) fun f => f.span.start = start ∧ f.strict = r.2) :
    ReadsHead start outer fuel (inFunction (functionBody fuel outer) >>= g) := by
  intro s hs hclean
  have hread : (inFunction (functionBody fuel outer) s).2.problems = [] :=
    (hgo _ _).clean hclean
  have hbody := strict_functionBody (hs.deep s.depth (s.functionDepth + 1)) hread
  exact ⟨(hg _ _).1, (hg _ _).2.trans hbody⟩

theorem readsHead_functionRest (outer declaration : Bool) {s : State} (hs : s.Fuelled 0 fuel)
    (hclean : (functionRest (fuel + 1) outer declaration s).2.problems = []) :
    (functionRest (fuel + 1) outer declaration s).1.span.start = s.token.span.start ∧
    (functionRest (fuel + 1) outer declaration s).1.strict =
      (outer || decide ("use strict" ∈ prologue (behindBrace s.tokens))) := by
  rw [functionRest, run_span_bind] at hclean ⊢
  revert hs hclean
  suffices h : ReadsHead s.token.span.start outer fuel _ from h s
  refine (skips_of_same fun _ => rfl).readsHead goesOn_freshId fun id =>
    (skips_of_same fun _ => rfl).readsHead goesOn_kind fun k => ?_
  extract_lets named afterSelf
  have hself : ∀ self, ReadsHead s.token.span.start outer fuel (afterSelf self) := by
    intro self
    refine (skips_expect (by simp)).readsHead (goesOn_expect _) fun _ =>
      (skips_of_same fun _ => rfl).readsHead goesOn_kind fun k => ?_
    extract_lets afterParams
    have hparams : ∀ ps, ReadsHead s.token.span.start outer fuel (afterParams ps) := by
      intro ps
      refine (skips_expect (by simp)).readsHead (goesOn_expect _) fun _ =>
        readsHead_body (fun r => by cases self <;> grind) fun r => ?_
      have hend (self : Option Identifier) : Answers (do
          checkParams r.2 [] ps
          return (⟨id, self, ps, r.1, r.2, ← spanFrom s.token.span.start⟩ : FunctionDef))
          fun f => f.span.start = s.token.span.start ∧ f.strict = r.2 :=
        .bind fun _ _ => ⟨rfl, rfl⟩
      cases self with
      | none => exact hend none
      | some i => exact .bind fun _ => hend (some i)
    split
    · exact (skips_pure _).readsHead (goesOn_pure _) hparams
    · exact (skips_params fuel).readsHead (goesOn_params fuel) hparams
  split
  · exact skips_identifier.map.readsHead goesOn_identifier.map hself
  · exact (skips_pure _).readsHead (goesOn_pure _) hself

end Heads

end Parser

/-- A function is strict where the code around it is, or by a directive of its own. -/
def Feature.Governed (tokens : List Token) (c : Site) : Feature → Prop
  | .function f =>
    f.strict = true ↔ c.strict = true ∨ "use strict" ∈ Parser.prologue (Parser.bodyTokens tokens f)
  | _ => True

/-- Some features are governed as they stand. -/
abbrev Governed (tokens : List Token) (xs : List (Site × Feature)) : Prop :=
  ∀ x ∈ xs, x.2.Governed tokens x.1

namespace Parser

/-- A reader that begins at `P` among some tokens, and reports nothing, hands on features that it
holds and adds those it finds. -/
structure Finds {α : Type} (tokens : List Token) (P : State → Prop) (held : List (Site × Feature))
    (f : ParseM α) (out : α → List (Site × Feature)) : Prop where
  goesOn : GoesOn f
  finds : ∀ s, s.tokens <:+ tokens → P s → (f s).2.problems = [] → Governed tokens held →
    Governed tokens (out (f s).1)

section Rules

variable {α β : Type} {tokens : List Token} {P P' : State → Prop} {b fuel : Nat}
  {held : List (Site × Feature)} {f : ParseM α} {g : α → ParseM β}
  {inner : α → List (Site × Feature)} {out : β → List (Site × Feature)} {R : α → State → Prop}

theorem Finds.bind (hf : Finds tokens P held f inner) (hl : Leads P f R)
    (hg : ∀ a, Finds tokens (R a) (inner a) (g a) out) : Finds tokens P held (f >>= g) out where
  goesOn := hf.goesOn.bind fun a => (hg a).goesOn
  finds s hs hP hclean hheld :=
    (hg _).finds _ ((hf.goesOn s).tokens.trans hs) (hl s hP) hclean
      (hf.finds s hs hP (((hg _).goesOn _).clean hclean) hheld)

theorem Finds.past (hf : Finds tokens (State.Fuelled b fuel) held f inner)
    (hg : ∀ a, Finds tokens (State.Fuelled b fuel) (inner a) (g a) out) :
    Finds tokens (State.Fuelled b fuel) held (f >>= g) out := hf.bind hf.goesOn.leads hg

/-- A step that finds nothing. -/
theorem Leads.finds (hl : Leads P f R) (hgo : GoesOn f)
    (hg : ∀ a, Finds tokens (R a) held (g a) out) : Finds tokens P held (f >>= g) out :=
  have hf : Finds tokens P held f fun _ => held := ⟨hgo, fun _ _ _ _ h => h⟩
  hf.bind hl hg

theorem GoesOn.finds (hgo : GoesOn f)
    (hg : ∀ a, Finds tokens (State.Fuelled b fuel) held (g a) out) :
    Finds tokens (State.Fuelled b fuel) held (f >>= g) out := hgo.leads.finds hgo hg

theorem Finds.ends {a : β} (h : Governed tokens held → Governed tokens (out a)) :
    Finds tokens P held (pure a) out := ⟨goesOn_pure a, fun _ _ _ _ => h⟩

theorem Finds.pure {a : β} (h : out a ⊆ held) : Finds tokens P held (pure a) out :=
  .ends fun hheld x hx => hheld x (h hx)

theorem Finds.map {h : α → β} (hf : Finds tokens P held f fun a => out (h a)) :
    Finds tokens P held (h <$> f) out := ⟨hf.goesOn.map, hf.finds⟩

/-- What is held stays in front of what is found. -/
theorem Finds.behind (hf : Finds tokens P [] f inner) :
    Finds tokens P held f fun a => held ++ inner a :=
  ⟨hf.goesOn, fun s hs hP hclean hheld =>
    List.forall_mem_append.2 ⟨hheld, hf.finds s hs hP hclean (List.forall_mem_nil _)⟩⟩

theorem Finds.of_pre (hP : ∀ s, P' s → P s) (hf : Finds tokens P held f inner) :
    Finds tokens P' held f inner :=
  ⟨hf.goesOn, fun s hs hP' => hf.finds s hs (hP s hP')⟩

theorem Finds.kind_bind {g : Kind → ParseM β}
    (h : ∀ k, Finds tokens (fun s => P s ∧ s.token.kind = k) held (g k) out) :
    Finds tokens P held (kind >>= g) out :=
  ⟨goesOn_kind.bind fun k => (h k).goesOn, fun s hs hP => (h _).finds s hs ⟨hP, rfl⟩⟩

theorem Finds.span_bind {g : Span → ParseM β} (h : ∀ at_, Finds tokens P held (g at_) out) :
    Finds tokens P held (span >>= g) out :=
  ⟨goesOn_span.bind fun at_ => (h at_).goesOn, fun s hs hP => (h _).finds s hs hP⟩

theorem Finds.get_bind {g : State → ParseM β} (h : ∀ s₀, Finds tokens P held (g s₀) out) :
    Finds tokens P held (get >>= g) out :=
  ⟨goesOn_get.bind fun s₀ => (h s₀).goesOn, fun s hs hP => (h _).finds s hs hP⟩

theorem Finds.advance_bind {k : Kind} {g : Unit → ParseM β} (hk : k ≠ .endOfFile)
    (h : Finds tokens (State.Fuelled (b + 16) fuel) held (g ()) out) :
    Finds tokens (fun s => s.Fuelled b fuel ∧ s.token.kind = k) held (advance >>= g) out :=
  (leads_advance hk).finds goesOn_advance fun _ => h

/-- A token that may be there; where it is, it is read. -/
theorem Finds.accept_ite {k : Kind} {f f' : ParseM α} (hk : k ≠ .endOfFile)
    (h : Finds tokens (State.Fuelled (b + 16) fuel) held f inner)
    (h' : Finds tokens (State.Fuelled b fuel) held f' inner) :
    Finds tokens (State.Fuelled b fuel) held (do if ← accept k then f else f') inner := by
  refine (leads_accept hk).finds (goesOn_accept k) fun c => ?_
  cases c with
  | true => exact h
  | false => exact h'

theorem Finds.expect_ite {p : Punctuator} {f f' : ParseM α}
    (h : Finds tokens (State.Fuelled (b + 16) fuel) held f inner)
    (h' : Finds tokens (State.Fuelled b fuel) held f' inner) :
    Finds tokens (State.Fuelled b fuel) held (do if ← expect p then f else f') inner := by
  refine (leads_expect p).finds (goesOn_expect p) fun c => ?_
  cases c with
  | true => exact h
  | false => exact h'

theorem Finds.nested {m : Message} (hm : m.severity = .error) {a : α}
    (hf : Finds tokens (State.Fuelled b fuel) held f inner) :
    Finds tokens (State.Fuelled b fuel) held (nested m a f) inner where
  goesOn := hf.goesOn.nested hm
  finds s hs hP hclean hheld := by
    rw [nested_run] at hclean ⊢
    split at hclean
    · exact (List.cons_ne_nil _ _ hclean).elim
    · next hdepth =>
      rw [if_neg hdepth]
      exact hf.finds { s with depth := s.depth + 1 } hs (hP.deep _ _) hclean hheld

theorem Finds.inFunction (hf : Finds tokens (State.Fuelled b fuel) held f inner) :
    Finds tokens (State.Fuelled b fuel) held (inFunction f) inner where
  goesOn := hf.goesOn.inFunction
  finds s hs hP := hf.finds { s with functionDepth := s.functionDepth + 1 } hs (hP.deep _ _)

end Rules

/-- What each reader finds. -/
structure AllFind (tokens : List Token) (fuel : Nat) : Prop where
  statement : ∀ {b} (c : Site), 5 ≤ b →
    Finds tokens (State.Fuelled b fuel) [] (statement fuel c.strict) (Stmt.features c)
  condition : ∀ {b} (c : Site), 5 ≤ b →
    Finds tokens (State.Fuelled b fuel) [] (condition fuel c.strict) (Expr.features c)
  declarators : ∀ {b} (c : Site), 5 ≤ b →
    Finds tokens (State.Fuelled b fuel) [] (declarators fuel c.strict)
      (Declarator.listFeatures c)
  statements : ∀ {b} ends (c : Site), ends .endOfFile = true → 6 ≤ b →
    Finds tokens (State.Fuelled b fuel) [] (statements fuel ends c.strict) (Stmt.listFeatures c)
  block : ∀ {b} (c : Site), 1 ≤ b →
    Finds tokens (State.Fuelled b fuel) [] (block fuel c.strict) (Stmt.listFeatures c)
  catchRest : ∀ {b} (c : Site), 2 ≤ b →
    Finds tokens (State.Fuelled b fuel) [] (catchRest fuel c.strict)
      fun clause => Stmt.handlerFeatures c (some clause)
  directives : ∀ {b} (c : Site), 6 ≤ b →
    Finds tokens (State.Fuelled b fuel) [] (directives fuel c.strict)
      fun r => Stmt.listFeatures ⟨r.2, c.inside⟩ r.1
  functionRest : ∀ {b} (c : Site) declaration, 1 ≤ b →
    Finds tokens (State.Fuelled b fuel) [] (functionRest fuel c.strict declaration)
      (FunctionDef.features c)
  expression : ∀ {b} (c : Site), 4 ≤ b →
    Finds tokens (State.Fuelled b fuel) [] (expression fuel c.strict) (Expr.features c)
  binary : ∀ {b} (c : Site) least, 3 ≤ b →
    Finds tokens (State.Fuelled b fuel) [] (binary fuel c.strict least) (Expr.features c)
  binaryRest : ∀ {b} (c : Site) least left, 1 ≤ b →
    Finds tokens (State.Fuelled b fuel) (left.features c) (binaryRest fuel c.strict least left)
      (Expr.features c)
  unary : ∀ {b} (c : Site), 2 ≤ b →
    Finds tokens (State.Fuelled b fuel) [] (unary fuel c.strict) (Expr.features c)
  callRest : ∀ {b} (c : Site) start callee, 1 ≤ b →
    Finds tokens (State.Fuelled b fuel) (callee.features c) (callRest fuel c.strict start callee)
      (Expr.features c)
  arguments : ∀ {b} (c : Site), 5 ≤ b →
    Finds tokens (State.Fuelled b fuel) [] (arguments fuel c.strict) (Expr.listFeatures c)
  primary : ∀ {b} (c : Site), 1 ≤ b →
    Finds tokens (State.Fuelled b fuel) [] (primary fuel c.strict) (Expr.features c)

section Readers

variable {tokens : List Token} {b fuel : Nat} (c : Site)

theorem allFind_zero : AllFind tokens 0 := by
  have hgo := allGoOn 0
  constructor
  all_goals intros
  all_goals refine ⟨?_, fun s _ hs => hs.not_zero.elim⟩
  · exact hgo.statement _
  · exact hgo.condition _
  · exact hgo.declarators _
  · exact hgo.statements _ _
  · exact hgo.block _
  · exact hgo.catchRest _
  · exact hgo.directives _
  · exact hgo.functionRest _ _
  · exact hgo.expression _
  · exact hgo.binary _ _
  · exact hgo.binaryRest _ _ _
  · exact hgo.unary _
  · exact hgo.callRest _ _ _
  · exact hgo.arguments _
  · exact hgo.primary _

theorem finds_condition (ih : AllFind tokens fuel) (hb : 4 ≤ b) :
    Finds tokens (State.Fuelled b fuel) [] (condition (fuel + 1) c.strict) (Expr.features c) :=
  (goesOn_expect _).finds fun _ => (ih.expression c hb).past fun _ =>
    (goesOn_expect _).finds fun _ => .pure (List.Subset.refl _)

theorem finds_primary (ih : AllFind tokens fuel) :
    Finds tokens (State.Fuelled b fuel) [] (primary (fuel + 1) c.strict) (Expr.features c) := by
  rw [Parser.primary]
  refine Finds.span_bind fun at_ => Finds.kind_bind fun k => ?_
  split
  case h_7 =>
    exact Finds.of_pre (fun _ h => h.1) (goesOn_identifier.finds fun i =>
      .pure (by simp [Expr.features]))
  case h_8 =>
    exact .advance_bind (by simp) ((ih.functionRest c false (by omega)).past fun f =>
      .pure (by simp [Expr.features]))
  case h_9 =>
    exact .advance_bind (by simp) ((ih.expression c (by omega)).past fun e =>
      (goesOn_expect _).finds fun _ => .pure (List.Subset.refl _))
  case h_10 =>
    exact Finds.of_pre (fun _ h => h.1) ((goesOn_report rfl _).finds fun _ =>
      .pure (by simp [Expr.features]))
  case h_6 =>
    exact .advance_bind (by simp) (goesOn_freshId.finds fun _ => .pure (by simp [Expr.features]))
  all_goals exact .advance_bind (by simp) (.pure (by simp [Expr.features]))

theorem finds_arguments (ih : AllFind tokens fuel) (hb : 4 ≤ b) :
    Finds tokens (State.Fuelled b fuel) [] (arguments (fuel + 1) c.strict)
      (Expr.listFeatures c) :=
  (ih.expression c hb).past fun e => .accept_ite (by simp)
    ((ih.arguments c (by omega)).behind.past fun es => .pure (by simp [Expr.listFeatures]))
    (.pure (by simp [Expr.listFeatures]))

theorem finds_callRest (ih : AllFind tokens fuel) (start : Nat) (callee : Expr) :
    Finds tokens (State.Fuelled b fuel) (callee.features c)
      (callRest (fuel + 1) c.strict start callee) (Expr.features c) := by
  refine .accept_ite (by simp) (goesOn_kind.finds fun k => ?_) (.pure (List.Subset.refl _))
  extract_lets rest
  have hrest : ∀ args, Finds tokens (State.Fuelled (b + 16) fuel)
      (callee.features c ++ Expr.listFeatures c args) (rest args) (Expr.features c) := by
    intro args
    refine goesOn_span.finds fun at_ => (goesOn_expect _).finds fun _ => ?_
    have hmore := ih.callRest (b := b + 16) c start (.call callee args ⟨start, at_.stop⟩)
      (by omega)
    rwa [Expr.features] at hmore
  split
  · exact Finds.past (.pure (by simp [Expr.listFeatures])) hrest
  · exact (ih.arguments c (by omega)).behind.past hrest

theorem finds_unary (ih : AllFind tokens fuel) (hb : 1 ≤ b) :
    Finds tokens (State.Fuelled b fuel) [] (unary (fuel + 1) c.strict) (Expr.features c) := by
  rw [Parser.unary]
  refine Finds.nested rfl (Finds.span_bind fun at_ => Finds.kind_bind fun k => ?_)
  split
  · exact .advance_bind (by simp) ((ih.unary c (by omega)).past fun e =>
      .pure (by simp [Expr.features]))
  · refine .advance_bind (by simp) ((ih.unary c (by omega)).past fun e => ?_)
    extract_lets rest
    have hrest : ∀ u, Finds tokens (State.Fuelled (b + 16) fuel) (e.features c) (rest u)
        (Expr.features c) := fun _ => (goesOn_spanFrom _).finds fun _ =>
        .ends fun h => List.forall_mem_cons.2 ⟨trivial, h⟩
    split
    · exact (goesOn_reportAt _ rfl _).finds hrest
    · exact hrest ()
  · split
    · next op hop =>
      have hk : k ≠ .endOfFile := by
        rintro rfl
        cases hop
      exact .advance_bind hk ((ih.unary c (by omega)).past fun e =>
        .pure (by simp [Expr.features]))
    · exact Finds.of_pre (fun _ h => h.1) ((ih.primary c hb).past fun e => ih.callRest c _ e hb)

theorem finds_binaryRest (ih : AllFind tokens fuel) (least : Nat) (left : Expr) :
    Finds tokens (State.Fuelled b fuel) (left.features c)
      (binaryRest (fuel + 1) c.strict least left) (Expr.features c) := by
  refine Finds.kind_bind fun k => ?_
  split
  · next op strength hop =>
    split
    · exact .pure (List.Subset.refl _)
    · have hk : k ≠ .endOfFile := by
        rintro rfl
        cases hop
      refine .advance_bind hk ((ih.binary c _ (by omega)).behind.past fun right => ?_)
      have hmore := ih.binaryRest (b := b + 16) c least (.binary op left right) (by omega)
      rwa [Expr.features] at hmore
  · exact .pure (List.Subset.refl _)

theorem finds_binary (ih : AllFind tokens fuel) (least : Nat) (hb : 2 ≤ b) :
    Finds tokens (State.Fuelled b fuel) [] (binary (fuel + 1) c.strict least)
      (Expr.features c) :=
  (ih.unary c hb).past fun e => ih.binaryRest c least e (by omega)

theorem finds_expression (ih : AllFind tokens fuel) (hb : 3 ≤ b) :
    Finds tokens (State.Fuelled b fuel) [] (expression (fuel + 1) c.strict) (Expr.features c) := by
  rw [Parser.expression]
  refine Finds.nested rfl (Finds.span_bind fun at_ => (ih.binary c 0 hb).past fun left =>
    .accept_ite (by simp) ((ih.expression c (by omega)).behind.past fun value => ?_)
      (.pure (List.Subset.refl _)))
  split
  · next target _ =>
    have hend (h : Governed tokens (left.features c ++ value.features c)) :
        Governed tokens ((Expr.assign target value).features c) :=
      List.forall_mem_cons.2 ⟨trivial, (List.forall_mem_append.1 h).2⟩
    exact (goesOn_checkBinding _ _).finds fun _ => .ends hend
  · exact (goesOn_reportAt (m := .assignmentTarget) _ rfl _).finds fun _ =>
      .pure (List.subset_append_right _ _)

/-- The features of what may stand in a place or not. -/
def optionFeatures {α : Type} (features : α → List (Site × Feature)) (o : Option α) :
    List (Site × Feature) := o.toList.flatMap features

theorem governed_declarator {c : Site} {target : Identifier} {value : Option Expr}
    {ds : List Declarator} (hvalue : Governed tokens (optionFeatures (Expr.features c) value))
    (hds : Governed tokens (Declarator.listFeatures c ds)) :
    Governed tokens (Declarator.listFeatures c (⟨target, value⟩ :: ds)) := by
  cases value with
  | none => exact List.forall_mem_cons.2 ⟨trivial, hds⟩
  | some e =>
    have he : Governed tokens (e.features c) := by simpa [optionFeatures] using hvalue
    exact List.forall_mem_cons.2 ⟨trivial, List.forall_mem_append.2 ⟨he, hds⟩⟩

/-- What is found in a place that may stay empty. -/
theorem Finds.some {α : Type} {P : State → Prop} {f : ParseM α}
    {features : α → List (Site × Feature)} (h : Finds tokens P [] f features) :
    Finds tokens P [] (some <$> f) (optionFeatures features) :=
  Finds.map ⟨h.goesOn, fun s hs hP hclean hheld => by
    simpa [optionFeatures] using h.finds s hs hP hclean hheld⟩

theorem finds_declarators (ih : AllFind tokens fuel) (hb : 4 ≤ b) :
    Finds tokens (State.Fuelled b fuel) [] (declarators (fuel + 1) c.strict)
      (Declarator.listFeatures c) := by
  refine goesOn_identifier.finds fun target => (goesOn_checkBinding _ _).finds fun _ =>
    (goesOn_accept (.punctuator .assign)).finds fun assigned => ?_
  extract_lets rest
  have hrest : ∀ value, Finds tokens (State.Fuelled b fuel)
      (optionFeatures (Expr.features c) value) (rest value) (Declarator.listFeatures c) := by
    intro value
    refine .accept_ite (by simp) ((ih.declarators c (by omega)).behind.past fun ds =>
      .ends fun h => ?_) (.ends fun h => governed_declarator h (List.forall_mem_nil _))
    obtain ⟨hvalue, hds⟩ := List.forall_mem_append.1 h
    exact governed_declarator hvalue hds
  split
  · exact (ih.expression c hb).some.past hrest
  · exact Finds.past (.pure (by simp [optionFeatures])) hrest

theorem finds_statements (ih : AllFind tokens fuel) (ends : Kind → Bool)
    (hends : ends .endOfFile = true) (hb : 5 ≤ b) :
    Finds tokens (State.Fuelled b fuel) [] (statements (fuel + 1) ends c.strict)
      (Stmt.listFeatures c) := by
  rw [statements_succ]
  have hround : Finds tokens (State.Fuelled b fuel) [] (statementRound fuel ends c.strict)
      (Sum.elim (Stmt.listFeatures c) (Stmt.features c)) := by
    refine goesOn_kind.finds fun k => ?_
    split
    · exact .pure (List.Subset.refl _)
    · exact goesOn_span.finds fun at_ => (ih.statement c hb).past fun s =>
        (goesOn_dropAt _).finds fun _ => .pure (List.Subset.refl _)
  refine hround.bind (leads_statementRound ends c.strict hends) fun r => ?_
  cases r with
  | inl ss => exact .pure (List.Subset.refl _)
  | inr s =>
    have hmore : Finds tokens (State.Fuelled (b + 16) fuel) (s.features c)
        (statements fuel ends c.strict) fun ss => s.features c ++ Stmt.listFeatures c ss :=
      (ih.statements ends c hends (by omega)).behind
    exact Finds.map (hmore.of_pre fun _ hs => hs rfl)

theorem finds_block (ih : AllFind tokens fuel) :
    Finds tokens (State.Fuelled b fuel) [] (block (fuel + 1) c.strict) (Stmt.listFeatures c) :=
  .expect_ite ((ih.statements _ c rfl (by omega)).past fun _ => (goesOn_expect _).finds fun _ =>
    .pure (List.Subset.refl _)) (.pure (List.Subset.refl _))

theorem finds_catchRest (ih : AllFind tokens fuel) (hb : 1 ≤ b) :
    Finds tokens (State.Fuelled b fuel) [] (catchRest (fuel + 1) c.strict)
      fun clause => Stmt.handlerFeatures c (some clause) :=
  goesOn_freshId.finds fun _ => (goesOn_expect _).finds fun _ => goesOn_identifier.finds fun _ =>
    (goesOn_checkBinding _ _).finds fun _ => (goesOn_expect _).finds fun _ =>
      (ih.block c hb).past fun _ => .ends fun h => List.forall_mem_cons.2 ⟨trivial, h⟩

theorem features_of_isDirective {s : Stmt} (h : isDirective s = true) (c : Site) :
    s.features c = [] := by
  unfold isDirective at h
  split at h
  · rfl
  · cases h

theorem finds_directives (ih : AllFind tokens fuel) (hb : 5 ≤ b) :
    Finds tokens (State.Fuelled b fuel) [] (directives (fuel + 1) c.strict)
      fun r => Stmt.listFeatures ⟨r.2, c.inside⟩ r.1 := by
  refine Finds.kind_bind fun k => ?_
  split
  · next value =>
    refine ((ih.statement c hb).of_pre fun _ h => h.1).bind (takesString_statement c.strict)
      fun s => ?_
    split
    · next hdirective =>
      have hmore := ih.directives (b := b + 16)
        ⟨c.strict || decide (value = "use strict"), c.inside⟩ (by omega)
      rw [features_of_isDirective hdirective c]
      refine (hmore.of_pre fun s' (hs : isDirective s = true → s'.Fuelled (b + 16) fuel) =>
        hs hdirective).bind (R := fun _ _ => True) (fun _ _ => trivial) fun r => .pure ?_
      rw [Stmt.listFeatures, features_of_isDirective hdirective]
      exact List.Subset.refl _
    · exact .pure (by simp [Stmt.listFeatures])
  · exact .pure (by simp [Stmt.listFeatures])

theorem finds_functionBody (ih : AllFind tokens fuel) (outer : Bool) :
    Finds tokens (State.Fuelled b fuel) [] (functionBody fuel outer)
      fun r => Stmt.listFeatures ⟨r.2, true⟩ r.1 :=
  .expect_ite ((ih.directives ⟨outer, true⟩ (by omega)).past fun r =>
    (ih.statements _ ⟨r.2, true⟩ rfl (by omega)).behind.past fun _ =>
      (goesOn_expect _).finds fun _ => .pure (by simp [Stmt.listFeatures_append]))
    (.pure (List.Subset.refl _))

/-- What a function contains is found in its body. -/
theorem finds_functionRest_body (ih : AllFind tokens fuel) (outer declaration : Bool) :
    Finds tokens (State.Fuelled b fuel) [] (functionRest (fuel + 1) outer declaration)
      fun f => Stmt.listFeatures ⟨f.strict, true⟩ f.body := by
  refine goesOn_span.finds fun at_ => goesOn_freshId.finds fun id => goesOn_kind.finds fun k => ?_
  extract_lets named afterSelf
  have hself : ∀ self, Finds tokens (State.Fuelled b fuel) [] (afterSelf self)
      fun f => Stmt.listFeatures ⟨f.strict, true⟩ f.body := by
    intro self
    refine (goesOn_expect _).finds fun _ => goesOn_kind.finds fun k => ?_
    extract_lets afterParams
    have hparams : ∀ ps, Finds tokens (State.Fuelled b fuel) [] (afterParams ps)
        fun f => Stmt.listFeatures ⟨f.strict, true⟩ f.body := by
      intro ps
      refine (goesOn_expect _).finds fun _ =>
        (finds_functionBody ih outer).inFunction.past fun r => ?_
      have hend (self : Option Identifier) : Finds tokens (State.Fuelled b fuel)
          (Stmt.listFeatures ⟨r.2, true⟩ r.1) (do
            checkParams r.2 [] ps
            return (⟨id, self, ps, r.1, r.2, ← spanFrom at_.start⟩ : FunctionDef))
          fun f => Stmt.listFeatures ⟨f.strict, true⟩ f.body :=
        (goesOn_checkParams _ _ _).finds fun _ => (goesOn_spanFrom _).finds fun _ =>
          .pure (List.Subset.refl _)
      cases self with
      | none => exact hend none
      | some i => exact (goesOn_checkBinding _ _).finds fun _ => hend (some i)
    split
    · exact (goesOn_pure _).finds hparams
    · exact (goesOn_params fuel).finds hparams
  split
  · exact goesOn_identifier.map.finds hself
  · exact (goesOn_pure _).finds hself

/-- The tokens of a function are those from where it begins. -/
theorem dropWhile_start {s : State} (hsorted : tokens.Pairwise (·.span.start < ·.span.start))
    (hs : s.tokens <:+ tokens) :
    tokens.dropWhile (·.span.start < s.token.span.start) = s.tokens := by
  obtain ⟨front, rfl⟩ := hs
  have hfront := (List.pairwise_append.1 hsorted).2.2
  rw [List.dropWhile_append_of_pos fun t ht =>
    decide_eq_true (hfront t ht s.token List.mem_cons_self), State.tokens,
    List.dropWhile_cons_of_neg (by simp)]

theorem features_function (f : FunctionDef) : f.features c = (c, .function f) ::
    ((f.self.toList ++ f.params).map (fun i => (⟨f.strict, true⟩, .binding i)) ++
      Stmt.listFeatures ⟨f.strict, true⟩ f.body) := by
  cases f
  rfl

theorem finds_functionRest (hsorted : tokens.Pairwise (·.span.start < ·.span.start))
    (ih : AllFind tokens fuel) (declaration : Bool) :
    Finds tokens (State.Fuelled b fuel) [] (functionRest (fuel + 1) c.strict declaration)
      (FunctionDef.features c) where
  goesOn := (allGoOn (fuel + 1)).functionRest _ _
  finds s hs hP hclean hheld := by
    have hbody := (finds_functionRest_body ih c.strict declaration).finds s hs hP hclean hheld
    obtain ⟨hstart, hstrict⟩ :=
      readsHead_functionRest c.strict declaration (hP.mono (Nat.zero_le b)) hclean
    rw [features_function]
    refine List.forall_mem_cons.2 ⟨?_, List.forall_mem_append.2 ⟨?_, hbody⟩⟩
    · change _ ↔ _
      rw [bodyTokens, hstart, dropWhile_start hsorted hs, hstrict]
      simp
    · intro x hx
      obtain ⟨i, -, rfl⟩ := List.mem_map.1 hx
      trivial

theorem finds_statement (ih : AllFind tokens fuel) (hb : 4 ≤ b) :
    Finds tokens (State.Fuelled b fuel) [] (statement (fuel + 1) c.strict) (Stmt.features c) := by
  rw [Parser.statement]
  refine Finds.nested rfl (Finds.kind_bind fun k => ?_)
  split
  · exact .advance_bind (by simp) ((ih.declarators c (by omega)).past fun ds =>
      goesOn_endStatement.finds fun _ => .pure (List.Subset.refl _))
  · exact .advance_bind (by simp) ((ih.functionRest c true (by omega)).past fun f =>
      .pure (by simp [Stmt.features]))
  · refine Finds.span_bind fun at_ => Finds.get_bind fun s₀ => ?_
    extract_lets ending reading
    have hending : ∀ argument, Finds tokens (State.Fuelled (b + 16) fuel)
        (optionFeatures (Expr.features c) argument) (ending argument) (Stmt.features c) := by
      intro argument
      refine goesOn_endStatement.finds fun _ => .ends fun h => ?_
      cases argument with
      | none => exact List.forall_mem_cons.2 ⟨trivial, List.forall_mem_nil _⟩
      | some e =>
        exact List.forall_mem_cons.2 ⟨trivial, by simpa [optionFeatures] using h⟩
    have hreading : ∀ u, Finds tokens
        (fun s => s.Fuelled b fuel ∧ s.token.kind = .keyword .returnKw) [] (reading u)
        (Stmt.features c) := by
      intro u
      refine .advance_bind (by simp) (goesOn_get.finds fun s₁ => ?_)
      extract_lets t
      split
      · exact (Finds.pure (by simp [optionFeatures])).past hending
      · exact (ih.expression c (by omega)).some.past hending
    split
    · have hgo := goesOn_report (m := .returnOutsideFunction) rfl []
      have hreport : Leads (fun s => s.Fuelled b fuel ∧ s.token.kind = .keyword .returnKw)
          (report .returnOutsideFunction [])
          fun _ s => s.Fuelled b fuel ∧ s.token.kind = .keyword .returnKw :=
        fun s hs => ⟨(hgo s).fuelled hs.1, hs.2⟩
      exact hreport.finds hgo hreading
    · exact hreading ()
  · refine .advance_bind (by simp) ((ih.condition c (by omega)).past fun e =>
      (ih.statement c (by omega)).behind.past fun s => .accept_ite (by simp)
        ((ih.statement c (by omega)).behind.past fun a => .pure ?_) (.pure ?_))
    all_goals simp [Stmt.features]
  · exact .advance_bind (by simp) ((ih.condition c (by omega)).past fun e =>
      (ih.statement c (by omega)).behind.past fun body => .pure (by simp [Stmt.features]))
  · exact Finds.of_pre (fun _ h => h.1) ((ih.block c (by omega)).past fun body =>
      .pure (by simp [Stmt.features]))
  · refine .advance_bind (by simp) ((ih.block c (by omega)).past fun body =>
      (goesOn_accept (.keyword .catchKw)).finds fun caught => ?_)
    extract_lets afterHandler
    have hhandler : ∀ handler, Finds tokens (State.Fuelled (b + 16) fuel)
        (Stmt.listFeatures c body ++ Stmt.handlerFeatures c handler) (afterHandler handler)
        (Stmt.features c) := by
      intro handler
      refine (goesOn_accept (.keyword .finallyKw)).finds fun closed => ?_
      extract_lets afterFinalizer
      have hfinalizer : ∀ finalizer, Finds tokens (State.Fuelled (b + 16) fuel)
          (Stmt.listFeatures c body ++ Stmt.handlerFeatures c handler ++
            Stmt.finalizerFeatures c finalizer) (afterFinalizer finalizer) (Stmt.features c) := by
        intro finalizer
        simp only [afterFinalizer]
        split
        · exact (goesOn_report (m := .catchOrFinallyExpected) rfl _).finds fun _ =>
            .pure (by simp [Stmt.features])
        · exact .pure (by simp [Stmt.features])
      split
      · have hblock : Finds tokens (State.Fuelled (b + 16) fuel) [] (some <$> block fuel c.strict)
            (Stmt.finalizerFeatures c) := Finds.map (ih.block c (by omega))
        exact hblock.behind.past hfinalizer
      · exact Finds.past (.pure (by simp [Stmt.finalizerFeatures])) hfinalizer
    split
    · have hclause : Finds tokens (State.Fuelled (b + 16) fuel) []
          (some <$> catchRest fuel c.strict) (Stmt.handlerFeatures c) :=
        Finds.map (ih.catchRest c (by omega))
      exact hclause.behind.past hhandler
    · exact Finds.past (.pure (by simp [Stmt.handlerFeatures])) hhandler
  · exact .advance_bind (by simp) ((ih.expression c (by omega)).past fun e =>
      goesOn_endStatement.finds fun _ => .pure (by simp [Stmt.features]))
  · exact .advance_bind (by simp) (.pure (by simp [Stmt.features]))
  · exact Finds.of_pre (fun _ h => h.1) ((goesOn_report (m := .statementExpected) rfl _).finds
      fun _ => .pure (by simp [Stmt.features]))
  · exact Finds.of_pre (fun _ h => h.1) ((goesOn_report (m := .statementExpected) rfl _).finds
      fun _ => .pure (by simp [Stmt.features]))
  · exact Finds.of_pre (fun _ h => h.1) ((ih.expression c hb).past fun e =>
      goesOn_endStatement.finds fun _ => .pure (by simp [Stmt.features]))

theorem allFind (hsorted : tokens.Pairwise (·.span.start < ·.span.start)) (fuel : Nat) :
    AllFind tokens fuel := by
  induction fuel with
  | zero => exact allFind_zero
  | succ fuel ih =>
    have hpre (b : Nat) : State.Fuelled (b + 1) (fuel + 1) = State.Fuelled b fuel :=
      funext fun _ => propext State.Fuelled.succ_iff
    constructor
    all_goals
      intro b
      intros
      obtain ⟨b, rfl⟩ : ∃ b', b = b' + 1 := ⟨b - 1, by omega⟩
      rw [hpre]
    · exact finds_statement _ ih (by omega)
    · exact finds_condition _ ih (by omega)
    · exact finds_declarators _ ih (by omega)
    · exact finds_statements _ ih _ ‹_› (by omega)
    · exact finds_block _ ih
    · exact finds_catchRest _ ih (by omega)
    · exact finds_directives _ ih (by omega)
    · exact finds_functionRest _ hsorted ih _
    · exact finds_expression _ ih (by omega)
    · exact finds_binary _ ih _ (by omega)
    · exact finds_binaryRest _ ih _ _
    · exact finds_unary _ ih (by omega)
    · exact finds_callRest _ ih _ _
    · exact finds_arguments _ ih (by omega)
    · exact finds_primary _ ih

end Readers

section Texts

variable {file text : String} {strict : Bool} {names : Interner}

theorem finds_program {tokens : List Token} {b fuel : Nat}
    (hsorted : tokens.Pairwise (·.span.start < ·.span.start)) (hb : 6 ≤ b) :
    Finds tokens (State.Fuelled b fuel) [] (program fuel file strict) Program.features :=
  goesOn_freshId.finds fun _ => ((allFind hsorted fuel).directives ⟨strict, false⟩ hb).past
    fun r => ((allFind hsorted fuel).statements _ ⟨r.2, false⟩ rfl hb).behind.past fun _ =>
      goesOn_span.finds fun _ => .pure (by simp [Program.features, Stmt.listFeatures_append])

theorem strict_program {s : State} {fuel : Nat} (hs : s.Fuelled 6 fuel)
    (hclean : (program fuel file strict s).2.problems = []) :
    (program fuel file strict s).1.strict =
      (strict || decide ("use strict" ∈ prologue s.tokens)) := by
  have hgo (id : NodeId) (r : List Stmt × Bool) : GoesOn (do
      let ss ← statements fuel (· = .endOfFile) r.2
      return (⟨id, file, r.1 ++ ss, r.2, ⟨0, (← span).stop⟩⟩ : Program)) := by
    have := (allGoOn fuel).statements
    grind
  exact strict_directives ((goesOn_freshId s).fuelled hs) ((hgo _ _ _).clean hclean)

/-- Where a program is read without an error, each function is strict exactly if it stands in strict
code or a directive of its own says so, and the program itself if it is read as strict code or one
of its own says so. Strict code, to which the own name and the parameters of a strict function
belong, declares and assigns no reserved name, deletes no bare name and repeats no parameter name;
and no return is outside of a function. -/
theorem strict_code_keeps_rules (hnames : .wellKnown ≤ names)
    (h : (parse file text strict names).diagnostics.hasErrors = false) :
    let result := parse file text strict names
    let tokens := (Lexer.read text).tokens
    (result.program.strict = true ↔ strict = true ∨ "use strict" ∈ prologue tokens) ∧
    ∀ x ∈ result.program.features,
      x.2.Governed tokens x.1 ∧ x.2.Permitted result.names x.1 := by
  intro result tokens
  have hclean : (reading file text strict names).2.problems = [] :=
    Decidable.byContradiction fun hne => by
      rw [hasErrors_parse hne] at h
      cases h
  have hfuelled := fuelled_start text names
  have htokens := tokens_start_read text names
  refine ⟨?_, fun x hx => ⟨?_, Program.permitted (grammatical_parse hnames h) x hx⟩⟩
  · have hstrict := strict_program (hfuelled.mono (by decide)) hclean
    rw [htokens] at hstrict
    change (reading file text strict names).1.strict = true ↔ _
    rw [reading, hstrict]
    simp [tokens]
  · exact (finds_program (Lexer.ascending_read text) (by decide)).finds _
      (htokens ▸ List.suffix_rfl) hfuelled hclean (List.forall_mem_nil _) x hx

theorem strict_function_keeps_rules_in_sloppy_script :
    let text := "('use strict'); function f(a, b) \x7b 'use strict'; return b; \x7d delete c;"
    let result := parse "a.js" text false .wellKnown
    result.diagnostics.hasErrors = false ∧ result.program.strict = false ∧
    ∀ x ∈ result.program.features,
      x.2.Governed (Lexer.read text).tokens x.1 ∧ x.2.Permitted result.names x.1 := by
  have h : (parse "a.js"
      "('use strict'); function f(a, b) \x7b 'use strict'; return b; \x7d delete c;" false
      .wellKnown).diagnostics.hasErrors = false := by decide +kernel
  obtain ⟨hprogram, hfeatures⟩ := strict_code_keeps_rules (Interner.laws.le_refl _) h
  refine ⟨h, ?_, hfeatures⟩
  rw [Bool.eq_false_iff, Ne, hprogram]
  decide +kernel

end Texts

end Parser

end ScopeChain
