import ScopeChain.Proofs.DeclaredNames
import ScopeChain.Proofs.Grammar

/-! What is reported of a text: the earliest of its errors or, if there is none, the messages of
binding in the order of the source. -/
namespace ScopeChain

variable {file text : String} {strict eval : Bool} {names : Interner}

namespace Diagnostic

/-- The diagnostic in a file. -/
def inFile (file : String) (d : Diagnostic) : Diagnostic := { d with file := some file }

def byPosition (a b : Diagnostic) : Bool := a.position ≤ b.position

theorem byPosition_trans (a b c : Diagnostic) (hab : a.byPosition b = true)
    (hbc : b.byPosition c = true) : a.byPosition c = true :=
  decide_eq_true (Nat.le_trans (of_decide_eq_true hab) (of_decide_eq_true hbc))

theorem byPosition_total (a b : Diagnostic) : (a.byPosition b || b.byPosition a) = true := by
  rw [Bool.or_eq_true]
  rcases Nat.le_total a.position b.position with hle | hle
  · exact .inl (decide_eq_true hle)
  · exact .inr (decide_eq_true hle)

/-- In one file the position is all that counts. -/
theorem precedes_of_file {a b : Diagnostic} (ha : a.file = some file) (hb : b.file = some file) :
    a.precedes b = a.byPosition b := by
  simp [precedes, ha, hb, byPosition]

theorem Fault.attributeTo {d : Diagnostic} (h : d.Fault) : d.attributeTo file = d.inFile file := by
  have hnone : d.file.getD "" = "" := by
    rw [h.file]
    rfl
  exact if_pos hnone

end Diagnostic

namespace Diagnostics

variable {reported ds : Diagnostics} {d : Diagnostic}

/-- All that was reported is put in the order of the positions. What stands at one position stays in
the order of report. -/
structure InOrder (reported ds : Diagnostics) : Prop where
  perm : ds.Perm reported
  ascending : ds.Pairwise fun a b => a.position ≤ b.position
  stable : ∀ k, ds.filter (·.position = k) = reported.filter (·.position = k)

/-- An error stands before all errors that were reported earlier, and not behind any other. -/
def Earliest (reported : Diagnostics) (d : Diagnostic) : Prop :=
  d.isError = true ∧ ∃ before after, reported = before ++ d :: after ∧
    (∀ e ∈ before, e.isError = true → d.position < e.position) ∧
    ∀ e ∈ after, e.isError = true → d.position ≤ e.position

theorem firstError?_ne_none_iff : ds.firstError? ≠ none ↔ ds.hasErrors = true := by
  rw [← Option.isSome_iff_ne_none, firstError?, List.find?_isSome, hasErrors, List.any_eq_true]

theorem inOrder_mergeSort (ds : Diagnostics) : InOrder ds (ds.mergeSort Diagnostic.byPosition) where
  perm := List.mergeSort_perm ds _
  ascending := by
    have hsorted := List.pairwise_mergeSort Diagnostic.byPosition_trans
      Diagnostic.byPosition_total ds
    exact hsorted.imp of_decide_eq_true
  stable k := by
    let p : Diagnostic → Bool := fun d => d.position = k
    have hsame : (ds.filter p).Pairwise fun a b => a.byPosition b = true := by
      rw [List.pairwise_filter]
      refine List.pairwise_of_forall fun a b ha hb => decide_eq_true ?_
      exact Nat.le_of_eq ((of_decide_eq_true ha).trans (of_decide_eq_true hb).symm)
    -- Among themselves these are in order, so sorting leaves them one behind the other.
    have hsub := (List.sublist_mergeSort Diagnostic.byPosition_trans Diagnostic.byPosition_total
      hsame List.filter_sublist).filter p
    rw [List.filter_filter] at hsub
    simp only [Bool.and_self] at hsub
    exact (hsub.eq_of_length ((List.mergeSort_perm ds _).filter p).length_eq.symm).symm

theorem sort_of_file (h : ∀ d ∈ ds, d.file = some file) :
    ds.sort = ds.mergeSort Diagnostic.byPosition := by
  have hmap := List.map_mergeSort (f := id) (l := ds) fun a ha b hb =>
    Diagnostic.precedes_of_file (h a ha) (h b hb)
  rwa [List.map_id, List.map_id] at hmap

/-- The first of some diagnostics in order is the earliest, if it is an error. -/
theorem InOrder.earliest (h : InOrder reported (d :: ds)) (hd : d.isError = true) :
    Earliest reported d := by
  have hleast : ∀ e ∈ reported, d.position ≤ e.position := by
    intro e he
    rcases List.mem_cons.mp (h.perm.mem_iff.mpr he) with rfl | he
    · exact Nat.le_refl _
    · exact (List.pairwise_cons.mp h.ascending).1 e he
  have hfirst := h.stable d.position
  rw [List.filter_cons, if_pos (decide_eq_true rfl)] at hfirst
  obtain ⟨before, after, rfl, hbefore, -, -⟩ := List.filter_eq_cons_iff.mp hfirst.symm
  refine ⟨hd, before, after, rfl, ?_, ?_⟩
  · intro e he _
    have hle := hleast e (List.mem_append_left _ he)
    have hne : e.position ≠ d.position := fun heq => hbefore e he (decide_eq_true heq)
    omega
  · intro e he _
    exact hleast e (List.mem_append_right _ (List.mem_cons_of_mem _ he))

/-- Faults are attributed to a file before they are sorted, and the first one is the earliest. -/
theorem firstError?_of_faults (h : ∀ d ∈ reported, d.Fault) (file : String) :
    match (attributeTo file reported).sort.firstError? with
    | none => reported = []
    | some d => ∃ e, Earliest reported e ∧ d = e.inFile file := by
  have hfile : ∀ d ∈ attributeTo file reported, d.file = some file := by
    intro d hd
    obtain ⟨e, he, rfl⟩ := List.mem_map.mp hd
    rw [(h e he).attributeTo]
    rfl
  have hsort : (attributeTo file reported).sort =
      (reported.mergeSort Diagnostic.byPosition).map (Diagnostic.attributeTo file) := by
    rw [sort_of_file hfile]
    refine (List.map_mergeSort fun a ha b hb => ?_).symm
    rw [(h a ha).attributeTo, (h b hb).attributeTo]
    rfl
  have horder := inOrder_mergeSort reported
  rw [hsort]
  cases hs : reported.mergeSort Diagnostic.byPosition with
  | nil =>
    rw [hs] at horder
    exact horder.perm.symm.eq_nil
  | cons d ds =>
    rw [hs] at horder
    have hd : d.Fault := h d (horder.perm.mem_iff.mp List.mem_cons_self)
    have herror : (d.attributeTo file).isError = true := by
      rw [Parser.isError_attributeTo]
      exact hd.isError
    rw [firstError?, List.map_cons, List.find?_cons_of_pos herror]
    exact ⟨d, horder.earliest hd.isError, hd.attributeTo⟩

end Diagnostics

namespace Lexer

theorem severity_stringBody (quote : Char) (value : List Char) (width : Nat) (cs : List Char) :
    ∀ m ∈ (stringBody quote value width cs).problem?, m.severity = .error := by
  fun_induction stringBody quote value width cs with
  | case1 | case3 | case4 =>
    intro m hm
    cases hm
    rfl
  | case2 =>
    intro m hm
    cases hm
  | _ => assumption

theorem severity_lexeme (cs : List Char) : ∀ m ∈ (lexeme cs).problem?, m.severity = .error := by
  intro m hm
  unfold lexeme at hm
  split at hm
  · cases hm
  · split at hm
    · cases hm
    · split at hm
      · exact severity_stringBody _ _ _ _ m hm
      · split at hm
        · cases hm
        · split at hm
          · cases hm
          · cases hm
            rfl

theorem fault_step (at_ : Cursor) : ∀ d ∈ (step at_).problems, d.Fault := by
  intro d hd
  rcases List.mem_append.mp hd with hd | hd
  · obtain ⟨start, -, rfl⟩ := Option.map_eq_some_iff.mp (Option.mem_toList.mp hd)
    exact Diagnostic.fault_located _ rfl _
  · obtain ⟨m, hm, rfl⟩ := Option.map_eq_some_iff.mp (Option.mem_toList.mp hd)
    exact Diagnostic.fault_located _ (severity_lexeme _ m hm) _

theorem fault_readFrom (fuel : Nat) (at_ : Cursor) :
    ∀ d ∈ (readFrom fuel at_).problems, d.Fault := by
  induction fuel generalizing at_ with
  | zero => exact fault_step at_
  | succ fuel ih =>
    rw [readFrom]
    split
    · exact fault_step at_
    · exact List.forall_mem_append.mpr ⟨fault_step at_, ih _⟩

end Lexer

namespace Parser

/-- All that is reported of a text, by spelling first and then by grammar. -/
def reported (file text : String) (strict : Bool) (names : Interner) : Diagnostics :=
  (Lexer.read text).problems ++ (reading file text strict names).2.problems.reverse

theorem fault_reported : ∀ d ∈ reported file text strict names, d.Fault := by
  intro d hd
  rcases List.mem_append.mp hd with hd | hd
  · exact Lexer.fault_readFrom _ _ d hd
  · exact fault_reading d (List.mem_reverse.mp hd)

end Parser

namespace Binding

variable {R : Binding → Binding → Prop}

/-- The steps of binding a file respect a relation. -/
structure Walking (R : Binding → Binding → Prop) (file : String) : Prop extends Across R where
  work : ∀ {α : Type} (work : PoolM Unit α), Respects R (onScopes work)
  record : ∀ node id, Respects R (recordScope node id)
  occurrence : ∀ cx scope i, cx.file = file → Respects R (resolve cx scope i)
  call : ∀ cx scope span, cx.file = file → Respects R (noteDirectEval cx scope span)

namespace Walking

theorem clause (h : Walking R file) (parent : ScopeId) (node : NodeId) (param : Identifier) :
    Respects R (catchScope parent node param) :=
  h.catchScope (h.work _) fun _ => h.record _ _

theorem declaring (h : Walking R file) (xs : List Item) : Declaring R xs where
  toAcross := h.toAcross
  declare _ _ := h.work _
  hoist _ _ _ _ _ := h.work _
  clause := h.clause

theorem opened (h : Walking R file) (parent : ScopeId) (f : FunctionDef) :
    Respects R (openFunction parent f) := by
  obtain ⟨id, self, params, body, strict, span⟩ := f
  have hdeclare (scope : ScopeId) : Respects R (declareStmts scope body) :=
    (h.declaring _).stmts body scope (List.Subset.refl _)
  refine h.bind (h.work _) fun scope => h.bind (h.record id scope) fun _ =>
    h.bind (hdeclare scope) fun _ => ?_
  dsimp only
  split
  · exact h.bind (h.work _) fun _ => h.pure _
  · exact h.pure _

mutual

theorem expr (h : Walking R file) : (e : Expr) → (cx : Context) → (scope : ScopeId) →
    cx.file = file → Respects R (bindExpr cx scope e)
  | .number _, _, _, _ | .string _, _, _, _ | .bool _, _, _, _ | .null, _, _, _ => h.pure _
  | .this i, cx, scope, hcx | .identifier i, cx, scope, hcx => h.occurrence cx scope i hcx
  | .assign i e, cx, scope, hcx =>
    h.bind (h.occurrence cx scope i hcx) fun _ => h.expr e cx scope hcx
  | .binary _ l r, cx, scope, hcx =>
    h.bind (h.expr l cx scope hcx) fun _ => h.expr r cx scope hcx
  | .unary _ e, cx, scope, hcx | .typeof e, cx, scope, hcx | .delete e _, cx, scope, hcx =>
    h.expr e cx scope hcx
  | .call f args span, cx, scope, hcx => by
    have hrest := h.bind (h.expr f cx scope hcx) fun _ => h.exprs args cx scope hcx
    rw [bindExpr]
    dsimp only
    split
    · exact h.bind (h.call cx scope span hcx) fun _ => hrest
    · exact hrest
  | .function f, cx, scope, hcx => h.function f cx scope hcx

theorem exprs (h : Walking R file) : (es : List Expr) → (cx : Context) → (scope : ScopeId) →
    cx.file = file → Respects R (bindExprs cx scope es)
  | [], _, _, _ => h.pure _
  | e :: es, cx, scope, hcx =>
    h.bind (h.expr e cx scope hcx) fun _ => h.exprs es cx scope hcx

theorem declarators (h : Walking R file) : (ds : List Declarator) → (cx : Context) →
    (scope : ScopeId) → cx.file = file → Respects R (bindDeclarators cx scope ds)
  | [], _, _, _ => h.pure _
  | ⟨i, none⟩ :: ds, cx, scope, hcx =>
    h.bind (h.occurrence cx scope i hcx) fun _ => h.declarators ds cx scope hcx
  | ⟨i, some e⟩ :: ds, cx, scope, hcx =>
    h.bind (h.occurrence cx scope i hcx) fun _ =>
      h.bind (h.expr e cx scope hcx) fun _ => h.declarators ds cx scope hcx

theorem stmt (h : Walking R file) : (s : Stmt) → (cx : Context) → (scope : ScopeId) →
    cx.file = file → Respects R (bindStmt cx scope s)
  | .var ds, cx, scope, hcx => h.declarators ds cx scope hcx
  | .function f, cx, _, hcx => h.bind (h.query _) fun parent => h.function f cx parent hcx
  | .expr e, cx, scope, hcx | .throw e, cx, scope, hcx | .return (some e) _, cx, scope, hcx =>
    h.expr e cx scope hcx
  | .return none _, _, _, _ | .empty, _, _, _ => h.pure _
  | .if t c none, cx, scope, hcx =>
    h.bind (h.expr t cx scope hcx) fun _ => h.stmt c cx scope hcx
  | .if t c (some a), cx, scope, hcx =>
    h.bind (h.expr t cx scope hcx) fun _ =>
      h.bind (h.stmt c cx scope hcx) fun _ => h.stmt a cx scope hcx
  | .while t b, cx, scope, hcx =>
    h.bind (h.expr t cx scope hcx) fun _ => h.stmt b cx scope hcx
  | .block b, cx, scope, hcx => h.stmts b cx scope hcx
  | .try b c f, cx, scope, hcx =>
    h.bind (h.stmts b cx scope hcx) fun _ =>
      h.bind (h.handler c cx scope hcx) fun _ => h.finalizer f cx scope hcx

theorem stmts (h : Walking R file) : (ss : List Stmt) → (cx : Context) → (scope : ScopeId) →
    cx.file = file → Respects R (bindStmts cx scope ss)
  | [], _, _, _ => h.pure _
  | s :: ss, cx, scope, hcx =>
    h.bind (h.stmt s cx scope hcx) fun _ => h.stmts ss cx scope hcx

theorem handler (h : Walking R file) : (c : Option CatchClause) → (cx : Context) →
    (scope : ScopeId) → cx.file = file → Respects R (bindHandler cx scope c)
  | none, _, _, _ => h.pure _
  | some ⟨id, param, body⟩, cx, scope, hcx =>
    h.bind (h.clause scope id param) fun inner =>
      h.bind (h.occurrence cx inner param hcx) fun _ => h.stmts body cx inner hcx

theorem finalizer (h : Walking R file) : (f : Option (List Stmt)) → (cx : Context) →
    (scope : ScopeId) → cx.file = file → Respects R (bindFinalizer cx scope f)
  | none, _, _, _ => h.pure _
  | some body, cx, scope, hcx => h.stmts body cx scope hcx

theorem function (h : Walking R file) : (f : FunctionDef) → (cx : Context) →
    (parent : ScopeId) → cx.file = file → Respects R (bindFunction cx parent f)
  | ⟨id, self, params, body, strict, span⟩, cx, parent, hcx => by
    rw [bindFunction_eq]
    exact h.bind (h.opened parent _) fun inner => h.stmts body _ inner hcx

end

end Walking

/-- All that is reported are messages about a file. -/
def Tells (file : String) (b : Binding) : Prop :=
  ∀ d ∈ b.reports, d.severity = .message ∧ d.file = some file

/-- A binding that only has messages about a file to report is followed by another one. -/
def KeepsTelling (file : String) (b c : Binding) : Prop := b.Tells file → c.Tells file

theorem across_keepsTelling (file : String) : Across (KeepsTelling file) :=
  ⟨fun _ h => h, fun _ _ _ h h' hb => h' (h hb)⟩

theorem keepsTelling_onScopes {α : Type} (work : PoolM Unit α) :
    Respects (KeepsTelling file) (onScopes work) := by
  intro b a c hrun
  obtain ⟨p, -, rfl⟩ := of_run_onScopes hrun
  exact id

theorem keepsTelling_report {cx : Context} (hcx : cx.file = file) (span : Span) {m : Message}
    (hm : m.severity = .message) (arg : String) :
    Respects (KeepsTelling file) (report cx span m arg) := by
  refine respects_modify fun b hb d hd => ?_
  rcases Array.mem_push.mp hd with hd | rfl
  · exact hb d hd
  · exact ⟨hm, congrArg some hcx⟩

theorem keepsTelling_resolve (cx : Context) (scope : ScopeId) (i : Identifier)
    (hcx : cx.file = file) : Respects (KeepsTelling file) (resolve cx scope i) := by
  have h := across_keepsTelling file
  refine h.bind (h.query _) fun address => ?_
  have hlog : Respects (KeepsTelling file) (modify fun b : Binding =>
      { b with
        references := b.references.insert i.id address
        log := b.log.push ⟨i.id, i.name, i.span, scope, address⟩ }) :=
    respects_modify fun b hb => hb
  dsimp only
  split
  · exact h.bind (keepsTelling_report hcx _ rfl _) fun _ => hlog
  · exact hlog

theorem keepsTelling_noteDirectEval (cx : Context) (scope : ScopeId) (span : Span)
    (hcx : cx.file = file) : Respects (KeepsTelling file) (noteDirectEval cx scope span) := by
  have hm : (if cx.strict then Message.strictEval else .sloppyEval).severity = .message := by
    cases cx.strict <;> rfl
  refine (across_keepsTelling file).bind (respects_modify fun b hb => ?_) fun _ =>
    keepsTelling_report hcx _ hm _
  split
  · exact hb
  · exact hb

theorem walking_keepsTelling (file : String) : Walking (KeepsTelling file) file where
  toAcross := across_keepsTelling file
  work := keepsTelling_onScopes
  record _ _ := respects_modify fun _ hb => hb
  occurrence := keepsTelling_resolve
  call := keepsTelling_noteDirectEval

theorem tells_ofProgram {p : Program} {limits : Limits} {b : Binding}
    (hb : ofProgram p eval limits names = .ok b) : b.Tells p.file := by
  obtain ⟨root, scopes, -, hrun⟩ := exists_run_of_ofProgram hb
  have h := walking_keepsTelling p.file
  have hdeclare : Respects (KeepsTelling p.file) (declareStmts root p.body) :=
    (h.declaring _).stmts p.body root (List.Subset.refl _)
  refine h.bind hdeclare (fun _ => h.stmts p.body _ root rfl) _ _ _ hrun ?_
  intro d hd
  simp [start] at hd

end Binding

namespace Compilation

variable {r : Parser.Result} {limits : Limits}

/-- All that compiling can come to. -/
inductive Comes (r : Parser.Result) (eval : Bool) (limits : Limits) :
    Except CompileError Compiled → Prop
  | malformed {d : Diagnostic} : r.diagnostics.firstError? = some d →
    Comes r eval limits (.error (.malformed d))
  | unbound {e : ScopeError} : r.diagnostics.firstError? = none →
    Comes r eval limits (.error (.scope e))
  | unmade {e : Code.EmitError} : r.diagnostics.firstError? = none →
    Comes r eval limits (.error (.emit e))
  | compiled {b : Binding} {code : Code.FunctionCode} : r.diagnostics.firstError? = none →
    Binding.ofProgram r.program eval limits r.names = .ok b →
    Comes r eval limits (.ok ⟨code, b, (r.diagnostics ++ b.reports.toList : Diagnostics).sort⟩)

theorem comes_ofParse (r : Parser.Result) (eval : Bool) (limits : Limits) :
    Comes r eval limits (ofParse r eval limits) := by
  unfold ofParse
  cases hd : r.diagnostics.firstError? with
  | some d => exact .malformed hd
  | none =>
    cases hb : Binding.ofProgram r.program eval limits r.names with
    | error e => exact .unbound hd
    | ok b =>
      cases hc : Code.ofProgram b r.program with
      | error e =>
        simp only [Except.mapError, bind, Except.bind, hc]
        exact .unmade hd
      | ok code =>
        simp only [Except.mapError, bind, Except.bind, hc]
        exact .compiled hd hb

theorem Comes.exists_malformed_iff {outcome : Except CompileError Compiled}
    (h : Comes r eval limits outcome) :
    (∃ d, outcome = .error (.malformed d)) ↔ r.diagnostics.firstError? ≠ none := by
  cases h with
  | malformed hd => simp [hd]
  | unbound hd | unmade hd | compiled hd => simp [hd]

/-- What the binding of a text without errors reports is put in the order of the source. -/
theorem inOrder_reports {b : Binding} (hb : b.Tells file) :
    Diagnostics.InOrder b.reports.toList (Diagnostics.sort b.reports.toList) := by
  have hfile : ∀ d ∈ b.reports.toList, d.file = some file := by
    intro d hd
    exact (hb d (Array.mem_toList_iff.mp hd)).2
  rw [Diagnostics.sort_of_file hfile]
  exact Diagnostics.inOrder_mergeSort _

/-- A text is malformed exactly if something is wrong with its spelling or its grammar. Of all the
errors the earliest is reported, in the name of the file: in one place an error of spelling comes
before one of grammar, and else the one that was found first. A text that compiles has only the
messages of its binding, in the order of the source, and no errors. -/
theorem earliest_error_is_reported (o : Options) (file text : String) (strict eval : Bool)
    (names : Interner) :
    let reported := Parser.reported file text strict names
    let r := Parser.parse file text strict names
    let outcome := (ofText o file text strict eval names).1
    ((∃ d, outcome = .error (.malformed d)) ↔ ∃ d ∈ reported, d.isError = true) ∧
    match outcome with
    | .error (.malformed d) =>
      ∃ e, Diagnostics.Earliest reported e ∧ d = { e with file := some file }
    | .error (.scope _) | .error (.emit _) => True
    | .ok c => Binding.ofProgram r.program eval o.limits r.names = .ok c.binding ∧
      Diagnostics.InOrder c.binding.reports.toList c.diagnostics ∧
      ∀ d ∈ c.diagnostics, d.isError = false := by
  intro reported r outcome
  have hcomes : Comes r eval o.limits outcome := comes_ofParse r eval o.limits
  have hparse : r.diagnostics = (Diagnostics.attributeTo file reported).sort :=
    Parser.diagnostics_parse
  have hfault : ∀ d ∈ reported, d.Fault := Parser.fault_reported
  have hfirst := Diagnostics.firstError?_of_faults hfault file
  constructor
  · rw [hcomes.exists_malformed_iff, hparse, Diagnostics.firstError?_ne_none_iff,
      Parser.hasErrors_sort_attributeTo, Diagnostics.hasErrors, List.any_eq_true]
  · rw [← hparse] at hfirst
    generalize outcome = outcome at hcomes
    cases hcomes with
    | malformed hd => rwa [hd] at hfirst
    | unbound | unmade => trivial
    | @compiled b code hd hb =>
      have hnone : r.diagnostics = [] := by
        rw [hd] at hfirst
        rw [hparse, show reported = [] from hfirst]
        exact List.mergeSort_nil
      have htells := Binding.tells_ofProgram hb
      dsimp only
      rw [hnone, List.nil_append]
      refine ⟨hb, inOrder_reports htells, ?_⟩
      intro d hd
      obtain ⟨hmessage, -⟩ := htells d (Array.mem_toList_iff.mp (List.mem_mergeSort.mp hd))
      rw [Diagnostic.isError, hmessage]
      rfl

/-- The parameters of a function are checked after its body, but stand before it. -/
example :
    let text := "function f(a, a) \x7b 'use strict'; return +; \x7d"
    (Parser.reported "f.js" text false .wellKnown).map (·.position) = [41, 14] := by
  decide +kernel

end Compilation

end ScopeChain
