import ScopeChain.Proofs.Occurrences
import ScopeChain.Proofs.Passes
import ScopeChain.Proofs.Resolutions

/-! The log of a binding: one entry for each occurrence of a name, whose address is still the right
one when all scopes are finished. -/
namespace ScopeChain

namespace Pool

variable {p q : Pool Unit} {n : Name} {a : Address}

theorem resolveFrom_of_kept (hk : ∀ id s, p.find? id = some s → q.find? id = some s)
    (reach depth : Nat) (id : ScopeId) (h : p.resolveFrom n reach depth id = .ok a) :
    q.resolveFrom n reach depth id = .ok a := by
  induction reach generalizing depth id with
  | zero => cases h
  | succ reach ih =>
    cases hs : p.find? id with
    | none => simp [resolveFrom, get, hs, bind, Except.bind] at h
    | some s =>
      have hs' := hk id s hs
      simp only [resolveFrom, get_of_find? hs, get_of_find? hs', bind, Except.bind] at h ⊢
      by_cases hclosed : s.kind.staticallyClosed = true
      · simp only [hclosed, if_true] at h ⊢
        cases hslot : s.slot? n with
        | some k => simpa only [hslot] using h
        | none =>
          simp only [hslot] at h ⊢
          by_cases hopen : s.directEval = true
          · simpa only [hopen, if_true] using h
          · simp only [hopen] at h ⊢
            cases hpar : s.parent with
            | none => simpa only [hpar] using h
            | some parent =>
              simp only [hpar] at h ⊢
              exact ih (depth + 1) parent h
      · simpa only [hclosed, Bool.false_eq_true, if_false] using h

/-- Where scopes stay as they are, an address stays right. -/
theorem resolve_of_kept {id : ScopeId} (hl : q.limits = p.limits)
    (hk : ∀ id s, p.find? id = some s → q.find? id = some s) (h : p.resolve id n = .ok a) :
    q.resolve id n = .ok a := by
  have hreach : q.reach = p.reach := by rw [reach, hl, reach]
  rw [resolve, hreach]
  exact resolveFrom_of_kept hk _ _ _ h

end Pool

/-- The occurrence that an entry of the log is about. -/
def Reference.occurrence (r : Reference) : Identifier := ⟨r.node, r.name, r.span⟩

namespace Binding

variable {α β : Type} {b c d : Binding} {scope : ScopeId} {Γ : List Frame} {xs ys : List NodeId}
  {is js : List Identifier}

theorem Yields.of_run {f : BindM α} {Q : α → Binding → Prop} {a : α} (h : Yields f b Q)
    (hrun : f.run b = .ok (a, c)) : Q a c := by
  simp only [Yields, hrun] at h
  exact h.1

/-- Nothing was logged between two bindings. -/
def SameLog (b c : Binding) : Prop := c.log = b.log ∧ c.references = b.references

theorem across_sameLog : Across SameLog :=
  ⟨fun _ => ⟨rfl, rfl⟩, fun _ _ _ h h' => ⟨h'.1.trans h.1, h'.2.trans h.2⟩⟩

theorem sameLog_onScopes (work : PoolM Unit α) : Respects SameLog (onScopes work) := by
  intro b a c h
  obtain ⟨p, -, rfl⟩ := of_run_onScopes h
  exact ⟨rfl, rfl⟩

theorem sameLog_recordScope (node : NodeId) (id : ScopeId) :
    Respects SameLog (recordScope node id) :=
  respects_modify fun _ => ⟨rfl, rfl⟩

theorem sameLog_report (cx : Context) (span : Span) (m : Message) (arg : String) :
    Respects SameLog (report cx span m arg) :=
  respects_modify fun _ => ⟨rfl, rfl⟩

theorem sameLog_noteDirectEval (cx : Context) (scope : ScopeId) (span : Span) :
    Respects SameLog (noteDirectEval cx scope span) := by
  refine across_sameLog.bind (respects_modify fun b => ?_) fun _ => sameLog_report _ _ _ _
  split <;> exact ⟨rfl, rfl⟩

theorem sameLog_catchScope (parent : ScopeId) (node : NodeId) (param : Identifier) :
    Respects SameLog (catchScope parent node param) :=
  across_sameLog.catchScope (sameLog_onScopes _) fun _ => sameLog_recordScope _ _

/-- The walk for declarations logs nothing. -/
theorem declaring_sameLog (items : List Item) : Declaring SameLog items where
  toAcross := across_sameLog
  declare _ _ := sameLog_onScopes _
  hoist _ _ _ _ _ := sameLog_onScopes _
  clause := sameLog_catchScope

theorem sameLog_declareStmts (ss : List Stmt) (scope : ScopeId) :
    Respects SameLog (declareStmts scope ss) :=
  (declaring_sameLog _).stmts ss scope (List.Subset.refl _)

theorem sameLog_openFunction (parent : ScopeId) (f : FunctionDef) :
    Respects SameLog (openFunction parent f) := by
  obtain ⟨id, self, params, body, strict, span⟩ := f
  refine across_sameLog.bind (sameLog_onScopes _) fun scope =>
    across_sameLog.bind (sameLog_recordScope _ _) fun _ =>
      across_sameLog.bind (sameLog_declareStmts body scope) fun _ => ?_
  dsimp only
  split
  · exact across_sameLog.bind (sameLog_onScopes _) fun _ => across_sameLog.pure _
  · exact across_sameLog.pure _

/-- From one binding to a later one occurrences of names are logged. Each has the address that the
scopes of the later one give it, and scopes stay as they were. -/
structure Logged (is : List Identifier) (b c : Binding) : Prop where
  limits : c.scopes.limits = b.scopes.limits
  scopes : ∀ id s, b.scopes.find? id = some s → c.scopes.find? id = some s
  entries : ∃ rs, c.log.toList = b.log.toList ++ rs ∧ rs.map Reference.occurrence = is ∧
    (∀ r ∈ rs, c.scopes.resolve r.scope r.name = .ok r.address) ∧
    c.references = b.references.insertMany (rs.map fun r => (r.node, r.address))

theorem Logged.of_sameLog (hl : c.scopes.limits = b.scopes.limits)
    (hs : ∀ id s, b.scopes.find? id = some s → c.scopes.find? id = some s)
    (h : SameLog b c) : Logged [] b c := by
  refine ⟨hl, hs, [], ?_, rfl, nofun, ?_⟩
  · rw [h.1, List.append_nil]
  · exact h.2

theorem Logged.trans (h : Logged is b c) (h' : Logged js c d) : Logged (is ++ js) b d := by
  obtain ⟨rs, hlog, his, hres, href⟩ := h.entries
  obtain ⟨ss, hlog', hjs, hres', href'⟩ := h'.entries
  refine ⟨h'.limits.trans h.limits, fun id s hs => h'.scopes id s (h.scopes id s hs), rs ++ ss,
    ?_, ?_, ?_, ?_⟩
  · rw [hlog', hlog, List.append_assoc]
  · rw [List.map_append, his, hjs]
  · intro r hr
    rcases List.mem_append.mp hr with hr | hr
    · exact Pool.resolve_of_kept h'.limits h'.scopes (hres r hr)
    · exact hres' r hr
  · rw [List.map_append, Std.HashMap.insertMany_append, href', href]

/-- A part of the walk for names that logs some occurrences, wherever it may start. -/
def Logs (scope : ScopeId) (Γ : List Frame) (f : BindM Unit) (pre : Binding → Prop)
    (is : List Identifier) : Prop :=
  ∀ b c, b.scopes.Draft → b.scopes.Describes scope Γ → pre b → f.run b = .ok ((), c) →
    Logged is b c

section Logs

variable {f g : BindM Unit} {pre pre' P : Binding → Prop}

theorem Logs.pure : Logs scope Γ (pure ()) pre [] := by
  intro b c _ _ _ h
  cases h
  exact .of_sameLog rfl (fun _ _ hs => hs) ⟨rfl, rfl⟩

theorem Logs.imp (h : Logs scope Γ f pre is) (hpre : ∀ b, pre' b → pre b) :
    Logs scope Γ f pre' is :=
  fun b c hd hs hb hrun => h b c hd hs (hpre b hb) hrun

/-- One part of the walk after another. -/
theorem Logs.seq (hf : Logs scope Γ f pre is) (hg : Logs scope Γ g pre' js)
    (hbinds : Binds scope Γ f xs pre P) (hdis : List.Disjoint xs ys)
    (hpre : ∀ b c, Keeps (fun _ => True) (· ∈ ys) b c → pre' b → pre' c) :
    Logs scope Γ (do f; g) (fun b => pre b ∧ pre' b) (is ++ js) := by
  intro b d hd hs ⟨hb, hb'⟩ hrun
  obtain ⟨_, c, hfc, hgd⟩ := exists_of_run_bind hrun
  obtain ⟨hdc, hkc, -⟩ := (hbinds b hd hs hb).of_run hfc
  have hpc : pre' c := hpre b c (hkc.nodes fun i hi hm => hdis hm hi) hb'
  exact (hf b c hd hs hb hfc).trans (hg c d hdc (hkc.describes hs) hpc hgd)

/-- Recording an address for an occurrence of a name. -/
theorem logged_reference (i : Identifier) {a : Address}
    (h : b.scopes.resolve scope i.name = .ok a) :
    Logged [i] b { b with
      references := b.references.insert i.id a
      log := b.log.push ⟨i.id, i.name, i.span, scope, a⟩ } := by
  refine ⟨rfl, fun _ _ hs => hs, [⟨i.id, i.name, i.span, scope, a⟩], ?_, rfl, ?_, ?_⟩
  · exact Array.toList_push
  · intro r hr
    rw [List.mem_singleton] at hr
    rw [hr]
    exact h
  · exact Std.HashMap.insertMany_list_singleton.symm

theorem logs_resolve (cx : Context) (i : Identifier) :
    Logs scope Γ (resolve cx scope i) (fun _ => True) [i] := by
  intro b d _ _ _ hrun
  obtain ⟨a, c, hq, hrest⟩ := exists_of_run_bind hrun
  obtain ⟨rfl, ha⟩ := of_run_query hq
  dsimp only at hrest
  split at hrest
  · obtain ⟨_, e, hreport, hrest⟩ := exists_of_run_bind hrest
    obtain ⟨hk, hsc⟩ := (yields_report cx _ _ _ c).of_run hreport
    have hsame := sameLog_report cx _ _ _ c _ e hreport
    have hlogged : Logged [] c e :=
      .of_sameLog hk.limits (fun id s => hk.scopes id s trivial) hsame
    cases hrest
    exact hlogged.trans (logged_reference i (hsc ▸ ha))
  · cases hrest
    exact logged_reference i ha

/-- Resolving a name and then going on. -/
theorem logs_resolve_then {cx : Context} {i : Identifier}
    (hf : Logs scope Γ f (·.Fresh xs) is) (hi : i.id ∉ xs) :
    Logs scope Γ (do resolve cx scope i; f) (·.Fresh (i.id :: xs)) (i :: is) := by
  have hdis : List.Disjoint [i.id] xs := by simpa using hi
  refine ((logs_resolve cx i).seq hf (binds_resolve cx i) hdis (fresh_steady xs)).imp ?_
  intro b hb
  exact ⟨trivial, hb.subset (List.subset_cons_self _ _)⟩

/-- A note of a direct call of `eval` comes first. -/
theorem logs_noteDirectEval_then (cx : Context) (span : Span)
    (hf : Logs scope Γ f (·.Fresh xs) is) :
    Logs scope Γ (do noteDirectEval cx scope span; f) (·.Fresh xs) is := by
  intro b d hd hs hb hrun
  obtain ⟨_, c, hnote, hrest⟩ := exists_of_run_bind hrun
  obtain ⟨hk, hsc⟩ := (yields_noteDirectEval cx scope span b).of_run hnote
  have hsame := sameLog_noteDirectEval cx scope span b _ c hnote
  have hlogged : Logged [] b c :=
    .of_sameLog hk.limits (fun id s => hk.scopes id s trivial) hsame
  have hfresh : c.Fresh xs := hb.keeps (hk.nodes fun _ _ => trivial)
  exact hlogged.trans (hf c d (hsc ▸ hd) (hk.describes hs) hfresh hrest)

/-- What occurs in a function is what occurs in its body. -/
theorem logs_function {cx : Context} {f : FunctionDef} (hn : f.nodes.Nodup)
    (hbody : ∀ cx scope Γ, Logs scope Γ (bindStmts cx scope f.body) (AllDeclared · scope f.body)
      is) : Logs scope Γ (bindFunction cx scope f) (·.Fresh f.nodes) is := by
  intro b d hd hs hf hrun
  rw [bindFunction_eq] at hrun
  obtain ⟨inner, c, hopen, hrest⟩ := exists_of_run_bind hrun
  have ho := (yields_openFunction hd hs hf hn).of_run hopen
  obtain ⟨s, -, -, hds⟩ := ho.describes hs
  have hlogged : Logged [] b c := .of_sameLog ho.keeps.limits
    (fun id s hs => ho.keeps.scopes id s ⟨s, hs⟩ hs) (sameLog_openFunction scope f b _ c hopen)
  exact hlogged.trans (hbody _ inner _ c d ho.draft hds ho.declared hrest)

/-- A function declaration is bound where declarations land. -/
theorem logs_atTarget {f : ScopeId → BindM Unit} (hf : ∀ t, Logs t (Frame.target Γ) (f t) pre is) :
    Logs scope Γ (do f (← onScopes (.query (·.declarationTarget scope)))) pre is := by
  intro b d hd hs hb hrun
  obtain ⟨t, c, hq, hrest⟩ := exists_of_run_bind hrun
  obtain ⟨rfl, ht⟩ := of_run_query hq
  obtain ⟨t', htar, hdt⟩ := hs.targets
  rcases htar.declarationTarget with ht' | ht' <;> rw [ht'] at ht <;> cases ht
  exact hf t c d hd hdt hb hrest

end Logs

mutual

/-- A walk of an expression for its names logs what occurs in it. -/
theorem logs_bindExpr : (e : Expr) → (cx : Context) → (scope : ScopeId) → (Γ : List Frame) →
    e.nodes.Nodup → Logs scope Γ (bindExpr cx scope e) (·.Fresh e.nodes) e.occurrences
  | .number _, _, _, _, _ | .string _, _, _, _, _ | .bool _, _, _, _, _ | .null, _, _, _, _ =>
    .pure
  | .this i, cx, _, _, _ | .identifier i, cx, _, _, _ => (logs_resolve cx i).imp fun _ _ => trivial
  | .assign i e, cx, scope, Γ, hn => by
    obtain ⟨hi, he⟩ := List.nodup_cons.mp hn
    exact logs_resolve_then (logs_bindExpr e cx scope Γ he) hi
  | .binary _ l r, cx, scope, Γ, hn => by
    obtain ⟨hl, hr, hdis⟩ := List.nodup_append'.mp hn
    exact ((logs_bindExpr l cx scope Γ hl).seq (logs_bindExpr r cx scope Γ hr)
      (binds_bindExpr l cx scope Γ hl) hdis (fresh_steady _)).imp fun _ h => fresh_append.mp h
  | .unary _ e, cx, scope, Γ, hn | .typeof e, cx, scope, Γ, hn | .delete e _, cx, scope, Γ, hn =>
    logs_bindExpr e cx scope Γ hn
  | .call f args span, cx, scope, Γ, hn => by
    obtain ⟨hf, ha, hdis⟩ := List.nodup_append'.mp hn
    have hboth := ((logs_bindExpr f cx scope Γ hf).seq (logs_bindExprs args cx scope Γ ha)
      (binds_bindExpr f cx scope Γ hf) hdis (fresh_steady _)).imp fun _ h => fresh_append.mp h
    rw [bindExpr]
    dsimp only
    split
    · exact logs_noteDirectEval_then cx span hboth
    · exact hboth
  | .function f, cx, scope, Γ, hn => logs_bindFunction f cx scope Γ hn

theorem logs_bindExprs : (es : List Expr) → (cx : Context) → (scope : ScopeId) →
    (Γ : List Frame) → (Expr.allNodes es).Nodup → Logs scope Γ (bindExprs cx scope es)
      (·.Fresh (Expr.allNodes es)) (Expr.allOccurrences es)
  | [], _, _, _, _ => .pure
  | e :: es, cx, scope, Γ, hn => by
    obtain ⟨he, hes, hdis⟩ := List.nodup_append'.mp hn
    exact ((logs_bindExpr e cx scope Γ he).seq (logs_bindExprs es cx scope Γ hes)
      (binds_bindExpr e cx scope Γ he) hdis (fresh_steady _)).imp fun _ h => fresh_append.mp h

theorem logs_bindDeclarators : (ds : List Declarator) → (cx : Context) → (scope : ScopeId) →
    (Γ : List Frame) → (Declarator.allNodes ds).Nodup → Logs scope Γ (bindDeclarators cx scope ds)
      (·.Fresh (Declarator.allNodes ds)) (Declarator.allOccurrences ds)
  | [], _, _, _, _ => .pure
  | ⟨i, none⟩ :: ds, cx, scope, Γ, hn => by
    obtain ⟨hi, hds⟩ := List.nodup_cons.mp hn
    exact logs_resolve_then (logs_bindDeclarators ds cx scope Γ hds) hi
  | ⟨i, some e⟩ :: ds, cx, scope, Γ, hn => by
    obtain ⟨hi, hrest⟩ := List.nodup_cons.mp hn
    obtain ⟨he, hds, hdis⟩ := List.nodup_append'.mp hrest
    exact logs_resolve_then (((logs_bindExpr e cx scope Γ he).seq
      (logs_bindDeclarators ds cx scope Γ hds) (binds_bindExpr e cx scope Γ he) hdis
      (fresh_steady _)).imp fun _ h => fresh_append.mp h) hi

theorem logs_bindStmt : (s : Stmt) → (cx : Context) → (scope : ScopeId) → (Γ : List Frame) →
    s.nodes.Nodup → Logs scope Γ (bindStmt cx scope s) (Declared · scope s) s.occurrences
  | .var ds, cx, scope, Γ, hn => logs_bindDeclarators ds cx scope Γ hn
  | .function f, cx, _, Γ, hn =>
    logs_atTarget fun t => logs_bindFunction f cx t (Frame.target Γ) hn
  | .expr e, cx, scope, Γ, hn | .throw e, cx, scope, Γ, hn | .return (some e) _, cx, scope, Γ, hn =>
    logs_bindExpr e cx scope Γ hn
  | .return none _, _, _, _, _ | .empty, _, _, _, _ => .pure
  | .if t s none, cx, scope, Γ, hn => by
    obtain ⟨ht, hs, hdis⟩ := List.nodup_append'.mp hn
    exact (logs_bindExpr t cx scope Γ ht).seq (logs_bindStmt s cx scope Γ hs)
      (binds_bindExpr t cx scope Γ ht) hdis (declared_steady s scope)
  | .if t s (some a), cx, scope, Γ, hn => by
    simp only [Stmt.nodes, List.append_assoc] at hn
    obtain ⟨ht, hsa, hdis⟩ := List.nodup_append'.mp hn
    obtain ⟨hs, ha, hdis'⟩ := List.nodup_append'.mp hsa
    have hboth := (logs_bindStmt s cx scope Γ hs).seq (logs_bindStmt a cx scope Γ ha)
      (binds_bindStmt s cx scope Γ hs) hdis' (declared_steady a scope)
    refine (logs_bindExpr t cx scope Γ ht).seq hboth (binds_bindExpr t cx scope Γ ht) hdis ?_
    intro b c hk h
    exact ⟨declared_steady s scope b c (hk.nodes fun i hi => List.mem_append_left _ hi) h.1,
      declared_steady a scope b c (hk.nodes fun i hi => List.mem_append_right _ hi) h.2⟩
  | .while t s, cx, scope, Γ, hn => by
    obtain ⟨ht, hs, hdis⟩ := List.nodup_append'.mp hn
    exact (logs_bindExpr t cx scope Γ ht).seq (logs_bindStmt s cx scope Γ hs)
      (binds_bindExpr t cx scope Γ ht) hdis (declared_steady s scope)
  | .block ss, cx, scope, Γ, hn => logs_bindStmts ss cx scope Γ hn
  | .try ss h f, cx, scope, Γ, hn => by
    simp only [Stmt.nodes, List.append_assoc] at hn
    obtain ⟨hs, hhf, hdis⟩ := List.nodup_append'.mp hn
    obtain ⟨hh, hf, hdis'⟩ := List.nodup_append'.mp hhf
    have hboth := (logs_bindHandler h cx scope Γ hh).seq (logs_bindFinalizer f cx scope Γ hf)
      (binds_bindHandler h cx scope Γ hh) hdis' (finalizerDeclared_steady f scope)
    refine (logs_bindStmts ss cx scope Γ hs).seq hboth (binds_bindStmts ss cx scope Γ hs) hdis ?_
    intro b c hk hd
    exact ⟨handlerDeclared_steady h scope b c (hk.nodes fun i hi => List.mem_append_left _ hi) hd.1,
      finalizerDeclared_steady f scope b c (hk.nodes fun i hi => List.mem_append_right _ hi) hd.2⟩

theorem logs_bindStmts : (ss : List Stmt) → (cx : Context) → (scope : ScopeId) →
    (Γ : List Frame) → (Stmt.allNodes ss).Nodup → Logs scope Γ (bindStmts cx scope ss)
      (AllDeclared · scope ss) (Stmt.allOccurrences ss)
  | [], _, _, _, _ => .pure
  | s :: ss, cx, scope, Γ, hn => by
    obtain ⟨hs, hss, hdis⟩ := List.nodup_append'.mp hn
    exact (logs_bindStmt s cx scope Γ hs).seq (logs_bindStmts ss cx scope Γ hss)
      (binds_bindStmt s cx scope Γ hs) hdis (allDeclared_steady ss scope)

theorem logs_bindHandler : (h : Option CatchClause) → (cx : Context) → (scope : ScopeId) →
    (Γ : List Frame) → (Stmt.handlerNodes h).Nodup → Logs scope Γ (bindHandler cx scope h)
      (HandlerDeclared · scope h) (Stmt.handlerOccurrences h)
  | none, _, _, _, _ => .pure
  | some ⟨id, param, body⟩, cx, scope, Γ, hn => by
    obtain ⟨-, hrest⟩ := List.nodup_cons.mp hn
    obtain ⟨hparam, hbody⟩ := List.nodup_cons.mp hrest
    rintro b d hd hs ⟨inner, hnode, hin, hdecl⟩ hrun
    obtain ⟨_, c, hcatch, hrest⟩ := exists_of_run_bind hrun
    obtain ⟨rfl, rfl⟩ := (yields_catchScope_again param hnode).of_run hcatch
    have hds : b.scopes.Describes inner (⟨[param.name], true, false⟩ :: Γ) :=
      Scope.frame_catch (some scope) param.name ▸ .frame hin (.inr rfl) rfl hs
    have hdis : List.Disjoint [param.id] (Stmt.allNodes body) := by simpa using hparam
    have hboth := (logs_resolve cx param).seq
      (logs_bindStmts body cx inner (⟨[param.name], true, false⟩ :: Γ) hbody)
      (binds_resolve cx param) hdis (allDeclared_steady body inner)
    exact hboth b d hd hds ⟨trivial, hdecl⟩ hrest

theorem logs_bindFinalizer : (f : Option (List Stmt)) → (cx : Context) → (scope : ScopeId) →
    (Γ : List Frame) → (Stmt.finalizerNodes f).Nodup → Logs scope Γ (bindFinalizer cx scope f)
      (FinalizerDeclared · scope f) (Stmt.finalizerOccurrences f)
  | none, _, _, _, _ => .pure
  | some body, cx, scope, Γ, hn => logs_bindStmts body cx scope Γ hn

theorem logs_bindFunction : (f : FunctionDef) → (cx : Context) → (scope : ScopeId) →
    (Γ : List Frame) → f.nodes.Nodup →
    Logs scope Γ (bindFunction cx scope f) (·.Fresh f.nodes) f.occurrences
  | ⟨id, self, params, body, strict, span⟩, _, _, _, hn => by
    refine logs_function hn fun cx scope Γ => logs_bindStmts body cx scope Γ ?_
    exact (List.nodup_append'.mp (List.nodup_cons.mp hn).2).2.1

end

/-- The log of a finished binding has one entry for each occurrence of a name, with the address that
the finished scopes give it, and the table of addresses says the same. -/
structure Complete (b : Binding) (p : Program) : Prop where
  right : ∀ r ∈ b.log, b.scopes.resolve r.scope r.name = .ok r.address
  occurrences : b.log.toList.map Reference.occurrence = p.occurrences
  distinct : (b.log.toList.map Reference.node).Nodup
  table : ∀ i a, b.references[i]? = some a ↔ ∃ r ∈ b.log, r.node = i ∧ r.address = a

/-- A table of addresses is read like the log out of which it was made. -/
theorem getElem?_insertMany {rs : List Reference} (hn : (rs.map Reference.node).Nodup) (i : NodeId)
    (a : Address) :
    (({} : Std.HashMap NodeId Address).insertMany (rs.map fun r => (r.node, r.address)))[i]? =
      some a ↔ ∃ r ∈ rs, r.node = i ∧ r.address = a := by
  have hread (r : Reference) (hr : r ∈ rs) :
      (({} : Std.HashMap NodeId Address).insertMany
        (rs.map fun r => (r.node, r.address)))[r.node]? = some r.address := by
    refine Std.HashMap.getElem?_insertMany_list_of_mem (by simp) ?_ (List.mem_map.mpr ⟨r, hr, rfl⟩)
    rw [List.pairwise_map]
    exact (List.pairwise_map.mp hn).imp fun hne => by simpa using hne
  constructor
  · intro h
    by_cases hi : ∃ r ∈ rs, r.node = i
    · obtain ⟨r, hr, rfl⟩ := hi
      have hr' := hread r hr
      rw [h] at hr'
      exact ⟨r, hr, rfl, (Option.some.inj hr').symm⟩
    · have hnone : ((rs.map fun r => (r.node, r.address)).map Prod.fst).contains i = false := by
        simpa using hi
      rw [Std.HashMap.getElem?_insertMany_list_of_contains_eq_false hnone] at h
      simp at h
  · rintro ⟨r, hr, rfl, rfl⟩
    exact hread r hr

theorem complete_of_logged {p : Program} (hn : p.nodes.Nodup) (hlog : b.log = #[])
    (href : b.references = {}) (h : Logged p.occurrences b c) : c.Complete p := by
  obtain ⟨rs, hlog', hocc, hres, href'⟩ := h.entries
  have hrs : c.log.toList = rs := by simpa [hlog] using hlog'
  have hmem (r : Reference) : r ∈ c.log ↔ r ∈ rs := by rw [← hrs, Array.mem_toList_iff]
  have hdistinct : (rs.map Reference.node).Nodup := by
    have hids := Program.nodup_occurrences hn
    rwa [← hocc, List.map_map] at hids
  refine ⟨?_, ?_, ?_, ?_⟩
  · intro r hr
    exact hres r ((hmem r).mp hr)
  · rw [hrs, hocc]
  · rw [hrs]
    exact hdistinct
  · intro i a
    simp only [hmem, href', href]
    exact getElem?_insertMany hdistinct i a

theorem complete_ofProgram {p : Program} {eval : Bool} {limits : Limits} {names : Interner}
    (hn : p.nodes.Nodup) (hb : ofProgram p eval limits names = .ok b) : b.Complete p := by
  obtain ⟨root, scopes, h, hrun⟩ := exists_run_of_ofProgram hb
  obtain ⟨_, c, hdecl, hbind⟩ := exists_of_run_bind hrun
  obtain ⟨ha, hdesc, hdeclared⟩ :=
    (yields_declareProgram hn h.draft h.root rfl (fresh_start hn scopes root)).of_run hdecl
  obtain ⟨hlog, href⟩ := sameLog_declareStmts p.body root _ _ c hdecl
  have hbody : (Stmt.allNodes p.body).Nodup := (List.nodup_cons.mp hn).2
  exact complete_of_logged hn hlog href
    (logs_bindStmts p.body _ root [] hbody c b ha.draft hdesc hdeclared hbind)

/-- Whatever text is read, its program is bound unless too many scopes are nested. Then each address
in the log is the one that the finished scopes give to the name, the log has one entry for each
occurrence of a name, and the table of addresses has what the log has. -/
theorem resolutions_stay_valid (file text : String) (strict eval : Bool) (limits : Limits)
    (names : Interner) :
    let r := Parser.parse file text strict names
    match ofProgram r.program eval limits r.names with
    | .ok b => b.Complete r.program
    | .error e => ∃ limit, e = .depthExceeded limit := by
  intro r
  have hn : r.program.nodes.Nodup := Parser.nodup_nodes_parse file text strict names
  rcases ofProgram_spec hn eval limits r.names with ⟨b, hb, -⟩ | ⟨limit, hb, -⟩
  · rw [hb]
    exact complete_ofProgram hn hb
  · rw [hb]
    exact ⟨limit, rfl⟩

end Binding

end ScopeChain
