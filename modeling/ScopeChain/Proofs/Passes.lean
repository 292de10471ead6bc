import ScopeChain.Binding
import ScopeChain.Proofs.Operations
import ScopeChain.Proofs.Parts

/-! The walk of binding for declarations, seen from before and after: what each of its steps respects,
it respects. -/
namespace ScopeChain.Binding

variable {α β : Type} {b c d : Binding} {R : Binding → Binding → Prop} {xs : List Item}

theorem exists_of_run_bind {f : BindM α} {g : α → BindM β} {z : β}
    (h : (f >>= g).run b = .ok (z, d)) :
    ∃ a c, f.run b = .ok (a, c) ∧ (g a).run c = .ok (z, d) := by
  rw [StateT.run_bind] at h
  cases hf : f.run b with
  | error e =>
    rw [hf] at h
    cases h
  | ok r =>
    rw [hf] at h
    exact ⟨r.1, r.2, rfl, h⟩

theorem of_run_onScopes {work : PoolM Unit α} {a : α} (h : (onScopes work).run b = .ok (a, c)) :
    ∃ p, work.run b.scopes = (.ok a, p) ∧ c = { b with scopes := p } := by
  simp only [onScopes, StateT.run] at h
  split at h <;> cases h
  exact ⟨_, by assumption, rfl⟩

theorem of_run_query {f : Pool Unit → Except ScopeError α} {a : α}
    (h : (onScopes (.query f)).run b = .ok (a, c)) : c = b ∧ f b.scopes = .ok a := by
  obtain ⟨p, hp, rfl⟩ := of_run_onScopes h
  rw [PoolM.run_query] at hp
  obtain ⟨ha, rfl⟩ := Prod.mk.inj hp
  exact ⟨rfl, ha⟩

/-- Work on a binding that ends well leaves one that is related to the one before. -/
def Respects (R : Binding → Binding → Prop) (f : BindM α) : Prop :=
  ∀ b a c, f.run b = .ok (a, c) → R b c

/-- A relation between a binding and a later one. -/
structure Across (R : Binding → Binding → Prop) : Prop where
  refl : ∀ b, R b b
  trans : ∀ b c d, R b c → R c d → R b d

namespace Across

theorem pure (h : Across R) (a : α) : Respects R (pure a) := by
  intro b _ _ hrun
  cases hrun
  exact h.refl b

theorem bind (h : Across R) {f : BindM α} {g : α → BindM β} (hf : Respects R f)
    (hg : ∀ a, Respects R (g a)) : Respects R (f >>= g) := by
  intro b z d hrun
  obtain ⟨a, c, hfc, hgd⟩ := exists_of_run_bind hrun
  exact h.trans b c d (hf b a c hfc) (hg a c z d hgd)

/-- Work that first looks at the binding. -/
theorem looking {g : Binding → BindM α} (hg : ∀ b, Respects R (g b)) :
    Respects R (do g (← get)) :=
  fun b => hg b b

theorem query (h : Across R) (f : Pool Unit → Except ScopeError α) :
    Respects R (onScopes (.query f)) := by
  intro b a c hrun
  obtain ⟨rfl, -⟩ := of_run_query hrun
  exact h.refl c

/-- The answer is not used. -/
theorem ignore (h : Across R) {f : BindM α} (hf : Respects R f) :
    Respects R (do let _ ← f) :=
  h.bind hf fun _ => h.pure _

theorem forM (h : Across R) {ι : Type} {g : ι → BindM PUnit} (hg : ∀ i, Respects R (g i))
    (is : List ι) : Respects R (is.forM g) := by
  induction is with
  | nil => exact h.pure _
  | cons i is ih => exact h.bind (hg i) fun _ => ih

/-- The scope of a catch clause is made unless it is there. -/
theorem catchScope (h : Across R) {parent : ScopeId} {node : NodeId} {param : Identifier}
    (hnew : Respects R (onScopes (.newCatch (some parent) param.name)))
    (hrecord : ∀ id, Respects R (recordScope node id)) :
    Respects R (catchScope parent node param) := by
  refine looking fun b => ?_
  split
  · exact h.pure _
  · exact h.bind hnew fun id => h.bind (hrecord id) fun _ => h.pure id

end Across

theorem respects_modify {h : Binding → Binding} (hh : ∀ b, R b (h b)) : Respects R (modify h) := by
  intro b _ _ hrun
  cases hrun
  exact hh b

/-- The steps of the walk for declarations respect a relation. -/
structure Declaring (R : Binding → Binding → Prop) (xs : List Item) : Prop extends
    Across R where
  declare : ∀ scope n, Respects R (onScopes (.declare scope n))
  hoist : ∀ scope f i, .function f ∈ xs → f.self = some i →
    Respects R (onScopes (.declareHoisted scope i.name (some f.id)))
  clause : ∀ scope id param, Respects R (catchScope scope id param)

namespace Declaring

mutual

theorem stmt (h : Declaring R xs) : (s : Stmt) → (scope : ScopeId) → s.items ⊆ xs →
    Respects R (declareStmt scope s)
  | .var ds, scope, _ => by
    rw [declareStmt]
    refine h.forM ?_ ds
    intro d
    exact h.ignore (h.declare scope d.target.name)
  | .function ⟨_, none, _, _, _, _⟩, _, _ => h.pure _
  | .function ⟨id, some i, params, body, strict, span⟩, scope, hs => by
    have hmem : .function ⟨id, some i, params, body, strict, span⟩ ∈ xs := by
      apply hs
      rw [Stmt.items, FunctionDef.items]
      exact List.mem_cons_self
    have hhoist := h.hoist scope _ i hmem rfl
    rw [declareStmt]
    exact h.ignore hhoist
  | .if _ c none, scope, hs => h.stmt c scope (List.append_subset.mp hs).2
  | .if _ c (some a), scope, hs => by
    obtain ⟨-, hs⟩ := List.append_subset.mp hs
    obtain ⟨hc, ha⟩ := List.append_subset.mp hs
    exact h.bind (h.stmt c scope hc) fun _ => h.stmt a scope ha
  | .while _ s, scope, hs => h.stmt s scope (List.append_subset.mp hs).2
  | .block ss, scope, hs => h.stmts ss scope hs
  | .try ss c f, scope, hs => by
    obtain ⟨hss, hs⟩ := List.append_subset.mp hs
    obtain ⟨hc, hf⟩ := List.append_subset.mp hs
    exact h.bind (h.stmts ss scope hss) fun _ =>
      h.bind (h.handler c scope hc) fun _ => h.finalizer f scope hf
  | .expr _, _, _ | .return _ _, _, _ | .throw _, _, _ | .empty, _, _ => h.pure _

theorem stmts (h : Declaring R xs) : (ss : List Stmt) → (scope : ScopeId) →
    Stmt.allItems ss ⊆ xs → Respects R (declareStmts scope ss)
  | [], _, _ => h.pure _
  | s :: ss, scope, hs => by
    obtain ⟨hs, hss⟩ := List.append_subset.mp hs
    exact h.bind (h.stmt s scope hs) fun _ => h.stmts ss scope hss

theorem handler (h : Declaring R xs) : (c : Option CatchClause) → (scope : ScopeId) →
    Stmt.handlerItems c ⊆ xs → Respects R (declareHandler scope c)
  | none, _, _ => h.pure _
  | some ⟨id, param, body⟩, scope, hs =>
    h.bind (h.clause scope id param) fun inner =>
      h.stmts body inner (List.cons_subset.mp (List.cons_subset.mp hs).2).2

theorem finalizer (h : Declaring R xs) : (f : Option (List Stmt)) → (scope : ScopeId) →
    Stmt.finalizerItems f ⊆ xs → Respects R (declareFinalizer scope f)
  | none, _, _ => h.pure _
  | some body, scope, hs => h.stmts body scope hs

end

end Declaring

end ScopeChain.Binding
