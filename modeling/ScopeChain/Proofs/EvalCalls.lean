import ScopeChain.Proofs.Chains
import ScopeChain.Proofs.Logs

/-! Direct calls of `eval`. Binding notes the scopes from which they are made, and these lead to the
functions whose bodies contain such a call, of which the sloppy ones are marked. -/
namespace ScopeChain

namespace Pool

variable {p q : Pool Unit} {id t u x : ScopeId} {i j k : Nat}

theorem Targets.unique (h : p.Targets id t) (h' : p.Targets id u) : t = u := by
  induction h with
  | here hs hk =>
    cases h' with
    | here => rfl
    | outward hs' hc =>
      cases hs.symm.trans hs'
      simp [ScopeKind.extensible, hc] at hk
  | outward hs hc hp _ ih =>
    cases h' with
    | here hs' hk =>
      cases hs.symm.trans hs'
      simp [ScopeKind.extensible, hc] at hk
    | outward hs' _ hp' h' =>
      cases hs.symm.trans hs'
      cases hp.symm.trans hp'
      exact ih h'

theorem Targets.of_kept (hk : ∀ id s, p.find? id = some s → q.find? id = some s)
    (h : p.Targets id t) : q.Targets id t := by
  induction h with
  | here hs hext => exact .here (hk _ _ hs) hext
  | outward hs hc hp _ ih => exact .outward (hk _ _ hs) hc hp ih

theorem Above.of_kept (hk : ∀ id s, p.find? id = some s → q.find? id = some s)
    (h : p.Above k id t) : q.Above k id t := by
  induction k generalizing id with
  | zero => exact h
  | succ k ih =>
    obtain ⟨s, x, hs, hx, h⟩ := h
    exact ⟨s, x, hk _ _ hs, hx, ih h⟩

theorem Above.trans (h : p.Above i id x) (h' : p.Above j x t) : p.Above (i + j) id t := by
  induction i generalizing id with
  | zero =>
    obtain rfl : id = x := h
    rwa [Nat.zero_add]
  | succ i ih =>
    obtain ⟨s, y, hs, hy, h⟩ := h
    rw [Nat.succ_add]
    exact ⟨s, y, hs, hy, ih h⟩

theorem Targets.above (h : p.Targets id t) : ∃ k, p.Above k id t := by
  induction h with
  | here => exact ⟨0, rfl⟩
  | outward hs _ hp _ ih =>
    obtain ⟨k, hk⟩ := ih
    exact ⟨k + 1, _, _, hs, hp, hk⟩

/-- An address that a walk gives does not reach past a marked scope. -/
theorem depth_le_of_resolve {n : Name} {depth slot : Nat} {s : Scope Unit}
    (h : p.resolve id n = .ok (.static depth slot)) (hk : p.Above k id x)
    (hs : p.find? x = some s) (hopen : s.directEval = true) : depth ≤ k := by
  rw [resolve] at h
  obtain ⟨d, j, t, hresolve, -, -, hsettled⟩ | ⟨e, hresolve, -⟩ | hresolve :=
    p.resolveFrom_cases n p.reach 0 id
  · cases hresolve.symm.trans h
    rw [Nat.zero_add]
    by_contra hlt
    have hshut := (hsettled k (by omega) x s (ancestor_eq_ok_iff.mpr hk) hs).2 (by omega)
    cases hopen.symm.trans hshut
  · cases hresolve.symm.trans h
  · cases hresolve.symm.trans h

end Pool

namespace FunctionDef

theorem mem_items_iff {f h : FunctionDef} :
    .function f ∈ h.items ↔ f = h ∨ .function f ∈ Stmt.allItems h.body := by
  obtain ⟨id, self, params, body, strict, span⟩ := h
  rw [items, List.mem_cons, Item.function.injEq]

theorem mem_nodes_of_mem (h : FunctionDef) {i : NodeId} (hi : i ∈ h.id :: Stmt.allNodes h.body) :
    i ∈ h.nodes := by
  obtain ⟨id, self, params, body, strict, span⟩ := h
  obtain rfl | hi := List.mem_cons.mp hi
  · exact List.mem_cons_self
  · exact List.mem_cons_of_mem _ (List.mem_append_right _ hi)

end FunctionDef

namespace Binding

variable {α : Type} {b c d : Binding} {scope t x : ScopeId} {Γ : List Frame} {calls calls' : Bool}
  {xs ys : List Item} {es es' : List ScopeId} {rs rs' : List Reference}

/-- A scope that is marked as one whose code calls `eval` directly. -/
def Marked (b : Binding) (x : ScopeId) : Prop :=
  ∃ s, b.scopes.find? x = some s ∧ s.directEval = true

/-- Between two bindings no scope was marked and no call was noted. -/
def Calm (b c : Binding) : Prop :=
  c.evalScopes = b.evalScopes ∧ ∀ x, c.Marked x → b.Marked x

theorem across_calm : Across Calm where
  refl _ := ⟨rfl, fun _ h => h⟩
  trans _ _ _ h h' := ⟨h'.1.trans h.1, fun x hx => h.2 x (h'.2 x hx)⟩

theorem of_run_newDescriptor {kind : ScopeKind} {parent : ScopeId} {names : List Name}
    (hrun : (onScopes (.newDescriptor kind (some parent) names)).run b = .ok (x, c)) :
    let r := b.scopes.insert (.ofTable kind (some parent) (.ofNames names))
    x = r.1 ∧ c = { b with scopes := r.2 } := by
  obtain ⟨p, hp, rfl⟩ := of_run_onScopes hrun
  rw [PoolM.newDescriptor] at hp
  cases hs : b.scopes.find? parent with
  | none =>
    rw [run_bind_of_error (PoolM.run_checkParent_stale kind hs)] at hp
    cases hp
  | some s =>
    rw [run_bind_of_ok (PoolM.run_checkParent kind hs), PoolM.run_insert] at hp
    obtain ⟨hx, rfl⟩ := Prod.mk.inj hp
    exact ⟨(Except.ok.inj hx).symm, rfl⟩

theorem calm_newDescriptor (kind : ScopeKind) (parent : ScopeId) (names : List Name) :
    Respects Calm (onScopes (.newDescriptor kind (some parent) names)) := by
  intro b a c hrun
  obtain ⟨-, rfl⟩ := of_run_newDescriptor hrun
  refine ⟨rfl, ?_⟩
  rintro x ⟨s, hx, hs⟩
  rw [Pool.find?_insert] at hx
  split at hx
  · cases hx
    cases hs
  · exact ⟨s, hx, hs⟩

theorem calm_declareHoisted (id : ScopeId) (n : Name) (o : Option NodeId) :
    Respects Calm (onScopes (.declareHoisted id n o)) := by
  intro b a c hrun
  obtain ⟨p, hp, rfl⟩ := of_run_onScopes hrun
  cases ht : b.scopes.declarationTarget id with
  | error e =>
    rw [PoolM.run_declareHoisted_error n o ht] at hp
    cases hp
  | ok t =>
    obtain ⟨s, hs, -⟩ := Pool.find?_declarationTarget ht
    rw [PoolM.run_declareHoisted n o ht hs] at hp
    obtain ⟨-, rfl⟩ := Prod.mk.inj hp
    refine ⟨rfl, ?_⟩
    rintro x ⟨u, hx, hu⟩
    rw [Pool.find?_update] at hx
    split at hx
    · next heq =>
      subst heq
      rw [hs] at hx
      cases hx
      exact ⟨s, hs, hu⟩
    · exact ⟨u, hx, hu⟩

theorem calm_recordScope (node : NodeId) (id : ScopeId) : Respects Calm (recordScope node id) :=
  respects_modify fun _ => ⟨rfl, fun _ h => h⟩

/-- The walk for declarations marks nothing. -/
theorem declaring_calm (items : List Item) : Declaring Calm items where
  toAcross := across_calm
  declare _ _ := calm_declareHoisted _ _ _
  hoist _ _ _ _ _ := calm_declareHoisted _ _ _
  clause _ _ _ := across_calm.catchScope (calm_newDescriptor _ _ _) fun _ => calm_recordScope _ _

theorem marked_markDirectEval (hrun : (onScopes (.markDirectEval scope)).run b = .ok ((), c)) :
    c.evalScopes = b.evalScopes ∧ ∀ x, c.Marked x → x = scope ∨ b.Marked x := by
  obtain ⟨p, hp, rfl⟩ := of_run_onScopes hrun
  cases hs : b.scopes.find? scope with
  | none =>
    rw [PoolM.markDirectEval, PoolM.update, run_bind, PoolM.run_scope, Pool.get, hs] at hp
    cases hp
  | some s =>
    rw [PoolM.markDirectEval, PoolM.run_update hs] at hp
    obtain ⟨-, rfl⟩ := Prod.mk.inj hp
    refine ⟨rfl, ?_⟩
    rintro x ⟨u, hx, hu⟩
    by_cases heq : x = scope
    · exact .inl heq
    · exact .inr ⟨u, (Pool.find?_update_of_ne heq _).symm.trans hx, hu⟩

/-- When the scope of a function is made ready, which is a new one, no other one is marked. -/
theorem marked_openFunction {parent : ScopeId} {f : FunctionDef}
    (hrun : (openFunction parent f).run b = .ok (scope, c)) :
    b.scopes.find? scope = none ∧ c.evalScopes = b.evalScopes ∧
      ∀ x, c.Marked x → x = scope ∨ b.Marked x := by
  obtain ⟨id, self, params, body, strict, span⟩ := f
  obtain ⟨inner, c₁, hnew, hrun⟩ := exists_of_run_bind hrun
  obtain ⟨_, c₂, hrecord, hrun⟩ := exists_of_run_bind hrun
  obtain ⟨_, c₃, hdeclare, hrun⟩ := exists_of_run_bind hrun
  have hfresh : b.scopes.find? inner = none := by
    rw [(of_run_newDescriptor hnew).1]
    exact Pool.find?_insert_fst _ _
  have hdeclared : Calm b c₃ :=
    across_calm.trans _ _ _ (calm_newDescriptor _ _ _ _ _ _ hnew)
      (across_calm.trans _ _ _ (calm_recordScope _ _ _ _ _ hrecord)
        ((declaring_calm _).stmts body inner (List.Subset.refl _) _ _ _ hdeclare))
  obtain ⟨hevals, hmarked⟩ := hdeclared
  dsimp only at hrun
  split at hrun
  · obtain ⟨_, c₄, hmark, hrun⟩ := exists_of_run_bind hrun
    obtain ⟨hevals', hmarked'⟩ := marked_markDirectEval hmark
    cases hrun
    exact ⟨hfresh, hevals'.trans hevals, fun x hx => (hmarked' x hx).imp_right (hmarked x)⟩
  · cases hrun
    exact ⟨hfresh, hevals, fun x hx => .inr (hmarked x hx)⟩

/-- A call is made from a scope that leads to `x`, following parents past catch clauses. -/
def CallsFrom (c : Binding) (es : List ScopeId) (x : ScopeId) : Prop :=
  ∃ e ∈ es, c.scopes.Targets e x

/-- A function has the scope `x`, calls are made from there just if its body contains one, and the
names that occur in the body are looked for from there or from further within. -/
structure Attributed (c : Binding) (es : List ScopeId) (rs : List Reference) (f : FunctionDef)
    (x : ScopeId) : Prop where
  node : c.nodeScopes[f.id]? = some x
  scope : ∃ s, c.scopes.find? x = some s ∧ FunctionScope f s
  calls : c.CallsFrom es x ↔ Stmt.anyCallsEval f.body = true
  inside : ∀ i ∈ f.occurrences, ∃ r ∈ rs, r.occurrence = i ∧ ∃ k, c.scopes.Above k r.scope x

/-- From one binding to a later one calls are made from the scopes in `es` and names are looked for,
in code whose declarations land in `t`. That code calls `eval` itself if `calls` says so. The
functions of `xs` are bound meanwhile, and no other scope is marked. -/
structure Noted (t : ScopeId) (calls : Bool) (xs : List Item) (es : List ScopeId)
    (rs : List Reference) (b c : Binding) : Prop where
  scopes : ∀ id s, b.scopes.find? id = some s → c.scopes.find? id = some s
  nodes : ∀ (i : NodeId) x, b.nodeScopes[i]? = some x → c.nodeScopes[i]? = some x
  evals : ∀ e, e ∈ c.evalScopes ↔ e ∈ b.evalScopes ∨ e ∈ es
  log : c.log.toList = b.log.toList ++ rs
  targets : ∀ e ∈ es, ∃ x, c.scopes.Targets e x
  old : ∀ x s, b.scopes.find? x = some s → (c.CallsFrom es x ↔ x = t ∧ calls = true)
  within : ∀ r ∈ rs, ∃ k, c.scopes.Above k r.scope t
  functions : ∀ f, .function f ∈ xs → ∃ x, b.scopes.find? x = none ∧ c.Attributed es rs f x
  marked : ∀ x, c.Marked x → b.Marked x ∨ ∃ f, .function f ∈ xs ∧ c.nodeScopes[f.id]? = some x

theorem CallsFrom.append :
    c.CallsFrom (es ++ es') x ↔ c.CallsFrom es x ∨ c.CallsFrom es' x := by
  simp only [CallsFrom, List.mem_append, or_and_right, exists_or]

/-- Where calls made earlier lead to does not change. -/
theorem CallsFrom.of_kept (hk : ∀ id s, b.scopes.find? id = some s → c.scopes.find? id = some s)
    (ht : ∀ e ∈ es, ∃ x, b.scopes.Targets e x) : c.CallsFrom es x ↔ b.CallsFrom es x := by
  constructor
  · rintro ⟨e, he, hx⟩
    obtain ⟨y, hy⟩ := ht e he
    exact ⟨e, he, hx.unique (hy.of_kept hk) ▸ hy⟩
  · rintro ⟨e, he, hx⟩
    exact ⟨e, he, hx.of_kept hk⟩

theorem CallsFrom.live (h : c.CallsFrom es x) : ∃ s, c.scopes.find? x = some s := by
  obtain ⟨e, -, hx⟩ := h
  exact hx.self.live

/-- What is known of a function stays known, while other code is walked. -/
theorem Attributed.later {f : FunctionDef} (h : b.Attributed es rs f x)
    (hs : ∀ id s, b.scopes.find? id = some s → c.scopes.find? id = some s)
    (hn : ∀ (i : NodeId) x, b.nodeScopes[i]? = some x → c.nodeScopes[i]? = some x)
    (hcalls : c.CallsFrom es' x ↔ b.CallsFrom es x) (hrs : rs ⊆ rs') :
    c.Attributed es' rs' f x where
  node := hn _ _ h.node
  scope := by
    obtain ⟨s, hx, hf⟩ := h.scope
    exact ⟨s, hs _ _ hx, hf⟩
  calls := hcalls.trans h.calls
  inside i hi := by
    obtain ⟨r, hr, heq, k, hk⟩ := h.inside i hi
    exact ⟨r, hrs hr, heq, k, hk.of_kept hs⟩

namespace Noted

theorem trans (h : Noted t calls xs es rs b c) (h' : Noted t calls' ys es' rs' c d)
    (ht : ∃ s, b.scopes.find? t = some s) :
    Noted t (calls || calls') (xs ++ ys) (es ++ es') (rs ++ rs') b d := by
  have hsplit (x : ScopeId) : d.CallsFrom (es ++ es') x ↔ c.CallsFrom es x ∨ d.CallsFrom es' x := by
    rw [CallsFrom.append, CallsFrom.of_kept h'.scopes h.targets]
  refine ⟨fun id s hs => h'.scopes id s (h.scopes id s hs),
    fun i x hx => h'.nodes i x (h.nodes i x hx), fun e => ?_, ?_, ?_, fun x s hx => ?_, ?_, ?_,
    fun x hx => ?_⟩
  · rw [h'.evals, h.evals, List.mem_append, or_assoc]
  · rw [h'.log, h.log, List.append_assoc]
  · refine List.forall_mem_append.mpr ⟨fun e he => ?_, h'.targets⟩
    obtain ⟨x, hx⟩ := h.targets e he
    exact ⟨x, hx.of_kept h'.scopes⟩
  · rw [hsplit, h.old x s hx, h'.old x s (h.scopes x s hx), ← and_or_left, Bool.or_eq_true]
  · refine List.forall_mem_append.mpr ⟨fun r hr => ?_, h'.within⟩
    obtain ⟨k, hk⟩ := h.within r hr
    exact ⟨k, hk.of_kept h'.scopes⟩
  · rintro f hf
    obtain hf | hf := List.mem_append.mp hf
    · obtain ⟨x, hnew, hx⟩ := h.functions f hf
      obtain ⟨s, hs, -⟩ := hx.scope
      refine ⟨x, hnew, hx.later h'.scopes h'.nodes ?_ (List.subset_append_left _ _)⟩
      -- code walked later lands in a scope that is older than the function's
      have hne : x ≠ t := by
        rintro rfl
        obtain ⟨u, hu⟩ := ht
        cases hnew.symm.trans hu
      rw [hsplit, h'.old x s hs]
      simp [hne]
    · obtain ⟨x, hnew, hx⟩ := h'.functions f hf
      have hnone : b.scopes.find? x = none := by
        cases hs : b.scopes.find? x with
        | none => rfl
        | some s => cases hnew.symm.trans (h.scopes x s hs)
      refine ⟨x, hnone,
        hx.later (fun _ _ h => h) (fun _ _ h => h) ?_ (List.subset_append_right _ _)⟩
      have hnot : ¬ c.CallsFrom es x := by
        intro hcalls
        obtain ⟨s, hs⟩ := hcalls.live
        cases hnew.symm.trans hs
      rw [hsplit]
      simp [hnot]
  · obtain hx | ⟨f, hf, hx⟩ := h'.marked x hx
    · obtain hx | ⟨f, hf, hx⟩ := h.marked x hx
      · exact .inl hx
      · exact .inr ⟨f, List.mem_append_left _ hf, h'.nodes _ _ hx⟩
    · exact .inr ⟨f, List.mem_append_right _ hf, hx⟩

theorem of_items (h : Noted t calls xs es rs b c)
    (hxs : ∀ f, .function f ∈ ys ↔ .function f ∈ xs) : Noted t calls ys es rs b c :=
  { h with
    functions f hf := h.functions f ((hxs f).mp hf)
    marked x hx := (h.marked x hx).imp_right fun ⟨f, hf, hn⟩ => ⟨f, (hxs f).mpr hf, hn⟩ }

/-- Work in one scope that leaves all scopes as they are. -/
theorem here (ht : b.scopes.Targets scope t) (hscopes : c.scopes = b.scopes)
    (hnodes : c.nodeScopes = b.nodeScopes)
    (hevals : ∀ e, e ∈ c.evalScopes ↔ e ∈ b.evalScopes ∨ calls = true ∧ e = scope)
    (hlog : c.log.toList = b.log.toList ++ rs) (hrs : ∀ r ∈ rs, r.scope = scope) :
    Noted t calls [] (if calls then [scope] else []) rs b c := by
  have hmem (e : ScopeId) : e ∈ (if calls then [scope] else []) ↔ calls = true ∧ e = scope := by
    cases calls <;> simp
  refine ⟨fun _ _ hs => hscopes ▸ hs, fun _ _ hx => hnodes ▸ hx, fun e => ?_, hlog, fun e he => ?_,
    fun x s hx => ?_, fun r hr => ?_, nofun, fun x hx => ?_⟩
  · rw [hevals, hmem]
  · obtain ⟨-, rfl⟩ := (hmem e).mp he
    exact ⟨t, hscopes ▸ ht⟩
  · rw [CallsFrom, hscopes]
    simp only [hmem]
    constructor
    · rintro ⟨e, ⟨hcalls, rfl⟩, hx⟩
      exact ⟨hx.unique ht, hcalls⟩
    · rintro ⟨rfl, hcalls⟩
      exact ⟨scope, ⟨hcalls, rfl⟩, ht⟩
  · obtain ⟨k, hk⟩ := ht.above
    rw [hrs r hr, hscopes]
    exact ⟨k, hk⟩
  · rw [Marked, hscopes] at hx
    exact .inl hx

end Noted

/-- A part of the walk for names, wherever it may start, during which calls are noted. -/
def Notes (scope : ScopeId) (Γ : List Frame) (f : BindM Unit) (pre : Binding → Prop)
    (calls : Bool) (xs : List Item) : Prop :=
  ∀ b c t, b.scopes.Draft → b.scopes.Describes scope Γ → b.scopes.Targets scope t → pre b →
    f.run b = .ok ((), c) → ∃ es rs, Noted t calls xs es rs b c

section Notes

variable {f g : BindM Unit} {pre pre' P : Binding → Prop} {ns ms : List NodeId} {cx : Context}

theorem Notes.pure : Notes scope Γ (pure ()) pre false [] := by
  rintro b c t - - ht - ⟨⟩
  exact ⟨_, [], .here ht rfl rfl (by simp) (List.append_nil _).symm nofun⟩

theorem Notes.imp (h : Notes scope Γ f pre calls xs) (hpre : ∀ b, pre' b → pre b) :
    Notes scope Γ f pre' calls xs :=
  fun b c t hd hs ht hb hrun => h b c t hd hs ht (hpre b hb) hrun

theorem Notes.of_items (h : Notes scope Γ f pre calls xs)
    (hxs : ∀ f, .function f ∈ ys ↔ .function f ∈ xs) : Notes scope Γ f pre calls ys := by
  intro b c t hd hs ht hb hrun
  obtain ⟨es, rs, hnoted⟩ := h b c t hd hs ht hb hrun
  exact ⟨es, rs, hnoted.of_items hxs⟩

/-- One part of the walk after another. -/
theorem Notes.seq (hf : Notes scope Γ f pre calls xs) (hg : Notes scope Γ g pre' calls' ys)
    (hbinds : Binds scope Γ f ns pre P) (hdis : List.Disjoint ns ms)
    (hpre : ∀ b c, Keeps (fun _ => True) (· ∈ ms) b c → pre' b → pre' c) :
    Notes scope Γ (do f; g) (fun b => pre b ∧ pre' b) (calls || calls') (xs ++ ys) := by
  intro b d t hd hs ht ⟨hb, hb'⟩ hrun
  obtain ⟨_, c, hfc, hgd⟩ := exists_of_run_bind hrun
  obtain ⟨hdc, hkc, -⟩ := (hbinds b hd hs hb).of_run hfc
  have hpc : pre' c := hpre b c (hkc.nodes fun i hi hm => hdis hm hi) hb'
  obtain ⟨es, rs, hnoted⟩ := hf b c t hd hs ht hb hfc
  obtain ⟨es', rs', hnoted'⟩ := hg c d t hdc (hkc.describes hs) (hkc.targets ht) hpc hgd
  exact ⟨_, _, hnoted.trans hnoted' ht.self.live⟩

/-- Recording an address for an occurrence of a name. -/
theorem noted_reference (ht : b.scopes.Targets scope t) (hc : c.scopes = b.scopes ∧
    c.nodeScopes = b.nodeScopes ∧ c.evalScopes = b.evalScopes ∧ c.log = b.log) (i : Identifier)
    (a : Address) : ∃ es rs, Noted t false [] es rs b { c with
      references := c.references.insert i.id a
      log := c.log.push ⟨i.id, i.name, i.span, scope, a⟩ } := by
  obtain ⟨hscopes, hnodes, hevals, hlog⟩ := hc
  refine ⟨_, [⟨i.id, i.name, i.span, scope, a⟩], .here ht hscopes hnodes ?_ ?_ ?_⟩
  · simp [hevals]
  · simp [hlog]
  · simp

theorem notes_resolve (cx : Context) (i : Identifier) :
    Notes scope Γ (resolve cx scope i) (fun _ => True) false [] := by
  rintro b c t - - ht - hrun
  obtain ⟨a, b', hq, hrest⟩ := exists_of_run_bind hrun
  obtain ⟨rfl, -⟩ := of_run_query hq
  dsimp only at hrest
  split at hrest
  · obtain ⟨_, e, hreport, hrest⟩ := exists_of_run_bind hrest
    have he : e.scopes = b'.scopes ∧ e.nodeScopes = b'.nodeScopes ∧
        e.evalScopes = b'.evalScopes ∧ e.log = b'.log := by
      cases hreport
      exact ⟨rfl, rfl, rfl, rfl⟩
    cases hrest
    exact noted_reference ht he i a
  · cases hrest
    exact noted_reference ht ⟨rfl, rfl, rfl, rfl⟩ i a

/-- Resolving a name and then going on. -/
theorem notes_resolve_then {i : Identifier} (hf : Notes scope Γ f (·.Fresh ns) calls xs)
    (hi : i.id ∉ ns) :
    Notes scope Γ (do resolve cx scope i; f) (·.Fresh (i.id :: ns)) calls (.name i :: xs) := by
  have hdis : List.Disjoint [i.id] ns := by simpa using hi
  have hboth : Notes scope Γ (do resolve cx scope i; f) _ calls xs :=
    (notes_resolve cx i).seq hf (binds_resolve cx i) hdis (fresh_steady ns)
  refine (hboth.imp fun b hb => ⟨trivial, hb.subset (List.subset_cons_self _ _)⟩).of_items ?_
  simp

theorem notes_noteDirectEval (cx : Context) (span : Span) (ht : b.scopes.Targets scope t)
    (hrun : (noteDirectEval cx scope span).run b = .ok ((), c)) :
    ∃ es rs, Noted t true [] es rs b c := by
  obtain ⟨_, b', hnote, hreport⟩ := exists_of_run_bind hrun
  cases hnote
  cases hreport
  refine ⟨_, [], .here ht ?_ ?_ ?_ ?_ nofun⟩
  · dsimp only
    split <;> rfl
  · dsimp only
    split <;> rfl
  · intro e
    dsimp only
    split
    · next h =>
      have hmem : scope ∈ b.evalScopes := by simpa using h
      simp only [true_and]
      exact ⟨.inl, fun he => he.elim id fun heq => heq ▸ hmem⟩
    · simp
  · dsimp only
    split <;> simp

/-- A note of a direct call of `eval` comes first. -/
theorem notes_noteDirectEval_then (cx : Context) (span : Span)
    (hf : Notes scope Γ f (·.Fresh ns) calls xs) :
    Notes scope Γ (do noteDirectEval cx scope span; f) (·.Fresh ns) true xs := by
  intro b d t hd hs ht hb hrun
  obtain ⟨_, c, hnote, hrest⟩ := exists_of_run_bind hrun
  obtain ⟨hk, hsc⟩ := (yields_noteDirectEval cx scope span b).of_run hnote
  obtain ⟨es, rs, hnoted⟩ := notes_noteDirectEval cx span ht hnote
  obtain ⟨es', rs', hnoted'⟩ := hf c d t (hsc ▸ hd) (hk.describes hs) (hsc ▸ ht)
    (hb.keeps (hk.nodes fun _ _ => trivial)) hrest
  exact ⟨_, _, hnoted.trans hnoted' ht.self.live⟩

/-- What is known of a function once its body is walked from its scope. -/
theorem notes_function {h : FunctionDef} (hn : h.nodes.Nodup)
    (hbody : ∀ cx scope Γ, Notes scope Γ (bindStmts cx scope h.body) (AllDeclared · scope h.body)
      (Stmt.anyCallsEval h.body) (Stmt.allItems h.body))
    (hlogs : ∀ cx scope Γ, Logs scope Γ (bindStmts cx scope h.body) (AllDeclared · scope h.body)
      h.occurrences) :
    Notes scope Γ (bindFunction cx scope h) (·.Fresh h.nodes) false h.items := by
  intro b d t hd hs ht hf hrun
  rw [bindFunction_eq] at hrun
  obtain ⟨inner, c, hopen, hrest⟩ := exists_of_run_bind hrun
  have ho := (yields_openFunction hd hs hf hn).of_run hopen
  obtain ⟨hnew, hevals, hmarked⟩ := marked_openFunction hopen
  obtain ⟨s, hsc, hfs, hds⟩ := ho.describes hs
  have hin : c.scopes.Targets inner inner := .here hsc (by simp [ScopeKind.extensible, hfs.kind])
  obtain ⟨es, rs, hnoted⟩ := hbody _ inner _ c d inner ho.draft hds hin ho.declared hrest
  obtain ⟨rs', hlog, hocc, -⟩ := (hlogs _ inner _ c d ho.draft hds ho.declared hrest).entries
  obtain rfl : rs' = rs := List.append_cancel_left (hlog.symm.trans hnoted.log)
  obtain ⟨hlog', -⟩ := sameLog_openFunction scope h b _ c hopen
  have hkept (id : ScopeId) (s : Scope Unit) (hid : b.scopes.find? id = some s) :
      c.scopes.find? id = some s := ho.keeps.scopes id s ⟨s, hid⟩ hid
  have hold {x : ScopeId} {u : Scope Unit} (hx : b.scopes.find? x = some u) : x ≠ inner := by
    rintro rfl
    cases hnew.symm.trans hx
  have hnode (i : NodeId) (x : ScopeId) (hx : b.nodeScopes[i]? = some x) :
      c.nodeScopes[i]? = some x := by
    rw [← hx]
    refine ho.keeps.nodeScopes i fun hi => ?_
    cases (hf i (h.mem_nodes_of_mem hi)).symm.trans hx
  have hself : d.Attributed es rs' h inner := by
    refine ⟨hnoted.nodes _ _ ho.node, ⟨s, hnoted.scopes _ _ hsc, hfs⟩, ?_, ?_⟩
    · rw [hnoted.old inner s hsc]
      simp
    · intro i hi
      rw [← hocc] at hi
      obtain ⟨r, hr, rfl⟩ := List.mem_map.mp hi
      exact ⟨r, hr, rfl, hnoted.within r hr⟩
  refine ⟨es, rs', fun id s hid => hnoted.scopes id s (hkept id s hid),
    fun i x hx => hnoted.nodes i x (hnode i x hx), fun e => ?_, ?_, hnoted.targets,
    fun x u hx => ?_, fun r hr => ?_, fun f hf => ?_, fun x hx => ?_⟩
  · rw [hnoted.evals, hevals]
  · rw [hnoted.log, hlog']
  · simp [hnoted.old x u (hkept x u hx), hold hx]
  · -- the function's scope is next to the one that it is made in
    obtain ⟨k, hk⟩ := hnoted.within r hr
    obtain ⟨j, hj⟩ := (ht.of_kept hkept).above
    obtain ⟨v, hv, hparent, -⟩ := ho.scope
    have hstep : c.scopes.Above (j + 1) inner t := ⟨v, scope, hv, hparent, hj⟩
    exact ⟨k + (j + 1), hk.trans (hstep.of_kept hnoted.scopes)⟩
  · obtain rfl | hf := FunctionDef.mem_items_iff.mp hf
    · exact ⟨inner, hnew, hself⟩
    · obtain ⟨x, hx, hattributed⟩ := hnoted.functions f hf
      refine ⟨x, ?_, hattributed⟩
      cases hb : b.scopes.find? x with
      | none => rfl
      | some u => cases hx.symm.trans (hkept x u hb)
  · obtain hx | ⟨f, hf, hx⟩ := hnoted.marked x hx
    · obtain rfl | hx := hmarked x hx
      · exact .inr ⟨h, FunctionDef.mem_items_iff.mpr (.inl rfl), hself.node⟩
      · exact .inl hx
    · exact .inr ⟨f, FunctionDef.mem_items_iff.mpr (.inr hf), hx⟩

/-- A function declaration is bound where declarations land. -/
theorem notes_atTarget {f : ScopeId → BindM Unit}
    (hf : ∀ t, Notes t (Frame.target Γ) (f t) pre calls xs) :
    Notes scope Γ (do f (← onScopes (.query (·.declarationTarget scope)))) pre calls xs := by
  intro b d t hd hs ht hb hrun
  obtain ⟨u, c, hq, hrest⟩ := exists_of_run_bind hrun
  obtain ⟨rfl, hu⟩ := of_run_query hq
  obtain ⟨t', ht', hdt⟩ := hs.targets
  obtain rfl := ht'.unique ht
  rcases ht.declarationTarget with h | h <;> rw [h] at hu <;> cases hu
  exact hf _ c d _ hd hdt ht.self hb hrest

end Notes

mutual

/-- A walk of an expression for its names notes the calls in it. -/
theorem notes_bindExpr : (e : Expr) → (cx : Context) → (scope : ScopeId) → (Γ : List Frame) →
    e.nodes.Nodup → Notes scope Γ (bindExpr cx scope e) (·.Fresh e.nodes) e.callsEval e.items
  | .number _, _, _, _, _ | .string _, _, _, _, _ | .bool _, _, _, _, _ | .null, _, _, _, _ =>
    .pure
  | .this i, cx, _, _, _ | .identifier i, cx, _, _, _ =>
    ((notes_resolve cx i).imp fun _ _ => trivial).of_items (by simp [Expr.items])
  | .assign i e, cx, scope, Γ, hn => by
    obtain ⟨hi, he⟩ := List.nodup_cons.mp hn
    exact notes_resolve_then (notes_bindExpr e cx scope Γ he) hi
  | .binary _ l r, cx, scope, Γ, hn => by
    obtain ⟨hl, hr, hdis⟩ := List.nodup_append'.mp hn
    exact ((notes_bindExpr l cx scope Γ hl).seq (notes_bindExpr r cx scope Γ hr)
      (binds_bindExpr l cx scope Γ hl) hdis (fresh_steady _)).imp fun _ h => fresh_append.mp h
  | .unary _ e, cx, scope, Γ, hn | .typeof e, cx, scope, Γ, hn | .delete e _, cx, scope, Γ, hn =>
    notes_bindExpr e cx scope Γ hn
  | .call f args span, cx, scope, Γ, hn => by
    obtain ⟨hf, ha, hdis⟩ := List.nodup_append'.mp hn
    have hboth := ((notes_bindExpr f cx scope Γ hf).seq (notes_bindExprs args cx scope Γ ha)
      (binds_bindExpr f cx scope Γ hf) hdis (fresh_steady _)).imp fun _ h => fresh_append.mp h
    rw [bindExpr, Expr.callsEval]
    dsimp only
    split
    · next heval =>
      rw [heval, Bool.true_or, Bool.true_or]
      exact notes_noteDirectEval_then cx span hboth
    · next heval =>
      rw [Bool.eq_false_iff.mpr heval, Bool.false_or]
      exact hboth
  | .function f, cx, scope, Γ, hn => notes_bindFunction f cx scope Γ hn

theorem notes_bindExprs : (es : List Expr) → (cx : Context) → (scope : ScopeId) →
    (Γ : List Frame) → (Expr.allNodes es).Nodup → Notes scope Γ (bindExprs cx scope es)
      (·.Fresh (Expr.allNodes es)) (Expr.anyCallsEval es) (Expr.allItems es)
  | [], _, _, _, _ => .pure
  | e :: es, cx, scope, Γ, hn => by
    obtain ⟨he, hes, hdis⟩ := List.nodup_append'.mp hn
    exact ((notes_bindExpr e cx scope Γ he).seq (notes_bindExprs es cx scope Γ hes)
      (binds_bindExpr e cx scope Γ he) hdis (fresh_steady _)).imp fun _ h => fresh_append.mp h

theorem notes_bindDeclarators : (ds : List Declarator) → (cx : Context) → (scope : ScopeId) →
    (Γ : List Frame) → (Declarator.allNodes ds).Nodup → Notes scope Γ (bindDeclarators cx scope ds)
      (·.Fresh (Declarator.allNodes ds)) (ds.any Declarator.callsEval) (Declarator.allItems ds)
  | [], _, _, _, _ => .pure
  | ⟨i, none⟩ :: ds, cx, scope, Γ, hn => by
    obtain ⟨hi, hds⟩ := List.nodup_cons.mp hn
    exact notes_resolve_then (notes_bindDeclarators ds cx scope Γ hds) hi
  | ⟨i, some e⟩ :: ds, cx, scope, Γ, hn => by
    obtain ⟨hi, hrest⟩ := List.nodup_cons.mp hn
    obtain ⟨he, hds, hdis⟩ := List.nodup_append'.mp hrest
    exact notes_resolve_then (((notes_bindExpr e cx scope Γ he).seq
      (notes_bindDeclarators ds cx scope Γ hds) (binds_bindExpr e cx scope Γ he) hdis
      (fresh_steady _)).imp fun _ h => fresh_append.mp h) hi

theorem notes_bindStmt : (s : Stmt) → (cx : Context) → (scope : ScopeId) → (Γ : List Frame) →
    s.nodes.Nodup →
    Notes scope Γ (bindStmt cx scope s) (Declared · scope s) s.callsEval s.items
  | .var ds, cx, scope, Γ, hn => notes_bindDeclarators ds cx scope Γ hn
  | .function f, cx, _, Γ, hn =>
    notes_atTarget fun t => notes_bindFunction f cx t (Frame.target Γ) hn
  | .expr e, cx, scope, Γ, hn | .throw e, cx, scope, Γ, hn | .return (some e) _, cx, scope, Γ, hn =>
    notes_bindExpr e cx scope Γ hn
  | .return none _, _, _, _, _ | .empty, _, _, _, _ => .pure
  | .if t s none, cx, scope, Γ, hn => by
    obtain ⟨ht, hs, hdis⟩ := List.nodup_append'.mp hn
    exact (notes_bindExpr t cx scope Γ ht).seq (notes_bindStmt s cx scope Γ hs)
      (binds_bindExpr t cx scope Γ ht) hdis (declared_steady s scope)
  | .if t s (some a), cx, scope, Γ, hn => by
    simp only [Stmt.nodes, List.append_assoc] at hn
    obtain ⟨ht, hsa, hdis⟩ := List.nodup_append'.mp hn
    obtain ⟨hs, ha, hdis'⟩ := List.nodup_append'.mp hsa
    have hboth := (notes_bindStmt s cx scope Γ hs).seq (notes_bindStmt a cx scope Γ ha)
      (binds_bindStmt s cx scope Γ hs) hdis' (declared_steady a scope)
    rw [Stmt.callsEval, Bool.or_assoc]
    refine (notes_bindExpr t cx scope Γ ht).seq hboth (binds_bindExpr t cx scope Γ ht) hdis ?_
    intro b c hk h
    exact ⟨declared_steady s scope b c (hk.nodes fun i hi => List.mem_append_left _ hi) h.1,
      declared_steady a scope b c (hk.nodes fun i hi => List.mem_append_right _ hi) h.2⟩
  | .while t s, cx, scope, Γ, hn => by
    obtain ⟨ht, hs, hdis⟩ := List.nodup_append'.mp hn
    exact (notes_bindExpr t cx scope Γ ht).seq (notes_bindStmt s cx scope Γ hs)
      (binds_bindExpr t cx scope Γ ht) hdis (declared_steady s scope)
  | .block ss, cx, scope, Γ, hn => notes_bindStmts ss cx scope Γ hn
  | .try ss h f, cx, scope, Γ, hn => by
    simp only [Stmt.nodes, List.append_assoc] at hn
    obtain ⟨hs, hhf, hdis⟩ := List.nodup_append'.mp hn
    obtain ⟨hh, hf, hdis'⟩ := List.nodup_append'.mp hhf
    have hboth := (notes_bindHandler h cx scope Γ hh).seq (notes_bindFinalizer f cx scope Γ hf)
      (binds_bindHandler h cx scope Γ hh) hdis' (finalizerDeclared_steady f scope)
    rw [Stmt.callsEval, Bool.or_assoc]
    refine (notes_bindStmts ss cx scope Γ hs).seq hboth (binds_bindStmts ss cx scope Γ hs) hdis ?_
    intro b c hk hd
    exact ⟨handlerDeclared_steady h scope b c (hk.nodes fun i hi => List.mem_append_left _ hi) hd.1,
      finalizerDeclared_steady f scope b c (hk.nodes fun i hi => List.mem_append_right _ hi) hd.2⟩

theorem notes_bindStmts : (ss : List Stmt) → (cx : Context) → (scope : ScopeId) →
    (Γ : List Frame) → (Stmt.allNodes ss).Nodup → Notes scope Γ (bindStmts cx scope ss)
      (AllDeclared · scope ss) (Stmt.anyCallsEval ss) (Stmt.allItems ss)
  | [], _, _, _, _ => .pure
  | s :: ss, cx, scope, Γ, hn => by
    obtain ⟨hs, hss, hdis⟩ := List.nodup_append'.mp hn
    exact (notes_bindStmt s cx scope Γ hs).seq (notes_bindStmts ss cx scope Γ hss)
      (binds_bindStmt s cx scope Γ hs) hdis (allDeclared_steady ss scope)

theorem notes_bindHandler : (h : Option CatchClause) → (cx : Context) → (scope : ScopeId) →
    (Γ : List Frame) → (Stmt.handlerNodes h).Nodup → Notes scope Γ (bindHandler cx scope h)
      (HandlerDeclared · scope h) (Stmt.handlerCallsEval h) (Stmt.handlerItems h)
  | none, _, _, _, _ => .pure
  | some ⟨id, param, body⟩, cx, scope, Γ, hn => by
    obtain ⟨-, hrest⟩ := List.nodup_cons.mp hn
    obtain ⟨hparam, hbody⟩ := List.nodup_cons.mp hrest
    rintro b d t hd hs ht ⟨inner, hnode, hin, hdecl⟩ hrun
    obtain ⟨_, c, hcatch, hrest⟩ := exists_of_run_bind hrun
    obtain ⟨rfl, rfl⟩ := (yields_catchScope_again param hnode).of_run hcatch
    have hds : b.scopes.Describes inner (⟨[param.name], true, false⟩ :: Γ) :=
      Scope.frame_catch (some scope) param.name ▸ .frame hin (.inr rfl) rfl hs
    have hdis : List.Disjoint [param.id] (Stmt.allNodes body) := by simpa using hparam
    have hboth := (notes_resolve cx param).seq
      (notes_bindStmts body cx inner (⟨[param.name], true, false⟩ :: Γ) hbody)
      (binds_resolve cx param) hdis (allDeclared_steady body inner)
    -- the scope of the clause leads to where the declarations around it land
    have hinner : b.scopes.Targets inner t := .outward hin rfl rfl ht
    exact hboth.of_items (by simp [Stmt.handlerItems]) b d t hd hds hinner ⟨trivial, hdecl⟩ hrest

theorem notes_bindFinalizer : (f : Option (List Stmt)) → (cx : Context) → (scope : ScopeId) →
    (Γ : List Frame) → (Stmt.finalizerNodes f).Nodup → Notes scope Γ (bindFinalizer cx scope f)
      (FinalizerDeclared · scope f) (Stmt.finalizerCallsEval f) (Stmt.finalizerItems f)
  | none, _, _, _, _ => .pure
  | some body, cx, scope, Γ, hn => notes_bindStmts body cx scope Γ hn

theorem notes_bindFunction : (f : FunctionDef) → (cx : Context) → (scope : ScopeId) →
    (Γ : List Frame) → f.nodes.Nodup →
    Notes scope Γ (bindFunction cx scope f) (·.Fresh f.nodes) false f.items
  | ⟨id, self, params, body, strict, span⟩, _, _, _, hn => by
    have hbody : (Stmt.allNodes body).Nodup :=
      (List.nodup_append'.mp (List.nodup_cons.mp hn).2).2.1
    exact notes_function hn (fun cx scope Γ => notes_bindStmts body cx scope Γ hbody)
      fun cx scope Γ => logs_bindStmts body cx scope Γ hbody

end

/-- What binding finds out about a function, whose scope is `x`. -/
structure Detected (b : Binding) (f : FunctionDef) (x : ScopeId) (s : Scope Unit) : Prop where
  node : b.nodeScopes[f.id]? = some x
  scope : b.scopes.find? x = some s
  kind : s.kind = .function
  calls : Stmt.anyCallsEval f.body = true ↔ ∃ e ∈ b.evalScopes, b.scopes.Targets e x
  mark : s.directEval = true ↔ f.strict = false ∧ ∃ e ∈ b.evalScopes, b.scopes.Targets e x
  inside : ∀ r ∈ b.log, r.occurrence ∈ f.occurrences → ∃ k, b.scopes.Above k r.scope x

/-- What is found out about all functions of a program. Only they are marked, and no name is
resolved past a marked one. -/
structure Detecting (b : Binding) (p : Program) : Prop where
  functions : ∀ f, .function f ∈ p.items → ∃ x s, b.Detected f x s
  marked : ∀ x, b.Marked x → ∃ f, .function f ∈ p.items ∧ b.nodeScopes[f.id]? = some x
  references : ∀ r ∈ b.log, ∀ x k, b.Marked x → b.scopes.Above k r.scope x → ∀ depth slot,
    r.address = .static depth slot → depth ≤ k

theorem Attributed.detected {p : Program} {f : FunctionDef} (h : b.Attributed es rs f x)
    (hes : ∀ e, e ∈ b.evalScopes ↔ e ∈ es) (hlog : b.log.toList = rs) (hb : b.Complete p) :
    ∃ s, b.Detected f x s := by
  obtain ⟨s, hs, hf⟩ := h.scope
  have hcalls : (∃ e ∈ b.evalScopes, b.scopes.Targets e x) ↔ Stmt.anyCallsEval f.body = true := by
    simp only [hes]
    exact h.calls
  refine ⟨s, h.node, hs, hf.kind, hcalls.symm, ?_, fun r hr hocc => ?_⟩
  · rw [hf.directEval, hcalls, Bool.and_eq_true, Bool.not_eq_true']
  · -- the log has one entry for each occurrence
    obtain ⟨r', hr', heq, hk⟩ := h.inside _ hocc
    rw [← hlog] at hr'
    have hnode : r'.node = r.node := congrArg Identifier.id heq
    obtain rfl := List.inj_on_of_nodup_map hb.distinct hr' (Array.mem_toList_iff.mpr hr) hnode
    exact hk

theorem Started.not_marked {root : ScopeId} {scopes : Pool Unit} {eval : Bool} {limits : Limits}
    (h : Started root scopes eval limits) {node : NodeId} :
    ¬ (start scopes root node).Marked x := by
  rintro ⟨s, hs, hopen⟩
  obtain ⟨-, rfl⟩ := Prod.mk.inj ((run_newRoot eval (.empty limits)).symm.trans h.run)
  have hfind := (Pool.empty limits : Pool Unit).find?_insert
    (.ofTable (rootKind eval) none (.ofNames [])) x
  replace hfind := hfind.symm.trans hs
  split at hfind
  · cases hfind
    cases hopen
  · simp [Pool.find?, Pool.empty] at hfind

theorem detecting_ofProgram {p : Program} {eval : Bool} {limits : Limits} {names : Interner}
    (hn : p.nodes.Nodup) (hb : ofProgram p eval limits names = .ok b) : b.Detecting p := by
  have hcomplete := complete_ofProgram hn hb
  obtain ⟨root, scopes, h, hrun⟩ := exists_run_of_ofProgram hb
  obtain ⟨_, c, hdecl, hbind⟩ := exists_of_run_bind hrun
  obtain ⟨ha, hdesc, hdeclared⟩ :=
    (yields_declareProgram hn h.draft h.root rfl (fresh_start hn scopes root)).of_run hdecl
  obtain ⟨hlog, -⟩ := sameLog_declareStmts p.body root _ _ c hdecl
  obtain ⟨hevals, hmarked⟩ :=
    (declaring_calm _).stmts p.body root (List.Subset.refl _) _ _ _ hdecl
  obtain ⟨t, ht, -⟩ := hdesc.targets
  obtain ⟨es, rs, hnoted⟩ := notes_bindStmts p.body _ root [] (List.nodup_cons.mp hn).2 c b t
    ha.draft hdesc ht hdeclared hbind
  have hes (e : ScopeId) : e ∈ b.evalScopes ↔ e ∈ es := by
    rw [hnoted.evals, hevals]
    simp [start]
  have hrs : b.log.toList = rs := by
    rw [hnoted.log, hlog]
    simp [start]
  refine ⟨fun f hf => ?_, fun x hx => ?_, fun r hr x k hx hk depth slot ha => ?_⟩
  · obtain ⟨x, -, hx⟩ := hnoted.functions f hf
    obtain ⟨s, hs⟩ := hx.detected hes hrs hcomplete
    exact ⟨x, s, hs⟩
  · exact (hnoted.marked x hx).resolve_left fun hc => h.not_marked (hmarked x hc)
  · obtain ⟨s, hs, hopen⟩ := hx
    have hresolve := hcomplete.right r hr
    rw [ha] at hresolve
    exact Pool.depth_le_of_resolve hresolve hk hs hopen

/-- Whatever text is read, its program is bound unless too many scopes are nested. Then the two ways
of telling that a function calls `eval` directly agree: its body contains such a call just if
binding notes one from a scope that leads to the function's past catch clauses. Just the sloppy
functions among these are marked, and from within a marked one no address reaches past it. -/
theorem detectors_agree (file text : String) (strict eval : Bool) (limits : Limits)
    (names : Interner) :
    let r := Parser.parse file text strict names
    match ofProgram r.program eval limits r.names with
    | .ok b => b.Detecting r.program
    | .error e => ∃ limit, e = .depthExceeded limit := by
  intro r
  have hn : r.program.nodes.Nodup := Parser.nodup_nodes_parse file text strict names
  rcases ofProgram_spec hn eval limits r.names with ⟨b, hb, -⟩ | ⟨limit, hb, -⟩
  · rw [hb]
    exact detecting_ofProgram hn hb
  · rw [hb]
    exact ⟨limit, rfl⟩

end Binding

end ScopeChain
