import ScopeChain.Proofs.Stores

/-! Operations on a pool do what the same operations do on maps: one step at a time, and so in every
run. -/
namespace ScopeChain

variable {V : Type} [Inhabited V] {α β : Type} {p q : Pool V} {id t : ScopeId} {s : Scope V}
  {n : Name}

namespace Pool

/-- All scopes of the pool are tidy. -/
def Tidy (p : Pool V) : Prop := p.Each Scope.Tidy

theorem store_next (p : Pool V) : p.store p.next = none := by
  rw [store, p.find?_next]
  rfl

theorem store_eq_none_iff : p.store id = none ↔ p.find? id = none := by simp [store]

theorem store_of_find? (h : p.find? id = some s) : p.store id = some s.cell := by simp [store, h]

theorem get_store_of_find? (h : p.find? id = some s) : p.store.get id = .ok s.cell := by
  simp [Store.get, store_of_find? h]

theorem store_update (h : p.find? id = some s) {f : Scope V → Scope V} {g : Cell V → Cell V}
    (hfg : (f s).cell = g s.cell) : (p.update id f).store = p.store.change id g := by
  funext x
  by_cases hx : x = id
  · rw [hx, Store.change, Function.update_self, store_of_find? h,
      store_of_find? (find?_update_self h f), hfg]
    rfl
  · rw [Store.change, Function.update_of_ne hx, store, store, find?_update_of_ne hx]

theorem store_insert (p : Pool V) (s : Scope V) :
    (p.insert s).2.store = Function.update p.store p.next (some s.cell) := by
  funext x
  rw [store, find?_insert, fst_insert]
  by_cases hx : x = p.next
  · rw [if_pos hx, hx, Function.update_self]
    rfl
  · rw [if_neg hx, Function.update_of_ne hx]
    rfl

theorem store_erase (id : ScopeId) : (p.erase id).store = Function.update p.store id none := by
  funext x
  rw [store, find?_erase]
  by_cases hx : x = id
  · rw [if_pos hx, hx, Function.update_self]
    rfl
  · rw [if_neg hx, Function.update_of_ne hx]
    rfl

theorem get_store_of_none (h : p.find? id = none) :
    p.store.get id = .error (.staleHandle id) ∧ p.get id = .error (.staleHandle id) := by
  simp [Store.get, store, get, h]

omit [Inhabited V] in
theorem targetFrom_succ {σ : Store V} {c : Cell V} (h : σ.get id = .ok c) (limit reach : Nat) :
    σ.targetFrom limit (reach + 1) id = if c.forwards then
      match c.parent with
      | some parent => σ.targetFrom limit reach parent
      | none => .error (.missingParent .catch)
    else .ok id := by
  simp only [Store.targetFrom, h, bind, Except.bind]
  rfl

theorem target_store (p : Pool V) (id : ScopeId) :
    p.store.target p.limits.maxDepth id = p.declarationTarget id := by
  have walk (reach : Nat) (id : ScopeId) :
      p.store.targetFrom p.limits.maxDepth reach id = p.declarationTargetFrom reach id := by
    induction reach generalizing id with
    | zero => rfl
    | succ reach ih =>
      cases hs : p.find? id with
      | none =>
        obtain ⟨hstore, hpool⟩ := get_store_of_none hs
        simp [Store.targetFrom, declarationTargetFrom, hstore, hpool, bind, Except.bind]
      | some s =>
        rw [targetFrom_succ (get_store_of_find? hs), declarationTargetFrom_succ hs]
        by_cases hk : s.kind = .catch
        · have hext : s.kind.extensible = false := by simp [ScopeKind.extensible, hk]
          have hforwards : s.cell.forwards = true := by simp [Scope.cell, hext]
          rw [if_pos hforwards, if_neg (Bool.eq_false_iff.mp hext), hk]
          change (match s.parent with
            | some parent => p.store.targetFrom p.limits.maxDepth reach parent
            | none => .error (.missingParent .catch)) = _
          cases s.parent with
          | none => rfl
          | some parent => exact ih parent
        · have hext : s.kind.extensible = true := by simp [ScopeKind.extensible, hk]
          have hforwards : s.cell.forwards = false := by simp [Scope.cell, hext]
          rw [if_neg (Bool.eq_false_iff.mp hforwards), if_pos hext]
  exact walk (p.limits.maxDepth + 1) id

theorem lookup_store (p : Pool V) (id : ScopeId) (n : Name) :
    p.store.lookup p.limits.maxDepth id n = (p.lookup id n).map (Option.map Prod.fst) := by
  have walk (reach : Nat) (id : Option ScopeId) :
      p.store.lookupFrom p.limits.maxDepth n reach id =
        (p.lookupFrom n reach id).map (Option.map Prod.fst) := by
    induction reach generalizing id with
    | zero => cases id <;> rfl
    | succ reach ih =>
      cases id with
      | none => rfl
      | some id =>
        cases hs : p.find? id with
        | none =>
          obtain ⟨hstore, hpool⟩ := get_store_of_none hs
          simp [Store.lookupFrom, lookupFrom, hstore, hpool, bind, Except.bind, Except.map]
        | some s =>
          rw [lookupFrom_succ hs]
          simp only [Store.lookupFrom, get_store_of_find? hs, bind, Except.bind]
          cases hslot : s.slot? n with
          | some k =>
            rw [Scope.value_of_slot? hslot]
            rfl
          | none =>
            rw [Scope.value_eq_none_iff.mpr hslot]
            exact ih s.parent
  exact walk (p.limits.maxDepth + 1) (some id)

end Pool

open Pool (Tidy)

/-- Work on a pool and work on the maps end alike: with answers that belong together or with the same
error, and with the pool and the maps that it shows. -/
inductive Follows (p : Pool V) (Q : α → β → Pool V → Prop) :
    Except ScopeError α × Pool V → Except ScopeError β × Store V → Prop where
  | ok {a : α} {b : β} {q : Pool V} : q.Tidy → q.limits = p.limits → Q a b q →
    Follows p Q (.ok a, q) (.ok b, q.store)
  | error (e : ScopeError) {q : Pool V} : q.Tidy → q.limits = p.limits →
    Follows p Q (.error e, q) (.error e, q.store)

/-- Work on a pool does what other work does on the maps. -/
def Refines (p : Pool V) (f : PoolM V α) (g : StoreM V β) (Q : α → β → Pool V → Prop) : Prop :=
  Follows p Q (f.run p) (g.run p.store)

section Rules

variable {α' β' : Type} {f : PoolM V α} {g : StoreM V β} {Q : α → β → Pool V → Prop}
  {f' : α → PoolM V α'} {g' : β → StoreM V β'} {R : α' → β' → Pool V → Prop}

theorem Refines.pure (h : p.Tidy) {a : α} {b : β} (hq : Q a b p) :
    Refines p (pure a) (pure b) Q :=
  .ok h rfl hq

theorem Refines.bind (hfg : Refines p f g Q)
    (hrest : ∀ a b q, q.Tidy → q.limits = p.limits → Q a b q → Refines q (f' a) (g' b) R) :
    Refines p (f >>= f') (g >>= g') R := by
  unfold Refines at hfg ⊢
  rw [run_bind, run_bind]
  generalize f.run p = r at hfg
  generalize g.run p.store = u at hfg
  cases hfg with
  | @ok a b q hq hl hab =>
    have hnext := hrest a b q hq hl hab
    unfold Refines at hnext
    dsimp only
    generalize (f' a).run q = r' at hnext ⊢
    generalize (g' b).run q.store = u' at hnext ⊢
    cases hnext with
    | ok hq' hl' hab' => exact .ok hq' (hl'.trans hl) hab'
    | error e hq' hl' => exact .error e hq' (hl'.trans hl)
  | error e hq hl => exact .error e hq hl

theorem Refines.imp {Q' : α → β → Pool V → Prop} (hfg : Refines p f g Q)
    (hq : ∀ a b q, Q a b q → Q' a b q) : Refines p f g Q' := by
  unfold Refines at hfg ⊢
  generalize f.run p = r at hfg ⊢
  generalize g.run p.store = u at hfg ⊢
  cases hfg with
  | ok ht hl hab => exact .ok ht hl (hq _ _ _ hab)
  | error e ht hl => exact .error e ht hl

/-- Both end well and leave what `q` shows. -/
theorem Refines.of_run {a : α} {b : β} (hf : f.run p = (.ok a, q))
    (hg : g.run p.store = (.ok b, q.store)) (hq : q.Tidy) (hl : q.limits = p.limits)
    (hab : Q a b q) : Refines p f g Q := by
  unfold Refines
  rw [hf, hg]
  exact .ok hq hl hab

theorem Refines.of_error {e : ScopeError} (h : p.Tidy) (hf : f.run p = (.error e, p))
    (hg : g.run p.store = (.error e, p.store)) : Refines p f g Q := by
  unfold Refines
  rw [hf, hg]
  exact .error e h rfl

end Rules

omit [Inhabited V] in
theorem StoreM.run_query (f : Store V → Except ScopeError α) (σ : Store V) :
    (StoreM.query f).run σ = (f σ, σ) := by
  rw [StoreM.query, run_bind_of_ok (run_get σ)]
  cases f σ <;> rfl

/-- A question is put to the pool and to the maps. -/
theorem refines_query {f : Pool V → Except ScopeError α} {g : Store V → Except ScopeError β}
    (h : p.Tidy) {Q : α → β → Prop} (hfg : (∃ a b, f p = .ok a ∧ g p.store = .ok b ∧ Q a b) ∨
      ∃ e, f p = .error e ∧ g p.store = .error e) :
    Refines p (PoolM.query f) (StoreM.query g) fun a b q => q = p ∧ Q a b := by
  rcases hfg with ⟨a, b, hf, hg, hab⟩ | ⟨e, hf, hg⟩
  · refine .of_run (a := a) (b := b) ?_ ?_ h rfl ⟨rfl, hab⟩
    · rw [PoolM.run_query, hf]
    · rw [StoreM.run_query, hg]
  · refine .of_error (e := e) h ?_ ?_
    · rw [PoolM.run_query, hf]
    · rw [StoreM.run_query, hg]

/-- Asking for a scope. -/
theorem refines_get (h : p.Tidy) (id : ScopeId) :
    Refines p (PoolM.scope id) (StoreM.query (·.get id)) fun s c q =>
      q = p ∧ p.find? id = some s ∧ c = s.cell := by
  refine refines_query h ?_
  cases hs : p.find? id with
  | none =>
    obtain ⟨hstore, hpool⟩ := Pool.get_store_of_none hs
    exact .inr ⟨_, hpool, hstore⟩
  | some s => exact .inl ⟨s, s.cell, Pool.get_of_find? hs, Pool.get_store_of_find? hs, rfl, rfl⟩

/-- Asking for a scope and its values. -/
theorem refines_opened (h : p.Tidy) (id : ScopeId) :
    Refines p (PoolM.query (·.valuesOf id)) (StoreM.query (·.opened id)) fun a c q =>
      q = p ∧ p.find? id = some a.1 ∧ a.1.values = some a.2 ∧ c = a.1.cell := by
  refine refines_query h ?_
  cases hs : p.find? id with
  | none =>
    obtain ⟨hstore, hpool⟩ := Pool.get_store_of_none hs
    refine .inr ⟨.staleHandle id, ?_, ?_⟩
    · simp [Pool.valuesOf, hpool, bind, Except.bind]
    · simp [Store.opened, hstore, bind, Except.bind]
  | some s =>
    have hget := Pool.get_store_of_find? hs
    cases hvs : s.values with
    | none =>
      refine .inr ⟨.unmaterialized id, ?_, ?_⟩
      · simp [Pool.valuesOf, Pool.get_of_find? hs, hvs, bind, Except.bind]
      · simp [Store.opened, hget, Scope.cell, hvs, bind, Except.bind]
    | some vs =>
      refine .inl ⟨(s, vs), s.cell, Pool.valuesOf_of_find? hs hvs, ?_, rfl, hvs, rfl⟩
      simp [Store.opened, hget, Scope.cell, hvs, bind, Except.bind, Pure.pure, Except.pure]

/-- Changing a scope that is there. -/
theorem refines_modify (h : p.Tidy) (hs : p.find? id = some s) {f : Scope V → Scope V}
    {g : Cell V → Cell V} (hf : (f s).Tidy) (hfg : (f s).cell = g s.cell) :
    Refines p (modify (·.update id f)) (modify (·.change id g)) fun _ _ q =>
      q.find? id = some (f s) := by
  have hrun : (modify (·.change id g) : StoreM V PUnit).run p.store =
      (.ok ⟨⟩, (p.update id f).store) := by
    rw [run_modify, Pool.store_update hs hfg]
  exact .of_run (run_modify _ p) hrun (h.update hs hf) rfl (Pool.find?_update_self hs f)

/-- Changing a scope that must be there. -/
theorem refines_update (h : p.Tidy) (id : ScopeId) {f : Scope V → Scope V} {g : Cell V → Cell V}
    (hf : ∀ s : Scope V, s.Tidy → (f s).Tidy) (hfg : ∀ s : Scope V, (f s).cell = g s.cell) :
    Refines p (PoolM.update id f) (StoreM.alter id g) fun _ _ _ => True := by
  refine (refines_get h id).bind ?_
  rintro s c q hq - ⟨rfl, hs, rfl⟩
  exact (refines_modify hq hs (hf s (hq id s hs)) (hfg s)).imp fun _ _ _ _ => trivial

theorem refines_checkParent (h : p.Tidy) (kind : ScopeKind) (parent : Option ScopeId) :
    Refines p (PoolM.checkParent kind parent) (StoreM.query (·.admits kind parent))
      fun _ _ q => q = p ∧ (kind = .catch → parent.isSome = true) := by
  cases parent with
  | none =>
    cases hreq : kind.requiresParent with
    | true =>
      refine .of_error (e := .missingParent kind) h ?_ ?_
      · rw [PoolM.checkParent, hreq]
        rfl
      · rw [StoreM.run_query, Store.admits, hreq]
        rfl
    | false =>
      have hkind : kind = .catch → (none : Option ScopeId).isSome = true := by
        rintro rfl
        cases hreq
      refine .of_run (a := ⟨⟩) (b := ⟨⟩) ?_ ?_ h rfl ⟨rfl, hkind⟩
      · rw [PoolM.checkParent, hreq]
        rfl
      · rw [StoreM.run_query, Store.admits, hreq]
        rfl
  | some id =>
    cases hs : p.find? id with
    | none =>
      obtain ⟨hstore, hpool⟩ := Pool.get_store_of_none hs
      refine .of_error (e := .staleHandle id) h ?_ ?_
      · rw [PoolM.checkParent, run_bind, PoolM.run_scope, hpool]
      · rw [StoreM.run_query, Store.admits, hstore]
        rfl
    | some s =>
      refine .of_run (a := ⟨⟩) (b := ⟨⟩) (PoolM.run_checkParent kind hs) ?_ h rfl ⟨rfl, fun _ => rfl⟩
      rw [StoreM.run_query, Store.admits, Pool.get_store_of_find? hs]
      rfl

/-- What remains to be done to make a scope once its parent is found good. -/
def Maker.place (m : Maker) : PoolM V ScopeId :=
  match m with
  | .template .. | .catchInstance .. => .insert (.filled m.kind m.parent m.names)
  | .evalInstance _ | .globalInstance => do
    let id ← .insert (.ofTable m.kind m.parent (.ofNames m.names))
    .materialize id
    return id
  | .global | .function .. | .catch .. | .eval _ =>
    .insert (.ofTable m.kind m.parent (.ofNames m.names))

theorem Maker.run_eq (m : Maker) :
    (m.run : PoolM V ScopeId) = PoolM.checkParent m.kind m.parent >>= fun _ => m.place := by
  cases m with
  | evalInstance | globalInstance => exact bind_assoc _ _ _
  | _ => rfl

omit [Inhabited V] in
theorem run_insert_next (p : Pool V) (s : Scope V) :
    (PoolM.insert s).run p = (.ok p.next, (p.insert s).2) := by
  rw [PoolM.run_insert, Pool.fst_insert]

/-- The scope that is made, its room for values with it. -/
def Maker.scope (m : Maker) : Scope V :=
  match m with
  | .template .. | .catchInstance .. => .filled m.kind m.parent m.names
  | .evalInstance _ | .globalInstance =>
    (Scope.ofTable m.kind m.parent (.ofNames m.names) : Scope V).materialize
  | .global | .function .. | .catch .. | .eval _ => .ofTable m.kind m.parent (.ofNames m.names)

theorem Maker.run_place (m : Maker) (p : Pool V) :
    m.place.run p = (.ok p.next, (p.insert m.scope).2) := by
  cases m with
  | evalInstance | globalInstance => exact PoolM.run_materialized (run_insert_next p _)
  | global | function | «catch» | eval | template | catchInstance => exact run_insert_next p _

theorem Maker.tidy_scope (m : Maker) (hm : m.kind = .catch → m.parent.isSome = true) :
    (m.scope : Scope V).Tidy := by
  cases m with
  | template | catchInstance => exact Scope.tidy_filled hm
  | evalInstance | globalInstance => exact (Scope.tidy_ofTable hm).materialize
  | global | function | «catch» | eval => exact Scope.tidy_ofTable hm

theorem Maker.cell_scope (m : Maker) : (m.scope : Scope V).cell = m.cell := by
  cases m with
  | template | catchInstance => exact Scope.cell_filled
  | evalInstance | globalInstance =>
    rw [scope, Scope.cell_materialize, Scope.cell_ofTable]
    rfl
  | global | function | «catch» | eval => exact Scope.cell_ofTable

theorem refines_make (h : p.Tidy) (m : Maker) :
    Refines p m.run (StoreM.make p.next m) fun a b _ => a = b := by
  rw [Maker.run_eq]
  refine (refines_checkParent h m.kind m.parent).bind ?_
  rintro _ _ q hq - ⟨rfl, hm⟩
  have htidy : (m.scope : Scope V).Tidy := m.tidy_scope hm
  have hmaps : (do modify (Function.update · q.next (some m.cell)); return q.next :
      StoreM V ScopeId).run q.store = (.ok q.next, (q.insert m.scope).2.store) := by
    rw [run_bind_of_ok (run_modify _ _), Pool.store_insert, m.cell_scope]
    rfl
  exact .of_run (m.run_place q) hmaps (hq.insert htidy) Pool.limits_insert rfl

theorem refines_declareHoisted (h : p.Tidy) (id : ScopeId) (n : Name) (o : Option NodeId) :
    Refines p (PoolM.declareHoisted id n o) (StoreM.declare p.limits.maxDepth id n)
      fun a t q => a.1 = t ∧ ∃ s, q.find? t = some s ∧ s.slot? n = some a.2 := by
  have htarget := Pool.target_store p id
  cases ht : p.declarationTarget id with
  | error e =>
    refine .of_error h (PoolM.run_declareHoisted_error n o ht) ?_
    rw [StoreM.declare, run_bind, StoreM.run_query, htarget, ht]
  | ok t =>
    obtain ⟨s, hs, -⟩ := Pool.find?_declarationTarget ht
    have htidy := h t s hs
    have hnew := htidy.declareHoisted p.limits.growthSlack n o
    have hcell := htidy.cell_declareHoisted p.limits.growthSlack n o
    have hslot := htidy.slot?_declareHoisted p.limits.growthSlack n n o
    rw [if_pos rfl] at hslot
    have hmaps : (StoreM.declare p.limits.maxDepth id n).run p.store = (.ok t, (p.update t fun _ =>
        (s.declareHoisted p.limits.growthSlack n o).2).store) := by
      have hquery : (StoreM.query (·.target p.limits.maxDepth id)).run p.store =
          (.ok t, p.store) := by
        rw [StoreM.run_query, htarget, ht]
      rw [StoreM.declare, run_bind_of_ok hquery, run_bind_of_ok (run_modify _ _),
        Pool.store_update (g := (·.declare n)) hs hcell]
      rfl
    exact .of_run (PoolM.run_declareHoisted n o ht hs) hmaps (h.update hs hnew) rfl
      ⟨rfl, _, Pool.find?_update_self hs _, hslot⟩

/-- A value is put into the slot of a name. -/
theorem refines_store {k : Nat} (h : p.Tidy) (hs : p.find? id = some s) (hn : s.slot? n = some k)
    (v : V) : Refines p (PoolM.store id k v) (StoreM.assign id n v) fun _ _ _ => True := by
  refine (refines_opened h id).bind ?_
  rintro ⟨u, vs⟩ c q hq - ⟨rfl, hu, hvs, rfl⟩
  have hsu : s = u := Option.some.inj (hs.symm.trans hu)
  subst hsu
  have htidy := hq id s hs
  have hk : k < vs.size := htidy.lt_size hvs hn
  dsimp only
  rw [if_pos hk]
  exact (refines_modify (f := (·.setSlot k v)) hq hs (htidy.setSlot hvs hn v)
    (htidy.cell_setSlot hvs hn v)).imp fun _ _ _ _ => trivial

theorem refines_setValue (h : p.Tidy) (id : ScopeId) (n : Name) (v : V) :
    Refines p (PoolM.setValue id n v) (StoreM.setValue p.limits.maxDepth id n v)
      fun _ _ _ => True := by
  refine (refines_opened h id).bind ?_
  rintro ⟨s, vs⟩ c q hq - ⟨rfl, hs, hvs, rfl⟩
  dsimp only
  -- The value goes to wherever the name was found or declared.
  have hrest (a : ScopeId × Nat) (t : ScopeId) (q' : Pool V) (hq' : q'.Tidy)
      (_ : q'.limits = q.limits)
      (ha : a.1 = t ∧ ∃ s, q'.find? t = some s ∧ s.slot? n = some a.2) :
      Refines q' (PoolM.store a.1 a.2 v) (StoreM.assign t n v) fun _ _ _ => True := by
    obtain ⟨rfl, s', hs', hn⟩ := ha
    exact refines_store hq' hs' hn v
  cases hn : s.slot? n with
  | some k =>
    rw [Scope.value_of_slot? hn]
    exact (Refines.pure hq ⟨rfl, s, hs, hn⟩).bind hrest
  | none =>
    rw [Scope.value_eq_none_iff.mpr hn]
    exact (refines_declareHoisted hq id n none).bind hrest

theorem refines_delete (h : p.Tidy) (id : ScopeId) (n : Name) :
    Refines p (PoolM.delete id n) (StoreM.delete id n) fun a b _ => a = b := by
  refine (refines_opened h id).bind ?_
  rintro ⟨s, vs⟩ c q hq - ⟨rfl, hs, hvs, rfl⟩
  have htidy := hq id s hs
  dsimp only at hs hvs htidy ⊢
  cases hn : s.slot? n with
  | none =>
    have hsealed : s.cell.isSealed n = false := by simp [Scope.cell, hn]
    have hunbind : s.cell.unbind n = s.cell := by
      have hvalue := Scope.value_eq_none_iff.mpr hn
      simp only [Cell.unbind, ← hvalue, Function.update_eq_self]
    have hsame : q.store.change id (·.unbind n) = q.store := by
      rw [Store.change, Pool.store_of_find? hs, Option.map_some, hunbind, ← Pool.store_of_find? hs,
        Function.update_eq_self]
    refine .of_run (a := true) (b := true) rfl ?_ hq rfl rfl
    rw [hsealed, if_neg Bool.false_ne_true, run_bind_of_ok (run_modify _ _), hsame]
    rfl
  | some k =>
    have hsealed : s.cell.isSealed n = decide (k < s.immutableCount) := by simp [Scope.cell, hn]
    rw [hsealed]
    by_cases hk : k < s.immutableCount
    · simp only [hk, if_true, decide_true]
      exact .pure hq rfl
    · simp only [hk, if_false, decide_false, Bool.false_eq_true]
      have hle : s.immutableCount ≤ k := Nat.le_of_not_lt hk
      refine (refines_modify (f := (·.erase n)) hq hs (htidy.erase hvs hn hle)
        (htidy.cell_erase hvs hn hle)).bind ?_
      intro _ _ q' hq' _ _
      exact .pure hq' rfl

theorem load_of_slot? {vs : Array V} {k : Nat} (htidy : s.Tidy) (hs : p.find? id = some s)
    (hvs : s.values = some vs) (hn : s.slot? n = some k) : p.load id k = .ok (s.valueAt k) := by
  have hk : k < vs.size := htidy.lt_size hvs hn
  have hget : vs[k]? = some vs[k] := Array.getElem?_eq_getElem hk
  rw [Pool.load_of_find? hs hvs hget, Scope.valueAt_of_values hvs, hget]
  rfl

/-- The value bound to a name in a scope that has room for values. -/
theorem value?_of_find? {vs : Array V} (htidy : s.Tidy) (hs : p.find? id = some s)
    (hvs : s.values = some vs) (n : Name) : p.value? id n = .ok (s.cell.value n) := by
  simp only [Pool.value?, Pool.valuesOf_of_find? hs hvs, bind, Except.bind]
  cases hn : s.slot? n with
  | none =>
    rw [Scope.value_eq_none_iff.mpr hn]
    rfl
  | some k =>
    rw [Scope.value_of_slot? hn]
    simp only [load_of_slot? htidy hs hvs hn]
    rfl

/-- What is asked of a scope that has room for values is answered as its map says. -/
theorem refines_ask {f : Pool V → Except ScopeError α} {g : Cell V → α} (h : p.Tidy)
    (hf : ∀ s vs, s.Tidy → p.find? id = some s → s.values = some vs → f p = .ok (g s.cell))
    (he : ∀ e, p.valuesOf id = .error e → f p = .error e) :
    Refines p (PoolM.query f) (StoreM.query (·.opened id)) fun a c _ =>
      p.store id = some c ∧ a = g c := by
  have hopened := refines_opened h id
  unfold Refines at hopened ⊢
  rw [PoolM.run_query, StoreM.run_query] at hopened ⊢
  generalize p.store.opened id = r at hopened ⊢
  generalize hv : p.valuesOf id = a at hopened he
  cases hopened with
  | ok _ _ hab =>
    obtain ⟨-, hs, hvs, rfl⟩ := hab
    rw [hf _ _ (h id _ hs) hs hvs]
    exact .ok h rfl ⟨Pool.store_of_find? hs, rfl⟩
  | error e =>
    rw [he e rfl]
    exact .error e h rfl

theorem refines_value? (h : p.Tidy) (id : ScopeId) (n : Name) :
    Refines p (PoolM.query (·.value? id n)) (StoreM.query (·.opened id))
      fun v c _ => v = c.value n := by
  refine (refines_ask (g := (·.value n)) h ?_ ?_).imp fun _ _ _ hc => hc.2
  · intro s vs htidy hs hvs
    exact value?_of_find? htidy hs hvs n
  · intro e he
    simp only [Pool.value?, he, bind, Except.bind]

theorem refines_hasValue (h : p.Tidy) (id : ScopeId) (n : Name) :
    Refines p (PoolM.query (·.hasValue id n)) (StoreM.query (·.opened id))
      fun b c _ => b = (c.value n).isSome := by
  refine (refines_ask (g := fun c => (c.value n).isSome) h ?_ ?_).imp fun _ _ _ hc => hc.2
  · intro s vs _ hs hvs
    simp only [Pool.hasValue, Pool.valuesOf_of_find? hs hvs, bind, Except.bind, Scope.cell,
      Option.isSome_map]
    rfl
  · intro e he
    simp only [Pool.hasValue, he, bind, Except.bind]

theorem refines_load {k : Nat} (h : p.Tidy) (hs : p.find? id = some s) (hn : s.slot? n = some k) :
    Refines p (PoolM.query (·.load id k)) (StoreM.query (·.opened id))
      fun v c _ => some v = c.value n := by
  have hvalue := Scope.value_of_slot? hn
  refine (refines_ask (g := fun _ => s.valueAt k) h ?_ ?_).imp ?_
  · intro u vs htidy hu hvs
    have hsu : s = u := Option.some.inj (hs.symm.trans hu)
    subst hsu
    exact load_of_slot? htidy hs hvs hn
  · intro e he
    simp only [Pool.load, he, bind, Except.bind]
  · rintro _ c _ ⟨hc, rfl⟩
    rw [Pool.store_of_find? hs] at hc
    cases hc
    exact hvalue.symm

theorem refines_lookup (h : p.Tidy) (id : ScopeId) (n : Name) :
    Refines p (PoolM.query (·.lookup id n)) (StoreM.query (·.lookup p.limits.maxDepth id n))
      fun a b _ => a.map Prod.fst = b := by
  have hstore := Pool.lookup_store p id n
  refine (refines_query (Q := fun a b => a.map Prod.fst = b) h ?_).imp fun _ _ _ hab => hab.2
  cases hl : p.lookup id n with
  | error e =>
    rw [hl] at hstore
    exact .inr ⟨e, rfl, hstore⟩
  | ok found =>
    rw [hl] at hstore
    exact .inl ⟨found, _, rfl, hstore, rfl⟩

theorem refines_remove (h : p.Tidy) (id : ScopeId) :
    Refines p (PoolM.perform (.remove id)) (StoreM.step p.limits.maxDepth p.next (.remove id))
      fun a b _ => a = b := by
  unfold Refines
  rw [PoolM.perform, StoreM.step, run_modifyGet, run_modifyGet, ← Pool.store_erase]
  cases hs : p.find? id with
  | none =>
    have herase : p.erase id = p := by simp [Pool.erase, Pool.contains, hs]
    rw [Pool.store_eq_none_iff.mpr hs, herase]
    simp only [Pool.remove?, hs]
    exact .ok h rfl rfl
  | some s =>
    rw [Pool.store_of_find? hs]
    simp only [Pool.remove?, hs]
    exact .ok (h.erase id) Pool.limits_erase rfl

/-- The step lemma: each operation answers as it would on the maps, and does to the scopes what it
would do to the maps. -/
theorem refines_perform (h : p.Tidy) (op : Op V) :
    Refines p (PoolM.perform op) (StoreM.step p.limits.maxDepth p.next op) fun a b _ => a = b := by
  cases op with
  | make m =>
    refine (refines_make h m).bind ?_
    rintro _ _ q hq - rfl
    exact .pure hq rfl
  | markDirectEval id =>
    refine (refines_update h id (f := ({ · with directEval := true })) (g := fun c => c) ?_ ?_).bind
      fun _ _ _ hq _ _ => .pure hq rfl
    · intro s hs
      exact ⟨⟨hs.sound, hs.bound, hs.above, hs.room⟩, hs.vacant, hs.parent⟩
    · exact fun _ => rfl
  | declare id n o =>
    refine (refines_declareHoisted h id n o).bind ?_
    rintro a _ q hq - ⟨rfl, -⟩
    exact .pure hq rfl
  | materialize id =>
    exact (refines_update h id (fun _ => Scope.Tidy.materialize)
      fun _ => Scope.cell_materialize).bind fun _ _ _ hq _ _ => .pure hq rfl
  | freeze id =>
    exact (refines_update h id (fun _ => Scope.Tidy.freeze)
      fun _ => Scope.cell_freeze).bind fun _ _ _ hq _ _ => .pure hq rfl
  | value id n =>
    refine (refines_value? h id n).bind ?_
    rintro _ c q hq - rfl
    exact .pure hq rfl
  | hasValue id n =>
    refine (refines_hasValue h id n).bind ?_
    rintro _ c q hq - rfl
    exact .pure hq rfl
  | setValue id n v => exact (refines_setValue h id n v).bind fun _ _ _ hq _ _ => .pure hq rfl
  | delete id n =>
    refine (refines_delete h id n).bind ?_
    rintro _ _ q hq - rfl
    exact .pure hq rfl
  | load id n =>
    refine (refines_get h id).bind ?_
    rintro s c q hq - ⟨rfl, hs, rfl⟩
    cases hn : s.slot? n with
    | none =>
      rw [Scope.value_eq_none_iff.mpr hn]
      exact .pure hq rfl
    | some k =>
      rw [Scope.value_of_slot? hn]
      refine (refines_load hq hs hn).bind ?_
      rintro v c q' hq' - hv
      exact .pure hq' (congrArg Answer.value hv)
  | store id n v =>
    refine (refines_get h id).bind ?_
    rintro s c q hq - ⟨rfl, hs, rfl⟩
    cases hn : s.slot? n with
    | none =>
      rw [Scope.value_eq_none_iff.mpr hn]
      exact .pure hq rfl
    | some k =>
      rw [Scope.value_of_slot? hn]
      exact (refines_store hq hs hn v).bind fun _ _ _ hq _ _ => .pure hq rfl
  | lookup id n =>
    refine (refines_lookup h id n).bind ?_
    rintro _ _ q hq - rfl
    exact .pure hq rfl
  | remove id => exact refines_remove h id

/-- A run on the maps. A new scope gets a handle that no live scope has. -/
inductive Runs (limit : Nat) : Store V → List (Op V) → List (Except ScopeError (Answer V)) →
    Store V → Prop where
  | nil {σ : Store V} : Runs limit σ [] [] σ
  | cons {σ τ υ : Store V} {fresh : ScopeId} {op : Op V} {ops : List (Op V)}
    {r : Except ScopeError (Answer V)} {rs : List (Except ScopeError (Answer V))} :
    σ fresh = none → (StoreM.step limit fresh op).run σ = (r, τ) → Runs limit τ ops rs υ →
    Runs limit σ (op :: ops) (r :: rs) υ

/-- An operation does to the maps what it does to the pool, and leaves a tidy pool. -/
structure Stepped (p : Pool V) (op : Op V) (q : Pool V) : Prop where
  tidy : q.Tidy
  limits : q.limits = p.limits
  maps : (StoreM.step p.limits.maxDepth p.next op).run p.store =
    (((PoolM.perform op).run p).1, q.store)

theorem stepped_perform (h : p.Tidy) (op : Op V) : Stepped p op ((PoolM.perform op).run p).2 := by
  have hop := refines_perform h op
  unfold Refines at hop
  generalize hp : (PoolM.perform op).run p = r at hop ⊢
  generalize hm : (StoreM.step p.limits.maxDepth p.next op).run p.store = u at hop
  cases hop with
  | ok hq hl hab => exact ⟨hq, hl, by rw [hm, hp, hab]⟩
  | error e hq hl => exact ⟨hq, hl, by rw [hm, hp]⟩

/-- The run lemma: operations one after the other are a run on the maps. -/
theorem runs_performAll (h : p.Tidy) (ops : List (Op V)) :
    Runs p.limits.maxDepth p.store ops (PoolM.performAll p ops).1
      (PoolM.performAll p ops).2.store ∧
    (PoolM.performAll p ops).2.Tidy ∧ (PoolM.performAll p ops).2.limits = p.limits := by
  induction ops generalizing p with
  | nil => exact ⟨.nil, h, rfl⟩
  | cons op ops ih =>
    have hstep := stepped_perform h op
    obtain ⟨hruns, htidy, hlimits⟩ := ih hstep.tidy
    rw [hstep.limits] at hruns
    exact ⟨.cons p.store_next hstep.maps hruns, htidy, hlimits.trans hstep.limits⟩

end ScopeChain
