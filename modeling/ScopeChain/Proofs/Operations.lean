import ScopeChain.Proofs.Pool
import ScopeChain.Proofs.Table

/-! What each operation on a pool answers, and the pool that it leaves. -/
namespace ScopeChain

section Runs

variable {ε σ α β : Type} {f : ExceptT ε (StateM σ) α} {g : α → ExceptT ε (StateM σ) β} {s t : σ}

theorem run_bind (f : ExceptT ε (StateM σ) α) (g : α → ExceptT ε (StateM σ) β) (s : σ) :
    (f >>= g).run s = match f.run s with
      | (.ok a, t) => (g a).run t
      | (.error e, t) => (.error e, t) := by
  change ExceptT.bindCont g (f s).1 (f s).2 = _
  rcases h : f s with ⟨r, t⟩
  cases r <;> simp [ExceptT.run, h] <;> rfl

theorem run_bind_of_ok {a : α} (h : f.run s = (.ok a, t)) : (f >>= g).run s = (g a).run t := by
  rw [run_bind, h]

theorem run_bind_of_error {e : ε} (h : f.run s = (.error e, t)) :
    (f >>= g).run s = (.error e, t) := by
  rw [run_bind, h]

@[simp] theorem run_pure (a : α) (s : σ) :
    (pure a : ExceptT ε (StateM σ) α).run s = (.ok a, s) := rfl

@[simp] theorem run_throw (e : ε) (s : σ) :
    (throw e : ExceptT ε (StateM σ) α).run s = (.error e, s) := rfl

@[simp] theorem run_get (s : σ) : (get : ExceptT ε (StateM σ) σ).run s = (.ok s, s) := rfl

@[simp] theorem run_set (s t : σ) :
    (set t : ExceptT ε (StateM σ) PUnit).run s = (.ok ⟨⟩, t) := rfl

@[simp] theorem run_modify (h : σ → σ) (s : σ) :
    (modify h : ExceptT ε (StateM σ) PUnit).run s = (.ok ⟨⟩, h s) := rfl

@[simp] theorem run_modifyGet (h : σ → α × σ) (s : σ) :
    (modifyGet h : ExceptT ε (StateM σ) α).run s = (.ok (h s).1, (h s).2) := rfl

end Runs

/-- An activation or a catch scope, with room for one value for each of its names. -/
def Scope.filled {V : Type} [Inhabited V] (kind : ScopeKind) (parent : Option ScopeId)
    (names : List Name) : Scope V :=
  { (Scope.ofTable kind parent (.ofNames names) : Scope V) with
    immutableCount := (Table.ofNames names).slotCount
    values := some (Array.replicate names.length default) }

namespace Scope

variable {V : Type} [Inhabited V] {s : Scope V} {n : Name} {k : Nat}

/-- No value shows where an array has grown. -/
theorem getD_grow (slack needed : Nat) (vs : Array V) (k : Nat) :
    (grow slack needed vs)[k]?.getD default = vs[k]?.getD default := by
  unfold grow
  split
  · rfl
  · rw [Array.getElem?_append]
    split
    · rfl
    · next h =>
      rw [Array.getElem?_replicate, Array.getElem?_eq_none (Nat.le_of_not_lt h)]
      split <;> rfl

theorem le_size_grow (slack needed : Nat) (vs : Array V) :
    max needed vs.size ≤ (grow slack needed vs).size := by
  unfold grow
  split
  · omega
  · simp only [Array.size_append, Array.size_replicate]
    omega

/-- There is room for the slot of a name that is declared. -/
theorem slotCount_le_size_grow (o : Option NodeId) (slack : Nat) {vs : Array V} {t : Table}
    (h : t.slotCount ≤ vs.size) : (t.declareHoisted n o).2.slotCount ≤
      (grow slack ((t.declareHoisted n o).1 + 1) vs).size := by
  have hle := Table.slotCount_declareHoisted_le (t := t) (n := n) (o := o)
  have hgrow := le_size_grow slack ((t.declareHoisted n o).1 + 1) vs
  omega

theorem erase_of_some (h : s.slot? n = some k) :
    s.erase n = { s with
      table := ⟨s.table.slots.setIfInBounds k none, k :: s.table.free⟩
      values := s.values.map (·.setIfInBounds k default) } := by
  simp only [Scope.erase, Table.remove?_of_some h]

theorem erase_of_none (h : s.slot? n = none) : s.erase n = s := by
  have hgone : s.table.remove? n = none := by
    rw [Table.remove?, show s.table.slot? n = none from h]
    rfl
  rw [Scope.erase, hgone]

end Scope

namespace Pool

variable {V : Type} {p : Pool V} {id : ScopeId} {s : Scope V} {vs : Array V} {v : V} {k : Nat}

theorem valuesOf_of_find? (h : p.find? id = some s) (hv : s.values = some vs) :
    p.valuesOf id = .ok (s, vs) := by
  simp only [valuesOf, get_of_find? h, bind, Except.bind, hv]
  rfl

theorem valuesOf_of_none (h : p.find? id = some s) (hv : s.values = none) :
    p.valuesOf id = .error (.unmaterialized id) := by
  simp only [valuesOf, get_of_find? h, bind, Except.bind, hv]

theorem valuesOf_eq_ok_iff :
    p.valuesOf id = .ok (s, vs) ↔ p.find? id = some s ∧ s.values = some vs := by
  constructor
  · intro h
    cases hs : p.find? id with
    | none => simp [valuesOf, get, hs, bind, Except.bind] at h
    | some u =>
      simp only [valuesOf, get_of_find? hs, bind, Except.bind] at h
      cases hu : u.values with
      | none => simp [hu] at h
      | some us =>
        rw [hu] at h
        cases h
        exact ⟨rfl, hu⟩
  · rintro ⟨hs, hv⟩
    exact valuesOf_of_find? hs hv

theorem load_of_find? (h : p.find? id = some s) (hv : s.values = some vs) (hk : vs[k]? = some v) :
    p.load id k = .ok v := by
  simp only [load, valuesOf_of_find? h hv, bind, Except.bind, hk]
  rfl

theorem lookupFrom_succ (h : p.find? id = some s) (n : Name) (reach : Nat) :
    p.lookupFrom n (reach + 1) (some id) = match s.slot? n with
      | some k => .ok (some (id, k))
      | none => p.lookupFrom n reach s.parent := by
  simp only [lookupFrom, get_of_find? h, bind, Except.bind]
  rfl

/-- Where a name is found, it is declared. -/
theorem slot?_of_lookupFrom {n : Name} {t : ScopeId} {reach : Nat} {start : Option ScopeId}
    (h : p.lookupFrom n reach start = .ok (some (t, k))) :
    ∃ s, p.find? t = some s ∧ s.slot? n = some k := by
  induction reach generalizing start with
  | zero => cases start <;> cases h
  | succ reach ih =>
    cases start with
    | none => cases h
    | some id =>
      cases hs : p.find? id with
      | none => simp [lookupFrom, get, hs, bind, Except.bind] at h
      | some s =>
        rw [lookupFrom_succ hs] at h
        cases hn : s.slot? n with
        | none =>
          rw [hn] at h
          exact ih h
        | some j =>
          rw [hn] at h
          cases h
          exact ⟨s, hs, hn⟩

theorem declarationTargetFrom_succ (h : p.find? id = some s) (reach : Nat) :
    p.declarationTargetFrom (reach + 1) id = if s.kind.extensible then .ok id else
      match s.parent with
      | some parent => p.declarationTargetFrom reach parent
      | none => .error (.missingParent s.kind) := by
  simp only [declarationTargetFrom, get_of_find? h, bind, Except.bind, s.extensible_eq]
  rfl

theorem find?_declarationTarget {t : ScopeId} (h : p.declarationTarget id = .ok t) :
    ∃ s, p.find? t = some s ∧ s.kind.extensible = true := by
  have walk (reach : Nat) (id : ScopeId) (h : p.declarationTargetFrom reach id = .ok t) :
      ∃ s, p.find? t = some s ∧ s.kind.extensible = true := by
    induction reach generalizing id with
    | zero => cases h
    | succ reach ih =>
      cases hs : p.find? id with
      | none => simp [declarationTargetFrom, get, hs, bind, Except.bind] at h
      | some s =>
        rw [declarationTargetFrom_succ hs] at h
        split at h
        · next hk =>
          cases h
          exact ⟨s, hs, hk⟩
        · split at h
          · exact ih _ h
          · cases h
  exact walk p.reach id h

end Pool

namespace PoolM

variable {V : Type} {p : Pool V} {id t : ScopeId} {s : Scope V} {vs : Array V} {k : Nat}

@[simp] theorem run_query {α : Type} (f : Pool V → Except ScopeError α) (p : Pool V) :
    (query f).run p = (f p, p) := by
  rw [query, run_bind_of_ok (run_get p)]
  cases f p <;> rfl

@[simp] theorem run_scope (id : ScopeId) (p : Pool V) : (scope id).run p = (p.get id, p) :=
  run_query _ p

@[simp] theorem run_insert (s : Scope V) (p : Pool V) :
    (insert s).run p = (.ok (p.insert s).1, (p.insert s).2) := rfl

theorem run_update (h : p.find? id = some s) (f : Scope V → Scope V) :
    (update id f).run p = (.ok ⟨⟩, p.update id f) := by
  rw [update, run_bind, run_scope, Pool.get_of_find? h]
  rfl

theorem run_checkParent (kind : ScopeKind) (h : p.find? id = some s) :
    (checkParent kind (some id)).run p = (.ok ⟨⟩, p) := by
  rw [checkParent, run_bind, run_scope, Pool.get_of_find? h]
  rfl

theorem run_checkParent_stale (kind : ScopeKind) (h : p.find? id = none) :
    (checkParent kind (some id)).run p = (.error (.staleHandle id), p) := by
  rw [checkParent, run_bind, run_scope, Pool.get, h]

theorem snd_run_checkParent (kind : ScopeKind) (parent : Option ScopeId) (p : Pool V) :
    ((checkParent kind parent).run p).2 = p := by
  cases parent with
  | none =>
    rw [checkParent]
    split <;> rfl
  | some id =>
    rw [checkParent, run_bind, run_scope]
    cases p.get id <;> rfl

theorem run_newDescriptor (kind : ScopeKind) (names : List Name) (h : p.find? id = some s) :
    (newDescriptor kind (some id) names).run p =
      (.ok (p.insert (.ofTable kind (some id) (.ofNames names))).1,
        (p.insert (.ofTable kind (some id) (.ofNames names))).2) := by
  rw [newDescriptor, run_bind_of_ok (run_checkParent kind h)]
  rfl

theorem run_newDescriptor_none {kind : ScopeKind} (names : List Name)
    (hk : kind.requiresParent = false) (p : Pool V) :
    (newDescriptor kind none names).run p =
      (.ok (p.insert (.ofTable kind none (.ofNames names))).1,
        (p.insert (.ofTable kind none (.ofNames names))).2) := by
  have hc : (checkParent kind none).run p = (.ok ⟨⟩, p) := by
    rw [checkParent, hk]
    rfl
  rw [newDescriptor, run_bind_of_ok hc]
  rfl

variable [Inhabited V]

theorem run_declareHoisted (n : Name) (o : Option NodeId) (ht : p.declarationTarget id = .ok t)
    (hs : p.find? t = some s) :
    (declareHoisted id n o).run p =
      (.ok (t, (s.declareHoisted p.limits.growthSlack n o).1),
        p.update t fun _ => (s.declareHoisted p.limits.growthSlack n o).2) := by
  have hq : (query (·.declarationTarget id)).run p = (.ok t, p) := by rw [run_query, ht]
  have hsc : (scope t).run p = (.ok s, p) := by rw [run_scope, Pool.get_of_find? hs]
  rw [declareHoisted, run_bind_of_ok hq, run_bind_of_ok hsc]
  rfl

theorem run_declareHoisted_error {e : ScopeError} (n : Name) (o : Option NodeId)
    (ht : p.declarationTarget id = .error e) : (declareHoisted id n o).run p = (.error e, p) := by
  have hq : (query (·.declarationTarget id)).run p = (.error e, p) := by rw [run_query, ht]
  rw [declareHoisted, run_bind_of_error hq]

theorem run_newInstance (kind : ScopeKind) (names : List Name) (h : p.find? id = some s) :
    (newInstance kind (some id) names).run p =
      (.ok (p.insert (.filled kind (some id) names)).1,
        (p.insert (.filled kind (some id) names)).2) := by
  rw [newInstance, run_bind_of_ok (run_checkParent kind h)]
  rfl

/-- A new scope that is given room for values at once. -/
theorem run_materialized {make : PoolM V ScopeId}
    (hm : make.run p = (.ok p.next, (p.insert s).2)) :
    (do
      let id ← make
      materialize id
      return id : PoolM V ScopeId).run p = (.ok p.next, (p.insert s.materialize).2) := by
  rw [run_bind_of_ok hm, materialize, run_bind_of_ok (run_update (p.find?_insert_next s) _),
    run_pure, ← Pool.fst_insert s, Pool.update_insert]

omit [Inhabited V] in
theorem run_store (v : V) (h : p.find? id = some s) (hv : s.values = some vs) (hk : k < vs.size) :
    (store id k v).run p =
      (.ok ⟨⟩, p.update id fun s => { s with values := s.values.map (·.setIfInBounds k v) }) := by
  have hq : (query (·.valuesOf id)).run p = (.ok (s, vs), p) := by
    rw [run_query, Pool.valuesOf_of_find? h hv]
  rw [store, run_bind_of_ok hq]
  simp only [hk, if_true]
  rfl

omit [Inhabited V] in
theorem run_store_unmaterialized (k : Nat) (v : V) (h : p.find? id = some s)
    (hv : s.values = none) : (store id k v).run p = (.error (.unmaterialized id), p) := by
  have hq : (query (·.valuesOf id)).run p = (.error (.unmaterialized id), p) := by
    rw [run_query, Pool.valuesOf, Pool.get_of_find? h]
    simp only [bind, Except.bind, hv]
  rw [store, run_bind_of_error hq]

theorem run_setValue (n : Name) (v : V) (h : p.find? id = some s) (hv : s.values = some vs) :
    (setValue id n v).run p =
      match s.slot? n with
      | some k => (store id k v).run p
      | none => (do
        let (target, k) ← declare id n
        store target k v : PoolM V Unit).run p := by
  have hq : (query (·.valuesOf id)).run p = (.ok (s, vs), p) := by
    rw [run_query, Pool.valuesOf_of_find? h hv]
  rw [setValue, run_bind_of_ok hq]
  dsimp only
  cases s.slot? n <;> rfl

theorem run_delete (n : Name) (h : p.find? id = some s) (hv : s.values = some vs) :
    (delete id n).run p =
      match s.slot? n with
      | none => (.ok true, p)
      | some k =>
        if k < s.immutableCount then (.ok false, p) else (.ok true, p.update id (·.erase n)) := by
  have hq : (query (·.valuesOf id)).run p = (.ok (s, vs), p) := by
    rw [run_query, Pool.valuesOf_of_find? h hv]
  rw [delete, run_bind_of_ok hq]
  dsimp only
  cases s.slot? n with
  | none => rfl
  | some k =>
    dsimp only
    split <;> rfl

end PoolM

end ScopeChain
