import ScopeChain.Proofs.Refinement

/-! All that can be done to a pool of scopes. A change finds the scope that it comes to before it
writes anything, so that a change that is refused leaves the pool as it was, but for one. -/
namespace ScopeChain

variable {V : Type} {p q : Pool V} {id t : ScopeId} {s : Scope V} {n : Name} {k : Nat}

/-- What can be changed in a scope. -/
inductive Change (V : Type) where
  | markDirectEval
  | declare (n : Name) (hoisted : Option NodeId)
  | materialize
  | freeze
  | setValue (n : Name) (v : V)
  | delete (n : Name)
  | store (slot : Nat) (v : V)

/-- What can be done to a pool. -/
inductive Edit (V : Type) where
  | make (m : Maker)
  | change (id : ScopeId) (c : Change V)
  | remove (id : ScopeId)

/-- What comes of an edit that is not refused. -/
inductive Edit.Outcome where
  | made (id : ScopeId)
  | changed
  | removed (id : ScopeId)
  /-- There was nothing to remove. -/
  | absent
deriving DecidableEq, Repr

namespace Change

/-- The scope that a change made on a scope comes to. -/
def target (p : Pool V) (id : ScopeId) : Change V → Except ScopeError ScopeId
  | markDirectEval | materialize | freeze => do
    let _ ← p.get id
    return id
  | declare _ _ => p.declarationTarget id
  | setValue n _ => do
    let (s, _) ← p.valuesOf id
    if (s.slot? n).isSome then return id else p.declarationTarget id
  | delete _ | store _ _ => do
    let _ ← p.valuesOf id
    return id

/-- Whether the scope that a change comes to takes it. -/
def verdict (t : ScopeId) (s : Scope V) : Change V → Except ScopeError Unit
  | setValue _ _ => if s.values.isSome then .ok () else .error (.unmaterialized t)
  | store k _ => if k < (s.values.getD #[]).size then .ok () else .error (.slotOutOfRange t k)
  | markDirectEval | declare _ _ | materialize | freeze | delete _ => .ok ()

variable [Inhabited V]

def run (id : ScopeId) : Change V → PoolM V Unit
  | markDirectEval => .markDirectEval id
  | declare n hoisted => do let _ ← PoolM.declareHoisted id n hoisted
  | materialize => .materialize id
  | freeze => .freeze id
  | setValue n v => .setValue id n v
  | delete n => do let _ ← PoolM.delete id n
  | store k v => .store id k v

/-- What a change makes of the scope that it comes to. -/
def apply (c : Change V) (slack : Nat) (s : Scope V) : Scope V :=
  match c with
  | markDirectEval => { s with directEval := true }
  | declare n hoisted => (s.declareHoisted slack n hoisted).2
  | materialize => s.materialize
  | freeze => s.freeze
  | setValue n v =>
    let (k, s) := s.declareHoisted slack n none
    s.setSlot k v
  | delete n => if (s.slot? n).any (· < s.immutableCount) then s else s.erase n
  | store k v => s.setSlot k v

end Change

namespace Edit

variable [Inhabited V]

def run : Edit V → PoolM V Outcome
  | make m => return .made (← m.run)
  | change id c => do
    c.run id
    return .changed
  | remove id => modifyGet fun p => match p.remove? id with
    | some (_, q) => (.removed id, q)
    | none => (.absent, p)

end Edit

namespace Pool

variable [Inhabited V]

/-- A pool after some edits. -/
def edited (p : Pool V) (es : List (Edit V)) : Pool V := es.foldl (fun p e => (e.run.run p).2) p

/-- What comes of some edits one after the other. -/
def outcomes (p : Pool V) : List (Edit V) → List (Except ScopeError Edit.Outcome)
  | [] => []
  | e :: es => (e.run.run p).1 :: outcomes (e.run.run p).2 es

end Pool

variable [Inhabited V]

theorem Scope.Guarded.apply (h : s.Guarded) (c : Change V) (slack : Nat) :
    (c.apply slack s).Guarded := by
  cases c with
  | markDirectEval => exact ⟨h.sound, h.bound, h.above, h.room⟩
  | declare n o => exact h.declareHoisted slack n o
  | materialize => exact h.materialize
  | freeze => exact h.freeze
  | setValue n v => exact (h.declareHoisted slack n none).setSlot _ v
  | store k v => exact h.setSlot k v
  | delete n =>
    rw [Change.apply]
    split
    · exact h
    · next hsealed =>
      cases hn : s.slot? n with
      | none => rwa [Scope.erase_of_none hn]
      | some k =>
        rw [hn] at hsealed
        exact h.erase hn (Nat.le_of_not_lt fun hk => hsealed (decide_eq_true hk))

namespace Change

/-- A change is refused before it comes to a scope, or it is made there, be it only in part. -/
inductive Runs (p : Pool V) (id : ScopeId) (c : Change V) : Except ScopeError Unit × Pool V → Prop
  | refused {e : ScopeError} : c.target p id = .error e → Runs p id c (.error e, p)
  | landed {t : ScopeId} {s : Scope V} : c.target p id = .ok t → p.find? t = some s →
    Runs p id c (c.verdict t s, p.update t (c.apply p.limits.growthSlack))

variable {c : Change V}

/-- The change is carried out as `f`, which the scope takes. -/
theorem Runs.of_ok {f : Scope V → Scope V} (ht : c.target p id = .ok t) (hs : p.find? t = some s)
    (hv : c.verdict t s = .ok ⟨⟩) (hf : f s = c.apply p.limits.growthSlack s) :
    Runs p id c (.ok ⟨⟩, p.update t f) := by
  rw [← hv, Pool.update_congr hs hf]
  exact .landed ht hs

theorem Runs.of_same {r : Except ScopeError Unit} (ht : c.target p id = .ok t)
    (hs : p.find? t = some s) (hr : c.verdict t s = r) (hf : c.apply p.limits.growthSlack s = s) :
    Runs p id c (r, p) := by
  have hlanded : Runs p id c (c.verdict t s, p.update t (c.apply p.limits.growthSlack)) :=
    .landed ht hs
  rwa [hr, Pool.update_eq_self hs hf] at hlanded

/-- Asking for a scope comes before all else. -/
theorem runs_update {f : Scope V → Scope V}
    (ht : c.target p id = (do let _ ← p.get id; return id)) (hrun : c.run id = PoolM.update id f)
    (hv : ∀ t s, c.verdict t s = .ok ⟨⟩) (hf : c.apply p.limits.growthSlack = f) :
    Runs p id c ((c.run id).run p) := by
  rw [hrun]
  cases hs : p.find? id with
  | none =>
    have hget : p.get id = .error (.staleHandle id) := by rw [Pool.get, hs]
    rw [PoolM.update, run_bind, PoolM.run_scope, hget]
    refine .refused ?_
    rw [ht, hget]
    rfl
  | some s =>
    rw [PoolM.run_update hs]
    refine .of_ok ?_ hs (hv id s) (by rw [hf])
    rw [ht, Pool.get_of_find? hs]
    rfl

theorem runs_declare (id : ScopeId) (n : Name) (o : Option NodeId) :
    Runs p id (.declare n o) ((run id (.declare n o)).run p) := by
  rw [run, run_bind]
  cases ht : p.declarationTarget id with
  | error e =>
    rw [PoolM.run_declareHoisted_error n o ht]
    exact .refused ht
  | ok t =>
    obtain ⟨s, hs, -⟩ := Pool.find?_declarationTarget ht
    rw [PoolM.run_declareHoisted n o ht hs]
    exact .of_ok ht hs rfl rfl

/-- A value is stored in a slot of its own scope. -/
theorem runs_store (id : ScopeId) (k : Nat) (v : V) :
    Runs p id (.store k v) ((run id (.store k v)).run p) := by
  have htarget : (store k v).target p id = (do let _ ← p.valuesOf id; return id) := rfl
  rw [run, PoolM.store, run_bind, PoolM.run_query]
  cases hvalues : p.valuesOf id with
  | error e => exact .refused (by rw [htarget, hvalues]; rfl)
  | ok a =>
    obtain ⟨s, vs⟩ := a
    obtain ⟨hs, hvs⟩ := Pool.valuesOf_eq_ok_iff.mp hvalues
    have ht : (store k v).target p id = .ok id := by rw [htarget, hvalues]; rfl
    dsimp only
    by_cases hk : k < vs.size
    · rw [if_pos hk]
      exact .of_ok ht hs (by rw [verdict, hvs]; exact if_pos hk) rfl
    · rw [if_neg hk]
      refine .of_same ht hs (by rw [verdict, hvs]; exact if_neg hk) (Scope.setSlot_of_size_le ?_ v)
      rw [hvs]
      exact Nat.le_of_not_lt hk

theorem runs_delete (id : ScopeId) (n : Name) :
    Runs p id (.delete n) ((run id (.delete n)).run p) := by
  have htarget : (delete n : Change V).target p id = (do let _ ← p.valuesOf id; return id) := rfl
  rw [run, run_bind]
  cases hvalues : p.valuesOf id with
  | error e =>
    rw [PoolM.delete, run_bind, PoolM.run_query, hvalues]
    exact .refused (by rw [htarget, hvalues]; rfl)
  | ok a =>
    obtain ⟨s, vs⟩ := a
    obtain ⟨hs, hvs⟩ := Pool.valuesOf_eq_ok_iff.mp hvalues
    have ht : (delete n : Change V).target p id = .ok id := by rw [htarget, hvalues]; rfl
    rw [PoolM.run_delete n hs hvs]
    cases hn : s.slot? n with
    | none => exact .of_same ht hs rfl (by rw [apply, hn, Scope.erase_of_none hn]; rfl)
    | some k =>
      dsimp only
      by_cases hk : k < s.immutableCount
      · rw [if_pos hk]
        exact .of_same ht hs rfl (by rw [apply, hn]; exact if_pos (decide_eq_true hk))
      · rw [if_neg hk]
        refine .of_ok ht hs rfl ?_
        rw [apply, hn, if_neg]
        simpa using hk

/-- A value that goes to another scope is stored only after its name is declared there, and so too
late to be refused without a trace. -/
theorem runs_setValue_declared {vs : Array V} (hs : p.find? id = some s)
    (hvs : s.values = some vs) (hn : s.slot? n = none) (v : V) :
    Runs p id (.setValue n v) ((PoolM.declare id n >>= fun (t, k) => PoolM.store t k v).run p) := by
  have htarget : (setValue n v).target p id = p.declarationTarget id := by
    simp only [target, Pool.valuesOf_of_find? hs hvs, bind, Except.bind, hn]
    rfl
  rw [run_bind, PoolM.declare]
  cases ht : p.declarationTarget id with
  | error e =>
    rw [PoolM.run_declareHoisted_error n none ht]
    exact .refused (htarget.trans ht)
  | ok t =>
    obtain ⟨u, hu, -⟩ := Pool.find?_declarationTarget ht
    rw [PoolM.run_declareHoisted n none ht hu]
    dsimp only
    have hnew := Pool.find?_update_self hu fun _ => (u.declareHoisted p.limits.growthSlack n none).2
    have hlanded : Runs p id (.setValue n v) _ := .landed (htarget.trans ht) hu
    generalize hd : u.declareHoisted p.limits.growthSlack n none = d at hnew ⊢
    obtain ⟨k, w⟩ := d
    have happly : (setValue n v).apply p.limits.growthSlack u = w.setSlot k v := by
      rw [apply, hd]
    have hvalues : w.values = u.values.map (Scope.grow p.limits.growthSlack (k + 1)) := by
      cases hd
      rfl
    dsimp only at hnew ⊢
    cases hus : u.values with
    | none =>
      rw [hus, Option.map_none] at hvalues
      have hsame : w.setSlot k v = w := Scope.setSlot_of_size_le (by rw [hvalues]; simp) v
      rw [PoolM.run_store_unmaterialized k v hnew hvalues]
      rw [verdict, hus] at hlanded
      rwa [Pool.update_congr (g := fun _ => w) hu (happly.trans hsame)] at hlanded
    | some us =>
      rw [hus] at hvalues
      have hk : k < (Scope.grow p.limits.growthSlack (k + 1) us).size :=
        Nat.lt_of_lt_of_le (Nat.le_max_left _ _) (Scope.le_size_grow _ _ us)
      rw [PoolM.run_store v hnew hvalues hk, Pool.update_update]
      exact .of_ok (htarget.trans ht) hu (by rw [verdict, hus]; rfl) happly.symm

theorem runs_setValue (h : p.Each Scope.Guarded) (id : ScopeId) (n : Name) (v : V) :
    Runs p id (.setValue n v) ((run id (.setValue n v)).run p) := by
  rw [run]
  cases hvalues : p.valuesOf id with
  | error e =>
    have hq : (PoolM.query (·.valuesOf id)).run p = (.error e, p) := by
      rw [PoolM.run_query, hvalues]
    rw [PoolM.setValue, run_bind_of_error hq]
    exact .refused (by rw [target, hvalues]; rfl)
  | ok a =>
    obtain ⟨s, vs⟩ := a
    obtain ⟨hs, hvs⟩ := Pool.valuesOf_eq_ok_iff.mp hvalues
    rw [PoolM.run_setValue n v hs hvs]
    cases hn : s.slot? n with
    | none => exact runs_setValue_declared hs hvs hn v
    | some k =>
      have hguarded := h id s hs
      dsimp only
      rw [PoolM.run_store v hs hvs (hguarded.lt_size hvs hn)]
      refine .of_ok ?_ hs (by rw [verdict, hvs]; rfl) ?_
      · simp only [target, hvalues, bind, Except.bind, hn]
        rfl
      · rw [apply, hguarded.declareHoisted_of_some _ hn]
        rfl

end Change

theorem runs_change (h : p.Each Scope.Guarded) (id : ScopeId) (c : Change V) :
    c.Runs p id ((c.run id).run p) := by
  cases c with
  | markDirectEval | materialize | freeze => exact Change.runs_update rfl rfl (fun _ _ => rfl) rfl
  | declare n o => exact Change.runs_declare id n o
  | setValue n v => exact Change.runs_setValue h id n v
  | delete n => exact Change.runs_delete id n
  | store k v => exact Change.runs_store id k v

theorem Maker.guarded_scope (m : Maker) : (m.scope : Scope V).Guarded := by
  cases m with
  | template | catchInstance => exact Scope.guarded_filled
  | evalInstance | globalInstance => exact Scope.guarded_ofTable.materialize
  | global | function | «catch» | eval => exact Scope.guarded_ofTable

namespace Edit

variable {e : Edit V} {r : Except ScopeError Outcome}

/-- All that an edit can come to. -/
inductive Runs (p : Pool V) : Edit V → Except ScopeError Outcome × Pool V → Prop
  | unmade (m : Maker) (err : ScopeError) : Runs p (.make m) (.error err, p)
  | made (m : Maker) : Runs p (.make m) (.ok (.made p.next), (p.insert m.scope).2)
  | refused {id : ScopeId} {c : Change V} {err : ScopeError} : c.target p id = .error err →
    Runs p (.change id c) (.error err, p)
  | changed {id t : ScopeId} {c : Change V} {s : Scope V} : c.target p id = .ok t →
    p.find? t = some s → Runs p (.change id c)
      ((c.verdict t s).map fun _ => .changed, p.update t (c.apply p.limits.growthSlack))
  | removed {id : ScopeId} {s : Scope V} : p.find? id = some s →
    Runs p (.remove id) (.ok (.removed id), p.erase id)
  | absent {id : ScopeId} : p.find? id = none → Runs p (.remove id) (.ok .absent, p)

theorem runs_make (p : Pool V) (m : Maker) : Runs p (.make m) ((run (.make m)).run p) := by
  have hsame := PoolM.snd_run_checkParent m.kind m.parent p
  rw [run, run_bind, m.run_eq, run_bind]
  rcases hcheck : (PoolM.checkParent m.kind m.parent).run p with ⟨a, q⟩
  rw [hcheck] at hsame
  obtain rfl : p = q := hsame.symm
  cases a with
  | error err => exact .unmade m err
  | ok =>
    dsimp only
    rw [m.run_place]
    exact .made m

theorem runs_remove (id : ScopeId) : Runs p (.remove id) ((run (.remove id)).run p) := by
  rw [run, run_modifyGet]
  cases hs : p.find? id with
  | none =>
    simp only [Pool.remove?, hs]
    exact .absent hs
  | some s =>
    simp only [Pool.remove?, hs]
    exact .removed hs

/-- The step lemma. -/
theorem runs (h : p.Each Scope.Guarded) (e : Edit V) : e.Runs p (e.run.run p) := by
  cases e with
  | make m => exact runs_make p m
  | remove id => exact runs_remove id
  | change id c =>
    have hchange := runs_change h id c
    rw [run, run_bind]
    generalize (c.run id).run p = a at hchange ⊢
    cases hchange with
    | refused ht => exact .refused ht
    | landed ht hs =>
      have hchanged := Runs.changed ht hs
      generalize c.verdict _ _ = v at hchanged ⊢
      cases v <;> exact hchanged

theorem Runs.guarded (hr : e.Runs p (r, q)) (h : p.Each Scope.Guarded) : q.Each Scope.Guarded := by
  cases hr with
  | unmade | refused | absent => exact h
  | made m => exact h.insert m.guarded_scope
  | changed ht hs => exact h.update hs ((h _ _ hs).apply _ _)
  | removed hs => exact h.erase _

end Edit

namespace Pool

theorem guarded_edited (h : p.Each Scope.Guarded) (es : List (Edit V)) :
    (p.edited es).Each Scope.Guarded := by
  induction es generalizing p with
  | nil => exact h
  | cons e es ih => exact ih ((Edit.runs h e).guarded h)

end Pool

/-- A value is set in a scope by a name that is bound neither there nor in the scope that would keep
it, while the latter has no room for values. -/
def Edit.Strands (p : Pool V) (t : ScopeId) (n : Name) (e : Edit V) : Prop :=
  ∃ id v s vs u, e = .change id (.setValue n v) ∧ p.valuesOf id = .ok (s, vs) ∧ s.slot? n = none ∧
    p.declarationTarget id = .ok t ∧ p.find? t = some u ∧ u.values = none ∧ u.slot? n = none

namespace Edit

variable {e : Edit V} {r : Except ScopeError Outcome} {err : ScopeError}

omit [Inhabited V] in
/-- A value cannot be set where there is no room, unless its name is bound there already. -/
theorem strands_of_setValue {v : V} (ht : (Change.setValue n v).target p id = .ok t)
    (hs : p.find? t = some s) (hvs : s.values = none) (hn : s.slot? n = none) :
    Strands p t n (.change id (.setValue n v)) := by
  cases hvalues : p.valuesOf id with
  | error err => simp [Change.target, hvalues, bind, Except.bind] at ht
  | ok a =>
    obtain ⟨u, us⟩ := a
    simp only [Change.target, hvalues, bind, Except.bind] at ht
    split at ht
    · cases ht
      obtain ⟨hu, hus⟩ := Pool.valuesOf_eq_ok_iff.mp hvalues
      rw [hs] at hu
      cases hu
      rw [hvs] at hus
      cases hus
    · next hmissing =>
      have hmissing : u.slot? n = none := by simpa using hmissing
      exact ⟨id, v, u, us, s, rfl, hvalues, hmissing, ht, hs, hvs, hn⟩

/-- A change that the scope refuses leaves the scope alone, unless a value is left stranded. -/
theorem apply_eq_self {c : Change V} (ht : c.target p id = .ok t) (hs : p.find? t = some s)
    (hguarded : s.Guarded) (hverdict : c.verdict t s = .error err)
    (hstrands : ∀ t n, ¬ Strands p t n (.change id c)) (slack : Nat) : c.apply slack s = s := by
  cases c with
  | markDirectEval | declare | materialize | freeze | delete => cases hverdict
  | store k v =>
    rw [Change.verdict] at hverdict
    split at hverdict
    · cases hverdict
    · next hk => exact Scope.setSlot_of_size_le (Nat.le_of_not_lt hk) v
  | setValue n v =>
    rw [Change.verdict] at hverdict
    split at hverdict
    · cases hverdict
    · next hroom =>
      have hvs : s.values = none := by simpa using hroom
      cases hn : s.slot? n with
      | none => exact absurd (strands_of_setValue ht hs hvs hn) (hstrands t n)
      | some k =>
        rw [Change.apply, hguarded.declareHoisted_of_some slack hn]
        exact Scope.setSlot_of_size_le (by simp [hvs]) v

theorem Runs.eq_of_error (hr : e.Runs p (r, q)) (h : p.Each Scope.Guarded) (he : r = .error err)
    (hstrands : ∀ t n, ¬ e.Strands p t n) : q = p := by
  cases hr with
  | unmade | refused => rfl
  | made | removed | absent => cases he
  | @changed id t c s ht hs =>
    cases hverdict : c.verdict t s with
    | ok =>
      rw [hverdict] at he
      cases he
    | error err =>
      exact Pool.update_eq_self hs (apply_eq_self ht hs (h t s hs) hverdict hstrands _)

/-- The name of a value that is left stranded stays declared. -/
theorem Runs.of_strands (hr : e.Runs p (r, q)) (hn : e.Strands p t n) :
    r = .error (.unmaterialized t) ∧
      q = p.update t fun u => (u.declareHoisted p.limits.growthSlack n none).2 := by
  obtain ⟨id, v, s, vs, u, rfl, hvalues, hslot, htarget, hu, hus, -⟩ := hn
  have ht : (Change.setValue n v).target p id = .ok t := by
    simp only [Change.target, hvalues, bind, Except.bind, hslot]
    exact htarget
  cases hr with
  | refused he =>
    rw [ht] at he
    cases he
  | changed ht' hs =>
    rw [ht] at ht'
    cases ht'
    rw [hu] at hs
    cases hs
    refine ⟨by simp [Change.verdict, hus, Except.map], Pool.update_congr hu ?_⟩
    exact Scope.setSlot_of_size_le (by simp [hus]) v

end Edit

/-- After any edits, an edit that is refused leaves the pool as it is, with one exception. A value
set in a catch scope goes to the scope around it if the name is bound in neither; when that scope
has no room for values the edit is refused, and yet the name is declared from then on. -/
theorem Pool.refused_edit_leaves_pool (limits : Limits) (before : List (Edit V)) (e : Edit V) :
    let p := (Pool.empty limits : Pool V).edited before
    let (r, q) := e.run.run p
    (∀ err, r = .error err → (∀ t n, ¬ e.Strands p t n) → q = p) ∧
    ∀ t n, e.Strands p t n → r = .error (.unmaterialized t) ∧
      q = p.update t (fun u => (u.declareHoisted p.limits.growthSlack n none).2) ∧
      ∃ u, q.find? t = some u ∧ u.slot? n ≠ none := by
  intro p
  have h : p.Each Scope.Guarded := guarded_edited (each_empty limits) before
  have hr := Edit.runs h e
  generalize e.run.run p = a at hr ⊢
  obtain ⟨r, q⟩ := a
  constructor
  · intro err he hstrands
    exact hr.eq_of_error h he hstrands
  · intro t n hn
    obtain ⟨rfl, rfl⟩ := hr.of_strands hn
    obtain ⟨_, _, _, _, u, -, -, -, -, hu, -⟩ := hn
    refine ⟨rfl, rfl, _, find?_update_self hu _, ?_⟩
    rw [(h t u hu).slot?_declareHoisted, if_pos rfl]
    exact Option.some_ne_none _

/-- A value set in a catch scope around which there is a scope without room for values. -/
theorem Pool.refused_value_declares_name :
    let p := (Pool.empty .standard : Pool Nat).edited
      [.make .global, .make (.catchInstance (some ⟨0, 0⟩) [⟨4⟩])]
    let a := (Edit.change ⟨1, 0⟩ (.setValue ⟨5⟩ 1)).run.run p
    a.1 = .error (.unmaterialized ⟨0, 0⟩) ∧ (p.find? ⟨0, 0⟩).bind (·.slot? ⟨5⟩) = none ∧
      (a.2.find? ⟨0, 0⟩).bind (·.slot? ⟨5⟩) = some 0 := by
  decide +kernel

end ScopeChain
