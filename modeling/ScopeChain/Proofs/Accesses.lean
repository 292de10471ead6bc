import ScopeChain.Machine.Evaluation
import ScopeChain.Proofs.Uses

/-! Ways to carry out the uses of names that differ from going by the address, and come to the same
as long as addresses keep what they promise. -/
namespace ScopeChain.Exec

open Code (Use)

variable {one : Prop} {W : World} {limit : Nat} {c : Situation} {m n : Machine} {Γ : List Frame}
  {u : Use} {name : Name} {p : Pool Value}

/-- A place is one of the slots that a scope with values keeps for good, and that of the name. -/
def Permanent (p : Pool Value) (name : Name) : Except ScopeError (Option (ScopeId × Nat)) → Prop
  | .ok (some (id, k)) =>
    ∃ s ∈ p.find? id, s.slot? name = some k ∧ k < s.immutableCount ∧ s.values.isSome = true
  | _ => False

/-- What the address of a name promises where the name is used. An address by depth and slot leads
where a look-up of the name leads, to a slot that is kept for good. Any other is the name itself. -/
def Promised (m : Machine) (u : Use) : Prop :=
  let place := m.heap.pool.lookup m.active u.name
  match u.address with
  | .static depth slot =>
    (m.heap.pool.ancestor m.active depth).map (fun id => some (id, slot)) = place ∧
      Permanent m.heap.pool u.name place
  | .dynamic n => n = u.name

instance (p : Pool Value) (name : Name) : (place : Except ScopeError (Option (ScopeId × Nat))) →
    Decidable (Permanent p name place)
  | .ok (some _) => inferInstanceAs (Decidable (∃ s ∈ _, _))
  | .ok none | .error _ => .isFalse id

instance (m : Machine) : (u : Use) → Decidable (Promised m u)
  | ⟨_, .static _ _⟩ => inferInstanceAs (Decidable (_ ∧ _))
  | ⟨_, .dynamic _⟩ => inferInstanceAs (Decidable (_ = _))

/-- Looks every name up, whatever its address is. -/
def Access.byName : Access where
  load u := Exec.load (.dynamic u.name)
  store u := Exec.store (.dynamic u.name)
  typeOfName u := Exec.typeOfName (.dynamic u.name)
  deleteName u := Exec.deleteName (.dynamic u.name)

/-- Does one thing where an address keeps its promise, and another where it does not. -/
def watch {α : Type} (u : Use) (work other : Exec α) : Exec α := do
  if Promised (← get) u then work else other

/-- Goes by the address of each use that keeps its promise, and another way at any that does not. -/
def Access.watched (other : Access) : Access where
  load u := watch u (Exec.load u.address) (other.load u)
  store u v := watch u (Exec.store u.address v) (other.store u v)
  typeOfName u := watch u (Exec.typeOfName u.address) (other.typeOfName u)
  deleteName u := watch u (Exec.deleteName u.address) (other.deleteName u)

/-- Uses whose addresses keep what they promise are carried out as by their addresses. -/
structure Access.Faithful (access : Access) : Prop where
  load : ∀ m u, Promised m u → (access.load u).run m = (Exec.load u.address).run m
  store : ∀ m u v, Promised m u → (access.store u v).run m = (Exec.store u.address v).run m
  typeOfName : ∀ m u, Promised m u →
    (access.typeOfName u).run m = (Exec.typeOfName u.address).run m
  deleteName : ∀ m u, Promised m u →
    (access.deleteName u).run m = (Exec.deleteName u.address).run m

theorem faithful_byAddress : Access.byAddress.Faithful :=
  ⟨fun _ _ _ => rfl, fun _ _ _ _ => rfl, fun _ _ _ => rfl, fun _ _ _ => rfl⟩

theorem run_watch {α : Type} (u : Use) (work other : Exec α) (m : Machine) :
    (watch u work other).run m = if Promised m u then work.run m else other.run m := by
  rw [watch, run_bind_of_ok (run_get m)]
  split <;> rfl

theorem faithful_watched (other : Access) : (Access.watched other).Faithful :=
  ⟨fun _ _ h => (run_watch ..).trans (if_pos h), fun _ _ _ h => (run_watch ..).trans (if_pos h),
    fun _ _ h => (run_watch ..).trans (if_pos h), fun _ _ h => (run_watch ..).trans (if_pos h)⟩

/-- Where an address by depth and slot keeps its promise, both ways lead to one scope with values,
in which the name has a slot that is kept for good. -/
theorem exists_of_promised {d k : Nat} (h : Promised m ⟨name, .static d k⟩) : ∃ id s vs,
    whereabouts m.heap.pool m.active (.static d k) = .ok (some (id, k)) ∧
      m.heap.pool.lookup m.active name = .ok (some (id, k)) ∧ m.heap.pool.find? id = some s ∧
      s.slot? name = some k ∧ k < s.immutableCount ∧ s.values = some vs := by
  obtain ⟨hplace, hkept⟩ := h
  dsimp only at hplace hkept
  rw [← hplace] at hkept
  cases hid : m.heap.pool.ancestor m.active d with
  | error e =>
    rw [hid] at hkept
    exact hkept.elim
  | ok id =>
    rw [hid] at hplace hkept
    obtain ⟨s, hs, hslot, hlt, hv⟩ := hkept
    obtain ⟨vs, hv⟩ := Option.isSome_iff_exists.mp hv
    exact ⟨id, s, vs, by rw [whereabouts, hid]; rfl, hplace.symm, hs, hslot, hlt, hv⟩

/-- What depends only on the place of a name is the same by either way. -/
theorem run_byName {α : Type} {f g : Option (ScopeId × Nat) → Exec α} {d k : Nat}
    (h : Promised m ⟨name, .static d k⟩) (hfg : ∀ place, f (some place) = g (some place)) :
    (do f (← locate (.dynamic name))).run m = (do g (← locate (.static d k))).run m := by
  obtain ⟨id, s, vs, hleft, hright, -⟩ := exists_of_promised h
  rw [run_bind, run_bind, run_locate, run_locate, hleft]
  simp only [whereabouts, hright]
  exact congrArg (·.run m) (hfg (id, k))

theorem run_deleteName_byName {d k : Nat} (h : Promised m ⟨name, .static d k⟩) :
    (deleteName (.dynamic name)).run m = (deleteName (.static d k)).run m := by
  obtain ⟨id, s, vs, -, hlook, hs, hslot, hlt, hv⟩ := exists_of_promised h
  have hdelete : (PoolM.delete id name).run m.heap.pool = (.ok false, m.heap.pool) := by
    rw [PoolM.run_delete name hs hv, hslot]
    exact if_pos hlt
  rw [deleteName, run_bind_of_ok (run_get m)]
  dsimp only
  rw [run_bind_of_ok (run_ask_of_ok hlook)]
  dsimp only
  rw [run_bind_of_ok (run_onScopes_of_ok hdelete)]
  rfl

theorem faithful_byName : Access.byName.Faithful := by
  refine ⟨fun m u h => ?_, fun m u v h => ?_, fun m u h => ?_, fun m u h => ?_⟩
  all_goals
    obtain ⟨name, d | i⟩ := u
  · exact run_byName h fun _ => rfl
  · rw [show i = name from h]; rfl
  · exact run_byName h fun _ => rfl
  · rw [show i = name from h]; rfl
  · exact run_byName h fun _ => rfl
  · rw [show i = name from h]; rfl
  · exact run_deleteName_byName h
  · rw [show i = name from h]; rfl

/-- Where code fits, addresses keep what they promise, in both of two machines. -/
theorem promised_of_fits (h : Machine.Twin one W limit c m n) (hs : W.Sees c.active Γ)
    (hu : u.Fits limit Γ) : Promised m u ∧ Promised n u := by
  obtain ⟨name, ⟨d, k⟩ | i⟩ := u
  · obtain ⟨y, hy⟩ := leads_of_fits h hs hu rfl
    obtain ⟨shape, hshape⟩ := hy.paired
    obtain ⟨s, hfind, hslot, hlt⟩ := hy.slot_left
    obtain ⟨t, hfind', hslot', hlt'⟩ := hy.slot_right
    obtain ⟨s', t', hs', ht', htwin⟩ := h.pool.live y shape hshape
    obtain ⟨vs, ws, hf⟩ := htwin.filled
    cases hfind.symm.trans hs'
    cases hfind'.symm.trans ht'
    constructor
    · simp only [Promised, h.active_left, hy.ancestor_left, hy.lookup_left]
      exact ⟨rfl, s, hfind, hslot, hlt, by rw [hf.left]; rfl⟩
    · simp only [Promised, h.active_right, hy.ancestor_right, hy.lookup_right]
      exact ⟨rfl, t, hfind', hslot', hlt', by rw [hf.right]; rfl⟩
  · exact ⟨hu, hu⟩

section Faithful

variable {A B : Access}

theorem Access.Faithful.parallel_load (hA : A.Faithful) (hB : B.Faithful) (hs : W.Sees c.active Γ)
    (hu : u.Fits limit Γ) : Parallel one W limit c (·.Likens limit) (A.load u) (B.load u) := by
  intro m n ht
  obtain ⟨hm, hn⟩ := promised_of_fits ht hs hu
  rw [hA.load m u hm, hB.load n u hn]
  exact Exec.parallel_load (fun _ _ ht => located_of_fits ht hs hu) m n ht

theorem Access.Faithful.parallel_store {v w : Value} (hA : A.Faithful) (hB : B.Faithful)
    (hs : W.Sees c.active Γ) (hu : u.Fits limit Γ) (hv : W.Likens limit v w) :
    Parallel one W limit c (fun _ _ _ => True) (A.store u v) (B.store u w) := by
  intro m n ht
  obtain ⟨hm, hn⟩ := promised_of_fits ht hs hu
  rw [hA.store m u v hm, hB.store n u w hn]
  exact Exec.parallel_store (fun _ _ ht => located_of_fits ht hs hu) hv m n ht

theorem Access.Faithful.parallel_typeOfName (hA : A.Faithful) (hB : B.Faithful)
    (hs : W.Sees c.active Γ) (hu : u.Fits limit Γ) :
    Parallel one W limit c (·.Likens limit) (A.typeOfName u) (B.typeOfName u) := by
  intro m n ht
  obtain ⟨hm, hn⟩ := promised_of_fits ht hs hu
  rw [hA.typeOfName m u hm, hB.typeOfName n u hn]
  exact Exec.parallel_typeOfName (fun _ _ ht => located_of_fits ht hs hu) m n ht

theorem Access.Faithful.parallel_deleteName (hA : A.Faithful) (hB : B.Faithful)
    (hs : W.Sees c.active Γ) (hu : u.Fits limit Γ) :
    Parallel one W limit c (·.Likens limit) (A.deleteName u) (B.deleteName u) := by
  intro m n ht
  obtain ⟨hm, hn⟩ := promised_of_fits ht hs hu
  obtain ⟨shape, hx⟩ := hs.live
  rw [hA.deleteName m u hm, hB.deleteName n u hn]
  exact Exec.parallel_deleteName hx u.address m n ht

end Faithful

end ScopeChain.Exec
