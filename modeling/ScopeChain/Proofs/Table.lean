import Mathlib.Data.List.Nodup
import ScopeChain.Scope.Table

/-! A table of declarations gives each declared name a slot of its own, which it keeps while other
names come and go. -/
namespace ScopeChain.Table

variable {t : Table} {n m : Name} {d : Declaration} {o : Option NodeId} {i j k : Nat}

/-- The name declared in a slot. -/
def nameAt (t : Table) (k : Nat) : Option Name := (t.get? k).map Declaration.name

/-- Empty slots are listed once each, and no name is declared twice. -/
structure Sound (t : Table) : Prop where
  free_nodup : t.free.Nodup
  vacant : ∀ i ∈ t.free, t.slots[i]? = some none
  unique : ∀ i j n, t.nameAt i = some n → t.nameAt j = some n → i = j

theorem nameAt_eq_some_iff :
    t.nameAt k = some n ↔ ∃ d, t.slots[k]? = some (some d) ∧ d.name = n := by
  unfold nameAt get?
  cases t.slots[k]? with
  | none => simp
  | some o => cases o <;> simp

theorem lt_slotCount (h : t.nameAt k = some n) : k < t.slotCount := by
  obtain ⟨d, hd, _⟩ := nameAt_eq_some_iff.mp h
  exact (Array.getElem?_eq_some_iff.mp hd).1

theorem nameAt_of_slot? (h : t.slot? n = some k) : t.nameAt k = some n := by
  obtain ⟨hk, hd, _⟩ := Array.findIdx?_eq_some_iff_getElem.mp h
  obtain ⟨d, hs, hn⟩ : ∃ d, t.slots[k] = some d ∧ d.name = n := by
    cases hs : t.slots[k] with
    | none => simp [hs] at hd
    | some d => exact ⟨d, rfl, by simpa [hs] using hd⟩
  exact nameAt_eq_some_iff.mpr ⟨d, Array.getElem?_eq_some_iff.mpr ⟨hk, hs⟩, hn⟩

theorem slot?_eq_none_iff : t.slot? n = none ↔ ∀ k, t.nameAt k ≠ some n := by
  constructor
  · intro h k hk
    obtain ⟨d, hd, hn⟩ := nameAt_eq_some_iff.mp hk
    have hm : some d ∈ t.slots := Array.mem_iff_getElem?.mpr ⟨k, hd⟩
    simpa [hn] using Array.findIdx?_eq_none_iff.mp h _ hm
  · intro h
    cases hk : t.slot? n with
    | none => rfl
    | some k => exact absurd (nameAt_of_slot? hk) (h k)

theorem Sound.slot?_eq_some_iff (h : t.Sound) : t.slot? n = some k ↔ t.nameAt k = some n := by
  constructor
  · exact nameAt_of_slot?
  · intro hk
    cases hj : t.slot? n with
    | none => exact absurd hk (slot?_eq_none_iff.mp hj k)
    | some j => rw [h.unique j k n (nameAt_of_slot? hj) hk]

theorem slot?_lt (h : t.slot? n = some k) : k < t.slotCount := lt_slotCount (nameAt_of_slot? h)

/-- Two sound tables with the same names in the same slots find them alike. -/
theorem Sound.slot?_congr {u : Table} (ht : t.Sound) (hu : u.Sound)
    (h : ∀ k, t.nameAt k = some n ↔ u.nameAt k = some n) : t.slot? n = u.slot? n := by
  refine Option.ext ?_
  intro k
  rw [ht.slot?_eq_some_iff, hu.slot?_eq_some_iff]
  exact h k

theorem get?_rehoist (t : Table) (k : Nat) (o : Option NodeId) (j : Nat) : (t.rehoist k o).get? j =
    (t.get? j).map fun d => if j = k then { d with hoisted := o.or d.hoisted } else d := by
  cases o with
  | none => cases ht : t.get? j <;> simp [rehoist, ht]
  | some f =>
    simp only [get?, rehoist, Array.getElem?_modify]
    by_cases hj : k = j
    · subst hj
      cases t.slots[k]? with
      | none => simp
      | some o => cases o <;> simp
    · cases t.slots[j]? with
      | none => simp [hj]
      | some o => cases o <;> simp [hj, Ne.symm hj]

theorem nameAt_rehoist : (t.rehoist k o).nameAt j = t.nameAt j := by
  rw [nameAt, get?_rehoist, Option.map_map]
  congr 1
  funext d
  simp only [Function.comp_apply]
  split <;> rfl

@[simp] theorem slotCount_rehoist : (t.rehoist k o).slotCount = t.slotCount := by
  cases o <;> simp [rehoist, slotCount]

@[simp] theorem free_rehoist : (t.rehoist k o).free = t.free := by cases o <;> rfl

theorem Sound.rehoist (h : t.Sound) : (t.rehoist k o).Sound := by
  refine ⟨by simpa using h.free_nodup, fun i hi => ?_, fun i j n => ?_⟩
  · have hv := h.vacant i (by simpa using hi)
    cases o with
    | none => exact hv
    | some f =>
      simp only [Table.rehoist, Array.getElem?_modify, hv]
      split <;> rfl
  · rw [nameAt_rehoist, nameAt_rehoist]
    exact h.unique i j n

theorem add_of_free {free : List Nat} (hf : t.free = i :: free) :
    t.add d = (i, ⟨t.slots.setIfInBounds i (some d), free⟩) := by simp [add, hf]

theorem add_of_full (hf : t.free = []) : t.add d = (t.slotCount, ⟨t.slots.push (some d), []⟩) := by
  simp [add, hf]

theorem Sound.nameAt_add_fst (h : t.Sound) (d : Declaration) : t.nameAt (t.add d).1 = none := by
  cases hf : t.free with
  | nil => simp [add_of_full hf, nameAt, get?, slotCount]
  | cons i free => simp [add_of_free hf, nameAt, get?, h.vacant i (by simp [hf])]

theorem Sound.get?_add (h : t.Sound) (d : Declaration) (k : Nat) :
    (t.add d).2.get? k = if k = (t.add d).1 then some d else t.get? k := by
  cases hf : t.free with
  | nil =>
    simp only [add_of_full hf, get?, Array.getElem?_push, slotCount]
    split <;> simp
  | cons i free =>
    have hi : i < t.slots.size := (Array.getElem?_eq_some_iff.mp (h.vacant i (by simp [hf]))).1
    simp only [add_of_free hf, get?, Array.getElem?_setIfInBounds]
    by_cases hk : i = k
    · subst hk; simp [hi]
    · simp [hk, Ne.symm hk]

theorem Sound.nameAt_add (h : t.Sound) (d : Declaration) (k : Nat) :
    (t.add d).2.nameAt k = if k = (t.add d).1 then some d.name else t.nameAt k := by
  rw [nameAt, h.get?_add]
  split <;> rfl

theorem slotCount_le_add : t.slotCount ≤ (t.add d).2.slotCount := by
  cases hf : t.free with
  | nil => simp [add_of_full hf, slotCount]
  | cons i free => simp [add_of_free hf, slotCount]

theorem Sound.add (h : t.Sound) (hn : t.slot? d.name = none) : (t.add d).2.Sound := by
  refine ⟨?_, ?_, ?_⟩
  · cases hf : t.free with
    | nil => simp [add_of_full hf]
    | cons i free => simpa [add_of_free hf] using (List.nodup_cons.mp (hf ▸ h.free_nodup)).2
  · cases hf : t.free with
    | nil => simp [add_of_full hf]
    | cons i free =>
      rw [add_of_free hf]
      intro k hk
      have hne : i ≠ k := fun he => (List.nodup_cons.mp (hf ▸ h.free_nodup)).1 (he ▸ hk)
      simpa [Array.getElem?_setIfInBounds, hne] using h.vacant k (by simp [hf, hk])
  · intro i j n hi hj
    rw [h.nameAt_add] at hi hj
    have hfresh := slot?_eq_none_iff.mp hn
    split at hi <;> split at hj
    · next hi' hj' => rw [hi', hj']
    · cases hi
      exact absurd hj (hfresh j)
    · cases hj
      exact absurd hi (hfresh i)
    · exact h.unique i j n hi hj

theorem declareHoisted_of_some (h : t.slot? n = some k) :
    t.declareHoisted n o = (k, t.rehoist k o) := by simp [declareHoisted, h]

theorem declareHoisted_of_none (h : t.slot? n = none) : t.declareHoisted n o = t.add ⟨n, o⟩ := by
  simp [declareHoisted, h]

theorem Sound.declareHoisted (h : t.Sound) (n : Name) (o : Option NodeId) :
    (t.declareHoisted n o).2.Sound := by
  cases hn : t.slot? n with
  | none => exact declareHoisted_of_none hn ▸ h.add hn
  | some k => exact declareHoisted_of_some hn ▸ h.rehoist

theorem Sound.nameAt_declareHoisted (h : t.Sound) (n : Name) (o : Option NodeId) (k : Nat) :
    (t.declareHoisted n o).2.nameAt k =
      if k = (t.declareHoisted n o).1 then some n else t.nameAt k := by
  cases hn : t.slot? n with
  | none =>
    rw [declareHoisted_of_none hn]
    exact h.nameAt_add _ k
  | some j =>
    rw [declareHoisted_of_some hn, nameAt_rehoist]
    split
    · next he => rw [he, nameAt_of_slot? hn]
    · rfl

/-- A declaration gives the name the slot that it answers, and other names keep theirs. -/
theorem Sound.slot?_declareHoisted (h : t.Sound) (n m : Name) (o : Option NodeId) :
    (t.declareHoisted n o).2.slot? m =
      if m = n then some (t.declareHoisted n o).1 else t.slot? m := by
  have hs := h.declareHoisted n o
  split
  · next he =>
    rw [he, hs.slot?_eq_some_iff, h.nameAt_declareHoisted, if_pos rfl]
  · next hne =>
    refine hs.slot?_congr h fun k => ?_
    rw [h.nameAt_declareHoisted]
    split
    · next hk =>
      refine ⟨fun he => absurd (Option.some.inj he).symm hne, fun hm => ?_⟩
      -- The slot was empty or held `n`.
      cases hn : t.slot? n with
      | none =>
        rw [hk, declareHoisted_of_none hn, h.nameAt_add_fst] at hm
        cases hm
      | some j =>
        rw [hk, declareHoisted_of_some hn, nameAt_of_slot? hn] at hm
        exact absurd (Option.some.inj hm).symm hne
    · exact Iff.rfl

theorem slotCount_le_declareHoisted : t.slotCount ≤ (t.declareHoisted n o).2.slotCount := by
  cases hn : t.slot? n with
  | none => exact declareHoisted_of_none hn ▸ slotCount_le_add
  | some k => simp [declareHoisted_of_some hn]

/-- A new slot is the only room that a declaration may take. -/
theorem slotCount_declareHoisted_le :
    (t.declareHoisted n o).2.slotCount ≤ max t.slotCount ((t.declareHoisted n o).1 + 1) := by
  cases hn : t.slot? n with
  | some k =>
    simp only [declareHoisted_of_some hn, slotCount_rehoist]
    exact Nat.le_max_left _ _
  | none =>
    rw [declareHoisted_of_none hn]
    cases hf : t.free with
    | nil =>
      simp only [add_of_full hf, slotCount, Array.size_push]
      exact Nat.le_max_right _ _
    | cons i free =>
      simp only [add_of_free hf, slotCount, Array.size_setIfInBounds]
      exact Nat.le_max_left _ _

/-- Declarations move no name to another slot. -/
theorem Sound.slot?_declareHoisted_of_some (h : t.Sound) (o : Option NodeId)
    (hm : t.slot? m = some k) : (t.declareHoisted n o).2.slot? m = some k := by
  rw [h.slot?_declareHoisted]
  split
  · next he => rw [declareHoisted_of_some (he ▸ hm)]
  · exact hm

/-- No empty slot becomes free when a name is declared. -/
theorem free_declareHoisted_subset : (t.declareHoisted n o).2.free ⊆ t.free := by
  cases hn : t.slot? n with
  | some k =>
    rw [declareHoisted_of_some hn, free_rehoist]
    exact List.Subset.refl _
  | none =>
    rw [declareHoisted_of_none hn]
    cases hf : t.free with
    | nil => simp [add_of_full hf]
    | cons i free => simp [add_of_free hf]

/-- A new name gets a free slot, or else one behind all others. -/
theorem declareHoisted_fst_of_none (hn : t.slot? n = none) :
    (t.declareHoisted n o).1 ∈ t.free ∨ (t.declareHoisted n o).1 = t.slotCount := by
  rw [declareHoisted_of_none hn]
  cases hf : t.free with
  | nil => simp [add_of_full hf]
  | cons i free => simp [add_of_free hf]

theorem remove?_of_some (h : t.slot? n = some k) :
    t.remove? n = some (k, ⟨t.slots.setIfInBounds k none, k :: t.free⟩) := by simp [remove?, h]

theorem nameAt_setNone (f : List Nat) :
    (⟨t.slots.setIfInBounds k none, f⟩ : Table).nameAt j = if j = k then none else t.nameAt j := by
  simp only [nameAt, get?, Array.getElem?_setIfInBounds]
  by_cases hj : k = j
  · subst hj
    simp only [if_true]
    split <;> rfl
  · simp [hj, Ne.symm hj]

theorem Sound.remove (h : t.Sound) (hk : t.slot? n = some k) :
    (⟨t.slots.setIfInBounds k none, k :: t.free⟩ : Table).Sound := by
  have hlt : k < t.slots.size := slot?_lt hk
  refine ⟨List.nodup_cons.mpr ⟨fun hm => ?_, h.free_nodup⟩, fun i hi => ?_, fun i j m => ?_⟩
  · obtain ⟨d, hd, _⟩ := nameAt_eq_some_iff.mp (nameAt_of_slot? hk)
    simp [h.vacant k hm] at hd
  · by_cases he : k = i
    · simp [← he, hlt]
    · simpa [Array.getElem?_setIfInBounds, he] using
        h.vacant i (List.mem_of_ne_of_mem (Ne.symm he) hi)
  · rw [nameAt_setNone, nameAt_setNone]
    intro hi hj
    split at hi
    · cases hi
    · split at hj
      · cases hj
      · exact h.unique i j m hi hj

theorem Sound.slot?_remove (h : t.Sound) (hk : t.slot? n = some k) (m : Name) :
    (⟨t.slots.setIfInBounds k none, k :: t.free⟩ : Table).slot? m =
      if m = n then none else t.slot? m := by
  split
  · next he =>
    subst he
    rw [slot?_eq_none_iff]
    intro j hj
    rw [nameAt_setNone] at hj
    split at hj
    · cases hj
    · next hne => exact hne (h.unique j k m hj (nameAt_of_slot? hk))
  · next hne =>
    refine (h.remove hk).slot?_congr h fun j => ?_
    rw [nameAt_setNone]
    split
    · next he =>
      subst he
      rw [nameAt_of_slot? hk]
      simpa using Ne.symm hne
    · exact Iff.rfl

theorem Sound.retireBelow (h : t.Sound) (b : Nat) : (t.retireBelow b).Sound :=
  ⟨h.free_nodup.filter _, fun i hi => h.vacant i (List.mem_filter.mp hi).1, h.unique⟩

@[simp] theorem slot?_retireBelow (b : Nat) : (t.retireBelow b).slot? n = t.slot? n := rfl

@[simp] theorem slotCount_retireBelow (b : Nat) : (t.retireBelow b).slotCount = t.slotCount := rfl

theorem sound_empty : empty.Sound :=
  ⟨List.nodup_nil, by simp [empty], by simp [empty, nameAt, get?]⟩

/-- Every slot is taken, so that the list of names tells the slots. -/
def Compact (t : Table) : Prop :=
  t.free = [] ∧ ∃ ds : List Declaration, t.slots = (ds.map some).toArray

theorem compact_empty : empty.Compact := ⟨rfl, [], rfl⟩

theorem Compact.getElem?_names (h : t.Compact) (k : Nat) : t.names[k]? = t.nameAt k := by
  obtain ⟨_, ds, hs⟩ := h
  have hf : t.names = ds.map Declaration.name := by
    simp [names, hs, List.filterMap_map]
  rw [hf, nameAt, get?, hs]
  cases hk : ds[k]? <;> simp [hk]

theorem Compact.length_names (h : t.Compact) : t.names.length = t.slotCount := by
  obtain ⟨_, ds, hs⟩ := h
  simp [names, slotCount, hs, List.filterMap_map]

theorem Compact.slot?_eq_some_iff (h : t.Compact) (hs : t.Sound) :
    t.slot? n = some k ↔ t.names[k]? = some n := by rw [hs.slot?_eq_some_iff, h.getElem?_names]

theorem Compact.mem_names_iff (h : t.Compact) : n ∈ t.names ↔ ∃ k, t.nameAt k = some n := by
  simp only [List.mem_iff_getElem?, h.getElem?_names]

theorem Compact.slot?_eq_none_iff (h : t.Compact) : t.slot? n = none ↔ n ∉ t.names := by
  rw [Table.slot?_eq_none_iff, h.mem_names_iff]
  exact ⟨fun hn ⟨k, hk⟩ => hn k hk, fun hn k hk => hn ⟨k, hk⟩⟩

theorem Compact.rehoist (h : t.Compact) : (t.rehoist k o).Compact := by
  obtain ⟨hf, ds, hs⟩ := h
  cases o with
  | none => exact ⟨hf, ds, hs⟩
  | some f =>
    refine ⟨hf, ds.modify k ({ · with hoisted := some f }), ?_⟩
    refine Array.ext_getElem? ?_
    intro j
    simp only [Table.rehoist, hs, Array.getElem?_modify, List.getElem?_toArray, List.getElem?_map,
      List.getElem?_modify]
    split <;> cases ds[j]? <;> simp_all

theorem Compact.add (h : t.Compact) : (t.add d).2.Compact := by
  obtain ⟨hf, ds, hs⟩ := h
  exact ⟨by simp [add_of_full hf], ds ++ [d], by simp [add_of_full hf, hs]⟩

theorem Compact.names_add (h : t.Compact) : (t.add d).2.names = t.names ++ [d.name] := by
  obtain ⟨hf, ds, hs⟩ := h
  simp [add_of_full hf, names, hs, List.filterMap_append]

theorem Compact.declareHoisted (h : t.Compact) : (t.declareHoisted n o).2.Compact := by
  cases hn : t.slot? n with
  | none => exact declareHoisted_of_none hn ▸ h.add
  | some k => exact declareHoisted_of_some hn ▸ h.rehoist

theorem Compact.names_declareHoisted (h : t.Compact) :
    (t.declareHoisted n o).2.names = if n ∈ t.names then t.names else t.names ++ [n] := by
  cases hn : t.slot? n with
  | none => rw [declareHoisted_of_none hn, h.names_add, if_neg (h.slot?_eq_none_iff.mp hn)]
  | some k =>
    have hm : n ∈ t.names := h.mem_names_iff.mpr ⟨k, nameAt_of_slot? hn⟩
    rw [declareHoisted_of_some hn, if_pos hm]
    refine List.ext_getElem? ?_
    intro j
    rw [h.rehoist.getElem?_names, h.getElem?_names, nameAt_rehoist]

theorem Compact.mem_names_declareHoisted (h : t.Compact) :
    m ∈ (t.declareHoisted n o).2.names ↔ m ∈ t.names ∨ m = n := by
  rw [h.names_declareHoisted]
  split
  · next hn =>
    refine ⟨.inl, ?_⟩
    rintro (hm | rfl)
    · exact hm
    · exact hn
  · simp

theorem declareAll_cons {ns : List Name} :
    t.declareAll (n :: ns) = (t.declareHoisted n none).2.declareAll ns := rfl

theorem compact_sound_declareAll {ns : List Name} (h : t.Compact) (hs : t.Sound) :
    (t.declareAll ns).Compact ∧ (t.declareAll ns).Sound := by
  induction ns generalizing t with
  | nil => exact ⟨h, hs⟩
  | cons n ns ih => exact ih h.declareHoisted (hs.declareHoisted n none)

theorem Compact.mem_names_declareAll {ns : List Name} (h : t.Compact) :
    m ∈ (t.declareAll ns).names ↔ m ∈ t.names ∨ m ∈ ns := by
  induction ns generalizing t with
  | nil => simp [declareAll]
  | cons n ns ih =>
    rw [declareAll_cons, ih h.declareHoisted, h.mem_names_declareHoisted, List.mem_cons, or_assoc]

theorem Compact.names_declareAll {ns : List Name} (h : t.Compact) (hnd : ns.Nodup)
    (hnew : ∀ n ∈ ns, n ∉ t.names) : (t.declareAll ns).names = t.names ++ ns := by
  induction ns generalizing t with
  | nil => simp [declareAll]
  | cons n ns ih =>
    obtain ⟨hn, hnd⟩ := List.nodup_cons.mp hnd
    have hnames : (t.declareHoisted n none).2.names = t.names ++ [n] := by
      rw [h.names_declareHoisted, if_neg (hnew n List.mem_cons_self)]
    rw [declareAll_cons, ih h.declareHoisted hnd, hnames, List.append_assoc, List.singleton_append]
    intro m hm
    rw [hnames, List.mem_append, List.mem_singleton]
    rintro (hm' | rfl)
    · exact hnew m (List.mem_cons_of_mem n hm) hm'
    · exact hn hm

theorem compact_ofNames (ns : List Name) : (ofNames ns).Compact :=
  (compact_sound_declareAll compact_empty sound_empty).1

theorem sound_ofNames (ns : List Name) : (ofNames ns).Sound :=
  (compact_sound_declareAll compact_empty sound_empty).2

theorem mem_names_ofNames {ns : List Name} : m ∈ (ofNames ns).names ↔ m ∈ ns := by
  rw [ofNames, compact_empty.mem_names_declareAll]
  simp [names, empty]

/-- Different names get the slots in the order in which they are listed. -/
theorem names_ofNames {ns : List Name} (h : ns.Nodup) : (ofNames ns).names = ns := by
  rw [ofNames, compact_empty.names_declareAll h (by simp [names, empty])]
  simp [names, empty]

theorem map_declarations (t : Table) : (t.declarations.map fun d => d.2.name) = t.names := by
  have key (os : List (Option Declaration)) (k : Nat) :
      (((os.zipIdx k).filterMap fun d => d.1.map fun e => (d.2, e)).map fun d => d.2.name) =
        os.filterMap fun d => d.map Declaration.name := by
    induction os generalizing k with
    | nil => rfl
    | cons o os ih => cases o <;> simpa using ih (k + 1)
  exact key t.slots.toList 0

theorem mem_declarations_iff : (k, d) ∈ t.declarations ↔ t.get? k = some d := by
  simp only [declarations, List.mem_filterMap, Option.map_eq_some_iff]
  constructor
  · rintro ⟨⟨o, j⟩, hm, e, he, hk⟩
    rw [List.mem_zipIdx_iff_getElem?] at hm
    cases hk
    simp only at he hm
    simp [get?, ← Array.getElem?_toList, hm, he]
  · intro h
    refine ⟨(some d, k), ?_, d, rfl, rfl⟩
    rw [List.mem_zipIdx_iff_getElem?, Array.getElem?_toList]
    simpa [get?, Option.join_eq_some_iff] using h

/-- The function that a name holds from the start. -/
def initial? (t : Table) (n : Name) : Option NodeId :=
  ((t.slot? n).bind t.get?).bind Declaration.hoisted

theorem initial?_of_none (h : t.slot? n = none) : t.initial? n = none := by
  rw [initial?, h]
  rfl

theorem exists_slot?_of_initial? {f : NodeId} (h : t.initial? n = some f) :
    ∃ k, t.slot? n = some k := by
  cases hn : t.slot? n with
  | none =>
    rw [initial?_of_none hn] at h
    cases h
  | some k => exact ⟨k, rfl⟩

theorem get?_of_slot? (h : t.slot? n = some k) : t.get? k = some ⟨n, t.initial? n⟩ := by
  obtain ⟨d, hd, hn⟩ := Option.map_eq_some_iff.mp (nameAt_of_slot? h)
  rw [initial?, h, Option.bind_some, hd, ← hn]
  rfl

theorem Sound.get?_eq_some_iff (h : t.Sound) :
    t.get? k = some d ↔ t.slot? d.name = some k ∧ t.initial? d.name = d.hoisted := by
  constructor
  · intro hd
    have hslot : t.slot? d.name = some k := h.slot?_eq_some_iff.mpr (by rw [nameAt, hd]; rfl)
    have hget := get?_of_slot? hslot
    rw [hd] at hget
    exact ⟨hslot, congrArg Declaration.hoisted (Option.some.inj hget).symm⟩
  · rintro ⟨hslot, ho⟩
    rw [get?_of_slot? hslot, ho]

/-- A declared name holds the function that it is declared as, or else the one that it held. -/
theorem Sound.get?_declareHoisted (h : t.Sound) (n : Name) (o : Option NodeId) (k : Nat) :
    (t.declareHoisted n o).2.get? k = if k = (t.declareHoisted n o).1 then
      some ⟨n, o.or (t.initial? n)⟩ else t.get? k := by
  cases hn : t.slot? n with
  | none => rw [declareHoisted_of_none hn, h.get?_add, initial?_of_none hn, Option.or_none]
  | some j =>
    rw [declareHoisted_of_some hn, get?_rehoist]
    by_cases hk : k = j
    · rw [hk, get?_of_slot? hn, if_pos rfl]
      simp
    · simp [hk]

theorem Sound.initial?_declareHoisted (h : t.Sound) (n : Name) (o : Option NodeId) (m : Name) :
    (t.declareHoisted n o).2.initial? m = if m = n then o.or (t.initial? n) else t.initial? m := by
  have hslot := h.slot?_declareHoisted n m o
  rw [initial?, hslot]
  split
  · next hm => rw [Option.bind_some, h.get?_declareHoisted, if_pos rfl, Option.bind_some]
  · next hm =>
    rw [if_neg hm] at hslot
    cases hj : t.slot? m with
    | none => rw [initial?_of_none hj]; rfl
    | some j =>
      have hne : j ≠ (t.declareHoisted n o).1 := by
        rintro rfl
        have hname := nameAt_of_slot? (hslot.trans hj)
        rw [h.nameAt_declareHoisted, if_pos rfl] at hname
        exact hm (Option.some.inj hname).symm
      rw [Option.bind_some, h.get?_declareHoisted, if_neg hne, initial?, hj, Option.bind_some]

theorem initial?_ofNames (ns : List Name) (n : Name) : (ofNames ns).initial? n = none := by
  have key (ns : List Name) (t : Table) (ht : t.Sound) (hnone : ∀ n, t.initial? n = none) :
      (t.declareAll ns).initial? n = none := by
    induction ns generalizing t with
    | nil => exact hnone n
    | cons m ns ih =>
      refine ih _ (ht.declareHoisted m none) fun n => ?_
      refine (ht.initial?_declareHoisted m none n).trans ?_
      rw [hnone, hnone, Option.or_none, ite_self]
  exact key ns empty sound_empty fun n => initial?_of_none (by simp [slot?, empty])

theorem hoisted_ofNames {ns : List Name} (h : (ofNames ns).get? k = some d) : d.hoisted = none := by
  rw [← ((sound_ofNames ns).get?_eq_some_iff.mp h).2, initial?_ofNames]

theorem pairwise_declarations (t : Table) : t.declarations.Pairwise (·.1 < ·.1) := by
  have hslots : t.slots.toList.zipIdx.Pairwise (·.2 < ·.2) := by
    rw [← List.pairwise_map, List.zipIdx_map_snd]
    exact List.pairwise_lt_range'
  rw [declarations, List.pairwise_filterMap]
  refine hslots.imp fun hlt d hd d' hd' => ?_
  obtain ⟨-, -, rfl⟩ := Option.map_eq_some_iff.mp hd
  obtain ⟨-, -, rfl⟩ := Option.map_eq_some_iff.mp hd'
  exact hlt

theorem Sound.mem_names_iff (h : t.Sound) : n ∈ t.names ↔ (t.slot? n).isSome := by
  rw [← map_declarations, List.mem_map, Option.isSome_iff_exists]
  constructor
  · rintro ⟨⟨k, d⟩, hd, rfl⟩
    exact ⟨k, (h.get?_eq_some_iff.mp (mem_declarations_iff.mp hd)).1⟩
  · rintro ⟨k, hk⟩
    exact ⟨(k, ⟨n, t.initial? n⟩), mem_declarations_iff.mpr (get?_of_slot? hk), rfl⟩

theorem Sound.nodup_names (h : t.Sound) : t.names.Nodup := by
  rw [← map_declarations, List.Nodup, List.pairwise_map]
  refine t.pairwise_declarations.imp_of_mem ?_
  intro d d' hd hd' hlt heq
  have hslot := (h.get?_eq_some_iff.mp (mem_declarations_iff.mp hd)).1
  have hslot' := (h.get?_eq_some_iff.mp (mem_declarations_iff.mp hd')).1
  rw [heq, hslot', Option.some.injEq] at hslot
  omega

/-- While a table has no more slots than 32 bits tell apart, its slots are stored as they are. -/
theorem stored_slot? (hfits : t.slotCount ≤ UInt32.size) (h : t.slot? n = some k) :
    (storedSlot k).toNat = k :=
  UInt32.toNat_ofNat_of_lt' (Nat.lt_of_lt_of_le (slot?_lt h) hfits)

/-- Different names are then stored with different slots. -/
theorem stored_slots_inj (hfits : t.slotCount ≤ UInt32.size) (hn : t.slot? n = some i)
    (hm : t.slot? m = some j) (heq : storedSlot i = storedSlot j) : n = m := by
  have hsame : i = j := by
    rw [← stored_slot? hfits hn, heq, stored_slot? hfits hm]
  have hname := nameAt_of_slot? hn
  rw [hsame, nameAt_of_slot? hm] at hname
  exact (Option.some.inj hname).symm

/-- With one slot more, the first and the last come to be stored alike. -/
theorem stored_slots_clash : ∃ t : Table, t.slotCount = UInt32.size + 1 ∧ ∃ n m, n ≠ m ∧
    ∃ i j, t.slot? n = some i ∧ t.slot? m = some j ∧ storedSlot i = storedSlot j := by
  -- the size is kept behind a name, so that no list of that length is ever written out
  obtain ⟨size, hsize⟩ : ∃ size, size = UInt32.size := ⟨_, rfl⟩
  have hnodup : ((List.range (size + 1)).map Name.mk).Nodup := by
    refine List.Nodup.map ?_ List.nodup_range
    intro i j heq
    exact congrArg Name.index heq
  have hcompact := compact_ofNames ((List.range (size + 1)).map Name.mk)
  have hnames := names_ofNames hnodup
  have hslot (i : Nat) (hi : i < size + 1) :
      (ofNames ((List.range (size + 1)).map Name.mk)).slot? ⟨i⟩ = some i := by
    rw [hcompact.slot?_eq_some_iff (sound_ofNames _), hnames, List.getElem?_map,
      List.getElem?_range hi]
    rfl
  refine ⟨_, ?_, ⟨0⟩, ⟨size⟩, ?_, 0, size, hslot 0 (by omega), hslot size (by omega), ?_⟩
  · rw [← hcompact.length_names, hnames, List.length_map, List.length_range, hsize]
  · intro heq
    cases heq
    cases hsize
  · rw [hsize]
    rfl

theorem size_eq_length (t : Table) : t.size = t.declarations.length := by
  rw [← List.length_map (fun d : Nat × Declaration => d.2.name), map_declarations, names,
    List.length_filterMap_eq_countP, size, ← Array.countP_toList]
  simp

end ScopeChain.Table
