import Mathlib.Logic.Function.Basic
import ScopeChain.Proofs.Operations

/-! A scope as a map from names to values. Neither the slots of names show in it, nor which slots are
given out again, nor how arrays grow. -/
namespace ScopeChain

/-- What a scope is to those who use it by names. -/
@[ext]
structure Cell (V : Type) where
  /-- The value of each name that is bound. -/
  value : Name → Option V
  /-- Whether a name is bound for good. -/
  isSealed : Name → Bool
  parent : Option ScopeId
  /-- Whether what is declared goes to the parent. -/
  forwards : Bool
  /-- Whether there is room for values. -/
  filled : Bool

namespace Cell

variable {V : Type}

/-- Binds a name to a value, whatever was bound to it. -/
def put (c : Cell V) (n : Name) (v : V) : Cell V :=
  { c with value := Function.update c.value n (some v) }

/-- Binds an absent name to the default, and leaves a bound one alone. -/
def declare [Inhabited V] (c : Cell V) (n : Name) : Cell V :=
  match c.value n with
  | some _ => c
  | none => c.put n default

def unbind (c : Cell V) (n : Name) : Cell V :=
  { c with value := Function.update c.value n none }

/-- All names bound now are bound for good. -/
def freeze (c : Cell V) : Cell V := { c with isSealed := fun n => (c.value n).isSome }

def fill (c : Cell V) : Cell V := { c with filled := true }

/-- Some names bound to the default. -/
def ofNames [Inhabited V] (kind : ScopeKind) (parent : Option ScopeId) (names : List Name) :
    Cell V where
  value n := if n ∈ names then some default else none
  isSealed _ := false
  parent
  forwards := !kind.extensible
  filled := false

end Cell

namespace Scope

variable {V : Type} [Inhabited V] {s : Scope V} {n m : Name} {k : Nat} {v : V}

/-- The value in a slot, with the default where there is no room. -/
def valueAt (s : Scope V) (k : Nat) : V := (s.values.bind fun vs => vs[k]?).getD default

/-- What a scope is to those who use it by names. -/
def cell (s : Scope V) : Cell V where
  value n := (s.slot? n).map s.valueAt
  isSealed n := (s.slot? n).any (· < s.immutableCount)
  parent := s.parent
  forwards := !s.kind.extensible
  filled := s.values.isSome

/-- Free slots are deletable ones, and there is room for the values of all slots. -/
structure Guarded (s : Scope V) : Prop where
  sound : s.table.Sound
  bound : s.immutableCount ≤ s.table.slotCount
  above : ∀ k ∈ s.table.free, s.immutableCount ≤ k
  room : ∀ vs, s.values = some vs → s.table.slotCount ≤ vs.size

/-- Besides, free slots hold no value that could show. -/
structure Tidy (s : Scope V) : Prop extends s.Guarded where
  vacant : ∀ k, s.table.nameAt k = none → s.valueAt k = default
  parent : s.kind = .catch → s.parent.isSome = true

theorem valueAt_of_values {vs : Array V} (h : s.values = some vs) (k : Nat) :
    s.valueAt k = vs[k]?.getD default := by
  simp [valueAt, h]

theorem value_eq_none_iff : s.cell.value n = none ↔ s.slot? n = none := by simp [cell]

theorem value_of_slot? (h : s.slot? n = some k) : s.cell.value n = some (s.valueAt k) := by
  simp [cell, h]

theorem valueAt_declareHoisted (slack : Nat) (n : Name) (o : Option NodeId) (k : Nat) :
    (s.declareHoisted slack n o).2.valueAt k = s.valueAt k := by
  simp only [valueAt, declareHoisted]
  cases s.values with
  | none => rfl
  | some vs => exact getD_grow slack _ vs k

theorem Guarded.declareHoisted (h : s.Guarded) (slack : Nat) (n : Name) (o : Option NodeId) :
    (s.declareHoisted slack n o).2.Guarded := by
  refine ⟨h.sound.declareHoisted n o, ?_, ?_, ?_⟩
  · exact Nat.le_trans h.bound Table.slotCount_le_declareHoisted
  · intro k hk
    exact h.above k (Table.free_declareHoisted_subset hk)
  · intro vs hvs
    obtain ⟨us, hus, rfl⟩ := Option.map_eq_some_iff.mp hvs
    exact slotCount_le_size_grow o slack (h.room us hus)

theorem Tidy.declareHoisted (h : s.Tidy) (slack : Nat) (n : Name) (o : Option NodeId) :
    (s.declareHoisted slack n o).2.Tidy := by
  refine ⟨h.toGuarded.declareHoisted slack n o, ?_, h.parent⟩
  intro k hk
  rw [valueAt_declareHoisted]
  apply h.vacant
  have hname := h.sound.nameAt_declareHoisted n o k
  rw [show (s.table.declareHoisted n o).2.nameAt k = none from hk] at hname
  split at hname
  · cases hname
  · exact hname.symm

omit [Inhabited V] in
/-- The slot of a new name is deletable. -/
theorem Guarded.immutableCount_le (h : s.Guarded) (o : Option NodeId) (hn : s.slot? n = none) :
    s.immutableCount ≤ (s.table.declareHoisted n o).1 := by
  rcases Table.declareHoisted_fst_of_none (o := o) hn with hfree | hnew
  · exact h.above _ hfree
  · rw [hnew]
    exact h.bound

theorem Guarded.slot?_declareHoisted (h : s.Guarded) (slack : Nat) (n m : Name) (o : Option NodeId) :
    (s.declareHoisted slack n o).2.slot? m =
      if m = n then some (s.declareHoisted slack n o).1 else s.slot? m :=
  h.sound.slot?_declareHoisted n m o

/-- No declaration seals or unseals a name. -/
theorem Guarded.isSealed_declareHoisted (h : s.Guarded) (slack : Nat) (n m : Name)
    (o : Option NodeId) : (s.declareHoisted slack n o).2.cell.isSealed m = s.cell.isSealed m := by
  change ((s.declareHoisted slack n o).2.slot? m).any (· < s.immutableCount) =
    (s.slot? m).any (· < s.immutableCount)
  rw [h.slot?_declareHoisted]
  by_cases hm : m = n
  · rw [if_pos hm, hm, Option.any_some]
    cases hn : s.slot? n with
    | none => exact decide_eq_false (Nat.not_lt.mpr (h.immutableCount_le o hn))
    | some k =>
      have hk : (s.declareHoisted slack n o).1 = k := by
        simp [Scope.declareHoisted, Table.declareHoisted_of_some hn]
      rw [hk, Option.any_some]
  · rw [if_neg hm]

theorem isSome_values_declareHoisted (slack : Nat) (n : Name) (o : Option NodeId) :
    (s.declareHoisted slack n o).2.values.isSome = s.values.isSome := by
  simp [Scope.declareHoisted]

/-- What is declared already stays as it is. -/
theorem Tidy.cell_declareHoisted_of_some (h : s.Tidy) (slack : Nat) (o : Option NodeId)
    (hn : s.slot? n = some k) : (s.declareHoisted slack n o).2.cell = s.cell := by
  have hk : (s.declareHoisted slack n o).1 = k := by
    simp [Scope.declareHoisted, Table.declareHoisted_of_some hn]
  have hslot (m : Name) : (s.declareHoisted slack n o).2.slot? m = s.slot? m := by
    rw [h.slot?_declareHoisted, hk]
    by_cases hm : m = n
    · rw [if_pos hm, hm, hn]
    · exact if_neg hm
  refine Cell.ext (funext fun m => ?_) (funext fun m => ?_) rfl rfl ?_
  · simp only [cell, hslot]
    congr 1
    funext j
    exact valueAt_declareHoisted slack n o j
  · exact h.isSealed_declareHoisted slack n m o
  · exact isSome_values_declareHoisted slack n o

/-- The slot of a new name holds the default value and is behind those of the names bound for good. -/
theorem Tidy.cell_declareHoisted_of_none (h : s.Tidy) (slack : Nat) (o : Option NodeId)
    (hn : s.slot? n = none) : (s.declareHoisted slack n o).2.cell = s.cell.put n default := by
  have hvalue : s.valueAt (s.declareHoisted slack n o).1 = default := by
    apply h.vacant
    have hadd := h.sound.nameAt_add_fst ⟨n, o⟩
    rwa [← Table.declareHoisted_of_none hn] at hadd
  refine Cell.ext (funext fun m => ?_) (funext fun m => ?_) rfl rfl ?_
  · simp only [cell, Cell.put, h.slot?_declareHoisted]
    by_cases hm : m = n
    · simp [hm, valueAt_declareHoisted, hvalue]
    · have hall : (s.declareHoisted slack n o).2.valueAt = s.valueAt :=
        funext (valueAt_declareHoisted slack n o)
      simp [hm, hall]
  · exact h.isSealed_declareHoisted slack n m o
  · exact isSome_values_declareHoisted slack n o

theorem Tidy.cell_declareHoisted (h : s.Tidy) (slack : Nat) (n : Name) (o : Option NodeId) :
    (s.declareHoisted slack n o).2.cell = s.cell.declare n := by
  cases hn : s.slot? n with
  | some k => simp only [h.cell_declareHoisted_of_some slack o hn, Cell.declare, value_of_slot? hn]
  | none =>
    simp only [h.cell_declareHoisted_of_none slack o hn, Cell.declare, value_eq_none_iff.mpr hn]

/-- A value is put into a slot. -/
def setSlot (s : Scope V) (k : Nat) (v : V) : Scope V :=
  { s with values := s.values.map (·.setIfInBounds k v) }

omit [Inhabited V] in
/-- Where there is no room, nothing is put. -/
theorem setSlot_of_size_le (h : (s.values.getD #[]).size ≤ k) (v : V) : s.setSlot k v = s := by
  cases hvs : s.values with
  | none => rw [setSlot, hvs, Option.map_none, ← hvs]
  | some vs =>
    rw [hvs, Option.getD_some] at h
    rw [setSlot, hvs, Option.map_some, Array.setIfInBounds, dif_neg (Nat.not_lt.mpr h), ← hvs]

theorem valueAt_setSlot {vs : Array V} (hvs : s.values = some vs) (hk : k < vs.size) (v : V)
    (j : Nat) : (s.setSlot k v).valueAt j = if j = k then v else s.valueAt j := by
  have hvalues : (s.setSlot k v).values = some (vs.setIfInBounds k v) := by simp [setSlot, hvs]
  rw [valueAt_of_values hvalues, valueAt_of_values hvs, Array.getElem?_setIfInBounds]
  by_cases hj : k = j
  · simp [hj, hj ▸ hk]
  · simp [hj, Ne.symm hj]

omit [Inhabited V] in
theorem Guarded.lt_size (h : s.Guarded) {vs : Array V} (hvs : s.values = some vs)
    (hn : s.slot? n = some k) : k < vs.size :=
  Nat.lt_of_lt_of_le (Table.slot?_lt hn) (h.room vs hvs)

/-- A name that has a slot is declared again to no effect. -/
theorem Guarded.declareHoisted_of_some (h : s.Guarded) (slack : Nat)
    (hn : s.slot? n = some k) : s.declareHoisted slack n none = (k, s) := by
  have hvalues : s.values.map (grow slack (k + 1)) = s.values := by
    cases hvs : s.values with
    | none => rfl
    | some vs =>
      have hk : k + 1 ≤ vs.size := h.lt_size hvs hn
      rw [Option.map_some, grow, if_pos hk]
  simp only [Scope.declareHoisted, Table.declareHoisted_of_some hn, Table.rehoist, hvalues]

omit [Inhabited V] in
theorem Guarded.setSlot (h : s.Guarded) (k : Nat) (v : V) : (s.setSlot k v).Guarded := by
  refine ⟨h.sound, h.bound, h.above, ?_⟩
  intro ws hws
  obtain ⟨us, hus, rfl⟩ := Option.map_eq_some_iff.mp hws
  rw [Array.size_setIfInBounds]
  exact h.room us hus

theorem Tidy.setSlot (h : s.Tidy) {vs : Array V} (hvs : s.values = some vs)
    (hn : s.slot? n = some k) (v : V) : (s.setSlot k v).Tidy := by
  refine ⟨h.toGuarded.setSlot k v, ?_, h.parent⟩
  intro j hj
  have hne : j ≠ k := by
    rintro rfl
    rw [show (s.setSlot j v).table.nameAt j = s.table.nameAt j from rfl,
      Table.nameAt_of_slot? hn] at hj
    cases hj
  rw [valueAt_setSlot hvs (h.lt_size hvs hn), if_neg hne]
  exact h.vacant j hj

theorem Tidy.cell_setSlot (h : s.Tidy) {vs : Array V} (hvs : s.values = some vs)
    (hn : s.slot? n = some k) (v : V) : (s.setSlot k v).cell = s.cell.put n v := by
  have hvalue := valueAt_setSlot hvs (h.lt_size hvs hn) v
  refine Cell.ext (funext fun m => ?_) rfl rfl rfl ?_
  · change (s.slot? m).map (s.setSlot k v).valueAt = Function.update s.cell.value n (some v) m
    by_cases hm : m = n
    · rw [hm, hn, Function.update_self, Option.map_some, hvalue, if_pos rfl]
    · rw [Function.update_of_ne hm]
      cases hj : s.slot? m with
      | none => exact (value_eq_none_iff.mpr hj).symm
      | some j =>
        have hne : j ≠ k := by
          rintro rfl
          have hnames := Table.nameAt_of_slot? hj
          rw [Table.nameAt_of_slot? hn] at hnames
          exact hm (Option.some.inj hnames).symm
        rw [value_of_slot? hj, Option.map_some, hvalue, if_neg hne]
  · simp [cell, Scope.setSlot, Cell.put]

theorem valueAt_erase {vs : Array V} (hvs : s.values = some vs) (hn : s.slot? n = some k)
    (hk : k < vs.size) (j : Nat) :
    (s.erase n).valueAt j = if j = k then default else s.valueAt j := by
  have hset := valueAt_setSlot hvs hk default j
  rwa [show (s.erase n).valueAt j = (s.setSlot k default).valueAt j by
    rw [erase_of_some hn]; rfl]

theorem Guarded.slot?_erase (h : s.Guarded) (hn : s.slot? n = some k) (m : Name) :
    (s.erase n).slot? m = if m = n then none else s.slot? m := by
  rw [erase_of_some hn]
  exact h.sound.slot?_remove hn m

theorem Guarded.erase (h : s.Guarded) (hn : s.slot? n = some k) (hk : s.immutableCount ≤ k) :
    (s.erase n).Guarded := by
  rw [erase_of_some hn]
  have hcount : (s.table.slots.setIfInBounds k none).size = s.table.slotCount :=
    Array.size_setIfInBounds
  refine ⟨h.sound.remove hn, ?_, ?_, ?_⟩
  · exact Nat.le_trans h.bound (Nat.le_of_eq hcount.symm)
  · intro j hj
    rcases List.mem_cons.mp hj with rfl | hj
    · exact hk
    · exact h.above j hj
  · intro ws hws
    obtain ⟨us, hus, rfl⟩ := Option.map_eq_some_iff.mp hws
    have hroom := h.room us hus
    simpa [Table.slotCount, hcount] using hroom

theorem Tidy.erase (h : s.Tidy) {vs : Array V} (hvs : s.values = some vs)
    (hn : s.slot? n = some k) (hk : s.immutableCount ≤ k) : (s.erase n).Tidy := by
  refine ⟨h.toGuarded.erase hn hk, ?_, ?_⟩
  · intro j hj
    rw [valueAt_erase hvs hn (h.lt_size hvs hn)]
    by_cases hjk : j = k
    · exact if_pos hjk
    · rw [if_neg hjk]
      apply h.vacant
      have hname := Table.nameAt_setNone (t := s.table) (j := j) (k := k) (k :: s.table.free)
      rw [if_neg hjk] at hname
      rw [erase_of_some hn] at hj
      exact hname.symm.trans hj
  · rw [erase_of_some hn]
    exact h.parent

/-- No removal of a deletable name seals or unseals a name. -/
theorem Guarded.isSealed_erase (h : s.Guarded) (hn : s.slot? n = some k)
    (hk : s.immutableCount ≤ k) (m : Name) :
    (s.erase n).cell.isSealed m = s.cell.isSealed m := by
  have hbound : (s.erase n).immutableCount = s.immutableCount := by rw [erase_of_some hn]
  change ((s.erase n).slot? m).any (· < (s.erase n).immutableCount) =
    (s.slot? m).any (· < s.immutableCount)
  rw [h.slot?_erase hn, hbound]
  by_cases hm : m = n
  · rw [if_pos hm, hm, hn, Option.any_some, Option.any_none]
    exact (decide_eq_false (Nat.not_lt.mpr hk)).symm
  · rw [if_neg hm]

theorem Tidy.cell_erase (h : s.Tidy) {vs : Array V} (hvs : s.values = some vs)
    (hn : s.slot? n = some k) (hk : s.immutableCount ≤ k) :
    (s.erase n).cell = s.cell.unbind n := by
  have hslot := h.slot?_erase hn
  have hvalue := valueAt_erase hvs hn (h.lt_size hvs hn)
  have hrest : (s.erase n).cell = { s.cell with
      value := (s.erase n).cell.value
      isSealed := (s.erase n).cell.isSealed } := by
    rw [erase_of_some hn]
    simp [cell]
  rw [hrest]
  refine Cell.ext (funext fun m => ?_) (funext fun m => ?_) rfl rfl rfl
  · change ((s.erase n).slot? m).map (s.erase n).valueAt = Function.update s.cell.value n none m
    by_cases hm : m = n
    · rw [hm, hslot, if_pos rfl, Function.update_self, Option.map_none]
    · rw [hslot, if_neg hm, Function.update_of_ne hm]
      cases hj : s.slot? m with
      | none => exact (value_eq_none_iff.mpr hj).symm
      | some j =>
        have hne : j ≠ k := by
          rintro rfl
          have hnames := Table.nameAt_of_slot? hj
          rw [Table.nameAt_of_slot? hn] at hnames
          exact hm (Option.some.inj hnames).symm
        rw [value_of_slot? hj, Option.map_some, hvalue, if_neg hne]
  · exact h.isSealed_erase hn hk m

omit [Inhabited V] in
theorem Guarded.freeze (h : s.Guarded) : s.freeze.Guarded := by
  refine ⟨h.sound.retireBelow _, ?_, ?_, h.room⟩
  · exact Nat.max_le.mpr ⟨h.bound, Nat.le_refl _⟩
  · intro k hk
    have hkept := (List.mem_filter.mp hk).2
    exact of_decide_eq_true hkept

theorem Tidy.freeze (h : s.Tidy) : s.freeze.Tidy := ⟨h.toGuarded.freeze, h.vacant, h.parent⟩

theorem cell_freeze : s.freeze.cell = s.cell.freeze := by
  refine Cell.ext rfl (funext fun n => ?_) rfl rfl rfl
  change (s.slot? n).any (· < max s.immutableCount s.table.slotCount) = (s.cell.value n).isSome
  cases hn : s.slot? n with
  | none => simp [value_eq_none_iff.mpr hn]
  | some k =>
    have hlt : k < s.table.slotCount := Table.slot?_lt hn
    rw [value_of_slot? hn, Option.any_some, Option.isSome_some]
    exact decide_eq_true (Nat.lt_of_lt_of_le hlt (Nat.le_max_right _ _))

theorem valueAt_materialize (k : Nat) : s.materialize.valueAt k = s.valueAt k := by
  cases hvs : s.values with
  | some vs => simp [valueAt, materialize, hvs]
  | none =>
    simp only [valueAt, materialize, hvs, Option.getD_none, Option.bind_some, Option.bind_none,
      Array.getElem?_replicate]
    split <;> rfl

theorem Guarded.materialize (h : s.Guarded) : s.materialize.Guarded := by
  refine ⟨h.sound, h.bound, h.above, ?_⟩
  intro vs hvs
  cases hus : s.values with
  | some us =>
    have heq : us = vs := by simpa [Scope.materialize, hus] using hvs
    exact heq ▸ h.room us hus
  | none =>
    have heq : Array.replicate s.table.slotCount default = vs := by
      simpa [Scope.materialize, hus] using hvs
    rw [← heq, Array.size_replicate]
    exact Nat.le_refl _

theorem Tidy.materialize (h : s.Tidy) : s.materialize.Tidy := by
  refine ⟨h.toGuarded.materialize, ?_, h.parent⟩
  intro k hk
  rw [valueAt_materialize]
  exact h.vacant k hk

theorem cell_materialize : s.materialize.cell = s.cell.fill := by
  refine Cell.ext (funext fun n => ?_) rfl rfl rfl rfl
  change (s.slot? n).map s.materialize.valueAt = (s.slot? n).map s.valueAt
  congr 1
  exact funext valueAt_materialize

section New

variable {kind : ScopeKind} {parent : Option ScopeId} {names : List Name}

theorem slot?_ofNames_isSome : ((Table.ofNames names).slot? n).isSome = true ↔ n ∈ names := by
  have hcompact := Table.compact_ofNames names
  rw [← Table.mem_names_ofNames, ← not_iff_not, ← hcompact.slot?_eq_none_iff]
  simp

omit [Inhabited V] in
theorem guarded_ofTable : (ofTable kind parent (.ofNames names) : Scope V).Guarded :=
  ⟨Table.sound_ofNames names, Nat.zero_le _, fun _ _ => Nat.zero_le _, nofun⟩

theorem tidy_ofTable (hk : kind = .catch → parent.isSome = true) :
    (ofTable kind parent (.ofNames names) : Scope V).Tidy := by
  refine ⟨guarded_ofTable, ?_, hk⟩
  intro k _
  rfl

theorem cell_ofTable :
    (ofTable kind parent (.ofNames names) : Scope V).cell = .ofNames kind parent names := by
  refine Cell.ext (funext fun n => ?_) (funext fun n => ?_) rfl rfl rfl
  · change ((Table.ofNames names).slot? n).map (fun _ => (default : V)) =
      if n ∈ names then some default else none
    by_cases hn : n ∈ names
    · obtain ⟨k, hk⟩ := Option.isSome_iff_exists.mp (slot?_ofNames_isSome.mpr hn)
      rw [hk, if_pos hn, Option.map_some]
    · have hnone : (Table.ofNames names).slot? n = none := by
        rw [← Option.not_isSome_iff_eq_none, slot?_ofNames_isSome]
        exact hn
      rw [hnone, if_neg hn, Option.map_none]
  · change ((Table.ofNames names).slot? n).any (fun k => k < 0) = false
    simp

theorem slotCount_ofNames_le (names : List Name) :
    (Table.ofNames names).slotCount ≤ names.length := by
  have hnodup := (Table.sound_ofNames names).nodup_names
  rw [← (Table.compact_ofNames names).length_names]
  exact hnodup.length_le_of_subset fun n hn => Table.mem_names_ofNames.mp hn

omit [Inhabited V] in
/-- Different names have the slots in the order in which they are listed. -/
theorem slot?_ofNames (h : names.Nodup) (hk : names[k]? = some n) :
    (Table.ofNames names).slot? n = some k := by
  rw [← Table.names_ofNames h] at hk
  exact (Table.compact_ofNames names).slot?_eq_some_iff (Table.sound_ofNames names) |>.mpr hk

theorem valueAt_filled (k : Nat) : (filled kind parent names : Scope V).valueAt k = default := by
  simp only [valueAt, filled, Option.bind_some, Array.getElem?_replicate]
  split <;> rfl

theorem guarded_filled : (filled kind parent names : Scope V).Guarded := by
  refine ⟨Table.sound_ofNames names, Nat.le_refl _, ?_, ?_⟩
  · intro k hm
    rw [show (filled kind parent names : Scope V).table.free = [] from
      (Table.compact_ofNames names).1] at hm
    cases hm
  · rintro vs ⟨rfl⟩
    rw [Array.size_replicate]
    exact slotCount_ofNames_le names

theorem tidy_filled (hk : kind = .catch → parent.isSome = true) :
    (filled kind parent names : Scope V).Tidy := by
  refine ⟨guarded_filled, ?_, hk⟩
  intro k _
  exact valueAt_filled k

/-- The names of an activation or of a catch scope are bound for good from the start. -/
theorem cell_filled : (filled kind parent names : Scope V).cell =
    (Cell.ofNames kind parent names).freeze.fill := by
  have hplain : (ofTable kind parent (.ofNames names) : Scope V).materialize.freeze.cell =
      (Cell.ofNames kind parent names).freeze.fill := by
    rw [cell_freeze, cell_materialize, cell_ofTable]
    rfl
  rw [← hplain]
  refine Cell.ext (funext fun n => ?_) (funext fun n => ?_) rfl rfl rfl
  · change ((Table.ofNames names).slot? n).map (filled kind parent names).valueAt =
      ((Table.ofNames names).slot? n).map (ofTable kind parent (.ofNames names)).materialize.valueAt
    congr 1
    funext k
    rw [valueAt_filled, valueAt_materialize]
    rfl
  · change ((Table.ofNames names).slot? n).any (· < (Table.ofNames names).slotCount) =
      ((Table.ofNames names).slot? n).any (· < max 0 (Table.ofNames names).slotCount)
    rw [Nat.zero_max]

end New

end Scope

end ScopeChain
