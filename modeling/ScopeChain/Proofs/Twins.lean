import ScopeChain.Heap
import ScopeChain.Proofs.Operations
import ScopeChain.Proofs.Worlds

/-! Scopes of two runs that stand for each other, and what each change of a scope does to both. -/
namespace ScopeChain

variable {W W' : World} {limit : Nat}

/-- A scope is what it should be, given the frame that it was made for. The names of the frame keep
the first slots for good, and a scope made for a closed frame has no others. -/
structure Frame.Describes (F : Frame) (s : Scope Value) : Prop where
  kind : s.kind.extensible = !F.isCatch
  bound : s.immutableCount = F.names.length
  slots : ∀ k n, F.names[k]? = some n → s.slot? n = some k
  closed : F.isOpen = false → ∀ n k, s.slot? n = some k → n ∈ F.names

namespace Scope

/-- The values of two scopes are alike in every slot. There is room in both for every slot given
out, and where there is room for more, no value shows. -/
structure Filled (W : World) (limit : Nat) (s t : Scope Value) (vs ws : Array Value) : Prop where
  left : s.values = some vs
  right : t.values = some ws
  room_left : s.table.slotCount ≤ vs.size
  room_right : s.table.slotCount ≤ ws.size
  likens : ∀ k : Nat, W.Likens limit (vs[k]?.getD .undefined) (ws[k]?.getD .undefined)

/-- Two scopes with the same names in the same slots and with values that are alike. -/
structure Twin (W : World) (limit : Nat) (shape : Shape) (s t : Scope Value) : Prop where
  kind : t.kind = s.kind
  table : t.table = s.table
  bound : t.immutableCount = s.immutableCount
  sound : s.table.Sound
  parent_left : s.parent = shape.parent.map Prod.fst
  parent_right : t.parent = shape.parent.map Prod.snd
  filled : ∃ vs ws, Filled W limit s t vs ws
  root : shape.frame = none → s.kind.extensible = true
  frame : ∀ F, shape.frame = some F → F.Describes s

section Twin

variable {shape : Shape} {s t : Scope Value}

theorem Filled.mono {vs ws : Array Value} (h : Filled W limit s t vs ws) (hw : W ≤ W') :
    Filled W' limit s t vs ws :=
  ⟨h.left, h.right, h.room_left, h.room_right, fun k => (h.likens k).mono hw⟩

theorem Twin.mono (h : Twin W limit shape s t) (hw : W ≤ W') : Twin W' limit shape s t := by
  obtain ⟨vs, ws, hf⟩ := h.filled
  exact { h with filled := ⟨vs, ws, hf.mono hw⟩ }

theorem Twin.slot?_eq (h : Twin W limit shape s t) (n : Name) : t.slot? n = s.slot? n := by
  rw [slot?, h.table]
  rfl

/-- A name is declared in two scopes alike, however their arrays grow. -/
theorem Twin.declare (h : Twin W limit shape s t) (j k : Nat) (n : Name)
    (ho : ∀ F, shape.frame = some F → F.isOpen = true) :
    (t.declareHoisted k n none).1 = (s.declareHoisted j n none).1 ∧
      Twin W limit shape (s.declareHoisted j n none).2 (t.declareHoisted k n none).2 := by
  obtain ⟨vs, ws, hf⟩ := h.filled
  refine ⟨by simp [declareHoisted, h.table], ?_⟩
  refine ⟨h.kind, by simp [declareHoisted, h.table], h.bound, h.sound.declareHoisted n none,
    h.parent_left, h.parent_right, ?_, h.root, fun F hF => ?_⟩
  · refine ⟨grow j ((s.table.declareHoisted n none).1 + 1) vs,
      grow k ((s.table.declareHoisted n none).1 + 1) ws, ?_, ?_, ?_, ?_, fun i => ?_⟩
    · simp [declareHoisted, hf.left]
    · simp [declareHoisted, hf.right, h.table]
    · exact slotCount_le_size_grow none j hf.room_left
    · simpa [declareHoisted, h.table] using slotCount_le_size_grow none k hf.room_right
    · have hleft := getD_grow j ((s.table.declareHoisted n none).1 + 1) vs i
      have hright := getD_grow k ((s.table.declareHoisted n none).1 + 1) ws i
      change W.Likens limit (Option.getD _ default) (Option.getD _ default)
      rw [hleft, hright]
      exact hf.likens i
  · have hd := h.frame F hF
    refine ⟨hd.kind, hd.bound, fun i m hm => ?_, fun hc => ?_⟩
    · exact h.sound.slot?_declareHoisted_of_some none (hd.slots i m hm)
    · rw [ho F hF] at hc
      cases hc

theorem likens_set {vs ws : Array Value} {k : Nat} {v w : Value}
    (h : ∀ i : Nat, W.Likens limit (vs[i]?.getD .undefined) (ws[i]?.getD .undefined))
    (hv : W.Likens limit v w) (hk : k < vs.size) (hk' : k < ws.size) (i : Nat) :
    W.Likens limit ((vs.setIfInBounds k v)[i]?.getD .undefined)
      ((ws.setIfInBounds k w)[i]?.getD .undefined) := by
  simp only [Array.getElem?_setIfInBounds]
  split
  · simpa [hk, hk'] using hv
  · exact h i

/-- Values that are alike are put into a slot of two scopes. -/
theorem Twin.store {k : Nat} {v w : Value} (h : Twin W limit shape s t) (hv : W.Likens limit v w)
    (hk : k < s.table.slotCount) :
    Twin W limit shape { s with values := s.values.map (·.setIfInBounds k v) }
      { t with values := t.values.map (·.setIfInBounds k w) } := by
  obtain ⟨vs, ws, hf⟩ := h.filled
  refine { h with
    filled := ⟨vs.setIfInBounds k v, ws.setIfInBounds k w, by simp [hf.left], by simp [hf.right],
      by simpa using hf.room_left, by simpa using hf.room_right, ?_⟩
    frame := fun F hF => ?_ }
  · exact likens_set hf.likens hv (Nat.lt_of_lt_of_le hk hf.room_left)
      (Nat.lt_of_lt_of_le hk hf.room_right)
  · have hd := h.frame F hF
    exact ⟨hd.kind, hd.bound, hd.slots, hd.closed⟩

/-- The names of two scopes that were made for no frame become undeletable alike. -/
theorem Twin.freeze (h : Twin W limit shape s t) (hs : shape.frame = none) :
    Twin W limit shape s.freeze t.freeze := by
  obtain ⟨vs, ws, hf⟩ := h.filled
  refine ⟨h.kind, ?_, ?_, h.sound.retireBelow _, h.parent_left, h.parent_right,
    ⟨vs, ws, hf.left, hf.right, hf.room_left, hf.room_right, hf.likens⟩, h.root, fun F hF => ?_⟩
  · simp [Scope.freeze, h.table, h.bound]
  · simp [Scope.freeze, h.table, h.bound]
  · rw [hs] at hF
    cases hF

/-- A name is taken out of two scopes alike, unless its slot is one of the undeletable ones. -/
theorem Twin.erase {n : Name} {k : Nat} (h : Twin W limit shape s t) (hn : s.slot? n = some k)
    (hk : s.immutableCount ≤ k) : Twin W limit shape (s.erase n) (t.erase n) := by
  obtain ⟨vs, ws, hf⟩ := h.filled
  have hlt : k < s.table.slotCount := Table.slot?_lt hn
  have hsize : (s.table.slots.setIfInBounds k none).size = s.table.slotCount :=
    Array.size_setIfInBounds
  rw [erase_of_some hn, erase_of_some ((h.slot?_eq n).trans hn)]
  refine ⟨h.kind, by rw [h.table], h.bound, h.sound.remove hn, h.parent_left, h.parent_right, ?_,
    h.root, fun F hF => ?_⟩
  · refine ⟨vs.setIfInBounds k default, ws.setIfInBounds k default, by simp [hf.left],
      by simp [hf.right], ?_, ?_, ?_⟩
    · simpa [Table.slotCount, hsize] using hf.room_left
    · simpa [Table.slotCount, hsize] using hf.room_right
    · exact likens_set hf.likens .undefined (Nat.lt_of_lt_of_le hlt hf.room_left)
        (Nat.lt_of_lt_of_le hlt hf.room_right)
  · have hd := h.frame F hF
    have hslot (m : Name) := h.sound.slot?_remove hn m
    refine ⟨hd.kind, hd.bound, fun i m hm => ?_, fun hc m i hi => ?_⟩
    · have hi := hd.slots i m hm
      have hne : m ≠ n := by
        rintro rfl
        have hik : i = k := Option.some.inj (hi.symm.trans hn)
        have := (List.getElem?_eq_some_iff.mp hm).1
        rw [hd.bound] at hk
        omega
      exact (hslot m).trans ((if_neg hne).trans hi)
    · rw [Scope.slot?, hslot m] at hi
      split at hi
      · cases hi
      · exact hd.closed hc m i hi

/-- Two new scopes with the names of a frame. -/
theorem twin_filled {F : Frame} {x : Pairing} (kind : ScopeKind)
    (hk : kind.extensible = !F.isCatch) (hn : F.names.Nodup) :
    Twin W limit ⟨some x, some F⟩ (.filled kind (some x.1) F.names)
      (.filled kind (some x.2) F.names) := by
  have hc := Table.compact_ofNames F.names
  have hs := Table.sound_ofNames F.names
  have hnames := Table.names_ofNames hn
  have hcount : (Table.ofNames F.names).slotCount = F.names.length := by
    rw [← hc.length_names, hnames]
  have hslot (n : Name) (k : Nat) :
      (Table.ofNames F.names).slot? n = some k ↔ F.names[k]? = some n := by
    rw [hc.slot?_eq_some_iff hs, hnames]
  refine ⟨rfl, rfl, rfl, hs, rfl, rfl, ⟨_, _, rfl, rfl, ?_, ?_, fun k => ?_⟩, nofun, ?_⟩
  · simp [Scope.filled, Scope.ofTable, hcount]
  · simp [Scope.filled, Scope.ofTable, hcount]
  · rw [Array.getElem?_replicate]
    split <;> exact .undefined
  · rintro G ⟨rfl⟩
    refine ⟨hk, hcount, fun k n hkn => (hslot n k).mpr hkn, fun _ n k hnk => ?_⟩
    exact List.mem_of_getElem? ((hslot n k).mp hnk)

/-- Two new scopes without names, which were made for no frame. -/
theorem twin_materialize {parent : Option Pairing} (kind : ScopeKind)
    (hk : kind.extensible = true) :
    Twin W limit ⟨parent, none⟩
      (Scope.materialize (.ofTable kind (parent.map Prod.fst) (.ofNames [])))
      (Scope.materialize (.ofTable kind (parent.map Prod.snd) (.ofNames []))) := by
  refine ⟨rfl, rfl, rfl, Table.sound_ofNames [], rfl, rfl, ⟨#[], #[], rfl, rfl, ?_, ?_, fun k => ?_⟩,
    fun _ => hk, nofun⟩
  · exact Nat.le_refl 0
  · exact Nat.le_refl 0
  · exact .undefined

end Twin

end Scope

end ScopeChain
