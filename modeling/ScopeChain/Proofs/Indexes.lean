import Std.Data.HashMap.Lemmas
import ScopeChain.Proofs.Slots
import ScopeChain.Scope.IndexedTable

/-! Tables that keep the slot of each name, so as to find it without a search. What they keep agrees
with the slots after any updates, and slots are stable. -/
namespace ScopeChain

open Table (Idle Given Newer Update)

namespace IndexedTable

variable {u : IndexedTable} {n m : Name} {o : Option NodeId} {k : Nat}

def run (e : Update) (u : IndexedTable) : Option Nat × IndexedTable :=
  match e with
  | .declare n o => (some (u.declareHoisted n o).1, (u.declareHoisted n o).2)
  | .remove n => match u.remove? n with
    | some (k, v) => (some k, v)
    | none => (none, u)
  | .retireBelow b => (none, u.retireBelow b)

def updated (u : IndexedTable) (es : List Update) : IndexedTable :=
  es.foldl (fun u e => (run e u).2) u

/-- The index gives each name the slot where it is declared. -/
structure Sound (u : IndexedTable) : Prop where
  table : u.table.Sound
  index : ∀ n, u.index[n]? = u.table.slot? n

theorem getElem?_insert (index : Std.HashMap Name Nat) (n : Name) (k : Nat) (m : Name) :
    (index.insert n k)[m]? = if m = n then some k else index[m]? := by
  rw [Std.HashMap.getElem?_insert]
  by_cases hm : m = n
  · simp [hm]
  · simp [hm, Ne.symm hm]

theorem getElem?_erase (index : Std.HashMap Name Nat) (n m : Name) :
    (index.erase n)[m]? = if m = n then none else index[m]? := by
  rw [Std.HashMap.getElem?_erase]
  by_cases hm : m = n
  · simp [hm]
  · simp [hm, Ne.symm hm]

theorem Sound.table_declareHoisted (h : u.Sound) (n : Name) (o : Option NodeId) :
    (u.declareHoisted n o).1 = (u.table.declareHoisted n o).1 ∧
      (u.declareHoisted n o).2.table = (u.table.declareHoisted n o).2 := by
  rw [declareHoisted, h.index]
  cases hn : u.table.slot? n with
  | some k =>
    rw [Table.declareHoisted_of_some hn]
    cases o <;> exact ⟨rfl, rfl⟩
  | none =>
    rw [Table.declareHoisted_of_none hn]
    cases hf : u.free with
    | nil => rw [Table.add_of_full hf]; exact ⟨rfl, rfl⟩
    | cons k free => rw [Table.add_of_free hf]; exact ⟨rfl, rfl⟩

/-- A declaration is added to the index. -/
theorem index_declareHoisted (u : IndexedTable) (n m : Name) (o : Option NodeId) :
    (u.declareHoisted n o).2.index[m]? =
      if m = n then some (u.declareHoisted n o).1 else u.index[m]? := by
  rw [declareHoisted]
  cases hn : u.index[n]? with
  | some k =>
    have hsame : u.index[m]? = if m = n then some k else u.index[m]? := by
      by_cases hm : m = n
      · rw [if_pos hm, hm, hn]
      · rw [if_neg hm]
    cases o <;> exact hsame
  | none => cases u.free <;> exact getElem?_insert u.index n _ m

theorem Sound.declareHoisted (h : u.Sound) (n : Name) (o : Option NodeId) :
    (u.declareHoisted n o).2.Sound := by
  obtain ⟨hanswer, htable⟩ := h.table_declareHoisted n o
  refine ⟨htable ▸ h.table.declareHoisted n o, fun m => ?_⟩
  rw [index_declareHoisted, htable, h.table.slot?_declareHoisted, h.index, hanswer]

/-- An update answers as it does without the index, does the same to the slots, and leaves the index
in order. -/
theorem Sound.run (h : u.Sound) (e : Update) :
    (IndexedTable.run e u).1 = (e.run u.table).1 ∧
    (IndexedTable.run e u).2.table = (e.run u.table).2 ∧ (IndexedTable.run e u).2.Sound := by
  cases e with
  | declare n o =>
    obtain ⟨hanswer, htable⟩ := h.table_declareHoisted n o
    exact ⟨congrArg some hanswer, htable, h.declareHoisted n o⟩
  | retireBelow b => exact ⟨rfl, rfl, h.table.retireBelow b, h.index⟩
  | remove n =>
    rw [IndexedTable.run, Update.run, remove?, h.index]
    cases hn : u.table.slot? n with
    | none =>
      rw [Table.remove?, hn]
      exact ⟨rfl, rfl, h⟩
    | some k =>
      rw [Table.remove?_of_some hn]
      refine ⟨rfl, rfl, h.table.remove hn, fun m => ?_⟩
      have herase := getElem?_erase u.index n m
      rw [h.index] at herase
      exact herase.trans (h.table.slot?_remove hn m).symm

theorem Sound.updated (h : u.Sound) (es : List Update) :
    (u.updated es).table = u.table.updated es ∧ (u.updated es).Sound := by
  induction es generalizing u with
  | nil => exact ⟨rfl, h⟩
  | cons e es ih =>
    obtain ⟨-, htable, hsound⟩ := h.run e
    rw [Table.updated_cons, ← htable]
    exact ih hsound

theorem sound_ofNames (ns : List Name) :
    (ofNames ns).table = Table.ofNames ns ∧ (ofNames ns).Sound := by
  have key (ns : List Name) (u : IndexedTable) (h : u.Sound) :
      (ns.foldl (fun u n => (u.declareHoisted n none).2) u).table = u.table.declareAll ns ∧
        (ns.foldl (fun u n => (u.declareHoisted n none).2) u).Sound := by
    induction ns generalizing u with
    | nil => exact ⟨rfl, h⟩
    | cons n ns ih =>
      have htable := (h.table_declareHoisted n none).2
      rw [Table.declareAll_cons, ← htable]
      exact ih _ (h.declareHoisted n none)
  refine key ns empty ⟨Table.sound_empty, fun n => ?_⟩
  simp [empty, table, Table.slot?]

/-- There are as many names in the index as declarations. -/
theorem Sound.size_index (h : u.Sound) : u.index.size = u.table.size := by
  have hmem (n : Name) : n ∈ u.index.keys ↔ n ∈ u.table.names := by
    rw [Std.HashMap.mem_keys, Std.HashMap.mem_iff_isSome_getElem?, h.index, h.table.mem_names_iff]
  have hperm : u.index.keys.Perm u.table.names :=
    (List.perm_ext_iff_of_nodup Std.HashMap.nodup_keys h.table.nodup_names).mpr hmem
  rw [← Std.HashMap.length_keys, hperm.length_eq, Table.size_eq_length, ← Table.map_declarations,
    List.length_map]

end IndexedTable

namespace Table

/-- What holds of a table that was made from some names and updated since. -/
structure Stable (ns : List Name) (es : List Update) (t : Table) : Prop where
  /-- A name has just the slot that it is declared in. -/
  slot_iff : ∀ n k, t.slot? n = some k ↔ ∃ d, t.get? k = some d ∧ d.name = n
  slot_injective : ∀ m n k, t.slot? m = some k → t.slot? n = some k → m = n
  /-- A name keeps its slot until it is removed. -/
  kept : ∀ n k later, t.slot? n = some k → .remove n ∉ later → (t.updated later).slot? n = some k
  free_nodup : t.free.Nodup
  free_empty : ∀ k ∈ t.free, k < t.slotCount ∧ t.get? k = none
  /-- A new name gets the idle slot that was freed last, or else one behind all others. -/
  fresh : ∀ n o, t.slot? n = none →
    let evs := (ofNames ns).events es
    let slot := (t.declareHoisted n o).1
    (Idle evs slot ∧ ∀ k, Idle evs k → Newer evs slot k) ∨ (∀ k, ¬ Idle evs k) ∧ slot = t.slotCount
  /-- No name gets a slot that was empty and below the bound when slots were retired. -/
  retired : ∀ b k, k < b → k < t.slotCount → t.get? k = none →
    ∀ later n o, (((t.retireBelow b).updated later).declareHoisted n o).1 ≠ k
  size_eq : t.size = t.declarations.length
  names_eq : t.names = t.declarations.map (·.2.name)
  mem_declarations : ∀ k d, (k, d) ∈ t.declarations ↔ t.get? k = some d
  ordered : t.declarations.Pairwise (·.1 < ·.1)
  /-- A name holds the closure that it was last given since it was last removed. -/
  hoisted : ∀ k d f, t.get? k = some d → (d.hoisted = some f ↔ Given es d.name f)

/-- Slots are stable, after any updates of a table made from any names. A table with an index of its
names, which it looks them up in and counts them by, goes through the same slots and gives the same
answers, and its index agrees with the slots. -/
theorem slots_are_stable (ns : List Name) (es : List Update) :
    let t := (ofNames ns).updated es
    let u := (IndexedTable.ofNames ns).updated es
    t.Stable ns es ∧ u.slots = t.slots ∧ u.free = t.free ∧ (∀ n, u.index[n]? = t.slot? n) ∧
      u.index.size = t.size ∧ ∀ e, (IndexedTable.run e u).1 = (e.run t).1 := by
  intro t u
  have hstart : (ofNames ns).Sound := sound_ofNames ns
  have hsound : t.Sound := hstart.updated es
  have hstacked : Stacked ((ofNames ns).events es) t.free := by
    have hempty : Stacked [] (ofNames ns).free := by
      rw [(compact_ofNames ns).1]
      refine ⟨List.nodup_nil, fun k => ⟨nofun, ?_⟩, List.Pairwise.nil⟩
      rintro ⟨before, after, heq, -⟩
      simp at heq
    exact hempty.updated hstart es
  have hgiven (n : Name) (f : NodeId) : t.initial? n = some f ↔ Given es n f := by
    have hnone (n : Name) (f : NodeId) : (ofNames ns).initial? n = some f ↔ Given [] n f := by
      rw [initial?_ofNames]
      refine ⟨nofun, ?_⟩
      rintro ⟨before, after, heq, -⟩
      simp at heq
    exact hstart.given_updated hnone es n f
  have hstable : t.Stable ns es := by
    refine {
      slot_iff := fun n k => hsound.slot?_eq_some_iff.trans Option.map_eq_some_iff
      slot_injective := fun m n k hm hn => ?_
      kept := fun n k later hn hkept => hsound.slot?_updated_of_some hn hkept
      free_nodup := hsound.free_nodup
      free_empty := fun k hk => ?_
      fresh := fun n o hn => hstacked.slot_of_new hn o
      retired := fun b k hb hk hempty later n o => ?_
      size_eq := t.size_eq_length
      names_eq := t.map_declarations.symm
      mem_declarations := fun k d => mem_declarations_iff
      ordered := t.pairwise_declarations
      hoisted := fun k d f hd => ?_ }
    · rw [nameAt_of_slot? hm |>.symm.trans (nameAt_of_slot? hn) |> Option.some.inj]
    · have hvacant := hsound.vacant k hk
      exact ⟨(Array.getElem?_eq_some_iff.mp hvacant).1, by rw [get?, hvacant]; rfl⟩
    · have hspent := spent_retireBelow hb hk hempty
      exact (hspent.updated (hsound.retireBelow b) later).declareHoisted_fst_ne n o
    · rw [← (hsound.get?_eq_some_iff.mp hd).2, hgiven]
  obtain ⟨htable, hindexed⟩ := IndexedTable.sound_ofNames ns
  obtain ⟨hupdated, hindexed⟩ := hindexed.updated es
  rw [htable] at hupdated
  refine ⟨hstable, congrArg slots hupdated, congrArg free hupdated, fun n => ?_, ?_, fun e => ?_⟩
  · rw [hindexed.index, hupdated]
  · rw [hindexed.size_index, hupdated]
  · rw [(hindexed.run e).1, hupdated]

end Table

end ScopeChain
