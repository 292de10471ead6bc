import Mathlib.Data.List.Nodup
import ScopeChain.Scope.Values

/-! What a handle names after each operation on a pool of scopes. -/
namespace ScopeChain.Pool

variable {V : Type} {p : Pool V} {id x : ScopeId} {s : Scope V}

theorem get_eq_ok_iff : p.get id = .ok s ↔ p.find? id = some s := by
  unfold get
  cases p.find? id <;> simp

theorem get_of_find? (h : p.find? id = some s) : p.get id = .ok s := get_eq_ok_iff.mpr h

theorem find?_update (f : Scope V → Scope V) :
    (p.update id f).find? x = if x = id then (p.find? x).map f else p.find? x := by
  obtain ⟨i, g⟩ := id
  obtain ⟨j, k⟩ := x
  simp only [find?, update, Array.getElem?_modify, ScopeId.mk.injEq]
  by_cases hij : i = j
  · subst hij
    cases p.entries[i]? with
    | none => simp
    | some e =>
      by_cases hg : e.generation = g <;> by_cases hk : k = g <;> grind [Place.update]
  · simp [hij, Ne.symm hij]

theorem find?_update_self (h : p.find? id = some s) (f : Scope V → Scope V) :
    (p.update id f).find? id = some (f s) := by simp [find?_update, h]

theorem find?_update_of_ne (h : x ≠ id) (f : Scope V → Scope V) :
    (p.update id f).find? x = p.find? x := by simp [find?_update, h]

/-- A pool changes by the places that a change makes of its own. -/
theorem update_eq_of_places {q : Pool V} {f : Scope V → Scope V}
    (hentries : ∀ i : Nat,
      (p.entries.modify id.index (Place.update id.generation f))[i]? = q.entries[i]?)
    (hfree : p.free = q.free) (hlimits : p.limits = q.limits) : p.update id f = q := by
  have hsame : (p.update id f).entries = q.entries := Array.ext_getElem? hentries
  refine Pool.ext hsame hfree ?_ hlimits
  rw [live_eq, live_eq, hsame]

/-- A change does to a pool what it does to the one scope. -/
theorem update_congr {f g : Scope V → Scope V} (h : p.find? id = some s) (hfg : f s = g s) :
    p.update id f = p.update id g := by
  refine update_eq_of_places (fun i => ?_) rfl rfl
  simp only [update, Array.getElem?_modify]
  split
  · next hi =>
    rw [← hi, find?_eq_some_iff.mp h]
    simp [Place.update, hfg]
  · rfl

theorem update_eq_self (h : p.find? id = some s) {f : Scope V → Scope V} (hf : f s = s) :
    p.update id f = p := by
  refine update_eq_of_places (fun i => ?_) rfl rfl
  rw [Array.getElem?_modify]
  split
  · next hi =>
    rw [← hi, find?_eq_some_iff.mp h]
    simp [Place.update, hf]
  · rfl

theorem update_update (f g : Scope V → Scope V) :
    (p.update id f).update id g = p.update id fun s => g (f s) := by
  refine update_eq_of_places (fun i => ?_) rfl rfl
  simp only [update, Array.getElem?_modify]
  split
  · rw [Option.map_map]
    congr 1
    funext e
    by_cases he : e.generation = id.generation <;> simp [Place.update, he, Function.comp_def]
  · rfl

theorem size_update (f : Scope V → Scope V) : (p.update id f).size = p.size := rfl

@[simp] theorem limits_update (f : Scope V → Scope V) : (p.update id f).limits = p.limits := rfl

@[simp] theorem free_update (f : Scope V → Scope V) : (p.update id f).free = p.free := rfl

/-- A removal vacates one place and leaves all others as they are. -/
theorem getElem?_erase (h : p.find? id = some s) (j : Nat) :
    (p.erase id).entries[j]? =
      if j = id.index then some ⟨id.generation + 1, none⟩ else p.entries[j]? := by
  have hi : id.index < p.entries.size := (Array.getElem?_eq_some_iff.mp (find?_eq_some_iff.mp h)).1
  rw [erase, dif_pos (contains_iff.mpr ⟨s, h⟩), Array.getElem?_setIfInBounds]
  by_cases hj : id.index = j
  · simp [← hj, hi]
  · simp [hj, Ne.symm hj]

theorem erase_of_none (h : p.find? id = none) : p.erase id = p := by
  rw [erase, dif_neg]
  simp [contains, h]

theorem find?_erase : (p.erase id).find? x = if x = id then none else p.find? x := by
  cases hs : p.find? id with
  | none =>
    rw [erase_of_none hs]
    split
    · next hx => rw [hx, hs]
    · rfl
  | some s =>
    have hplace := find?_eq_some_iff.mp hs
    obtain ⟨i, g⟩ := id
    obtain ⟨j, k⟩ := x
    rw [find?, getElem?_erase hs]
    by_cases hj : j = i
    · subst hj
      by_cases hk : k = g
      · simp [hk]
      · simp [find?, hplace, hk, Ne.symm hk]
    · simp [find?, hj]

@[simp] theorem limits_erase : (p.erase id).limits = p.limits := by
  unfold erase
  split <;> rfl

theorem mem_ids_iff : id ∈ p.ids ↔ ∃ s, p.find? id = some s := by
  obtain ⟨i, g⟩ := id
  simp only [ids, toList, List.mem_map, List.mem_filterMap, Option.map_eq_some_iff,
    find?_eq_some_iff]
  constructor
  · rintro ⟨_, ⟨⟨e, j⟩, hm, s, hs, rfl⟩, he⟩
    rw [List.mem_zipIdx_iff_getElem?] at hm
    cases he
    obtain ⟨k, o⟩ := e
    simp only at hs
    exact ⟨s, by simpa [hs] using hm⟩
  · rintro ⟨s, hs⟩
    refine ⟨(⟨i, g⟩, s), ⟨(⟨g, some s⟩, i), ?_, s, rfl, rfl⟩, rfl⟩
    rw [List.mem_zipIdx_iff_getElem?]
    simpa using hs

theorem ids_pairwise (p : Pool V) : p.ids.Pairwise (·.index < ·.index) := by
  have hidx : (p.entries.toList.zipIdx.map Prod.snd).Pairwise (· < ·) := by
    rw [List.zipIdx_map_snd]
    exact List.pairwise_lt_range'
  have hpw := List.pairwise_map.mp hidx
  simp only [ids, toList, List.map_filterMap]
  refine List.Pairwise.filterMap _ ?_ hpw
  rintro ⟨e, i⟩ ⟨e', j⟩ hij a ha b hb
  simp only [Option.map_map, Option.map_eq_some_iff, Function.comp] at ha hb
  obtain ⟨_, _, rfl⟩ := ha
  obtain ⟨_, _, rfl⟩ := hb
  exact hij

theorem ids_nodup (p : Pool V) : p.ids.Nodup := by
  refine p.ids_pairwise.imp ?_
  rintro x y hxy rfl
  exact Nat.lt_irrefl _ hxy

/-- The counter tells how many handles are live. -/
theorem size_eq (p : Pool V) : p.size = p.ids.length := by
  have hplaces : Place.occupied p.entries =
      (p.entries.toList.zipIdx.map Prod.fst).countP (·.scope.isSome) := by
    rw [List.zipIdx_map_fst, Place.occupied, Array.countP_toList]
  rw [size, live_eq, hplaces, ids, List.length_map, toList, List.length_filterMap_eq_countP,
    List.countP_map]
  congr 1
  funext e
  simp

theorem size_erase (h : p.contains id) : (p.erase id).size + 1 = p.size := by
  obtain ⟨s, hs⟩ := contains_iff.mp h
  have hpos : 0 < p.size := by
    rw [size_eq]
    exact List.length_pos_of_mem (mem_ids_iff.mpr ⟨s, hs⟩)
  have hless : (p.erase id).size = p.size - 1 := by
    unfold erase
    rw [dif_pos h]
    rfl
  omega

@[simp] theorem limits_insert : (p.insert s).2.limits = p.limits := by
  unfold insert
  split <;> rfl

/-- The handle of the next scope. -/
def next (p : Pool V) : ScopeId := (p.insert (.ofTable .global none .empty)).1

theorem fst_insert (s : Scope V) : (p.insert s).1 = p.next := by
  unfold next insert
  split <;> rfl

/-- A new scope takes one place and leaves all others as they are. -/
theorem getElem?_insert (p : Pool V) (s : Scope V) (j : Nat) :
    (p.insert s).2.entries[j]? =
      if j = p.next.index then some ⟨p.next.generation, some s⟩ else p.entries[j]? := by
  rw [← fst_insert s]
  unfold insert
  split
  · next i free hf =>
    have hi : i < p.entries.size := ((p.vacant i).mp (by simp [hf])).lt_size
    rw [Array.getElem?_setIfInBounds]
    by_cases hj : i = j
    · simp [← hj, hi]
    · simp [hj, Ne.symm hj]
  · rw [Array.getElem?_push]

theorem free_insert (p : Pool V) (s : Scope V) : (p.insert s).2.free = p.free.tail := by
  unfold insert
  split
  · next hf => exact (congrArg List.tail hf).symm
  · next hf => exact hf.trans (congrArg List.tail hf).symm

/-- While no place is empty, a new scope takes a new one. -/
theorem next_of_free_nil (h : p.free = []) : p.next = ⟨p.entries.size, 0⟩ := by
  unfold next insert
  split
  · next hf =>
    rw [h] at hf
    cases hf
  · rfl

theorem entries_insert_of_free_nil (h : p.free = []) (s : Scope V) :
    (p.insert s).2.entries = p.entries.push ⟨0, some s⟩ := by
  unfold insert
  split
  · next hf =>
    rw [h] at hf
    cases hf
  · rfl

/-- A new scope that is changed at once might as well have been put in as changed. -/
theorem update_insert (s : Scope V) (f : Scope V → Scope V) :
    (p.insert s).2.update (p.insert s).1 f = (p.insert (f s)).2 := by
  refine update_eq_of_places (fun j => ?_) ?_ ?_
  · rw [Array.getElem?_modify, getElem?_insert, getElem?_insert, fst_insert]
    by_cases hj : j = p.next.index
    · simp [hj, Place.update]
    · simp [hj, Ne.symm hj]
  · rw [free_insert, free_insert]
  · rw [limits_insert, limits_insert]

/-- No handle names a scope in the place that the next one takes. -/
theorem find?_of_next (p : Pool V) (g : UInt32) : p.find? ⟨p.next.index, g⟩ = none := by
  unfold next insert
  split
  · next i free hf =>
    obtain ⟨g', hg⟩ := (p.vacant i).mp (by simp [hf])
    simp [find?, hg]
  · simp [find?]

theorem find?_next (p : Pool V) : p.find? p.next = none := p.find?_of_next _

theorem find?_insert (p : Pool V) (s : Scope V) (x : ScopeId) :
    (p.insert s).2.find? x = if x = (p.insert s).1 then some s else p.find? x := by
  obtain ⟨j, k⟩ := x
  have hnone := p.find?_of_next k
  rw [fst_insert, find?, getElem?_insert]
  by_cases hj : j = p.next.index
  · subst hj
    by_cases hk : p.next.generation = k
    · subst hk
      simp
    · have hne : (⟨p.next.index, k⟩ : ScopeId) ≠ p.next := by
        intro heq
        exact hk (congrArg ScopeId.generation heq).symm
      simp [hk, hne, hnone]
  · have hne : (⟨j, k⟩ : ScopeId) ≠ p.next := by
      intro heq
      exact hj (congrArg ScopeId.index heq)
    rw [if_neg hj, if_neg hne]
    rfl

theorem find?_insert_next (p : Pool V) (s : Scope V) : (p.insert s).2.find? p.next = some s := by
  rw [find?_insert, fst_insert, if_pos rfl]

theorem find?_insert_fst (p : Pool V) (s : Scope V) : p.find? (p.insert s).1 = none := by
  rw [fst_insert]
  exact p.find?_next

theorem size_insert (p : Pool V) (s : Scope V) : (p.insert s).2.size = p.size + 1 := by
  unfold insert
  split <;> rfl

/-- Something is true of every scope of a pool. -/
def Each (p : Pool V) (P : Scope V → Prop) : Prop := ∀ id s, p.find? id = some s → P s

variable {P : Scope V → Prop}

theorem each_empty (l : Limits) : (empty l : Pool V).Each P := by simp [Each, find?, empty]

theorem Each.imp {Q : Scope V → Prop} (h : p.Each P) (hpq : ∀ s, P s → Q s) : p.Each Q :=
  fun id s hs => hpq s (h id s hs)

theorem Each.update (h : p.Each P) {f : Scope V → Scope V} (hs : p.find? id = some s)
    (hf : P (f s)) : (p.update id f).Each P := by
  intro x u hu
  rw [find?_update] at hu
  by_cases hx : x = id
  · rw [if_pos hx, hx, hs] at hu
    cases hu
    exact hf
  · rw [if_neg hx] at hu
    exact h x u hu

theorem Each.insert (h : p.Each P) (hs : P s) : (p.insert s).2.Each P := by
  intro x u hu
  rw [find?_insert] at hu
  by_cases hx : x = (p.insert s).1
  · rw [if_pos hx] at hu
    cases hu
    exact hs
  · rw [if_neg hx] at hu
    exact h x u hu

theorem Each.erase (h : p.Each P) (id : ScopeId) : (p.erase id).Each P := by
  intro x u hu
  rw [find?_erase] at hu
  by_cases hx : x = id
  · rw [if_pos hx] at hu
    cases hu
  · rw [if_neg hx] at hu
    exact h x u hu

end ScopeChain.Pool
