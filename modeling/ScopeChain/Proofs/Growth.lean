import Mathlib.Data.Nat.Size
import ScopeChain.Proofs.ChainLengths

/-! How the room for values grows. A scope is given more room when a new slot does not fit, and then
as much again as it has, so that it seldom happens. -/
namespace ScopeChain

variable {V : Type} {p : Pool V} {x : ScopeId} {s t : Scope V} {vs : Array V}

/-- How many values a scope has room for. -/
def Scope.room (s : Scope V) : Nat := (s.values.getD #[]).size

/-- Whether a change declares a name that a scope does not. -/
def Change.declares (c : Change V) (s : Scope V) : Bool :=
  match c with
  | declare n _ | setValue n _ => (s.slot? n).isNone
  | markDirectEval | materialize | freeze | delete _ | store _ _ => false

/-- Whether an edit comes to a scope and declares a new name there. -/
def Edit.declares (e : Edit V) (p : Pool V) (x : ScopeId) : Bool :=
  match e with
  | .change id c => decide (c.target p id = .ok x) && (p.find? x).any c.declares
  | .make _ | .remove _ => false

namespace Pool

/-- How many values there is room for in the scope that a handle names. -/
def room (p : Pool V) (x : ScopeId) : Nat := (p.find? x).elim 0 Scope.room

/-- How many slots were ever given out in the scope that a handle names. -/
def slotCount (p : Pool V) (x : ScopeId) : Nat := (p.find? x).elim 0 (·.table.slotCount)

variable [Inhabited V]

/-- How many of some edits declare a new name in a scope. -/
def declarations (p : Pool V) (x : ScopeId) : List (Edit V) → Nat
  | [] => 0
  | e :: es => (e.declares p x).toNat + declarations (e.run.run p).2 x es

/-- The slots of a scope, counted after each one of some edits that enlarges its room. -/
def enlargements (p : Pool V) (x : ScopeId) : List (Edit V) → List Nat
  | [] => []
  | e :: es =>
    let q := (e.run.run p).2
    if p.room x < q.room x then q.slotCount x :: enlargements q x es else enlargements q x es

end Pool

/-- A scope with room for values has as much room after a change, or more room for a new slot. -/
inductive Scope.Stretches (slack : Nat) (s : Scope V) (vs : Array V) (t : Scope V) : Bool → Prop
  | kept {us : Array V} {declared : Bool} : t.values = some us → us.size = vs.size →
    s.table.slotCount ≤ t.table.slotCount →
    t.table.slotCount ≤ s.table.slotCount + declared.toNat → Stretches slack s vs t declared
  | grown {more : Array V} : t.values = some (vs ++ more) → more.size = 1 + max slack vs.size →
    s.table.slotCount = vs.size → t.table.slotCount = vs.size + 1 → Stretches slack s vs t true

/-- A declared name keeps its slot, and a new one gets a free slot or the next one. -/
theorem Table.Sound.slots_declareHoisted {t : Table} (h : t.Sound) (n : Name) (o : Option NodeId) :
    (t.declareHoisted n o).1 < t.slotCount + (t.slot? n).isNone.toNat ∧
    (t.declareHoisted n o).2.slotCount = max t.slotCount ((t.declareHoisted n o).1 + 1) := by
  cases hn : t.slot? n with
  | some k =>
    have hlt := slot?_lt hn
    rw [declareHoisted_of_some hn, slotCount_rehoist, Option.isNone_some, Bool.toNat_false]
    omega
  | none =>
    rw [declareHoisted_of_none hn, Option.isNone_none, Bool.toNat_true]
    cases hf : t.free with
    | nil =>
      simp only [add_of_full hf, slotCount, Array.size_push]
      omega
    | cons i free =>
      have hvacant := h.vacant i (by simp [hf])
      obtain ⟨hlt, -⟩ := Array.getElem?_eq_some_iff.mp hvacant
      simp only [add_of_free hf, slotCount, Array.size_setIfInBounds]
      omega

variable [Inhabited V]

namespace Scope

theorem grow_of_lt (slack : Nat) {needed : Nat} (h : vs.size < needed) : ∃ more : Array V,
    grow slack needed vs = vs ++ more ∧ more.size = needed + max slack vs.size - vs.size :=
  ⟨_, if_neg (Nat.not_le.mpr h), Array.size_replicate⟩

/-- A declaration takes more room exactly when there is none for the slot of the name. -/
theorem Guarded.stretches_declareHoisted (h : s.Guarded) (hvs : s.values = some vs) (slack : Nat)
    (n : Name) (o : Option NodeId) :
    Stretches slack s vs (s.declareHoisted slack n o).2 (s.slot? n).isNone := by
  have hroom := h.room vs hvs
  obtain ⟨hslot, hcount⟩ := h.sound.slots_declareHoisted n o
  rw [Scope.declareHoisted, Scope.slot?, hvs]
  generalize s.table.declareHoisted n o = d at hslot hcount ⊢
  generalize (s.table.slot? n).isNone = declared at hslot ⊢
  obtain ⟨k, u⟩ := d
  dsimp only [Option.map_some] at hslot hcount ⊢
  by_cases hfits : k + 1 ≤ vs.size
  · rw [grow, if_pos hfits]
    apply Stretches.kept rfl rfl
    · dsimp only
      omega
    · dsimp only
      omega
  · obtain ⟨more, hgrow, hsize⟩ := grow_of_lt slack (Nat.lt_of_not_le hfits)
    rw [hgrow]
    cases declared with
    | false =>
      rw [Bool.toNat_false] at hslot
      omega
    | true =>
      rw [Bool.toNat_true] at hslot
      have hfull : s.table.slotCount = vs.size := by omega
      apply Stretches.grown rfl
      · omega
      · exact hfull
      · dsimp only
        omega

omit [Inhabited V] in
/-- A value put into a slot that is new in a scope with more room leaves alone what was there. -/
theorem Stretches.setSlot {slack k : Nat} {declared : Bool} (h : Stretches slack s vs t declared)
    (hk : t.table.slotCount ≤ max s.table.slotCount (k + 1)) (v : V) :
    Stretches slack s vs (t.setSlot k v) declared := by
  have hset {us : Array V} (hus : t.values = some us) :
      (t.setSlot k v).values = some (us.setIfInBounds k v) := by
    rw [Scope.setSlot, hus]
    rfl
  cases h with
  | kept hvalues hsize hle hless =>
    refine .kept (hset hvalues) ?_ hle hless
    rw [Array.size_setIfInBounds, hsize]
  | grown hvalues hsize hfull hcount =>
    have hbehind : vs.size ≤ k := by omega
    have hmore := hset hvalues
    rw [Array.setIfInBounds_append_right hbehind] at hmore
    refine .grown hmore ?_ hfull hcount
    rw [Array.size_setIfInBounds, hsize]

theorem slotCount_erase (s : Scope V) (n : Name) :
    (s.erase n).table.slotCount = s.table.slotCount := by
  cases hn : s.slot? n with
  | none => rw [erase_of_none hn]
  | some k =>
    rw [erase_of_some hn]
    exact Array.size_setIfInBounds

theorem exists_values_erase (hvs : s.values = some vs) (n : Name) :
    ∃ us, (s.erase n).values = some us ∧ us.size = vs.size := by
  cases hn : s.slot? n with
  | none => exact ⟨vs, by rw [erase_of_none hn, hvs], rfl⟩
  | some k =>
    refine ⟨vs.setIfInBounds k default, ?_, Array.size_setIfInBounds⟩
    rw [erase_of_some hn, hvs]
    rfl

/-- The step lemma of a scope. -/
theorem Guarded.stretches_apply (h : s.Guarded) (hvs : s.values = some vs) (slack : Nat)
    (c : Change V) : Stretches slack s vs (c.apply slack s) (c.declares s) := by
  have hsame {t : Scope V} (hvalues : t.values = some vs)
      (hcount : t.table.slotCount = s.table.slotCount) : Stretches slack s vs t false :=
    .kept hvalues rfl (Nat.le_of_eq hcount.symm) (Nat.le_of_eq hcount)
  cases c with
  | markDirectEval => exact hsame hvs rfl
  | declare n o => exact h.stretches_declareHoisted hvs slack n o
  | materialize => exact hsame (by rw [Change.apply, Scope.materialize, hvs]; rfl) rfl
  | freeze => exact hsame hvs rfl
  | setValue n v =>
    exact (h.stretches_declareHoisted hvs slack n none).setSlot Table.slotCount_declareHoisted_le v
  | store k v =>
    exact (hsame hvs rfl).setSlot (Nat.le_max_left _ _) v
  | delete n =>
    rw [Change.apply]
    split
    · exact hsame hvs rfl
    · have hcount := s.slotCount_erase n
      obtain ⟨us, hus, hsize⟩ := exists_values_erase hvs n
      exact .kept hus hsize (Nat.le_of_eq hcount.symm) (Nat.le_of_eq hcount)

end Scope

/-- How a scope with so much room and so many slots comes out of a run that declares new names and
enlarges the room whenever the slots come to one of some counts. -/
structure Amortized (slack room slots : Nat) (counts : List Nat) (declared room' slots' : Nat) :
    Prop where
  room_le : room ≤ room'
  room_le_max : room' ≤ max room (slots' + max slack slots')
  slots_le : slots ≤ slots'
  slots_le_add : slots' ≤ slots + declared
  doubled : ∀ k c, counts[k]? = some c → 2 ^ k * (room + 1) ≤ c ∧ c ≤ slots'

namespace Amortized

variable {slack room slots between declared room' slots' : Nat} {counts : List Nat}

theorem refl (slack room slots : Nat) : Amortized slack room slots [] 0 room slots where
  room_le := Nat.le_refl _
  room_le_max := Nat.le_max_left _ _
  slots_le := Nat.le_refl _
  slots_le_add := Nat.le_refl _
  doubled k c h := by simp at h

/-- A step that leaves the room as it is comes before a run. -/
theorem kept (h : Amortized slack room between counts declared room' slots') {new : Bool}
    (hle : slots ≤ between) (hless : between ≤ slots + new.toNat) :
    Amortized slack room slots counts (new.toNat + declared) room' slots' := by
  have hlast := h.slots_le
  have hadd := h.slots_le_add
  refine ⟨h.room_le, h.room_le_max, ?_, ?_, h.doubled⟩
  · omega
  · omega

/-- A step that enlarges the room comes before a run. All was full, and now half of it is empty. -/
theorem grown (h : Amortized slack (room + 1 + max slack room) (room + 1) counts declared room'
    slots') : Amortized slack room room ((room + 1) :: counts) (1 + declared) room' slots' := by
  have hroom := h.room_le
  have hmax := h.room_le_max
  have hslots := h.slots_le
  have hadd := h.slots_le_add
  constructor
  · omega
  · omega
  · omega
  · omega
  · intro k c hc
    cases k with
    | zero =>
      cases hc
      omega
    | succ k =>
      obtain ⟨hdoubled, hle⟩ := h.doubled k c hc
      refine ⟨?_, hle⟩
      have htwice : 2 * (room + 1) ≤ room + 1 + max slack room + 1 := by omega
      calc 2 ^ (k + 1) * (room + 1)
        _ = 2 ^ k * (2 * (room + 1)) := by rw [Nat.pow_succ, Nat.mul_assoc]
        _ ≤ 2 ^ k * (room + 1 + max slack room + 1) := Nat.mul_le_mul_left _ htwice
        _ ≤ c := hdoubled

/-- New names enlarge the room no more often than their number has digits in base two. -/
theorem length_le (h : Amortized slack room slots counts declared room' slots')
    (hfits : slots ≤ room) : counts.length ≤ Nat.size declared := by
  by_contra hlong
  have hlast : Nat.size declared < counts.length := Nat.lt_of_not_le hlong
  obtain ⟨hdoubled, hle⟩ := h.doubled _ _ (List.getElem?_eq_getElem hlast)
  have hadd := h.slots_le_add
  have hsize : declared < 2 ^ Nat.size declared := Nat.lt_size_self declared
  have hmore : (declared + 1) * (room + 1) ≤ 2 ^ Nat.size declared * (room + 1) :=
    Nat.mul_le_mul_right _ hsize
  have hexpand : (declared + 1) * (room + 1) = declared * room + declared + (room + 1) := by
    rw [Nat.succ_mul, Nat.mul_succ]
  omega

end Amortized

namespace Pool

variable {e : Edit V} {es : List (Edit V)}

omit [Inhabited V] in
theorem room_of_find? (hs : p.find? x = some s) (hvs : s.values = some vs) :
    p.room x = vs.size := by
  rw [room, hs, Option.elim_some, Scope.room, hvs, Option.getD_some]

omit [Inhabited V] in
theorem slotCount_of_find? (hs : p.find? x = some s) : p.slotCount x = s.table.slotCount := by
  rw [slotCount, hs, Option.elim_some]

/-- The step lemma: an edit that does not remove a scope changes it, or leaves it alone. -/
theorem stretches_edit (hp : p.Each Scope.Guarded) (hs : p.find? x = some s)
    (hvs : s.values = some vs) (hkept : e ≠ .remove x) :
    ∃ t, (e.run.run p).2.find? x = some t ∧
      Scope.Stretches p.limits.growthSlack s vs t (e.declares p x) := by
  have hr := Edit.runs hp e
  generalize e.run.run p = a at hr ⊢
  obtain ⟨r, q⟩ := a
  refine ⟨_, (hr.find?_iff).mpr (.inr ⟨s, hs, hkept, rfl⟩), ?_⟩
  have hsame : Scope.Stretches p.limits.growthSlack s vs s false :=
    .kept hvs rfl (Nat.le_refl _) (Nat.le_refl _)
  cases e with
  | make | remove => exact hsame
  | change id c =>
    rw [Edit.touch, Edit.declares, hs, Option.any_some]
    by_cases ht : c.target p id = .ok x
    · rw [if_pos ht, decide_eq_true ht, Bool.true_and]
      exact (hp x s hs).stretches_apply hvs _ c
    · rw [if_neg ht, decide_eq_false ht, Bool.false_and]
      exact hsame

/-- An edit that enlarges the room leaves the values there are. -/
theorem exists_append_of_larger {ws : Array V} (hp : p.Each Scope.Guarded)
    (hs : p.find? x = some s) (hvs : s.values = some vs) (ht : (e.run.run p).2.find? x = some t)
    (hws : t.values = some ws) (hlarger : vs.size < ws.size) : ∃ more, ws = vs ++ more := by
  have hne : e ≠ .remove x := by
    rintro rfl
    rcases (Edit.runs hp (.remove x)).find?_iff.mp ht with ⟨m, hm, -⟩ | ⟨u, -, hnot, -⟩
    · cases hm
    · exact hnot rfl
  obtain ⟨u, hu, hstretch⟩ := stretches_edit hp hs hvs hne
  cases ht.symm.trans hu
  generalize e.declares p x = declared at hstretch
  cases hstretch with
  | kept hvalues hsize =>
    cases hws.symm.trans hvalues
    omega
  | @grown more hvalues =>
    cases hws.symm.trans hvalues
    exact ⟨more, rfl⟩

/-- The run lemma. -/
theorem amortized_edited (hp : p.Each Scope.Guarded) (hs : p.find? x = some s)
    (hvs : s.values = some vs) (hkept : .remove x ∉ es) :
    ∃ t us, (p.edited es).find? x = some t ∧ t.values = some us ∧
      Amortized p.limits.growthSlack vs.size s.table.slotCount (p.enlargements x es)
        (p.declarations x es) us.size t.table.slotCount := by
  induction es generalizing p s vs with
  | nil => exact ⟨s, vs, hs, hvs, .refl _ _ _⟩
  | cons e es ih =>
    obtain ⟨hne, hkept⟩ := List.ne_and_not_mem_of_not_mem_cons hkept
    have hr := Edit.runs hp e
    obtain ⟨t, ht, hstretch⟩ := stretches_edit hp hs hvs hne.symm
    rw [edited_cons, enlargements, declarations, room_of_find? hs hvs]
    generalize e.declares p x = declared at hstretch ⊢
    generalize e.run.run p = a at hr ht ⊢
    obtain ⟨r, q⟩ := a
    dsimp only at ht ⊢
    rw [← limits_of_runs hr] at hstretch ⊢
    rw [slotCount_of_find? ht]
    cases hstretch with
    | @kept us _ hus hsize hle hless =>
      obtain ⟨u, ws, hu, hws, hrest⟩ := ih (hr.guarded hp) ht hus hkept
      rw [hsize] at hrest
      have hsame : ¬ vs.size < q.room x := by
        rw [room_of_find? ht hus, hsize]
        exact Nat.lt_irrefl _
      rw [if_neg hsame]
      exact ⟨u, ws, hu, hws, hrest.kept hle hless⟩
    | @grown more hus hmore hfull hcount =>
      obtain ⟨u, ws, hu, hws, hrest⟩ := ih (hr.guarded hp) ht hus hkept
      have hsize : (vs ++ more).size = vs.size + 1 + max q.limits.growthSlack vs.size := by
        rw [Array.size_append, hmore, Nat.add_assoc]
      rw [hsize, hcount] at hrest
      have hlarger : vs.size < q.room x := by
        rw [room_of_find? ht hus, hsize]
        omega
      rw [if_pos hlarger, hcount, hfull]
      exact ⟨u, ws, hu, hws, hrest.grown⟩

/-- Room for values grows at amortized cost, however little is added at least. There is always room
for all slots of a scope, and never for more than at first or the slots and as many again, or the
least addition. The room never shrinks. It is enlarged for the first time when there is one slot
more than it had room for, and each time after that there are twice as many; so new names enlarge it
no more often than their number has binary digits. What is added comes behind the values that are
there. -/
theorem growth_is_amortized (limits : Limits) (before es : List (Edit V)) (x : ScopeId)
    (s : Scope V) (vs : Array V) (hs : ((Pool.empty limits).edited before).get x = .ok s)
    (hvs : s.values = some vs) (hkept : .remove x ∉ es) :
    let p := (Pool.empty limits).edited before
    ∃ t us, (p.edited es).get x = .ok t ∧ t.values = some us ∧
      t.table.slotCount ≤ us.size ∧
      us.size ≤ max vs.size (t.table.slotCount + max limits.growthSlack t.table.slotCount) ∧
      vs.size ≤ us.size ∧
      (∀ k c, (p.enlargements x es)[k]? = some c → 2 ^ k * (vs.size + 1) ≤ c) ∧
      (p.enlargements x es).length ≤ Nat.size (p.declarations x es) ∧
      ∀ e u ws, (p.edited (es ++ [e])).get x = .ok u → u.values = some ws → us.size < ws.size →
        ∃ more, ws = us ++ more := by
  intro p
  have hstart : (Pool.empty limits : Pool V).Each Scope.Guarded := each_empty limits
  have hp : p.Each Scope.Guarded := guarded_edited hstart before
  have hq : (p.edited es).Each Scope.Guarded := guarded_edited hp es
  have hlimits : p.limits = limits := limits_edited hstart before
  have hs := get_eq_ok_iff.mp hs
  obtain ⟨t, us, ht, hus, hrun⟩ := amortized_edited hp hs hvs hkept
  rw [hlimits] at hrun
  refine ⟨t, us, get_of_find? ht, hus, (hq x t ht).room us hus, hrun.room_le_max,
    hrun.room_le, fun k c hc => (hrun.doubled k c hc).1,
    hrun.length_le ((hp x s hs).room vs hvs), ?_⟩
  intro e u ws hu hws hlarger
  have hedited : p.edited (es ++ [e]) = (e.run.run (p.edited es)).2 := List.foldl_concat ..
  rw [hedited, get_eq_ok_iff] at hu
  exact exists_append_of_larger hq ht hus hu hws hlarger

/-- Nothing is added beyond what is there, and at first there is nothing. Of two names one is
deleted, but its slot is sealed. -/
theorem growth_is_amortized_from_nothing :
    let p := (Pool.empty ⟨0, 500⟩ : Pool Nat).edited [.make .globalInstance]
    let x : ScopeId := ⟨0, 0⟩
    let es : List (Edit Nat) := [.change x (.declare ⟨5⟩ none), .change x (.setValue ⟨6⟩ 1),
      .change x (.delete ⟨5⟩), .change x .freeze, .change x (.declare ⟨7⟩ none),
      .change x (.declare ⟨8⟩ none)]
    p.get x = .ok (Maker.scope .globalInstance) ∧
    (Maker.scope .globalInstance : Scope Nat).values = some #[] ∧ .remove x ∉ es ∧
    p.enlargements x es = [1, 2, 4] ∧ p.declarations x es = 4 ∧
    (p.enlargements x es).length ≤ Nat.size (p.declarations x es) := by
  intro p x es
  have hkept : .remove x ∉ es := by simp [es]
  obtain ⟨t, us, -, -, -, -, -, -, hseldom, -⟩ :=
    growth_is_amortized ⟨0, 500⟩ [.make .globalInstance] es x _ #[] rfl rfl hkept
  exact ⟨rfl, rfl, hkept, by decide +kernel, by decide +kernel, hseldom⟩

end Pool

end ScopeChain
