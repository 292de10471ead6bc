import ScopeChain.Proofs.Table

/-! What becomes of the slots of a table. A name has its slot to itself until it is removed, and the
slots of removed names wait to be given out again, the last one first, unless they are retired. -/
namespace ScopeChain.Table

variable {t u : Table} {n m : Name} {d : Declaration} {o : Option NodeId} {i j k b : Nat}

/-- What can be done to a table. -/
inductive Update where
  | declare (n : Name) (hoisted : Option NodeId)
  | remove (n : Name)
  | retireBelow (bound : Nat)
deriving DecidableEq, Repr

/-- What happens to slots. -/
inductive Event where
  | taken (slot : Nat)
  | freed (slot : Nat)
  | retired (bound : Nat)
deriving DecidableEq, Repr

namespace Update

/-- Answers the slot that a name has or had. -/
def run (e : Update) (t : Table) : Option Nat × Table :=
  match e with
  | declare n o => (some (t.declareHoisted n o).1, (t.declareHoisted n o).2)
  | remove n => match t.remove? n with
    | some (k, u) => (some k, u)
    | none => (none, t)
  | retireBelow b => (none, t.retireBelow b)

def events (e : Update) (t : Table) : List Event :=
  match e with
  | declare n o => if t.contains n then [] else [.taken (t.declareHoisted n o).1]
  | remove n => (t.slot? n).toList.map .freed
  | retireBelow b => [.retired b]

end Update

/-- A table after some updates. -/
def updated (t : Table) (es : List Update) : Table := es.foldl (fun t e => (e.run t).2) t

/-- What happens to slots in the course of some updates. -/
def events : Table → List Update → List Event
  | _, [] => []
  | t, e :: es => e.events t ++ events (e.run t).2 es

theorem updated_cons (t : Table) (e : Update) (es : List Update) :
    t.updated (e :: es) = (e.run t).2.updated es := rfl

theorem events_cons (t : Table) (e : Update) (es : List Update) :
    t.events (e :: es) = e.events t ++ (e.run t).2.events es := rfl

/-- All that an update can come to. -/
inductive Runs (t : Table) : Update → List Event → Table → Prop
  | again {n : Name} {o : Option NodeId} {k : Nat} : t.slot? n = some k →
    Runs t (.declare n o) [] (t.rehoist k o)
  | added {n : Name} {o : Option NodeId} : t.slot? n = none →
    Runs t (.declare n o) [.taken (t.add ⟨n, o⟩).1] (t.add ⟨n, o⟩).2
  | removed {n : Name} {k : Nat} : t.slot? n = some k →
    Runs t (.remove n) [.freed k] ⟨t.slots.setIfInBounds k none, k :: t.free⟩
  | absent {n : Name} : t.slot? n = none → Runs t (.remove n) [] t
  | retired {b : Nat} : Runs t (.retireBelow b) [.retired b] (t.retireBelow b)

/-- The step lemma. -/
theorem runs (t : Table) (e : Update) : t.Runs e (e.events t) (e.run t).2 := by
  cases e with
  | declare n o =>
    cases hn : t.slot? n with
    | some k =>
      simp only [Update.events, Update.run, contains, declareHoisted_of_some hn, hn]
      exact .again hn
    | none =>
      simp only [Update.events, Update.run, contains, declareHoisted_of_none hn, hn]
      exact .added hn
  | remove n =>
    cases hn : t.slot? n with
    | some k =>
      simp only [Update.events, Update.run, remove?_of_some hn, hn]
      exact .removed hn
    | none =>
      simp only [Update.events, Update.run, remove?, hn]
      exact .absent hn
  | retireBelow b => exact .retired

variable {e : Update} {es : List Update} {evs new : List Event}

theorem Runs.sound (hr : t.Runs e new u) (h : t.Sound) : u.Sound := by
  cases hr with
  | again => exact h.rehoist
  | added hn => exact h.add hn
  | removed hn => exact h.remove hn
  | absent => exact h
  | retired => exact h.retireBelow _

theorem Sound.updated (h : t.Sound) (es : List Update) : (t.updated es).Sound := by
  induction es generalizing t with
  | nil => exact h
  | cons e es ih => exact ih ((t.runs e).sound h)

theorem Runs.slot?_of_some (hr : t.Runs e new u) (h : t.Sound) (hn : t.slot? n = some k)
    (hkept : e ≠ .remove n) : u.slot? n = some k := by
  cases hr with
  | @again m o j hm =>
    have hdeclared := h.slot?_declareHoisted_of_some (n := m) o hn
    rwa [declareHoisted_of_some hm] at hdeclared
  | @added m o hm =>
    have hdeclared := h.slot?_declareHoisted_of_some (n := m) o hn
    rwa [declareHoisted_of_none hm] at hdeclared
  | @removed m j hm =>
    rw [h.slot?_remove hm, if_neg, hn]
    rintro rfl
    exact hkept rfl
  | absent | retired => exact hn

theorem Sound.slot?_updated_of_some (h : t.Sound) (hn : t.slot? n = some k)
    (hkept : .remove n ∉ es) : (t.updated es).slot? n = some k := by
  induction es generalizing t with
  | nil => exact hn
  | cons e es ih =>
    obtain ⟨hne, hkept⟩ := List.ne_and_not_mem_of_not_mem_cons hkept
    exact ih ((t.runs e).sound h) ((t.runs e).slot?_of_some h hn hne.symm) hkept

/-- A slot was freed, and since then it was neither given out nor retired. -/
def Idle (evs : List Event) (k : Nat) : Prop :=
  ∃ before after, evs = before ++ .freed k :: after ∧ .freed k ∉ after ∧ .taken k ∉ after ∧
    ∀ b, .retired b ∈ after → b ≤ k

/-- Since the last time that a slot was freed, another was not. -/
def Newer (evs : List Event) (i j : Nat) : Prop :=
  ∀ before after, evs = before ++ .freed i :: after → .freed i ∉ after → .freed j ∉ after

/-- An item on a list with one more at the end is that one, or was on the list before. -/
theorem concat_eq_append_cons_iff {α : Type} {xs before after : List α} {x y : α} :
    xs ++ [x] = before ++ y :: after ↔
      (xs = before ∧ x = y ∧ after = []) ∨
        ∃ rest, xs = before ++ y :: rest ∧ after = rest ++ [x] := by
  rcases List.eq_nil_or_concat after with rfl | ⟨rest, z, rfl⟩
  · simp
  · rw [List.concat_eq_append, ← List.cons_append, ← List.append_assoc, List.append_singleton_inj]
    constructor
    · rintro ⟨rfl, rfl⟩
      exact .inr ⟨rest, rfl, rfl⟩
    · rintro (⟨-, -, hnil⟩ | ⟨rest', rfl, hrest⟩)
      · simp at hnil
      · obtain ⟨rfl, rfl⟩ := List.append_singleton_inj.mp hrest
        exact ⟨rfl, rfl⟩

theorem idle_concat {ev : Event} : Idle (evs ++ [ev]) k ↔ ev = .freed k ∨
    Idle evs k ∧ ev ≠ .taken k ∧ ∀ b, ev = .retired b → b ≤ k := by
  constructor
  · rintro ⟨before, after, heq, hfreed, htaken, hretired⟩
    rcases concat_eq_append_cons_iff.mp heq with ⟨-, rfl, -⟩ | ⟨rest, rfl, rfl⟩
    · exact .inl rfl
    · simp only [List.mem_append, List.mem_singleton, not_or] at hfreed htaken hretired
      exact .inr ⟨⟨before, rest, rfl, hfreed.1, htaken.1, fun b hb => hretired b (.inl hb)⟩,
        Ne.symm htaken.2, fun b hb => hretired b (.inr hb.symm)⟩
  · intro h
    by_cases hev : ev = .freed k
    · exact ⟨evs, [], by rw [hev], List.not_mem_nil, List.not_mem_nil, nofun⟩
    · obtain ⟨⟨before, after, rfl, hfreed, htaken, hretired⟩, hne, hbound⟩ := h.resolve_left hev
      refine ⟨before, after ++ [ev], by simp, ?_, ?_, ?_⟩
      · simp [hfreed, Ne.symm hev]
      · simp [htaken, Ne.symm hne]
      · intro b hb
        rcases List.mem_append.mp hb with hb | hb
        · exact hretired b hb
        · exact hbound b (List.mem_singleton.mp hb).symm

theorem Newer.concat {ev : Event} (h : Newer evs i j) (hj : ev ≠ .freed j) :
    Newer (evs ++ [ev]) i j := by
  intro before after heq hfreed
  rcases concat_eq_append_cons_iff.mp heq with ⟨-, -, rfl⟩ | ⟨rest, rfl, rfl⟩
  · exact List.not_mem_nil
  · simp only [List.mem_append, List.mem_singleton, not_or] at hfreed ⊢
    exact ⟨h before rest rfl hfreed.1, Ne.symm hj⟩

theorem newer_concat_freed : Newer (evs ++ [.freed i]) i j := by
  intro before after heq hfreed
  rcases concat_eq_append_cons_iff.mp heq with ⟨-, -, rfl⟩ | ⟨rest, rfl, rfl⟩
  · exact List.not_mem_nil
  · simp at hfreed

/-- A list has the idle slots, the one that was freed last in front. -/
structure Stacked (evs : List Event) (l : List Nat) : Prop where
  nodup : l.Nodup
  mem_iff : ∀ k, k ∈ l ↔ Idle evs k
  newest : l.Pairwise (Newer evs)

namespace Stacked

variable {l : List Nat}

theorem taken (h : Stacked evs l) (k : Nat) : Stacked (evs ++ [.taken k]) (l.erase k) := by
  refine ⟨h.nodup.erase k, fun j => ?_, ?_⟩
  · rw [h.nodup.mem_erase_iff, h.mem_iff, idle_concat]
    simp [and_comm, eq_comm]
  · exact (h.newest.sublist List.erase_sublist).imp fun hnewer => hnewer.concat nofun

theorem freed (h : Stacked evs l) (hk : k ∉ l) : Stacked (evs ++ [.freed k]) (k :: l) := by
  refine ⟨List.nodup_cons.mpr ⟨hk, h.nodup⟩, fun j => ?_,
    List.pairwise_cons.mpr ⟨fun _ _ => newer_concat_freed, ?_⟩⟩
  · rw [List.mem_cons, h.mem_iff, idle_concat]
    simp [eq_comm]
  · refine h.newest.imp_of_mem ?_
    intro i j _ hj hnewer
    apply hnewer.concat
    rintro ⟨rfl⟩
    exact hk hj

theorem retired (h : Stacked evs l) (b : Nat) :
    Stacked (evs ++ [.retired b]) (l.filter (b ≤ ·)) := by
  refine ⟨h.nodup.filter _, fun j => ?_, ?_⟩
  · rw [List.mem_filter, h.mem_iff, idle_concat]
    simp
  · exact (h.newest.sublist List.filter_sublist).imp fun hnewer => hnewer.concat nofun

theorem head (h : Stacked evs (k :: l)) : Idle evs k ∧ ∀ j, Idle evs j → Newer evs k j := by
  refine ⟨(h.mem_iff k).mp List.mem_cons_self, ?_⟩
  intro j hj
  rcases List.mem_cons.mp ((h.mem_iff j).mpr hj) with rfl | hj
  · exact fun _ _ _ hfreed => hfreed
  · exact (List.pairwise_cons.mp h.newest).1 j hj

end Stacked

theorem add_free (t : Table) (d : Declaration) : (t.add d).2.free = t.free.erase (t.add d).1 := by
  cases hf : t.free with
  | nil => simp [add_of_full hf]
  | cons k free => simp [add_of_free hf]

theorem Sound.not_mem_free (h : t.Sound) (hn : t.slot? n = some k) : k ∉ t.free := by
  intro hk
  obtain ⟨d, hd, -⟩ := nameAt_eq_some_iff.mp (nameAt_of_slot? hn)
  rw [h.vacant k hk] at hd
  cases hd

theorem Runs.stacked (hr : t.Runs e new u) (h : t.Sound) (hs : Stacked evs t.free) :
    Stacked (evs ++ new) u.free := by
  cases hr with
  | again =>
    rw [free_rehoist, List.append_nil]
    exact hs
  | added =>
    rw [add_free]
    exact hs.taken _
  | removed hn => exact hs.freed (h.not_mem_free hn)
  | absent =>
    rw [List.append_nil]
    exact hs
  | retired => exact hs.retired _

theorem Stacked.updated (hs : Stacked evs t.free) (h : t.Sound) (es : List Update) :
    Stacked (evs ++ t.events es) (t.updated es).free := by
  induction es generalizing t evs with
  | nil =>
    rw [events, List.append_nil]
    exact hs
  | cons e es ih =>
    rw [events_cons, ← List.append_assoc]
    exact ih ((t.runs e).stacked h hs) ((t.runs e).sound h)

/-- A new name gets the idle slot that was freed last, or else one behind all others. -/
theorem Stacked.slot_of_new (hs : Stacked evs t.free) (hn : t.slot? n = none) (o : Option NodeId) :
    (Idle evs (t.declareHoisted n o).1 ∧ ∀ j, Idle evs j → Newer evs (t.declareHoisted n o).1 j) ∨
    (∀ j, ¬ Idle evs j) ∧ (t.declareHoisted n o).1 = t.slotCount := by
  rw [declareHoisted_of_none hn]
  cases hf : t.free with
  | nil =>
    rw [add_of_full hf]
    refine .inr ⟨fun j hj => ?_, rfl⟩
    rw [← hs.mem_iff, hf] at hj
    cases hj
  | cons k free =>
    rw [add_of_free hf]
    rw [hf] at hs
    exact .inl hs.head

example : (ofNames [⟨7⟩, ⟨8⟩, ⟨9⟩]).events [.remove ⟨9⟩, .remove ⟨7⟩, .declare ⟨6⟩ none] =
    [.freed 2, .freed 0, .taken 0] := by decide +kernel

/-- A slot is empty and stays so. -/
structure Spent (t : Table) (k : Nat) : Prop where
  lt : k < t.slotCount
  empty : t.get? k = none
  not_free : k ∉ t.free

theorem spent_retireBelow (hk : k < b) (hlt : k < t.slotCount) (hempty : t.get? k = none) :
    (t.retireBelow b).Spent k := by
  refine ⟨hlt, hempty, ?_⟩
  intro hm
  have hle : b ≤ k := of_decide_eq_true (List.mem_filter.mp hm).2
  omega

theorem Spent.declareHoisted_fst_ne (h : t.Spent k) (n : Name) (o : Option NodeId) :
    (t.declareHoisted n o).1 ≠ k := by
  rintro rfl
  cases hn : t.slot? n with
  | some j =>
    have hempty := h.empty
    rw [declareHoisted_of_some hn, get?_of_slot? hn] at hempty
    cases hempty
  | none =>
    rcases declareHoisted_fst_of_none (o := o) hn with hfree | hlast
    · exact h.not_free hfree
    · have hlt := h.lt
      omega

theorem Spent.declareHoisted (h : t.Spent k) (ht : t.Sound) (n : Name) (o : Option NodeId) :
    (t.declareHoisted n o).2.Spent k := by
  refine ⟨Nat.lt_of_lt_of_le h.lt slotCount_le_declareHoisted, ?_, ?_⟩
  · rw [ht.get?_declareHoisted, if_neg (h.declareHoisted_fst_ne n o).symm, h.empty]
  · exact fun hk => h.not_free (free_declareHoisted_subset hk)

theorem Runs.spent (hr : t.Runs e new u) (ht : t.Sound) (h : t.Spent k) : u.Spent k := by
  cases hr with
  | @again n o j hn =>
    have hdeclared := h.declareHoisted ht n o
    rwa [declareHoisted_of_some hn] at hdeclared
  | @added n o hn =>
    have hdeclared := h.declareHoisted ht n o
    rwa [declareHoisted_of_none hn] at hdeclared
  | @removed n j hn =>
    have hne : k ≠ j := by
      rintro rfl
      have hempty := h.empty
      rw [get?_of_slot? hn] at hempty
      cases hempty
    refine ⟨?_, ?_, List.not_mem_cons_of_ne_of_not_mem hne h.not_free⟩
    · rw [slotCount, Array.size_setIfInBounds]
      exact h.lt
    · rw [get?, Array.getElem?_setIfInBounds_ne hne.symm]
      exact h.empty
  | absent => exact h
  | retired => exact ⟨h.lt, h.empty, fun hk => h.not_free (List.mem_filter.mp hk).1⟩

theorem Spent.updated (h : t.Spent k) (ht : t.Sound) (es : List Update) :
    (t.updated es).Spent k := by
  induction es generalizing t with
  | nil => exact h
  | cons e es ih => exact ih ((t.runs e).spent ht h) ((t.runs e).sound ht)

/-- The last closure that was given to a name since it was last removed. -/
def Given (es : List Update) (n : Name) (f : NodeId) : Prop :=
  ∃ before after, es = before ++ .declare n (some f) :: after ∧ .remove n ∉ after ∧
    ∀ g, .declare n (some g) ∉ after

theorem given_concat {f : NodeId} : Given (es ++ [e]) n f ↔ e = .declare n (some f) ∨
    Given es n f ∧ e ≠ .remove n ∧ ∀ g, e ≠ .declare n (some g) := by
  constructor
  · rintro ⟨before, after, heq, hremove, hdeclare⟩
    rcases concat_eq_append_cons_iff.mp heq with ⟨-, rfl, -⟩ | ⟨rest, rfl, rfl⟩
    · exact .inl rfl
    · simp only [List.mem_append, List.mem_singleton, not_or] at hremove hdeclare
      exact .inr ⟨⟨before, rest, rfl, hremove.1, fun g => (hdeclare g).1⟩, Ne.symm hremove.2,
        fun g => Ne.symm (hdeclare g).2⟩
  · rintro (rfl | ⟨⟨before, after, rfl, hremove, hdeclare⟩, hne, hother⟩)
    · exact ⟨es, [], rfl, List.not_mem_nil, fun _ => List.not_mem_nil⟩
    · refine ⟨before, after ++ [e], by simp, ?_, fun g => ?_⟩
      · simp [hremove, Ne.symm hne]
      · simp [hdeclare g, Ne.symm (hother g)]

theorem Sound.initial?_remove (h : t.Sound) (hn : t.slot? n = some k) (m : Name) :
    (⟨t.slots.setIfInBounds k none, k :: t.free⟩ : Table).initial? m =
      if m = n then none else t.initial? m := by
  rw [initial?, h.slot?_remove hn]
  split
  · rfl
  · next hne =>
    cases hm : t.slot? m with
    | none => rw [initial?_of_none hm]; rfl
    | some j =>
      have hjk : k ≠ j := by
        rintro rfl
        have hname := nameAt_of_slot? hm
        rw [nameAt_of_slot? hn] at hname
        exact hne (Option.some.inj hname).symm
      rw [initial?, hm, Option.bind_some, Option.bind_some, get?, get?,
        Array.getElem?_setIfInBounds_ne hjk]

/-- The step lemma for initial closures. -/
theorem Sound.given_run (h : t.Sound) (hpre : ∀ n f, t.initial? n = some f ↔ Given es n f)
    (e : Update) (n : Name) (f : NodeId) :
    (e.run t).2.initial? n = some f ↔ Given (es ++ [e]) n f := by
  rw [given_concat, ← hpre]
  cases e with
  | declare m o =>
    rw [show (Update.run (.declare m o) t).2 = (t.declareHoisted m o).2 from rfl,
      h.initial?_declareHoisted]
    by_cases hn : n = m
    · cases o <;> simp [hn, eq_comm]
    · simp [hn, Ne.symm hn]
  | remove m =>
    cases hm : t.slot? m with
    | none =>
      simp only [Update.run, remove?, hm]
      by_cases hn : n = m
      · simp [hn, initial?_of_none hm]
      · simp [Ne.symm hn]
    | some k =>
      simp only [Update.run, remove?_of_some hm]
      rw [h.initial?_remove hm]
      by_cases hn : n = m
      · simp [hn]
      · simp [hn, Ne.symm hn]
  | retireBelow b =>
    rw [show (Update.run (.retireBelow b) t).2.initial? n = t.initial? n from rfl]
    simp

theorem Sound.given_updated (h : t.Sound) {before : List Update}
    (hpre : ∀ n f, t.initial? n = some f ↔ Given before n f) (es : List Update) (n : Name)
    (f : NodeId) : (t.updated es).initial? n = some f ↔ Given (before ++ es) n f := by
  induction es generalizing t before with
  | nil =>
    rw [List.append_nil]
    exact hpre n f
  | cons e es ih =>
    rw [List.append_cons]
    exact ih ((t.runs e).sound h) (h.given_run hpre e)

end ScopeChain.Table
