import Mathlib.Algebra.Group.Nat.Defs
import ScopeChain.Proofs.Edits

/-! Handles on scopes. A place counts the scopes that were taken out of it, and a handle tells the
count at its time, so that no two scopes get the same handle until a count overflows. -/
namespace ScopeChain

variable {V : Type} {p q : Pool V} {id x : ScopeId} {s : Scope V} {i : Nat}

namespace Pool

/-- How many scopes were taken out of a place, short of overflow. -/
def turn (p : Pool V) (i : Nat) : Nat := (p.entries[i]?.map (·.generation.toNat)).getD 0

/-- Whether there is a scope in a place. -/
def taken (p : Pool V) (i : Nat) : Bool := p.entries[i]?.any (·.scope.isSome)

theorem turn_of_find? (h : p.find? id = some s) : p.turn id.index = id.generation.toNat := by
  rw [turn, find?_eq_some_iff.mp h]
  rfl

theorem turn_update (f : Scope V → Scope V) (i : Nat) : (p.update id f).turn i = p.turn i := by
  simp only [turn, update, Array.getElem?_modify]
  split
  · rw [Option.map_map]
    congr 2
    funext e
    by_cases he : e.generation = id.generation <;> simp [Place.update, he]
  · rfl

theorem taken_update (f : Scope V → Scope V) (i : Nat) : (p.update id f).taken i = p.taken i := by
  simp only [taken, update, Array.getElem?_modify]
  split
  · rw [Option.any_map]
    congr 1
    funext e
    exact Place.isSome_update id.generation f e
  · rfl

theorem turn_erase (h : p.find? id = some s) (i : Nat) :
    (p.erase id).turn i = if i = id.index then (id.generation + 1).toNat else p.turn i := by
  rw [turn, getElem?_erase h]
  split <;> rfl

theorem taken_erase (h : p.find? id = some s) (i : Nat) :
    (p.erase id).taken i = if i = id.index then false else p.taken i := by
  rw [taken, getElem?_erase h]
  split <;> rfl

/-- The next handle tells the count of its place. -/
theorem turn_next (p : Pool V) : p.turn p.next.index = p.next.generation.toNat := by
  rw [turn, next]
  unfold insert
  split
  · next i free hf =>
    change _ = ((p.entries[i]?.map Place.generation).getD 0).toNat
    cases p.entries[i]? <;> simp
  · simp

theorem taken_next (p : Pool V) : p.taken p.next.index = false := by
  rw [taken]
  cases he : p.entries[p.next.index]? with
  | none => rfl
  | some e =>
    obtain ⟨g, o⟩ := e
    cases o with
    | none => rfl
    | some s =>
      have hnone := p.find?_of_next g
      have hfind : p.find? ⟨p.next.index, g⟩ = some s := find?_eq_some_iff.mpr he
      rw [hnone] at hfind
      cases hfind

theorem turn_insert (p : Pool V) (s : Scope V) (i : Nat) : (p.insert s).2.turn i = p.turn i := by
  rw [turn, getElem?_insert]
  split
  · next hi =>
    rw [hi, turn_next]
    rfl
  · rfl

theorem taken_insert (p : Pool V) (s : Scope V) (i : Nat) :
    (p.insert s).2.taken i = if i = p.next.index then true else p.taken i := by
  rw [taken, getElem?_insert]
  split <;> rfl

end Pool

namespace Edit.Outcome

/-- The handle that an edit gave out. -/
def given : Except ScopeError Outcome → List ScopeId
  | .ok (.made id) => [id]
  | _ => []

/-- The handle that an edit made stale. -/
def gone : Except ScopeError Outcome → List ScopeId
  | .ok (.removed id) => [id]
  | _ => []

end Edit.Outcome

open Edit (Outcome)

/-- What the handles given out and those removed tell of the places of a pool. -/
structure Pool.Numbered (p : Pool V) (made removed : List ScopeId) : Prop where
  nodup : made.Nodup
  given : ∀ id ∈ made, id.generation.toNat < p.turn id.index ∨
    id.generation.toNat = p.turn id.index ∧ p.taken id.index = true
  counted : ∀ i, p.turn i = removed.countP (·.index = i)
  size : p.size + removed.length = made.length

namespace Pool.Numbered

variable {made removed : List ScopeId}

theorem empty (l : Limits) : (Pool.empty l : Pool V).Numbered [] [] :=
  ⟨List.nodup_nil, by simp, fun i => by simp [turn, Pool.empty], by simp [Pool.size, Pool.empty]⟩

theorem update (h : p.Numbered made removed) (f : Scope V → Scope V) :
    (p.update id f).Numbered made removed := by
  refine ⟨h.nodup, ?_, ?_, ?_⟩
  · intro x hx
    rw [turn_update, taken_update]
    exact h.given x hx
  · intro i
    rw [turn_update]
    exact h.counted i
  · rw [size_update]
    exact h.size

theorem next_not_mem (h : p.Numbered made removed) : p.next ∉ made := by
  intro hm
  rcases h.given _ hm with hlt | ⟨-, htaken⟩
  · rw [turn_next] at hlt
    exact Nat.lt_irrefl _ hlt
  · rw [taken_next] at htaken
    cases htaken

/-- A handle that was given out names a place that there is. -/
theorem index_lt (h : p.Numbered made removed) (hx : x ∈ made) : x.index < p.entries.size := by
  by_contra hge
  have hnone : p.entries[x.index]? = none := Array.getElem?_eq_none (Nat.le_of_not_lt hge)
  rcases h.given x hx with hlt | ⟨-, htaken⟩
  · rw [turn, hnone] at hlt
    exact Nat.not_lt_zero _ hlt
  · rw [taken, hnone] at htaken
    cases htaken

/-- As long as there are no more places than indices, handles are stored as they are. -/
theorem stored_index (h : p.Numbered made removed) (hplaces : p.entries.size ≤ 2 ^ 32)
    (hx : x ∈ made) : x.stored.index.toNat = x.index :=
  UInt32.toNat_ofNat_of_lt' (Nat.lt_of_lt_of_le (h.index_lt hx) hplaces)

theorem nodup_stored (h : p.Numbered made removed) (hplaces : p.entries.size ≤ 2 ^ 32) :
    (made.map ScopeId.stored).Nodup := by
  refine List.Nodup.map_on ?_ h.nodup
  intro x hx y hy heq
  have hindex : x.index = y.index := by
    rw [← h.stored_index hplaces hx, heq, h.stored_index hplaces hy]
  have hgeneration : x.generation = y.generation := congrArg StoredId.generation heq
  cases x
  cases y
  cases hindex
  cases hgeneration
  rfl

theorem insert (h : p.Numbered made removed) (s : Scope V) :
    (p.insert s).2.Numbered (made ++ [p.next]) removed := by
  refine ⟨?_, ?_, ?_, ?_⟩
  · rw [List.nodup_append_comm]
    exact List.nodup_cons.mpr ⟨h.next_not_mem, h.nodup⟩
  · intro x hx
    rw [turn_insert, taken_insert]
    rcases List.mem_append.mp hx with hx | hx
    · rcases h.given x hx with hlt | ⟨heq, htaken⟩
      · exact .inl hlt
      · exact .inr ⟨heq, by rw [htaken, ite_self]⟩
    · rw [List.mem_singleton.mp hx]
      exact .inr ⟨(turn_next p).symm, if_pos rfl⟩
  · intro i
    rw [turn_insert]
    exact h.counted i
  · rw [size_insert, List.length_append, List.length_singleton]
    have hsize := h.size
    omega

/-- A place that a scope is taken out of counts one more, unless the count overflows. -/
theorem erase (h : p.Numbered made removed) (hs : p.find? id = some s)
    (hbound : (removed ++ [id]).countP (·.index = id.index) < 2 ^ 32) :
    (p.erase id).Numbered made (removed ++ [id]) := by
  have hturn := turn_of_find? hs
  have hnext : (id.generation + 1).toNat = p.turn id.index + 1 := by
    rw [List.countP_append, ← h.counted, hturn] at hbound
    rw [UInt32.toNat_add, hturn]
    exact Nat.mod_eq_of_lt (by simpa using hbound)
  refine ⟨h.nodup, ?_, ?_, ?_⟩
  · intro x hx
    rw [turn_erase hs, taken_erase hs, hnext]
    by_cases hi : x.index = id.index
    · rw [if_pos hi, ← hi]
      have hle : x.generation.toNat ≤ p.turn x.index := by
        rcases h.given x hx with hlt | ⟨heq, -⟩
        · exact Nat.le_of_lt hlt
        · exact Nat.le_of_eq heq
      exact .inl (Nat.lt_succ_of_le hle)
    · rw [if_neg hi, if_neg hi]
      exact h.given x hx
  · intro i
    rw [turn_erase hs, hnext, List.countP_append, ← h.counted]
    by_cases hi : i = id.index
    · simp [hi]
    · simp [hi, Ne.symm hi]
  · have hsize := h.size
    have hless := size_erase (contains_iff.mpr ⟨s, hs⟩)
    rw [List.length_append, List.length_singleton]
    omega

variable [Inhabited V]

theorem step {e : Edit V} {r : Except ScopeError Outcome} (h : p.Numbered made removed)
    (hr : e.Runs p (r, q))
    (hbound : ∀ i, (removed ++ Outcome.gone r).countP (·.index = i) < 2 ^ 32) :
    q.Numbered (made ++ Outcome.given r) (removed ++ Outcome.gone r) := by
  cases hr with
  | unmade | refused | absent =>
    simp only [Outcome.given, Outcome.gone, List.append_nil]
    exact h
  | made m =>
    rw [show Outcome.gone _ = [] from rfl, List.append_nil]
    exact h.insert _
  | @changed id t c s ht hs =>
    have hnone : Outcome.given ((c.verdict t s).map fun _ => Outcome.changed) = [] ∧
        Outcome.gone ((c.verdict t s).map fun _ => Outcome.changed) = [] := by
      cases c.verdict t s <;> exact ⟨rfl, rfl⟩
    rw [hnone.1, hnone.2, List.append_nil, List.append_nil]
    exact h.update _
  | removed hs =>
    rw [show Outcome.given _ = [] from rfl, List.append_nil]
    exact h.erase hs (hbound _)

end Pool.Numbered

variable [Inhabited V]

namespace Pool

/-- The handles that some edits give out, one after the other. -/
def given (p : Pool V) (es : List (Edit V)) : List ScopeId := (p.outcomes es).flatMap Outcome.given

/-- The handles that some edits make stale. -/
def gone (p : Pool V) (es : List (Edit V)) : List ScopeId := (p.outcomes es).flatMap Outcome.gone

theorem edited_cons (p : Pool V) (e : Edit V) (es : List (Edit V)) :
    p.edited (e :: es) = (e.run.run p).2.edited es := rfl

theorem given_cons (p : Pool V) (e : Edit V) (es : List (Edit V)) :
    p.given (e :: es) = Outcome.given (e.run.run p).1 ++ (e.run.run p).2.given es := rfl

theorem gone_cons (p : Pool V) (e : Edit V) (es : List (Edit V)) :
    p.gone (e :: es) = Outcome.gone (e.run.run p).1 ++ (e.run.run p).2.gone es := rfl

theorem Numbered.edited {made removed : List ScopeId} (h : p.Numbered made removed)
    (hp : p.Each Scope.Guarded) {es : List (Edit V)}
    (hbound : ∀ i, (removed ++ p.gone es).countP (·.index = i) < 2 ^ 32) :
    (p.edited es).Numbered (made ++ p.given es) (removed ++ p.gone es) := by
  induction es generalizing p made removed with
  | nil =>
    rw [show p.given [] = [] from rfl, show p.gone [] = [] from rfl, List.append_nil,
      List.append_nil]
    exact h
  | cons e es ih =>
    have hr := Edit.runs hp e
    rw [gone_cons, ← List.append_assoc] at hbound ⊢
    rw [given_cons, ← List.append_assoc]
    refine ih (h.step hr ?_) (hr.guarded hp) hbound
    intro i
    refine Nat.lt_of_le_of_lt ?_ (hbound i)
    exact (List.sublist_append_left _ _).countP_le

end Pool

/-- What an edit makes of a scope, if it comes to that scope. -/
def Edit.touch (e : Edit V) (p : Pool V) (x : ScopeId) (s : Scope V) : Scope V :=
  match e with
  | .change id c => if c.target p id = .ok x then c.apply p.limits.growthSlack s else s
  | .make _ | .remove _ => s

/-- What some edits one after the other make of a scope. -/
def Pool.evolved (p : Pool V) (x : ScopeId) (s : Scope V) : List (Edit V) → Scope V
  | [] => s
  | e :: es => evolved (e.run.run p).2 x (e.touch p x s) es

theorem Pool.evolved_cons (p : Pool V) (x : ScopeId) (s : Scope V) (e : Edit V)
    (es : List (Edit V)) :
    p.evolved x s (e :: es) = (e.run.run p).2.evolved x (e.touch p x s) es := rfl

/-- A scope found after an edit was made by it, or was there before and was not removed. -/
theorem Edit.Runs.find?_iff {e : Edit V} {r : Except ScopeError Outcome} (hr : e.Runs p (r, q)) :
    q.find? x = some s ↔
      (∃ m, e = .make m ∧ r = .ok (.made x) ∧ s = m.scope) ∨
      ∃ u, p.find? x = some u ∧ e ≠ .remove x ∧ s = e.touch p x u := by
  cases hr with
  | unmade m err => simp [Edit.touch]
  | made m =>
    rw [Pool.find?_insert, Pool.fst_insert]
    by_cases hx : x = p.next
    · simp [hx, p.find?_next, eq_comm]
    · simp [hx, Ne.symm hx, Edit.touch]
  | refused ht => simp [Edit.touch, ht]
  | @changed id t c u ht hu =>
    rw [Pool.find?_update]
    by_cases hx : x = t
    · simp [hx, hu, Edit.touch, ht, eq_comm]
    · simp [hx, Edit.touch, ht, Ne.symm hx]
  | @removed id u hu =>
    rw [Pool.find?_erase]
    by_cases hx : x = id
    · simp [hx]
    · simp [hx, Ne.symm hx, Edit.touch]
  | @absent id hn =>
    by_cases hx : x = id
    · simp [hx, hn]
    · simp [Ne.symm hx, Edit.touch]

/-- A scope is made under a handle in the course of some edits, and is what the edits after that
make of it; none of them removes it. -/
def Pool.Arises (p : Pool V) (x : ScopeId) (s : Scope V) (es : List (Edit V)) : Prop :=
  ∃ before m after, es = before ++ .make m :: after ∧
    ((Edit.make m).run.run (p.edited before)).1 = .ok (.made x) ∧ .remove x ∉ after ∧
    s = (p.edited (before ++ [.make m])).evolved x m.scope after

theorem Pool.not_arises_nil : ¬ p.Arises x s [] := by
  rintro ⟨before, m, after, hes, -⟩
  cases before <;> cases hes

theorem Pool.arises_cons {e : Edit V} {es : List (Edit V)} : p.Arises x s (e :: es) ↔
    (∃ m, e = .make m ∧ (e.run.run p).1 = .ok (.made x) ∧ .remove x ∉ es ∧
      s = (e.run.run p).2.evolved x m.scope es) ∨ (e.run.run p).2.Arises x s es := by
  constructor
  · rintro ⟨before, m, after, hes, hmade, hkept, hs⟩
    cases before with
    | nil =>
      cases hes
      exact .inl ⟨m, rfl, hmade, hkept, hs⟩
    | cons e' before =>
      cases hes
      exact .inr ⟨before, m, after, rfl, hmade, hkept, hs⟩
  · rintro (⟨m, rfl, hmade, hkept, hs⟩ | ⟨before, m, after, rfl, hmade, hkept, hs⟩)
    · exact ⟨[], m, es, rfl, hmade, hkept, hs⟩
    · exact ⟨e :: before, m, after, rfl, hmade, hkept, hs⟩

/-- A scope found after some edits was there before or arose, and none of them removed it since. -/
theorem Pool.find?_edited_iff (hp : p.Each Scope.Guarded) (es : List (Edit V)) :
    (p.edited es).find? x = some s ↔
      (∃ u, p.find? x = some u ∧ .remove x ∉ es ∧ s = p.evolved x u es) ∨ p.Arises x s es := by
  induction es generalizing p with
  | nil =>
    rw [or_iff_left not_arises_nil]
    constructor
    · intro hs
      exact ⟨s, hs, List.not_mem_nil, rfl⟩
    · rintro ⟨u, hu, -, rfl⟩
      exact hu
  | cons e es ih =>
    have hr := Edit.runs hp e
    simp only [edited_cons, arises_cons, evolved_cons]
    generalize e.run.run p = a at hr ⊢
    obtain ⟨r, q⟩ := a
    simp only [ih (hr.guarded hp), hr.find?_iff]
    constructor
    · rintro (⟨w, ⟨m, rfl, hmade, rfl⟩ | ⟨u, hu, hne, rfl⟩, hkept, hs⟩ | harises)
      · exact .inr (.inl ⟨m, rfl, hmade, hkept, hs⟩)
      · exact .inl ⟨u, hu, List.not_mem_cons_of_ne_of_not_mem (Ne.symm hne) hkept, hs⟩
      · exact .inr (.inr harises)
    · rintro (⟨u, hu, hkept, hs⟩ | ⟨m, rfl, hmade, hkept, hs⟩ | harises)
      · obtain ⟨hne, hkept⟩ := List.ne_and_not_mem_of_not_mem_cons hkept
        exact .inl ⟨_, .inr ⟨u, hu, Ne.symm hne, rfl⟩, hkept, hs⟩
      · exact .inl ⟨_, .inl ⟨m, rfl, hmade, rfl⟩, hkept, hs⟩
      · exact .inr harises

/-- A stale handle is refused by every question and every edit. Two questions say that it is stale
by their answer, and one that is about no scope does not look at it. -/
structure Pool.Refuses (p : Pool V) (x : ScopeId) : Prop where
  get : p.get x = .error (.staleHandle x)
  parent : p.parent x = .error (.staleHandle x)
  ancestor : ∀ depth, p.ancestor x (depth + 1) = .error (.staleHandle x)
  lookup : ∀ n, p.lookup x n = .error (.staleHandle x)
  resolve : ∀ n, p.resolve x n = .error (.staleHandle x)
  declarationTarget : p.declarationTarget x = .error (.staleHandle x)
  load : ∀ k, p.load x k = .error (.staleHandle x)
  value : ∀ n, p.value? x n = .error (.staleHandle x)
  hasValue : ∀ n, p.hasValue x n = .error (.staleHandle x)
  make : ∀ m : Maker, m.parent = some x → (Edit.make m).run.run p = (.error (.staleHandle x), p)
  change : ∀ c, (Edit.change x c).run.run p = (.error (.staleHandle x), p)
  contains : p.contains x = false
  remove : p.remove? x = none
  self : p.ancestor x 0 = .ok x

omit [Inhabited V] in
theorem Change.target_stale (h : p.get x = .error (.staleHandle x)) (c : Change V) :
    c.target p x = .error (.staleHandle x) := by
  have htarget : p.declarationTarget x = .error (.staleHandle x) := by
    simp only [Pool.declarationTarget, Pool.reach, Pool.declarationTargetFrom, h, bind, Except.bind]
  cases c with
  | declare n o => exact htarget
  | markDirectEval | materialize | freeze => simp only [target, h, bind, Except.bind]
  | setValue | delete | store => simp only [target, Pool.valuesOf, h, bind, Except.bind]

theorem Pool.refuses_of_none (hp : p.Each Scope.Guarded) (h : p.find? x = none) : p.Refuses x where
  get := by rw [get, h]
  parent := by simp only [parent, get, h, bind, Except.bind]
  ancestor depth := by simp only [ancestor, ancestorFrom, get, h, bind, Except.bind]
  lookup n := by simp only [lookup, reach, lookupFrom, get, h, bind, Except.bind]
  resolve n := by simp only [resolve, reach, resolveFrom, get, h, bind, Except.bind]
  declarationTarget := by
    simp only [declarationTarget, reach, declarationTargetFrom, get, h, bind, Except.bind]
  load k := by simp only [load, valuesOf, get, h, bind, Except.bind]
  value n := by simp only [value?, valuesOf, get, h, bind, Except.bind]
  hasValue n := by simp only [hasValue, valuesOf, get, h, bind, Except.bind]
  make m hm := by
    rw [Edit.run, run_bind, m.run_eq, run_bind, hm, PoolM.run_checkParent_stale _ h]
  change c := by
    have ht : c.target p x = .error (.staleHandle x) :=
      Change.target_stale (by rw [get, h]) c
    have hr := Edit.runs hp (.change x c)
    generalize (Edit.change x c).run.run p = a at hr ⊢
    cases hr with
    | refused he =>
      rw [ht] at he
      cases he
      rfl
    | changed he =>
      rw [ht] at he
      cases he
  contains := by rw [contains, h]; rfl
  remove := by rw [remove?, h]; rfl
  self := rfl

/-- Handles never alias. In the course of any edits that need no more places than there are indices
and do not overflow the count of a place, no two scopes get the same handle, nor do two handles come
to the same when they are stored. A handle names a scope just as long as the scope that got it is
not removed, and then this scope, as the edits that came to it made it; any other handle is refused.
The handles of the scopes that are there are listed in the order of their places, and counted. -/
theorem Pool.handles_never_alias (limits : Limits) (es : List (Edit V))
    (hbound : ∀ i, ((Pool.empty limits).gone es).countP (·.index = i) < 2 ^ 32)
    (hplaces : ((Pool.empty limits).edited es).entries.size ≤ 2 ^ 32) :
    let start : Pool V := .empty limits
    let p := start.edited es
    (start.given es).Nodup ∧
    ((start.given es).map ScopeId.stored).Nodup ∧
    (∀ x ∈ start.given es, x.stored.index.toNat = x.index) ∧
    (∀ x s, p.get x = .ok s ↔ start.Arises x s es) ∧
    (∀ x, (∀ s, ¬ start.Arises x s es) → p.Refuses x) ∧
    p.ids.Pairwise (·.index < ·.index) ∧
    (∀ x, x ∈ p.ids ↔ p.contains x = true) ∧
    p.size = p.ids.length ∧ p.size + (start.gone es).length = (start.given es).length := by
  intro start p
  have hstart : start.Each Scope.Guarded := each_empty limits
  have hp : p.Each Scope.Guarded := guarded_edited hstart es
  have hnumbered : p.Numbered ([] ++ start.given es) ([] ++ start.gone es) :=
    (Numbered.empty limits).edited hstart hbound
  have harises (x : ScopeId) (s : Scope V) : p.find? x = some s ↔ start.Arises x s es := by
    rw [find?_edited_iff hstart, or_iff_right]
    rintro ⟨u, hu, -⟩
    simp [start, find?, empty] at hu
  refine ⟨hnumbered.nodup, hnumbered.nodup_stored hplaces, ?_, ?_, ?_, p.ids_pairwise, ?_,
    p.size_eq, hnumbered.size⟩
  · intro x hx
    exact hnumbered.stored_index hplaces hx
  · intro x s
    rw [get_eq_ok_iff, harises]
  · intro x hx
    refine refuses_of_none hp (Option.eq_none_iff_forall_ne_some.mpr ?_)
    intro s hs
    exact hx s ((harises x s).mp hs)
  · intro x
    rw [mem_ids_iff, contains_iff]

/-- One place is given out twice. -/
theorem Pool.handles_never_alias_in_one_place :
    let es : List (Edit Nat) := [.make .global, .remove ⟨0, 0⟩, .make .globalInstance]
    (∀ i, ((Pool.empty .standard).gone es).countP (·.index = i) < 2 ^ 32) ∧
    ((Pool.empty .standard).edited es).entries.size ≤ 2 ^ 32 ∧
    (((Pool.empty .standard).given es).map ScopeId.stored).Nodup ∧
    (Pool.empty .standard).given es = [⟨0, 0⟩, ⟨0, 1⟩] := by
  intro es
  have hgone : (Pool.empty .standard).gone es = [⟨0, 0⟩] := by decide +kernel
  have hbound (i : Nat) : ((Pool.empty .standard).gone es).countP (·.index = i) < 2 ^ 32 := by
    rw [hgone]
    exact Nat.lt_of_le_of_lt List.countP_le_length (by decide)
  have hplaces : ((Pool.empty .standard).edited es).entries.size ≤ 2 ^ 32 := by decide +kernel
  exact ⟨hbound, hplaces, (handles_never_alias .standard es hbound hplaces).2.1,
    by decide +kernel⟩

theorem Edit.run_makeGlobal (p : Pool V) :
    (Edit.make .global).run.run p = (.ok (.made p.next), (p.insert Maker.global.scope).2) := by
  have hchecked : (PoolM.checkParent Maker.global.kind Maker.global.parent).run p = (.ok ⟨⟩, p) :=
    rfl
  have hmade : (Maker.global.run).run p = (.ok p.next, (p.insert Maker.global.scope).2) := by
    rw [Maker.run_eq, run_bind_of_ok hchecked]
    exact Maker.run_place .global p
  rw [run, run_bind_of_ok hmade]
  rfl

/-- Scopes that are only made take one place after the other. -/
theorem Pool.makes_in_new_places (h : p.free = []) (n : Nat) :
    p.given (List.replicate n (.make .global)) = (List.range' p.entries.size n).map (⟨·, 0⟩) ∧
    p.gone (List.replicate n (.make .global)) = [] ∧
    (p.edited (List.replicate n (.make .global))).entries.size = p.entries.size + n := by
  induction n generalizing p with
  | zero => exact ⟨rfl, rfl, rfl⟩
  | succ n ih =>
    have hfree : (p.insert (Maker.global.scope : Scope V)).2.free = [] := by
      rw [free_insert, h, List.tail_nil]
    have hsize : (p.insert (Maker.global.scope : Scope V)).2.entries.size = p.entries.size + 1 := by
      rw [entries_insert_of_free_nil h, Array.size_push]
    obtain ⟨hgiven, hgone, hentries⟩ := ih hfree
    rw [hsize] at hgiven hentries
    refine ⟨?_, ?_, ?_⟩
    · rw [List.replicate_succ, given_cons, Edit.run_makeGlobal, hgiven, next_of_free_nil h]
      rfl
    · rw [List.replicate_succ, gone_cons, Edit.run_makeGlobal, hgone]
      rfl
    · rw [List.replicate_succ, edited_cons, Edit.run_makeGlobal, hentries]
      omega

/-- With more places than indices, the last place comes to have the stored handle of the first. -/
theorem Pool.stored_handles_alias_beyond_places : ∃ es : List (Edit Nat),
    (Pool.empty .standard).gone es = [] ∧
    ((Pool.empty .standard).edited es).entries.size = 2 ^ 32 + 1 ∧
    ¬ (((Pool.empty .standard).given es).map ScopeId.stored).Nodup := by
  -- the number is kept behind a name, so that no list of that length is ever written out
  obtain ⟨n, hn⟩ : ∃ n, n = 2 ^ 32 + 1 := ⟨_, rfl⟩
  obtain ⟨hgiven, hgone, hentries⟩ := makes_in_new_places (p := (.empty .standard : Pool Nat)) rfl n
  refine ⟨_, hgone, ?_, ?_⟩
  · rw [hentries, hn]
    rfl
  · rw [hgiven, List.map_map]
    intro hnodup
    have hplace (i : Nat) (hi : i < n) : i ∈ List.range' 0 n :=
      List.mem_range'_1.mpr ⟨Nat.zero_le i, by omega⟩
    have hsame : 0 = 2 ^ 32 :=
      List.inj_on_of_nodup_map hnodup (hplace 0 (by omega)) (hplace (2 ^ 32) (by omega)) rfl
    cases hsame

/-- A handle that is stale is still the scope no links above itself. -/
theorem Pool.stale_handle_is_own_ancestor :
    let p := (Pool.empty .standard : Pool Nat).edited [.make .global, .remove ⟨0, 0⟩]
    p.contains ⟨0, 0⟩ = false ∧ p.ancestor ⟨0, 0⟩ 0 = .ok ⟨0, 0⟩ := by
  decide +kernel

end ScopeChain
