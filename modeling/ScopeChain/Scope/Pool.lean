import ScopeChain.Scope.Error

/-! Pools of scopes. Scopes refer to one another by handles, so that a handle on a scope that is
gone is found out and never reaches the scope that took its place. -/
namespace ScopeChain

structure Limits where
  /-- The least room added when a scope outgrows its values. -/
  growthSlack : Nat
  /-- How many links to parents may be followed in a row. -/
  maxDepth : Nat
deriving DecidableEq, Repr

def Limits.standard : Limits := ⟨10, 500⟩

/-- A place for a scope, and how many scopes had it before. -/
structure Place (V : Type) where
  generation : UInt32
  scope : Option (Scope V)
deriving Repr

namespace Place

variable {V : Type}

/-- Changes the scope in a place, if it is the one of a generation. -/
def update (generation : UInt32) (f : Scope V → Scope V) (e : Place V) : Place V :=
  if e.generation = generation then { e with scope := e.scope.map f } else e

/-- A place is there and is empty. -/
def Vacant (places : Array (Place V)) (i : Nat) : Prop := ∃ g, places[i]? = some ⟨g, none⟩

/-- How many of some places hold a scope. -/
def occupied (places : Array (Place V)) : Nat := places.countP (·.scope.isSome)

end Place

/-- Scopes in their places. The empty places, and no others, are listed to be given out again, each
of them once; the scopes are counted. -/
@[ext]
structure Pool (V : Type) where
  entries : Array (Place V)
  /-- The empty places, the next one to be taken first. -/
  free : List Nat
  /-- How many scopes there are. -/
  live : Nat
  limits : Limits
  free_nodup : free.Nodup
  vacant : ∀ i, i ∈ free ↔ Place.Vacant entries i
  live_eq : live = Place.occupied entries
deriving Repr

namespace Place

variable {V : Type} {places : Array (Place V)} {i : Nat} {s : Scope V} {g : UInt32}

theorem isSome_update (g : UInt32) (f : Scope V → Scope V) (e : Place V) :
    (e.update g f).scope.isSome = e.scope.isSome := by
  unfold update
  split <;> simp

theorem occupied_update (places : Array (Place V)) (i : Nat) (g : UInt32)
    (f : Scope V → Scope V) : occupied (places.modify i (update g f)) = occupied places := by
  have hsame : (places.modify i (update g f)).map (·.scope.isSome) =
      places.map (·.scope.isSome) := by
    apply Array.ext_getElem?
    intro j
    simp only [Array.getElem?_map, Array.getElem?_modify]
    split
    · rw [Option.map_map]
      congr 1
      funext e
      exact isSome_update g f e
    · rfl
  have hcount (es : Array (Place V)) :
      occupied es = (es.map (·.scope.isSome)).countP (fun b => b) := by
    rw [Array.countP_map]
    rfl
  rw [hcount, hcount, hsame]

theorem occupied_fill (h : places[i]? = some ⟨g, none⟩) (g' : UInt32) (s : Scope V) :
    occupied (places.setIfInBounds i ⟨g', some s⟩) = occupied places + 1 := by
  obtain ⟨hi, he⟩ := Array.getElem?_eq_some_iff.mp h
  simp [occupied, Array.setIfInBounds, hi, Array.countP_set, he]

theorem occupied_push (places : Array (Place V)) (g : UInt32) (s : Scope V) :
    occupied (places.push ⟨g, some s⟩) = occupied places + 1 := by
  simp [occupied]

theorem occupied_vacate (h : places[i]? = some ⟨g, some s⟩) (g' : UInt32) :
    occupied (places.setIfInBounds i ⟨g', none⟩) = occupied places - 1 := by
  obtain ⟨hi, he⟩ := Array.getElem?_eq_some_iff.mp h
  simp [occupied, Array.setIfInBounds, hi, Array.countP_set, he]

theorem Vacant.lt_size (h : Vacant places i) : i < places.size := by
  obtain ⟨g, hg⟩ := h
  exact (Array.getElem?_eq_some_iff.mp hg).1

theorem not_vacant_of_scope (h : places[i]? = some ⟨g, some s⟩) : ¬ Vacant places i := by
  rintro ⟨g', hg⟩
  rw [h] at hg
  cases hg

theorem vacant_update (places : Array (Place V)) (i : Nat) (g : UInt32) (f : Scope V → Scope V)
    (j : Nat) : Vacant (places.modify i (update g f)) j ↔ Vacant places j := by
  unfold Vacant
  rw [Array.getElem?_modify]
  split
  · cases places[j]? with
    | none => simp
    | some e =>
      obtain ⟨g', o⟩ := e
      cases o <;> by_cases hg : g' = g <;> simp [update, hg]
  · exact Iff.rfl

theorem vacant_fill (hi : i < places.size) (g : UInt32) (s : Scope V) (j : Nat) :
    Vacant (places.setIfInBounds i ⟨g, some s⟩) j ↔ j ≠ i ∧ Vacant places j := by
  unfold Vacant
  rw [Array.getElem?_setIfInBounds]
  by_cases hj : i = j
  · simp [← hj, hi]
  · simp [hj, Ne.symm hj]

theorem vacant_push (places : Array (Place V)) (g : UInt32) (s : Scope V) (j : Nat) :
    Vacant (places.push ⟨g, some s⟩) j ↔ Vacant places j := by
  unfold Vacant
  rw [Array.getElem?_push]
  split
  · next hj => simp [hj]
  · exact Iff.rfl

theorem vacant_vacate (hi : i < places.size) (g : UInt32) (j : Nat) :
    Vacant (places.setIfInBounds i ⟨g, none⟩) j ↔ j = i ∨ Vacant places j := by
  unfold Vacant
  rw [Array.getElem?_setIfInBounds]
  by_cases hj : i = j
  · simp [← hj, hi]
  · simp [hj, Ne.symm hj]

end Place

namespace Pool

variable {V : Type}

def empty (limits : Limits) : Pool V where
  entries := #[]
  free := []
  live := 0
  limits := limits
  free_nodup := .nil
  vacant i := by simp [Place.Vacant]
  live_eq := rfl

/-- The scope that a handle names. -/
def find? (p : Pool V) (id : ScopeId) : Option (Scope V) :=
  match p.entries[id.index]? with
  | some e => if e.generation = id.generation then e.scope else none
  | none => none

theorem find?_eq_some_iff {p : Pool V} {id : ScopeId} {s : Scope V} :
    p.find? id = some s ↔ p.entries[id.index]? = some ⟨id.generation, some s⟩ := by
  unfold find?
  cases p.entries[id.index]? with
  | none => simp
  | some e =>
    obtain ⟨g, o⟩ := e
    by_cases hg : g = id.generation <;> simp [hg]

def get (p : Pool V) (id : ScopeId) : Except ScopeError (Scope V) :=
  match p.find? id with
  | some s => .ok s
  | none => .error (.staleHandle id)

def contains (p : Pool V) (id : ScopeId) : Bool := (p.find? id).isSome

theorem contains_iff {p : Pool V} {id : ScopeId} :
    p.contains id = true ↔ ∃ s, p.find? id = some s := Option.isSome_iff_exists

/-- The scopes with their handles, in the order of their indices. -/
def toList (p : Pool V) : List (ScopeId × Scope V) :=
  p.entries.toList.zipIdx.filterMap fun (e, i) => e.scope.map fun s => (⟨i, e.generation⟩, s)

def ids (p : Pool V) : List ScopeId := p.toList.map (·.1)

def size (p : Pool V) : Nat := p.live

/-- Changes the scope that a handle names; a stale handle names none. -/
def update (p : Pool V) (id : ScopeId) (f : Scope V → Scope V) : Pool V :=
  { p with
    entries := p.entries.modify id.index (Place.update id.generation f)
    vacant := by
      intro i
      rw [Place.vacant_update, p.vacant]
    live_eq := by rw [Place.occupied_update, p.live_eq] }

/-- Puts a scope into a place last vacated, or into a new one. -/
def insert (p : Pool V) (s : Scope V) : ScopeId × Pool V :=
  match hfree : p.free with
  | i :: free =>
    let generation := (p.entries[i]?.map Place.generation).getD 0
    have hnodup := List.nodup_cons.mp (hfree ▸ p.free_nodup)
    have hvacant : Place.Vacant p.entries i := (p.vacant i).mp (hfree ▸ List.mem_cons_self)
    (⟨i, generation⟩,
      { p with
        entries := p.entries.setIfInBounds i ⟨generation, some s⟩
        free
        live := p.live + 1
        free_nodup := hnodup.2
        vacant := by
          intro j
          rw [Place.vacant_fill hvacant.lt_size, ← p.vacant, hfree, List.mem_cons]
          constructor
          · intro hj
            exact ⟨fun h => hnodup.1 (h ▸ hj), .inr hj⟩
          · rintro ⟨hne, hj⟩
            exact hj.resolve_left hne
        live_eq := by
          obtain ⟨g, hg⟩ := hvacant
          rw [Place.occupied_fill hg, p.live_eq] })
  | [] =>
    (⟨p.entries.size, 0⟩,
      { p with
        entries := p.entries.push ⟨0, some s⟩
        live := p.live + 1
        vacant := by
          intro j
          rw [Place.vacant_push, p.vacant]
        live_eq := by rw [Place.occupied_push, p.live_eq] })

/-- Takes a scope out of its place; from then on its handle is stale. -/
def erase (p : Pool V) (id : ScopeId) : Pool V :=
  if h : p.contains id then
    have hplace := (contains_iff.mp h).imp fun _ => find?_eq_some_iff.mp
    { p with
      entries := p.entries.setIfInBounds id.index ⟨id.generation + 1, none⟩
      free := id.index :: p.free
      live := p.live - 1
      free_nodup := by
        obtain ⟨s, hs⟩ := hplace
        refine List.nodup_cons.mpr ⟨?_, p.free_nodup⟩
        rw [p.vacant]
        exact Place.not_vacant_of_scope hs
      vacant := by
        obtain ⟨s, hs⟩ := hplace
        intro i
        rw [Place.vacant_vacate (Array.getElem?_eq_some_iff.mp hs).1, List.mem_cons, p.vacant]
      live_eq := by
        obtain ⟨s, hs⟩ := hplace
        rw [Place.occupied_vacate hs, p.live_eq] }
  else p

/-- The scope that a handle names, and the pool without it. -/
def remove? (p : Pool V) (id : ScopeId) : Option (Scope V × Pool V) :=
  (p.find? id).map fun s => (s, p.erase id)

end Pool

/-- Work on a pool that may fail; what was done before the failure stays done. -/
abbrev PoolM (V : Type) := ExceptT ScopeError (StateM (Pool V))

namespace PoolM

variable {V : Type}

/-- Asks the pool a question. -/
def query {α : Type} (f : Pool V → Except ScopeError α) : PoolM V α := do
  match f (← get) with
  | .ok a => return a
  | .error e => throw e

def scope (id : ScopeId) : PoolM V (Scope V) := query (·.get id)

/-- Changes a scope that must be there. -/
def update (id : ScopeId) (f : Scope V → Scope V) : PoolM V Unit := do
  let _ ← scope id
  modify (·.update id f)

def insert (s : Scope V) : PoolM V ScopeId := modifyGet (·.insert s)

end PoolM

end ScopeChain
