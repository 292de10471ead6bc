import ScopeChain.Program

/-! Tables of declarations: each declared name has a slot of its own, which it keeps until it is
removed. Slots left by removed names are given out again, the last one first. -/
namespace ScopeChain

structure Declaration where
  name : Name
  /-- The function declaration whose closure the slot holds from the start. -/
  hoisted : Option NodeId
deriving DecidableEq, Repr

/-- A slot as it is stored, in 32 bits. -/
def storedSlot (slot : Nat) : UInt32 := .ofNat slot

structure Table where
  /-- The declaration in each slot that was ever given out. -/
  slots : Array (Option Declaration)
  /-- The empty slots that may be given out again, the next one first. -/
  free : List Nat
deriving DecidableEq, Repr

namespace Table

def empty : Table := ⟨#[], []⟩

instance : Inhabited Table := ⟨empty⟩

def get? (t : Table) (slot : Nat) : Option Declaration := t.slots[slot]?.join

def slot? (t : Table) (n : Name) : Option Nat :=
  t.slots.findIdx? fun d => d.any fun d => d.name = n

def contains (t : Table) (n : Name) : Bool := (t.slot? n).isSome

/-- The declarations with their slots, in the order of the slots. -/
def declarations (t : Table) : List (Nat × Declaration) :=
  t.slots.toList.zipIdx.filterMap fun (d, slot) => d.map fun d => (slot, d)

/-- The declared names in the order of their slots. -/
def names (t : Table) : List Name := t.slots.toList.filterMap fun d => d.map Declaration.name

/-- How many names are declared. -/
def size (t : Table) : Nat := t.slots.countP Option.isSome

/-- How many slots were ever given out, the empty ones among them. -/
def slotCount (t : Table) : Nat := t.slots.size

/-- Gives a declared name another initial closure, or leaves it the one it has. -/
def rehoist (t : Table) (slot : Nat) (hoisted : Option NodeId) : Table :=
  match hoisted with
  | none => t
  | some f => { t with slots := t.slots.modify slot fun d => d.map ({ · with hoisted := some f }) }

/-- Gives a new declaration a slot. -/
def add (t : Table) (d : Declaration) : Nat × Table :=
  match t.free with
  | slot :: free => (slot, ⟨t.slots.setIfInBounds slot (some d), free⟩)
  | [] => (t.slotCount, ⟨t.slots.push (some d), []⟩)

/-- Declares a name, unless it is declared, and answers its slot. -/
def declareHoisted (t : Table) (n : Name) (hoisted : Option NodeId) : Nat × Table :=
  match t.slot? n with
  | some slot => (slot, t.rehoist slot hoisted)
  | none => t.add ⟨n, hoisted⟩

def declare (t : Table) (n : Name) : Nat × Table := t.declareHoisted n none

def declareAll (t : Table) (ns : List Name) : Table := ns.foldl (fun t n => (t.declare n).2) t

def ofNames (ns : List Name) : Table := empty.declareAll ns

/-- Removes a name and answers the slot it had. -/
def remove? (t : Table) (n : Name) : Option (Nat × Table) :=
  (t.slot? n).map fun slot => (slot, ⟨t.slots.setIfInBounds slot none, slot :: t.free⟩)

/-- Gives out no empty slot below a bound any more. -/
def retireBelow (t : Table) (bound : Nat) : Table := { t with free := t.free.filter (bound ≤ ·) }

end Table

end ScopeChain
