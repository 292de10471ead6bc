import Std.Data.HashMap.Basic
import ScopeChain.Scope.Table

/-! Tables of declarations that keep the slot of each name, so as to find it without a search. -/
namespace ScopeChain

/-- A table with an index of its names. -/
structure IndexedTable where
  slots : Array (Option Declaration)
  /-- The slot of each declared name. -/
  index : Std.HashMap Name Nat
  free : List Nat

namespace IndexedTable

def empty : IndexedTable := ⟨#[], ∅, []⟩

/-- Declares a name, unless it is declared, and answers its slot. -/
def declareHoisted (u : IndexedTable) (n : Name) (hoisted : Option NodeId) : Nat × IndexedTable :=
  match u.index[n]? with
  | some slot =>
    match hoisted with
    | none => (slot, u)
    | some f =>
      (slot, { u with slots := u.slots.modify slot (·.map ({ · with hoisted := some f })) })
  | none =>
    match u.free with
    | slot :: free =>
      (slot, ⟨u.slots.setIfInBounds slot (some ⟨n, hoisted⟩), u.index.insert n slot, free⟩)
    | [] => (u.slots.size, ⟨u.slots.push (some ⟨n, hoisted⟩), u.index.insert n u.slots.size, []⟩)

def ofNames (ns : List Name) : IndexedTable :=
  ns.foldl (fun u n => (u.declareHoisted n none).2) empty

/-- Removes a name and answers the slot it had. -/
def remove? (u : IndexedTable) (n : Name) : Option (Nat × IndexedTable) :=
  u.index[n]?.map fun slot =>
    (slot, ⟨u.slots.setIfInBounds slot none, u.index.erase n, slot :: u.free⟩)

def retireBelow (u : IndexedTable) (bound : Nat) : IndexedTable :=
  { u with free := u.free.filter (bound ≤ ·) }

def slot? (u : IndexedTable) (n : Name) : Option Nat := u.index[n]?

def contains (u : IndexedTable) (n : Name) : Bool := u.index.contains n

/-- How many names are declared. -/
def size (u : IndexedTable) : Nat := u.index.size

/-- The table without its index. -/
def table (u : IndexedTable) : Table := ⟨u.slots, u.free⟩

end IndexedTable

end ScopeChain
