import ScopeChain.Scope.Table

/-! Scopes: a table of declarations, a link to the scope around it and, once there is one, an
array with a value for each slot. -/
namespace ScopeChain

inductive ScopeKind where
  /-- The outermost scope of a script. -/
  | global
  | function
  /-- Holds the name that a catch clause binds, and no other. -/
  | catch
  /-- The outermost scope of code evaluated at run time. -/
  | eval
  /-- An activation made from a fixed list of names. -/
  | template
deriving DecidableEq, Repr

namespace ScopeKind

/-- Whether what is declared in a scope stays there, and does not go to the scope around it. -/
def extensible (k : ScopeKind) : Bool := k ≠ .catch

def requiresParent (k : ScopeKind) : Bool := k = .catch || k = .template

/-- Whether a name found in a scope can be addressed by its slot before the program runs. Global
and eval scopes gain and lose names while it runs. -/
def staticallyClosed (k : ScopeKind) : Bool := k = .function || k = .catch || k = .template

instance : ToString ScopeKind where
  toString
    | .global => "global"
    | .function => "function"
    | .catch => "catch"
    | .eval => "eval"
    | .template => "runtime-template"

end ScopeKind

/-- A handle on a scope. The generation tells apart the scopes that had one index in turn. -/
structure ScopeId where
  index : Nat
  generation : UInt32
deriving DecidableEq, Hashable, Repr, Inhabited

/-- A handle as it is stored, with 32 bits for each of its parts. -/
structure StoredId where
  index : UInt32
  generation : UInt32
deriving DecidableEq, Repr

/-- The handle as it is stored; the index is cut to 32 bits. -/
def ScopeId.stored (id : ScopeId) : StoredId := ⟨.ofNat id.index, id.generation⟩

/-- A scope whose slots hold values of type `V`. -/
structure Scope (V : Type) where
  kind : ScopeKind
  parent : Option ScopeId
  /-- Whether what is declared here stays here. It is kept beside the kind, which decides it. -/
  extensible : Bool
  extensible_eq : extensible = kind.extensible
  table : Table
  /-- The names in slots below this bound cannot be deleted. -/
  immutableCount : Nat
  /-- Whether code of this scope calls `eval` directly and so may declare more names. -/
  directEval : Bool
  /-- Missing before the scope is given room for values. -/
  values : Option (Array V)
deriving Repr

namespace Scope

variable {V : Type}

/-- A scope that declares what a table does and has no room for values. -/
def ofTable (kind : ScopeKind) (parent : Option ScopeId) (table : Table) : Scope V :=
  { kind, parent, extensible := kind.extensible, extensible_eq := rfl, table, immutableCount := 0,
    directEval := false, values := none }

def slot? (s : Scope V) (n : Name) : Option Nat := s.table.slot? n

/-- Makes room for the values of at least `needed` slots. Room is added by doubling, and by no
less than `slack`, so that it is seldom added. -/
def grow [Inhabited V] (slack needed : Nat) (values : Array V) : Array V :=
  if needed ≤ values.size then values
  else values ++ Array.replicate (needed + max slack values.size - values.size) default

/-- Declares a name in this very scope. -/
def declareHoisted [Inhabited V] (s : Scope V) (slack : Nat) (n : Name) (hoisted : Option NodeId) :
    Nat × Scope V :=
  let (slot, table) := s.table.declareHoisted n hoisted
  (slot, { s with table, values := s.values.map (grow slack (slot + 1)) })

/-- Gives a scope room for the values of its slots, unless it has room. -/
def materialize [Inhabited V] (s : Scope V) : Scope V :=
  { s with values := s.values.getD (Array.replicate s.table.slotCount default) }

/-- Makes every name declared now undeletable. -/
def freeze (s : Scope V) : Scope V :=
  let bound := max s.immutableCount s.table.slotCount
  { s with immutableCount := bound, table := s.table.retireBelow bound }

/-- Takes a name out of a scope and forgets its value. -/
def erase [Inhabited V] (s : Scope V) (n : Name) : Scope V :=
  match s.table.remove? n with
  | none => s
  | some (slot, table) =>
    { s with table, values := s.values.map (·.setIfInBounds slot default) }

end Scope

end ScopeChain
