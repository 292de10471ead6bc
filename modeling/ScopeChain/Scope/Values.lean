import ScopeChain.Scope.Construction

/-! The values that scopes bind to names. -/
namespace ScopeChain

namespace Pool

variable {V : Type}

/-- The scope behind a handle and its values. -/
def valuesOf (p : Pool V) (id : ScopeId) : Except ScopeError (Scope V × Array V) := do
  let s ← p.get id
  match s.values with
  | some values => return (s, values)
  | none => .error (.unmaterialized id)

/-- The value in a slot. -/
def load (p : Pool V) (id : ScopeId) (slot : Nat) : Except ScopeError V := do
  let (_, values) ← p.valuesOf id
  match values[slot]? with
  | some v => return v
  | none => .error (.slotOutOfRange id slot)

def hasValue (p : Pool V) (id : ScopeId) (n : Name) : Except ScopeError Bool := do
  let (s, _) ← p.valuesOf id
  return s.table.contains n

/-- The value bound to a name in this very scope, if it declares the name. -/
def value? (p : Pool V) (id : ScopeId) (n : Name) : Except ScopeError (Option V) := do
  let (s, _) ← p.valuesOf id
  match s.slot? n with
  | some slot => some <$> p.load id slot
  | none => return none

end Pool

namespace PoolM

variable {V : Type}

/-- Puts a value into a slot. -/
def store (id : ScopeId) (slot : Nat) (v : V) : PoolM V Unit := do
  let (_, values) ← query (·.valuesOf id)
  if slot < values.size then
    modify (·.update id fun s => { s with values := s.values.map (·.setIfInBounds slot v) })
  else throw (.slotOutOfRange id slot)

variable [Inhabited V]

/-- Binds a name to a value, and declares it first if this scope does not. -/
def setValue (id : ScopeId) (n : Name) (v : V) : PoolM V Unit := do
  let (s, _) ← query (·.valuesOf id)
  let (target, slot) ← match s.slot? n with
    | some slot => pure (id, slot)
    | none => declare id n
  store target slot v

/-- Unbinds a name and tells whether it is unbound now: an absent name is, an undeletable one is
not. -/
def delete (id : ScopeId) (n : Name) : PoolM V Bool := do
  let (s, _) ← query (·.valuesOf id)
  match s.slot? n with
  | none => return true
  | some slot =>
    if slot < s.immutableCount then return false
    modify (·.update id fun s => s.erase n)
    return true

end PoolM

end ScopeChain
