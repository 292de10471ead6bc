import ScopeChain.Scope.Pool

/-! Walks along a chain of scopes from the inside out: to an ancestor, to the scope that declares
a name, and to an address that holds for every run of the program. -/
namespace ScopeChain

/-- How an occurrence of a name is found at run time. -/
inductive Address where
  /-- In the slot of the scope this many links above the active one. -/
  | static (depth slot : Nat)
  /-- By the name, along the chain. -/
  | dynamic (name : Name)
deriving DecidableEq, Repr

namespace Address

def isStatic : Address → Bool
  | static .. => true
  | dynamic _ => false

instance : ToString Address where
  toString
    | static depth slot => s!"static depth={depth} slot={storedSlot slot}"
    | dynamic _ => "dynamic"

end Address

namespace Pool

variable {V : Type}

def parent (p : Pool V) (id : ScopeId) : Except ScopeError (Option ScopeId) :=
  return (← p.get id).parent

/-- Follows `steps` links to parents, the rest of the way to an ancestor that `error` reports as
missing. -/
def ancestorFrom (p : Pool V) (error : ScopeError) : (steps : Nat) → ScopeId →
    Except ScopeError ScopeId
  | 0, id => .ok id
  | steps + 1, id => do
    match (← p.get id).parent with
    | some parent => p.ancestorFrom error steps parent
    | none => .error error

/-- The scope `depth` links above another. -/
def ancestor (p : Pool V) (id : ScopeId) (depth : Nat) : Except ScopeError ScopeId :=
  p.ancestorFrom (.missingAncestor id depth) depth id

/-- How many scopes a walk may visit. -/
def reach (p : Pool V) : Nat := p.limits.maxDepth + 1

def tooDeep {α : Type} (p : Pool V) : Except ScopeError α :=
  .error (.depthExceeded p.limits.maxDepth)

/-- Looks for a name in at most `reach` scopes. -/
def lookupFrom (p : Pool V) (n : Name) : (reach : Nat) → Option ScopeId →
    Except ScopeError (Option (ScopeId × Nat))
  | _, none => .ok none
  | 0, some _ => p.tooDeep
  | reach + 1, some id => do
    let s ← p.get id
    match s.slot? n with
    | some slot => return some (id, slot)
    | none => p.lookupFrom n reach s.parent

/-- The nearest scope that declares a name, and its slot there. -/
def lookup (p : Pool V) (id : ScopeId) (n : Name) : Except ScopeError (Option (ScopeId × Nat)) :=
  p.lookupFrom n p.reach (some id)

/-- Looks for a scope that keeps declarations in at most `reach` scopes. -/
def declarationTargetFrom (p : Pool V) : (reach : Nat) → ScopeId → Except ScopeError ScopeId
  | 0, _ => p.tooDeep
  | reach + 1, id => do
    let s ← p.get id
    if s.extensible then return id
    match s.parent with
    | some parent => p.declarationTargetFrom reach parent
    | none => .error (.missingParent s.kind)

/-- Where a declaration made in a scope lands. -/
def declarationTarget (p : Pool V) (id : ScopeId) : Except ScopeError ScopeId :=
  p.declarationTargetFrom p.reach id

/-- Continues to resolve a name `depth` links above the start. -/
def resolveFrom (p : Pool V) (n : Name) : (reach : Nat) → (depth : Nat) → ScopeId →
    Except ScopeError Address
  | 0, _, _ => p.tooDeep
  | reach + 1, depth, id => do
    let s ← p.get id
    if s.kind.staticallyClosed then
      match s.slot? n with
      | some slot => return .static depth slot
      | none =>
        if s.directEval then return .dynamic n
        match s.parent with
        | some parent => p.resolveFrom n reach (depth + 1) parent
        | none => return .dynamic n
    else return .dynamic n

/-- The address of a name used in a scope. It is dynamic as soon as a scope on the way may gain or
lose names while the program runs. -/
def resolve (p : Pool V) (id : ScopeId) (n : Name) : Except ScopeError Address :=
  p.resolveFrom n p.reach 0 id

end Pool

end ScopeChain
