import ScopeChain.Scope.Chain

/-! Making scopes and declaring names in them. -/
namespace ScopeChain.PoolM

variable {V : Type}

/-- Refuses a parent that is gone, and a missing one where the kind of scope needs it. -/
def checkParent (kind : ScopeKind) (parent : Option ScopeId) : PoolM V Unit := do
  match parent with
  | some id => let _ ← scope id
  | none => if kind.requiresParent then throw (.missingParent kind)

/-- Makes a scope that declares some names and has no room for values. -/
def newDescriptor (kind : ScopeKind) (parent : Option ScopeId) (names : List Name) :
    PoolM V ScopeId := do
  checkParent kind parent
  insert (.ofTable kind parent (.ofNames names))

def newGlobal : PoolM V ScopeId := newDescriptor .global none []

/-- A function's scope declares the function's own name first, if it has one. -/
def newFunction (parent : Option ScopeId) (self : Option Name) (params : List Name) :
    PoolM V ScopeId :=
  newDescriptor .function parent (self.toList ++ Name.this :: Name.arguments :: params)

def newCatch (parent : Option ScopeId) (binding : Name) : PoolM V ScopeId :=
  newDescriptor .catch parent [binding]

def newEval (parent : Option ScopeId) : PoolM V ScopeId := newDescriptor .eval parent []

def markDirectEval (id : ScopeId) : PoolM V Unit := update id ({ · with directEval := true })

variable [Inhabited V]

/-- Declares a name where a declaration made in a scope lands. -/
def declareHoisted (id : ScopeId) (n : Name) (hoisted : Option NodeId) :
    PoolM V (ScopeId × Nat) := do
  let target ← query (·.declarationTarget id)
  let s ← scope target
  let (slot, s) := s.declareHoisted (← get).limits.growthSlack n hoisted
  modify (·.update target fun _ => s)
  return (target, slot)

def declare (id : ScopeId) (n : Name) : PoolM V (ScopeId × Nat) := declareHoisted id n none

def materialize (id : ScopeId) : PoolM V Unit := update id Scope.materialize

def freeze (id : ScopeId) : PoolM V Unit := update id Scope.freeze

/-- Makes a scope from a fixed list of names, none of which can be deleted, with room for one value
each. -/
def newInstance (kind : ScopeKind) (parent : Option ScopeId) (names : List Name) :
    PoolM V ScopeId := do
  checkParent kind parent
  let table := Table.ofNames names
  insert { (Scope.ofTable kind parent table : Scope V) with
    immutableCount := table.slotCount
    values := some (Array.replicate names.length default) }

def newTemplate (parent : Option ScopeId) (names : List Name) : PoolM V ScopeId :=
  newInstance .template parent names

def newCatchInstance (parent : Option ScopeId) (names : List Name) : PoolM V ScopeId :=
  newInstance .catch parent names

def newEvalInstance (parent : ScopeId) : PoolM V ScopeId := do
  let id ← newEval (some parent)
  materialize id
  return id

def newGlobalInstance : PoolM V ScopeId := do
  let id ← newGlobal
  materialize id
  return id

end ScopeChain.PoolM
