import ScopeChain.Proofs.Cells

/-! A pool of scopes as a store of maps: every operation answers as it would on the maps, and does to
the scopes what it would do to the maps. -/
namespace ScopeChain

/-- All live scopes as maps. -/
abbrev Store (V : Type) := ScopeId → Option (Cell V)

namespace Store

variable {V : Type}

def get (σ : Store V) (id : ScopeId) : Except ScopeError (Cell V) :=
  match σ id with
  | some c => .ok c
  | none => .error (.staleHandle id)

/-- The scope behind a handle, if it has room for values. -/
def opened (σ : Store V) (id : ScopeId) : Except ScopeError (Cell V) := do
  let c ← σ.get id
  if c.filled then return c else .error (.unmaterialized id)

def targetFrom (σ : Store V) (limit : Nat) : (reach : Nat) → ScopeId → Except ScopeError ScopeId
  | 0, _ => .error (.depthExceeded limit)
  | reach + 1, id => do
    let c ← σ.get id
    if c.forwards then
      match c.parent with
      | some parent => σ.targetFrom limit reach parent
      | none => .error (.missingParent .catch)
    else return id

/-- The nearest scope that keeps what is declared. -/
def target (σ : Store V) (limit : Nat) (id : ScopeId) : Except ScopeError ScopeId :=
  σ.targetFrom limit (limit + 1) id

def lookupFrom (σ : Store V) (limit : Nat) (n : Name) : (reach : Nat) → Option ScopeId →
    Except ScopeError (Option ScopeId)
  | _, none => .ok none
  | 0, some _ => .error (.depthExceeded limit)
  | reach + 1, some id => do
    let c ← σ.get id
    if (c.value n).isSome then return some id else σ.lookupFrom limit n reach c.parent

/-- The nearest scope that binds a name. -/
def lookup (σ : Store V) (limit : Nat) (id : ScopeId) (n : Name) :
    Except ScopeError (Option ScopeId) :=
  σ.lookupFrom limit n (limit + 1) (some id)

/-- Refuses a parent that is gone, and a missing one where the kind of scope needs it. -/
def admits (σ : Store V) (kind : ScopeKind) : Option ScopeId → Except ScopeError Unit
  | some parent => do let _ ← σ.get parent
  | none => if kind.requiresParent then .error (.missingParent kind) else .ok ()

def change (σ : Store V) (id : ScopeId) (f : Cell V → Cell V) : Store V :=
  Function.update σ id ((σ id).map f)

end Store

/-- Work on a store that may fail. -/
abbrev StoreM (V : Type) := ExceptT ScopeError (StateM (Store V))

/-- The ways to make a scope. -/
inductive Maker where
  | global
  | function (parent : Option ScopeId) (self : Option Name) (params : List Name)
  | catch (parent : Option ScopeId) (binding : Name)
  | eval (parent : Option ScopeId)
  | template (parent : Option ScopeId) (names : List Name)
  | catchInstance (parent : Option ScopeId) (names : List Name)
  | evalInstance (parent : ScopeId)
  | globalInstance

/-- What can be done with scopes. Values are read and written by name, or by the slot that a name has
at the time. -/
inductive Op (V : Type) where
  | make (m : Maker)
  | markDirectEval (id : ScopeId)
  | declare (id : ScopeId) (n : Name) (hoisted : Option NodeId)
  | materialize (id : ScopeId)
  | freeze (id : ScopeId)
  | value (id : ScopeId) (n : Name)
  | hasValue (id : ScopeId) (n : Name)
  | setValue (id : ScopeId) (n : Name) (v : V)
  | delete (id : ScopeId) (n : Name)
  | load (id : ScopeId) (n : Name)
  | store (id : ScopeId) (n : Name) (v : V)
  | lookup (id : ScopeId) (n : Name)
  | remove (id : ScopeId)

inductive Answer (V : Type) where
  | done
  /-- The scope that was made, or that keeps what was declared. -/
  | scope (id : ScopeId)
  | value (v : Option V)
  | truth (b : Bool)
  | found (id : Option ScopeId)
deriving DecidableEq, Repr

section Operations

variable {V : Type} [Inhabited V]

namespace Maker

def kind : Maker → ScopeKind
  | global | globalInstance => .global
  | function .. => .function
  | .catch .. | catchInstance .. => .catch
  | eval _ | evalInstance _ => .eval
  | template .. => .template

def parent : Maker → Option ScopeId
  | global | globalInstance => none
  | function parent _ _ | .catch parent _ | eval parent | template parent _
  | catchInstance parent _ => parent
  | evalInstance parent => some parent

/-- The names that a scope has from the start. -/
def names : Maker → List Name
  | global | globalInstance | eval _ | evalInstance _ => []
  | function _ self params => self.toList ++ Name.this :: Name.arguments :: params
  | .catch _ binding => [binding]
  | template _ names | catchInstance _ names => names

/-- What a new scope is. The names of an activation or a catch scope of a run are sealed. -/
def cell (m : Maker) : Cell V :=
  let c := Cell.ofNames m.kind m.parent m.names
  match m with
  | template .. | catchInstance .. => c.freeze.fill
  | evalInstance _ | globalInstance => c.fill
  | global | function .. | .catch .. | eval _ => c

def run : Maker → PoolM V ScopeId
  | global => .newGlobal
  | function parent self params => .newFunction parent self params
  | .catch parent binding => .newCatch parent binding
  | eval parent => .newEval parent
  | template parent names => .newTemplate parent names
  | catchInstance parent names => .newCatchInstance parent names
  | evalInstance parent => .newEvalInstance parent
  | globalInstance => .newGlobalInstance

end Maker

namespace StoreM

def query {α : Type} (f : Store V → Except ScopeError α) : StoreM V α := do
  match f (← MonadState.get) with
  | .ok a => return a
  | .error e => throw e

/-- Makes a scope, which gets a handle that no live scope has. -/
def make (fresh : ScopeId) (m : Maker) : StoreM V ScopeId := do
  query (·.admits m.kind m.parent)
  modify (Function.update · fresh (some m.cell))
  return fresh

/-- Changes a scope that must be there. -/
def alter (id : ScopeId) (f : Cell V → Cell V) : StoreM V Unit := do
  let _ ← query (·.get id)
  modify (·.change id f)

/-- Binds a name to a value in a scope that must have room for it. -/
def assign (id : ScopeId) (n : Name) (v : V) : StoreM V Unit := do
  let _ ← query (·.opened id)
  modify (·.change id (·.put n v))

def declare (limit : Nat) (id : ScopeId) (n : Name) : StoreM V ScopeId := do
  let target ← query (·.target limit id)
  modify (·.change target (·.declare n))
  return target

def setValue (limit : Nat) (id : ScopeId) (n : Name) (v : V) : StoreM V Unit := do
  let c ← query (·.opened id)
  let target ← if (c.value n).isSome then pure id else declare limit id n
  assign target n v

def delete (id : ScopeId) (n : Name) : StoreM V Bool := do
  let c ← query (·.opened id)
  if c.isSealed n then return false
  modify (·.change id (·.unbind n))
  return true

def step (limit : Nat) (fresh : ScopeId) : Op V → StoreM V (Answer V)
  | .make m => return .scope (← make fresh m)
  | .markDirectEval id => do
    alter id fun c => c
    return .done
  | .declare id n _ => return .scope (← declare limit id n)
  | .materialize id => do
    alter id .fill
    return .done
  | .freeze id => do
    alter id .freeze
    return .done
  | .value id n => return .value ((← query (·.opened id)).value n)
  | .hasValue id n => return .truth ((← query (·.opened id)).value n).isSome
  | .setValue id n v => do
    setValue limit id n v
    return .done
  | .delete id n => return .truth (← delete id n)
  | .load id n => do
    if ((← query (·.get id)).value n).isSome then
      return .value ((← query (·.opened id)).value n)
    else return .value none
  | .store id n v => do
    if ((← query (·.get id)).value n).isSome then assign id n v
    return .done
  | .lookup id n => return .found (← query (·.lookup limit id n))
  | .remove id => modifyGet fun σ => (.truth (σ id).isSome, Function.update σ id none)

end StoreM

namespace Pool

/-- What a pool is to those who use its scopes by names. -/
def store (p : Pool V) : Store V := fun id => (p.find? id).map Scope.cell

end Pool

namespace PoolM

def perform : Op V → PoolM V (Answer V)
  | .make m => return .scope (← m.run)
  | .markDirectEval id => do
    markDirectEval id
    return .done
  | .declare id n hoisted => return .scope (← declareHoisted id n hoisted).1
  | .materialize id => do
    materialize id
    return .done
  | .freeze id => do
    freeze id
    return .done
  | .value id n => return .value (← query (·.value? id n))
  | .hasValue id n => return .truth (← query (·.hasValue id n))
  | .setValue id n v => do
    setValue id n v
    return .done
  | .delete id n => return .truth (← delete id n)
  | .load id n => do
    match (← scope id).slot? n with
    | some slot => return .value (some (← query (·.load id slot)))
    | none => return .value none
  | .store id n v => do
    match (← scope id).slot? n with
    | some slot =>
      store id slot v
      return .done
    | none => return .done
  | .lookup id n => return .found ((← query (·.lookup id n)).map (·.1))
  | .remove id => modifyGet fun p => match p.remove? id with
    | some (_, q) => (.truth true, q)
    | none => (.truth false, p)

/-- The answers to some operations one after the other, and the pool after them. -/
def performAll (p : Pool V) : List (Op V) → List (Except ScopeError (Answer V)) × Pool V
  | [] => ([], p)
  | op :: ops =>
    let (r, q) := (perform op).run p
    let (rs, q) := performAll q ops
    (r :: rs, q)

end PoolM

end Operations

end ScopeChain
