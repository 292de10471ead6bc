import ScopeChain.Compilation
import ScopeChain.Heap

/-! The state of a running script: its scopes, the scope and the strictness of the code that runs,
and what is put aside meanwhile. -/
namespace ScopeChain

structure Machine where
  names : Interner
  options : Options
  heap : Heap
  global : ScopeId
  /-- The scope of the code that runs. -/
  active : ScopeId
  /-- Whether the code that runs is strict. -/
  strict : Bool
  /-- The scopes that were active before, the latest first. -/
  saved : List ScopeId
  /-- The value of the last statement of the script that had one. -/
  completion : Value
  callDepth : Nat
  /-- The number of the next object. -/
  nextObject : Nat

/-- Why code stopped before its end. -/
inductive Abrupt where
  /-- A value was thrown, which code around may catch. -/
  | thrown (v : Value)
  | compile (e : CompileError)
  | scope (e : ScopeError)
  | outOfFuel

instance : ToString Abrupt where
  toString
    | .thrown v => s!"uncaught {v}"
    | .compile e => toString e
    | .scope _ => "internal scope error"
    | .outOfFuel => "out of fuel"

/-- Running code may stop early and keeps what it has done. -/
abbrev Exec := ExceptT Abrupt (StateM Machine)

/-- How a statement ended. -/
inductive Flow where
  /-- At its end, with a value if it has one. -/
  | normal (v : Option Value)
  | return (v : Value)

namespace Machine

/-- How many calls may be in progress. -/
def maxCallDepth : Nat := 128

/-- Makes a global scope that binds `undefined` and `this` for good. -/
def newGlobalScope : PoolM Value ScopeId := do
  let global ← .newGlobalInstance
  let _ ← .declare global .undefined
  let _ ← .declare global .this
  .freeze global
  return global

/-- A heap whose only scope is a global one. -/
def startHeap (o : Options) : Except ScopeError (ScopeId × Heap) :=
  let h := Heap.empty o.limits o.threshold
  let (r, pool) := newGlobalScope.run h.pool
  r.map fun global => (global, { h with pool })

def start (o : Options) : Except ScopeError Machine := do
  let (global, heap) ← startHeap o
  return {
    names := .wellKnown, options := o, heap, global, active := global, strict := false
    saved := [], completion := .undefined, callDepth := 0, nextObject := 0 }

/-- Removes the scopes that neither running code nor the last value can reach. -/
def collectGarbage (m : Machine) : Nat × Machine :=
  let roots := m.global :: m.active :: m.completion.scopes ++ m.saved
  let (freed, heap) := m.heap.collect roots
  (freed, { m with heap })

/-- The value of a global name. -/
def globalValue (m : Machine) (text : String) : Except ScopeError (Option Value) :=
  match m.names.find? text with
  | none => .ok none
  | some n => m.heap.pool.value? m.global n

end Machine

namespace Exec

def onScopes {α : Type} (work : PoolM Value α) : Exec α := fun m =>
  let (r, pool) := work.run m.heap.pool
  (r.mapError .scope, { m with heap := { m.heap with pool } })

/-- Asks the scopes a question. -/
def ask {α : Type} (f : Pool Value → Except ScopeError α) : Exec α := fun m =>
  ((f m.heap.pool).mapError .scope, m)

def newObject : Exec Nat :=
  modifyGet fun m => (m.nextObject, { m with nextObject := m.nextObject + 1 })

def raise {α : Type} (kind : ErrorKind) (message : String) : Exec α := do
  throw (.thrown (.error (← newObject) kind message))

def closure (code : Code.FunctionCode) (scope : ScopeId) : Exec Value :=
  return .function (← newObject) code scope

/-- Runs code in a scope, and goes back to the present one however the code ends. -/
def within {α : Type} (scope : ScopeId) (strict : Bool) (body : Exec α) : Exec α := fun m =>
  let (r, m') := body.run { m with active := scope, strict, saved := m.active :: m.saved }
  (r, { m' with active := m.active, strict := m.strict, saved := m'.saved.tail })

/-- Runs a handler on what the body throws. What no code can catch passes by. -/
def caught (body : Exec Flow) (handler : Value → Exec Flow) : Exec Flow := fun m =>
  match body.run m with
  | (.error (.thrown v), m) => (handler v).run m
  | outcome => outcome

def isCatchable : Except Abrupt Flow → Bool
  | .ok _ | .error (.thrown _) => true
  | .error _ => false

/-- Runs a finalizer after the body, however the body ended. The finalizer's own end counts only if
it is a return or a failure. What no code can catch skips it. -/
def finalized (body finalizer : Exec Flow) : Exec Flow := fun m =>
  let (outcome, m) := body.run m
  if isCatchable outcome then
    match finalizer.run m with
    | (.ok (.normal _), m) => (outcome, m)
    | own => own
  else (outcome, m)

/-- Runs code as one call more. -/
def oneDeeper {α : Type} (body : Exec α) : Exec α := fun m =>
  let (r, m') := body.run { m with callDepth := m.callDepth + 1 }
  (r, { m' with callDepth := m'.callDepth - 1 })

/-- Declares some names where declarations made in a scope land. -/
def declareAll (scope : ScopeId) (ns : List Name) : Exec Unit :=
  ns.forM fun n => do let _ ← onScopes (.declare scope n)

/-- Makes the scope in which a body runs, with the names that the body needs. -/
def enter (e : Code.Entry) : Exec ScopeId := do
  let active := (← get).active
  match e.mode with
  | .global =>
    declareAll active e.names
    return active
  | .template => onScopes (.newTemplate (some active) e.names)
  | .catch => onScopes (.newCatchInstance (some active) e.names)
  | .eval =>
    let scope ← onScopes (.newEvalInstance active)
    declareAll scope e.names
    return scope

/-- Gives the hoisted functions of a body to their names. -/
def hoist (e : Code.Entry) (scope : ScopeId) : Exec Unit := do
  e.hoisted.forM fun h => do
    let f ← closure h.code scope
    match e.mode with
    | .template | .catch => onScopes (.store scope h.slot f)
    | .global | .eval => onScopes (.setValue scope h.name f)
  if e.mode = .global then onScopes (.freeze scope)

/-- Where a name is bound now. -/
def locate (a : Address) : Exec (Option (ScopeId × Nat)) := do
  let active := (← get).active
  match a with
  | .static depth slot => return some (← ask (·.ancestor active depth), slot)
  | .dynamic n => ask (·.lookup active n)

def unbound {α : Type} (a : Address) : Exec α := do
  match a with
  | .dynamic n => raise .reference s!"{(← get).names.text n} is not defined"
  | .static .. => raise .reference "binding is not defined"

def load (a : Address) : Exec Value := do
  match ← locate a with
  | some (scope, slot) => ask (·.load scope slot)
  | none => unbound a

/-- Gives a name a value. A name bound nowhere becomes a global one, unless the code is strict. -/
def store (a : Address) (v : Value) : Exec Unit := do
  match ← locate a, a with
  | some (scope, slot), _ => onScopes (.store scope slot v)
  | none, .dynamic n =>
    if (← get).strict then unbound a
    onScopes (.setValue (← get).global n v)
  | none, .static .. => if (← get).strict then unbound a

def typeOfName (a : Address) : Exec Value := do
  match ← locate a with
  | some (scope, slot) => return .string (← ask (·.load scope slot)).typeName
  | none => return .string Value.undefined.typeName

/-- Unbinds a name and tells whether it is unbound now, which strict code insists on. What is
addressed by its slot is declared and stays. -/
def deleteName (a : Address) : Exec Value := do
  let active := (← get).active
  let deleted ← match a with
    | .static .. => pure false
    | .dynamic n => do
      match ← ask (·.lookup active n) with
      | some (scope, _) => onScopes (.delete scope n)
      | none => pure true
  if !deleted && (← get).strict then raise .type "Cannot delete a declared binding"
  return .bool deleted

/-- The ways in which running code can carry out the uses of names. -/
structure Access where
  load : Code.Use → Exec Value
  store : Code.Use → Value → Exec Unit
  typeOfName : Code.Use → Exec Value
  deleteName : Code.Use → Exec Value

/-- Goes by the address of each use. -/
def Access.byAddress : Access where
  load u := Exec.load u.address
  store u := Exec.store u.address
  typeOfName u := Exec.typeOfName u.address
  deleteName u := Exec.deleteName u.address

/-- Puts a value into a slot, if there is a slot for it. -/
def storeOwn (scope : ScopeId) (slot : Option Nat) (value : Exec Value) : Exec Unit := do
  if let some slot := slot then onScopes (.store scope slot (← value))

/-- Puts the arguments into the slots of the parameters; a missing one is `undefined`. -/
def storeParams (scope : ScopeId) : List Nat → List Value → Exec Unit
  | [], _ => return
  | slot :: slots, args => do
    onScopes (.store scope slot (args.headD .undefined))
    storeParams scope slots args.tail

/-- Fills the names of a function before its body runs. What comes later wins: parameters hide the
function's own name and `arguments`, and hoisted functions hide parameters. -/
def fillActivation (self : Value) (code : Code.FunctionCode) (scope : ScopeId)
    (args : List Value) : Exec Unit := do
  storeOwn scope code.selfSlot (return self)
  storeOwn scope code.argumentsSlot do return .arguments (← newObject) args
  storeParams scope code.params args
  hoist code.entry scope

/-- Runs the body of a function on some arguments. -/
def activate (self : Value) (code : Code.FunctionCode) (scope : ScopeId) (args : List Value)
    (body : Exec Flow) : Exec Value :=
  within scope code.strict do
    let activation ← enter code.entry
    within activation code.strict <| oneDeeper do
      fillActivation self code activation args
      match ← body with
      | .return v => return v
      | .normal _ => return .undefined

/-- Runs the body of a catch clause on a thrown value. -/
def handle (h : Code.CatchCode) (v : Value) (body : Exec Flow) : Exec Flow := do
  let scope ← enter h.entry
  onScopes (.store scope h.paramSlot v)
  within scope (← get).strict body

/-- Runs the body of a program that was handed to `eval`. Strict code has a scope of its own, other
code declares its names in the scope of its caller. -/
def evaluate (code : Code.FunctionCode) (body : Exec Flow) : Exec Flow := do
  if code.strict then
    let scope ← enter code.entry
    within scope code.strict do
      hoist code.entry scope
      body
  else
    let active := (← get).active
    declareAll active code.entry.names
    hoist code.entry active
    body

/-- Compiles code handed to `eval`. A text that is no program is an error that can be caught. -/
def compileEval (text : String) : Exec Compiled := do
  let m ← get
  let (r, names) := Compilation.evalCode m.options text m.strict m.names
  set { m with names }
  match r with
  | .ok c => return c
  | .error (.malformed d) => raise .malformed d.text
  | .error e => throw (.compile e)

end Exec

end ScopeChain
