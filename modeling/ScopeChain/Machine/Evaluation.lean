import ScopeChain.Machine

/-! Evaluation of code. Every call takes fuel, of which the calls within it get one unit less, so
that a loop without end runs out of it. The way in which names are used is left open; programs run
by the addresses of their names. -/
namespace ScopeChain.Exec

open Code (FunctionCode)

variable (access : Access)

mutual

def eval : (fuel : Nat) → Code.Expr → Exec Value
  | 0, _ => throw .outOfFuel
  | fuel + 1, e => do
    match e with
    | .number x => return .number x
    | .string s => return .string s
    | .bool b => return .bool b
    | .null => return .null
    | .load u => access.load u
    | .store u e =>
      let v ← eval fuel e
      access.store u v
      return v
    | .binary op l r =>
      let a ← eval fuel l
      match op, a.isTruthy with
      | .logicalAnd, false | .logicalOr, true => return a
      | _, _ => return .binary op a (← eval fuel r)
    | .unary op e => return .unary op (← eval fuel e)
    | .typeofName u => access.typeOfName u
    | .typeof e => return .string (← eval fuel e).typeName
    | .deleteName u => access.deleteName u
    | .deleteValue e =>
      let _ ← eval fuel e
      return .bool true
    | .call f args =>
      let f ← eval fuel f
      call fuel f (← evalAll fuel args)
    | .directEval args => directEval fuel (← evalAll fuel args)
    | .function code => closure code (← get).active

def evalAll : (fuel : Nat) → List Code.Expr → Exec (List Value)
  | 0, _ => throw .outOfFuel
  | _ + 1, [] => return []
  | fuel + 1, e :: es => do
    let v ← eval fuel e
    return v :: (← evalAll fuel es)

def call : (fuel : Nat) → Value → List Value → Exec Value
  | 0, _, _ => throw .outOfFuel
  | fuel + 1, f, args => do
    match f with
    | .function _ code scope =>
      if Machine.maxCallDepth ≤ (← get).callDepth then
        raise .range "Maximum call stack size exceeded"
      activate f code scope args (execAll fuel none code.body)
    | _ => raise .type s!"{f.typeName} is not a function"

/-- A call of the bare name `eval`. Where the name is bound it is a call like any other; else the
first argument is run as a program if it is a text. -/
def directEval : (fuel : Nat) → List Value → Exec Value
  | 0, _ => throw .outOfFuel
  | fuel + 1, args => do
    let active := (← get).active
    match ← ask (·.lookup active .eval), args with
    | some (scope, slot), _ => call fuel (← ask (·.load scope slot)) args
    | none, .string text :: _ =>
      let code := (← compileEval text).code
      match ← evaluate code (execAll fuel none code.body) with
      | .normal v => return v.getD .undefined
      | .return v => return v
    | none, v :: _ => return v
    | none, [] => return .undefined

/-- Runs statements in order; `value` is that of the last one before them that had one. -/
def execAll : (fuel : Nat) → (value : Option Value) → List Code.Stmt → Exec Flow
  | 0, _, _ => throw .outOfFuel
  | _ + 1, value, [] => return .normal value
  | fuel + 1, value, s :: ss => do
    match ← exec fuel s with
    | .normal v => execAll fuel (v.or value) ss
    | .return v => return .return v

def exec : (fuel : Nat) → Code.Stmt → Exec Flow
  | 0, _ => throw .outOfFuel
  | fuel + 1, s => do
    match s with
    | .expr e => return .normal (some (← eval fuel e))
    | .init e =>
      let _ ← eval fuel e
      return .normal none
    | .return none => return .return .undefined
    | .return (some e) => return .return (← eval fuel e)
    | .if test consequent none =>
      if (← eval fuel test).isTruthy then exec fuel consequent else return .normal none
    | .if test consequent (some alternate) =>
      if (← eval fuel test).isTruthy then exec fuel consequent else exec fuel alternate
    | .while test body => loop fuel none test body
    | .block ss => execAll fuel none ss
    | .try block none none => execAll fuel none block
    | .try block none (some f) => finalized (execAll fuel none block) (execAll fuel none f)
    | .try block (some h) none =>
      caught (execAll fuel none block) fun v => handle h v (execAll fuel none h.body)
    | .try block (some h) (some f) =>
      finalized
        (caught (execAll fuel none block) fun v => handle h v (execAll fuel none h.body))
        (execAll fuel none f)
    | .throw e => throw (.thrown (← eval fuel e))

/-- Runs `body` as long as `test` is true; `value` is the latest of the body's values. -/
def loop : (fuel : Nat) → (value : Option Value) → Code.Expr → Code.Stmt → Exec Flow
  | 0, _, _, _ => throw .outOfFuel
  | fuel + 1, value, test, body => do
    if (← eval fuel test).isTruthy then
      match ← exec fuel body with
      | .normal v => loop fuel (v.or value) test body
      | .return v => return .return v
    else return .normal value

end

/-- Runs the statements of a program and keeps the value of each that has one. Between two of them
garbage is collected if there is too much. -/
def runStmts (fuel : Nat) : List Code.Stmt → Exec Unit
  | [] => return
  | s :: ss => do
    match ← exec access fuel s with
    | .normal (some v) => modify fun m => { m with completion := v }
    | .normal none | .return _ => pure ()
    modify fun m => if m.heap.collectionDue then m.collectGarbage.2 else m
    runStmts fuel ss

def runProgram (fuel : Nat) (code : FunctionCode) : Exec Unit := do
  let scope ← enter code.entry
  within scope code.strict do
    hoist code.entry scope
    runStmts access fuel code.body

end ScopeChain.Exec

namespace ScopeChain.Machine

/-- Runs a compiled program and answers the value of its last statement that had one. -/
def execute (m : Machine) (fuel : Nat) (code : Code.FunctionCode)
    (access : Exec.Access := .byAddress) : Except Abrupt Value × Machine :=
  let (r, m) := (Exec.runProgram access fuel code).run { m with completion := .undefined }
  (r.map fun _ => m.completion, m)

/-- Compiles and runs a script. -/
def runScript (m : Machine) (fuel : Nat) (file text : String)
    (access : Exec.Access := .byAddress) : Except Abrupt Value × Machine :=
  let (r, names) := Compilation.script m.options file text m.names
  let m := { m with names }
  match r with
  | .ok c => m.execute fuel c.code access
  | .error e => (.error (.compile e), m)

/-- Compiles code handed to `eval` from outside all scripts. -/
def compileEval (m : Machine) (text : String) (strict : Bool) :
    Except CompileError Compiled × Machine :=
  let (r, names) := Compilation.evalCode m.options text strict m.names
  (r, { m with names })

/-- Fuel that no run uses up. -/
def amplyFuelled : Nat := 1 <<< 60

end ScopeChain.Machine
