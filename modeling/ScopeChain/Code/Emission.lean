import ScopeChain.Binding
import ScopeChain.Code

/-! From a bound program to code. -/
namespace ScopeChain.Code

/-- Why no code can be made: the binding is not that of the program. -/
inductive EmitError where
  | missingReference (node : NodeId)
  | missingScope (node : NodeId)
  | missingFunction (node : NodeId)
  | scope (error : ScopeError)
deriving DecidableEq, Repr

instance : ToString EmitError where
  toString
    | .missingReference n => s!"no resolution recorded for identifier NodeId({n})"
    | .missingScope n => s!"no scope descriptor recorded for node NodeId({n})"
    | .missingFunction n => s!"hoisted function NodeId({n}) was never emitted"
    | .scope e => toString e

/-- The code of the function declarations seen so far, by their nodes. -/
abbrev Declared := Std.HashMap NodeId FunctionCode

abbrev EmitM := StateT Declared (Except EmitError)

namespace Emission

def required {α : Type} (error : EmitError) : Option α → EmitM α
  | some a => return a
  | none => throw error

def address (b : Binding) (i : Identifier) : EmitM Address :=
  required (.missingReference i.id) b.references[i.id]?

def use (b : Binding) (i : Identifier) : EmitM Use := return ⟨i.name, ← address b i⟩

def scopeOf (b : Binding) (node : NodeId) : EmitM ScopeId :=
  required (.missingScope node) b.nodeScopes[node]?

def descriptor (b : Binding) (id : ScopeId) : EmitM (Scope Unit) :=
  match b.scopes.get id with
  | .ok s => return s
  | .error e => throw (.scope e)

/-- The functions that some declarations hold from the start. -/
def hoisted : List (Nat × Declaration) → EmitM (List Hoisted)
  | [] => return []
  | (_, ⟨_, none⟩) :: ds => hoisted ds
  | (slot, ⟨name, some node⟩) :: ds => do
    let code ← required (.missingFunction node) (← get)[node]?
    return ⟨name, slot, code⟩ :: (← hoisted ds)

/-- What a body of some scope needs on entry. -/
def entry (b : Binding) (id : ScopeId) (mode : EntryMode) : EmitM Entry := do
  let s ← descriptor b id
  return ⟨s.table.names, ← hoisted s.table.declarations, mode⟩

/-- The slot of a name that a function declares itself. -/
def ownSlot (s : Scope Unit) (node : NodeId) (n : Name) : EmitM Nat :=
  required (.missingScope node) (s.slot? n)

/-- Several statements as one. -/
def single : List Stmt → Stmt
  | [s] => s
  | ss => .block ss

mutual

def expr (b : Binding) : ScopeChain.Expr → EmitM Expr
  | .number x => return .number x
  | .string s => return .string s
  | .bool v => return .bool v
  | .null => return .null
  | .this i | .identifier i => return .load (← use b i)
  | .assign i e => do
    let target ← use b i
    return .store target (← expr b e)
  | .binary op l r => do
    let left ← expr b l
    return .binary op left (← expr b r)
  | .unary op e => return .unary op (← expr b e)
  | .typeof e => do
    match e.identifier? with
    | some i => return .typeofName (← use b i)
    | none => return .typeof (← expr b e)
  | .delete e _ => do
    match e.identifier? with
    | some i => return .deleteName (← use b i)
    | none => return .deleteValue (← expr b e)
  | .call f args _ => do
    let args ← exprs b args
    let direct ← match f.identifier? with
      | some i => if i.name = .eval then (fun a => !a.isStatic) <$> address b i else pure false
      | none => pure false
    if direct then return .directEval args
    return .call (← expr b f) args
  | .function f => return .function (← function b f)

def exprs (b : Binding) : List ScopeChain.Expr → EmitM (List Expr)
  | [] => return []
  | e :: es => do
    let e ← expr b e
    return e :: (← exprs b es)

/-- A declaration without a value leaves nothing to run. -/
def declarators (b : Binding) : List Declarator → EmitM (List Stmt)
  | [] => return []
  | ⟨_, none⟩ :: ds => declarators b ds
  | ⟨i, some e⟩ :: ds => do
    let target ← use b i
    let value ← expr b e
    return .init (.store target value) :: (← declarators b ds)

/-- The statements that one statement turns into. -/
def stmt (b : Binding) : ScopeChain.Stmt → EmitM (List Stmt)
  | .var ds => declarators b ds
  | .function f => do
    let code ← function b f
    modify (·.insert f.id code)
    return []
  | .expr e => return [.expr (← expr b e)]
  | .return none _ => return [.return none]
  | .return (some e) _ => return [.return (some (← expr b e))]
  | .if t c none => do
    let test ← expr b t
    return [.if test (single (← stmt b c)) none]
  | .if t c (some a) => do
    let test ← expr b t
    let consequent ← stmt b c
    return [.if test (single consequent) (some (single (← stmt b a)))]
  | .while t s => do
    let test ← expr b t
    return [.while test (single (← stmt b s))]
  | .block s => return [.block (← stmts b s)]
  | .try s h f => do
    let block ← stmts b s
    let handler ← handler b h
    return [.try block handler (← finalizer b f)]
  | .throw e => return [.throw (← expr b e)]
  | .empty => return []

def stmts (b : Binding) : List ScopeChain.Stmt → EmitM (List Stmt)
  | [] => return []
  | s :: ss => do
    let first ← stmt b s
    return first ++ (← stmts b ss)

def handler (b : Binding) : Option CatchClause → EmitM (Option CatchCode)
  | none => return none
  | some ⟨id, param, body⟩ => do
    let scope ← scopeOf b id
    let body ← stmts b body
    let entry ← entry b scope .catch
    let slot ← ownSlot (← descriptor b scope) id param.name
    return some ⟨entry, slot, body⟩

def finalizer (b : Binding) : Option (List ScopeChain.Stmt) → EmitM (Option (List Stmt))
  | none => return none
  | some body => return some (← stmts b body)

def function (b : Binding) : FunctionDef → EmitM FunctionCode
  | ⟨id, self, params, body, strict, span⟩ => do
    let scope ← scopeOf b id
    let body ← stmts b body
    let entry ← entry b scope .template
    let s ← descriptor b scope
    let params ← params.mapM fun p => ownSlot s id p.name
    let selfSlot ← self.mapM fun i => ownSlot s id i.name
    let thisSlot ← ownSlot s id .this
    let argumentsSlot ← ownSlot s id .arguments
    return {
      name := self.map Identifier.name
      params, selfSlot, thisSlot := some thisSlot, argumentsSlot := some argumentsSlot
      entry, body, strict, span }

end

/-- Only the scope of code for `eval` says so. -/
def modeOf (s : Scope Unit) : EntryMode := if s.kind = .eval then .eval else .global

def program (b : Binding) (p : Program) : EmitM FunctionCode := do
  let scope ← scopeOf b p.id
  let mode := modeOf (← descriptor b scope)
  let body ← stmts b p.body
  let entry ← entry b scope mode
  return {
    name := none, params := [], selfSlot := none, thisSlot := none, argumentsSlot := none
    entry, body, strict := p.strict, span := p.span }

end Emission

/-- The code of a program under a binding. -/
def ofProgram (b : Binding) (p : Program) : Except EmitError FunctionCode :=
  (Emission.program b p).run' {}

end ScopeChain.Code
