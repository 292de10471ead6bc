import ScopeChain.Code
import ScopeChain.Program.Outline

/-! Code as nested lists. -/
namespace ScopeChain.Code.Outline

open Text

variable (names : Interner)

def address : Address → String
  | .static depth slot => s!"s{depth}:{storedSlot slot}"
  | .dynamic n => "d" ++ quoted (names.text n)

def nameList (ns : List Name) : String :=
  "[" ++ ",".intercalate (ns.map fun n => quoted (names.text n)) ++ "]"

def slotList (slots : List Nat) : String :=
  "[" ++ ",".intercalate (slots.map fun s => s!"{storedSlot s}") ++ "]"

def slot : Option Nat → String
  | none => "_"
  | some s => s!"{storedSlot s}"

mutual

def expr : Expr → String
  | .number x => listed ["num", floatBits x]
  | .string s => listed ["str", quoted s]
  | .bool b => if b then "true" else "false"
  | .null => "null"
  | .load u => listed ["load", address names u.address]
  | .store u e => listed ["store", address names u.address, expr e]
  | .binary op l r => listed [op.word, expr l, expr r]
  | .unary op e => listed [op.word, expr e]
  | .typeofName u => listed ["typeof-name", address names u.address]
  | .typeof e => listed ["typeof", expr e]
  | .deleteName u => listed ["delete-name", address names u.address]
  | .deleteValue e => listed ["delete-value", expr e]
  | .call f args => listed ("call" :: expr f :: exprs args)
  | .directEval args => listed ("eval" :: exprs args)
  | .function c => function c

def exprs : List Expr → List String
  | [] => []
  | e :: es => expr e :: exprs es

def stmt : Stmt → String
  | .expr e => listed ["expr", expr e]
  | .init e => listed ["init", expr e]
  | .return none => listed ["return"]
  | .return (some e) => listed ["return", expr e]
  | .if t c none => listed ["if", expr t, stmt c]
  | .if t c (some a) => listed ["if", expr t, stmt c, stmt a]
  | .while t b => listed ["while", expr t, stmt b]
  | .block b => listed ("block" :: stmts b)
  | .try b h f => listed ("try" :: listed ("block" :: stmts b) :: handler h ++ finalizer f)
  | .throw e => listed ["throw", expr e]

def stmts : List Stmt → List String
  | [] => []
  | s :: ss => stmt s :: stmts ss

def handler : Option CatchCode → List String
  | none => []
  | some ⟨e, param, body⟩ => [listed ("catch" :: s!"{storedSlot param}" :: entry e :: stmts body)]

def finalizer : Option (List Stmt) → List String
  | none => []
  | some body => [listed ("finally" :: stmts body)]

def entry : Entry → String
  | ⟨ns, hs, mode⟩ => listed ("entry" :: toString mode :: nameList names ns :: hoisted hs)

def hoisted : List Hoisted → List String
  | [] => []
  | ⟨n, s, c⟩ :: hs =>
    listed ["hoist", quoted (names.text n), s!"{storedSlot s}", function c] :: hoisted hs

def function : FunctionCode → String
  | ⟨name, params, self, this, arguments, e, body, strict, span⟩ =>
    listed [if this.isNone then "program" else "code",
      (name.map fun n => quoted (names.text n)).getD "_", strictness strict, span.bounds,
      "params=" ++ slotList params, "self=" ++ slot self, "this=" ++ slot this,
      "arguments=" ++ slot arguments, entry e, listed ("body" :: stmts body)]

end

end ScopeChain.Code.Outline
