import ScopeChain.Scope.Chain

/-! Code that can be run: trees whose names are replaced by addresses, and for every body a list
of the names it needs on entry. -/
namespace ScopeChain.Code

/-- How the names of a body come into being when it starts to run. -/
inductive EntryMode where
  /-- They are declared in the global scope and made undeletable. -/
  | global
  /-- They make up a new activation. -/
  | template
  /-- They make up a new scope from which declarations pass on outward. -/
  | catch
  /-- They are declared in a new scope if the code is strict, else where the caller's declarations
  land, and can be deleted. -/
  | eval
deriving DecidableEq, Repr

namespace EntryMode

instance : ToString EntryMode where
  toString
    | .global => "global"
    | .template => "template"
    | .catch => "catch"
    | .eval => "eval"

end EntryMode

/-- A use of a name: the name that was written and the address that it was given. Running code
goes by the address and leaves the name alone. -/
structure Use where
  name : Name
  address : Address
deriving DecidableEq, Repr

mutual

/-- A function declaration whose closure a name holds from the start. -/
structure Hoisted where
  name : Name
  /-- The place of the name in the list of the entry. -/
  slot : Nat
  code : FunctionCode

structure Entry where
  /-- The names in the order of their slots. -/
  names : List Name
  hoisted : List Hoisted
  mode : EntryMode

/-- The code of a function, or of a program, which has no slots of its own. -/
structure FunctionCode where
  name : Option Name
  params : List Nat
  selfSlot : Option Nat
  thisSlot : Option Nat
  argumentsSlot : Option Nat
  entry : Entry
  body : List Stmt
  strict : Bool
  span : Span

structure CatchCode where
  entry : Entry
  paramSlot : Nat
  body : List Stmt

inductive Stmt where
  | expr (e : Expr)
  /-- Gives a variable its first value; the value is no result of the program. -/
  | init (e : Expr)
  | return (argument : Option Expr)
  | if (test : Expr) (consequent : Stmt) (alternate : Option Stmt)
  | while (test : Expr) (body : Stmt)
  | block (body : List Stmt)
  | try (block : List Stmt) (handler : Option CatchCode) (finalizer : Option (List Stmt))
  | throw (argument : Expr)

inductive Expr where
  | number (value : Float)
  | string (value : String)
  | bool (value : Bool)
  | null
  | load (u : Use)
  | store (u : Use) (value : Expr)
  | binary (op : BinaryOp) (left right : Expr)
  | unary (op : UnaryOp) (operand : Expr)
  /-- The type of a name's value, also of a name bound nowhere. -/
  | typeofName (u : Use)
  | typeof (operand : Expr)
  | deleteName (u : Use)
  /-- Works out its operand and is true. -/
  | deleteValue (operand : Expr)
  | call (callee : Expr) (args : List Expr)
  /-- A call of the bare name `eval`. -/
  | directEval (args : List Expr)
  | function (code : FunctionCode)

end

def FunctionCode.isProgram (c : FunctionCode) : Bool := c.thisSlot.isNone

end ScopeChain.Code
