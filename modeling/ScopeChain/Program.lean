import ScopeChain.Interner
import ScopeChain.Span

/-! Programs as trees. Only what bears on scopes is kept apart: declarations, functions, catch
clauses, references, and calls whose callee is a bare name. -/
namespace ScopeChain

/-- The number of a node, by which tables beside the tree refer to it. -/
abbrev NodeId := Nat

/-- The number of a node as it is stored, in 32 bits. -/
def NodeId.stored (id : NodeId) : UInt32 := .ofNat id

structure Identifier where
  id : NodeId
  name : Name
  span : Span
deriving DecidableEq, Repr

inductive BinaryOp where
  | add | subtract | multiply | divide | remainder
  | less | greater | lessEq | greaterEq
  | looseEq | looseNe | strictEq | strictNe
  | logicalAnd | logicalOr
deriving DecidableEq, Repr

inductive UnaryOp where
  | not | minus | plus
deriving DecidableEq, Repr

mutual

inductive Expr where
  | number (value : Float)
  | string (value : String)
  | bool (value : Bool)
  | null
  /-- The receiver, found through the scopes like any other name. -/
  | this (id : Identifier)
  | identifier (id : Identifier)
  | assign (target : Identifier) (value : Expr)
  | binary (op : BinaryOp) (left right : Expr)
  | unary (op : UnaryOp) (operand : Expr)
  | typeof (operand : Expr)
  | delete (operand : Expr) (span : Span)
  | call (callee : Expr) (args : List Expr) (span : Span)
  | function (f : FunctionDef)

inductive Stmt where
  | var (declarators : List Declarator)
  | function (f : FunctionDef)
  | expr (e : Expr)
  | return (argument : Option Expr) (span : Span)
  | if (test : Expr) (consequent : Stmt) (alternate : Option Stmt)
  | while (test : Expr) (body : Stmt)
  | block (body : List Stmt)
  | try (block : List Stmt) (handler : Option CatchClause) (finalizer : Option (List Stmt))
  | throw (argument : Expr)
  | empty

structure Declarator where
  target : Identifier
  value : Option Expr

structure CatchClause where
  id : NodeId
  param : Identifier
  body : List Stmt

structure FunctionDef where
  id : NodeId
  /-- Missing for an anonymous function expression. -/
  self : Option Identifier
  params : List Identifier
  body : List Stmt
  /-- Strict by a directive of its own or by the code around it. -/
  strict : Bool
  span : Span

end

/-- A script, or a string handed to `eval`. -/
structure Program where
  id : NodeId
  file : String
  body : List Stmt
  strict : Bool
  span : Span

/-- The identifier that an expression consists of. -/
def Expr.identifier? : Expr → Option Identifier
  | .identifier i => some i
  | _ => none

/-- Whether an expression is the bare name `eval`, whose calls are direct. -/
def Expr.isEval (e : Expr) : Bool := e.identifier?.any (·.name = Name.eval)

end ScopeChain
