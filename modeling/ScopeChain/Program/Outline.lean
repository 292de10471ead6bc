import ScopeChain.Program
import ScopeChain.Text.Quoted

/-! Programs as nested lists, one word for the kind of each node, with the numbers and spans that
tables beside the tree refer to. -/
namespace ScopeChain

/-- A list of words between parentheses. -/
def Text.listed (words : List String) : String := "(" ++ " ".intercalate words ++ ")"

/-- The sixteen digits of a double's bits, one word for all that are no number. -/
def Text.floatBits (x : Float) : String :=
  if x.isNaN then "NaN"
  else
    let ds := Nat.toDigits 16 x.toBits.toNat
    String.ofList (List.replicate (16 - ds.length) '0' ++ ds)

def Span.bounds (s : Span) : String := s.stored.bounds

def BinaryOp.word : BinaryOp → String
  | .add => "Add"
  | .subtract => "Subtract"
  | .multiply => "Multiply"
  | .divide => "Divide"
  | .remainder => "Remainder"
  | .less => "LessThan"
  | .greater => "GreaterThan"
  | .lessEq => "LessThanEquals"
  | .greaterEq => "GreaterThanEquals"
  | .looseEq => "LooseEquals"
  | .looseNe => "LooseNotEquals"
  | .strictEq => "StrictEquals"
  | .strictNe => "StrictNotEquals"
  | .logicalAnd => "LogicalAnd"
  | .logicalOr => "LogicalOr"

def UnaryOp.word : UnaryOp → String
  | .not => "Not"
  | .minus => "Minus"
  | .plus => "Plus"

/-- The word for the strictness of code. -/
def strictness (strict : Bool) : String := if strict then "strict" else "sloppy"

namespace Outline

open Text

variable (names : Interner)

def identifier (i : Identifier) : String :=
  listed ["id", quoted (names.text i.name), s!"#{i.id.stored}", i.span.bounds]

mutual

def expr : Expr → String
  | .number x => listed ["num", floatBits x]
  | .string s => listed ["str", quoted s]
  | .bool b => if b then "true" else "false"
  | .null => "null"
  | .this i => listed ["this", s!"#{i.id.stored}", i.span.bounds]
  | .identifier i => identifier names i
  | .function f => function f
  | .assign i e => listed ["assign", identifier names i, expr e]
  | .binary op l r => listed [op.word, expr l, expr r]
  | .unary op e => listed [op.word, expr e]
  | .typeof e => listed ["typeof", expr e]
  | .delete e span => listed ["delete", span.bounds, expr e]
  | .call f args span => listed ("call" :: span.bounds :: expr f :: exprs args)

def exprs : List Expr → List String
  | [] => []
  | e :: es => expr e :: exprs es

def stmt : Stmt → String
  | .var ds => listed ("var" :: declarators ds)
  | .function f => function f
  | .expr e => listed ["expr", expr e]
  | .return none span => listed ["return", span.bounds]
  | .return (some e) span => listed ["return", span.bounds, expr e]
  | .if t c none => listed ["if", expr t, stmt c]
  | .if t c (some a) => listed ["if", expr t, stmt c, stmt a]
  | .while t b => listed ["while", expr t, stmt b]
  | .block b => listed ("block" :: stmts b)
  | .try b h f => listed ("try" :: listed ("block" :: stmts b) :: handler h ++ finalizer f)
  | .throw e => listed ["throw", expr e]
  | .empty => listed ["empty"]

def stmts : List Stmt → List String
  | [] => []
  | s :: ss => stmt s :: stmts ss

def declarators : List Declarator → List String
  | [] => []
  | ⟨i, none⟩ :: ds => listed ["decl", identifier names i] :: declarators ds
  | ⟨i, some e⟩ :: ds => listed ["decl", identifier names i, expr e] :: declarators ds

def handler : Option CatchClause → List String
  | none => []
  | some ⟨id, param, body⟩ =>
    [listed ("catch" :: s!"#{id.stored}" :: identifier names param :: stmts body)]

def finalizer : Option (List Stmt) → List String
  | none => []
  | some body => [listed ("finally" :: stmts body)]

def function : FunctionDef → String
  | ⟨id, self, params, body, strict, span⟩ =>
    listed ["function", s!"#{id.stored}", (self.map (identifier names)).getD "_", strictness strict,
      span.bounds, listed ("params" :: params.map (identifier names)),
      listed ("body" :: stmts body)]

end

end Outline

end ScopeChain
