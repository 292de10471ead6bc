import ScopeChain.Code
import ScopeChain.Decimal.Shortest
import ScopeChain.Numeral

/-! The values of scripts, how they convert and when they are equal. -/
namespace ScopeChain

inductive ErrorKind where
  | reference
  | type
  | malformed
  | range
deriving DecidableEq, Repr

instance : ToString ErrorKind where
  toString
    | .reference => "ReferenceError"
    | .type => "TypeError"
    | .malformed => "SyntaxError"
    | .range => "RangeError"

/-- A value. Functions, lists of arguments and errors are objects, each with a number of its own by
which it differs from all others. -/
inductive Value where
  /-- Also what a declared name holds that was given no value. -/
  | undefined
  | null
  | bool (b : Bool)
  | number (x : Float)
  | string (s : String)
  /-- Code and the scope that was active when the function was made. -/
  | function (object : Nat) (code : Code.FunctionCode) (scope : ScopeId)
  /-- All that was passed to a call. -/
  | arguments (object : Nat) (items : List Value)
  | error (object : Nat) (kind : ErrorKind) (message : String)

namespace Value

instance : Inhabited Value := ⟨undefined⟩

def typeName : Value → String
  | undefined => "undefined"
  | bool _ => "boolean"
  | number _ => "number"
  | string _ => "string"
  | function .. => "function"
  | null | arguments .. | error .. => "object"

def isTruthy : Value → Bool
  | undefined | null => false
  | bool b => b
  | number x => x != 0 && !x.isNaN
  | string s => s ≠ ""
  | function .. | arguments .. | error .. => true

def toNumber : Value → Float
  | null => Binary64.ofNat 0
  | bool b => Binary64.ofNat b.toNat
  | number x => x
  | string s => Numeral.ofText s
  | undefined | function .. | arguments .. | error .. => Binary64.nan

instance : ToString Value where
  toString
    | undefined => "undefined"
    | null => "null"
    | bool b => if b then "true" else "false"
    | number x => Decimal.write x
    | string s => s
    | function .. => "function"
    | arguments .. => "[object Arguments]"
    | error _ kind message => s!"{kind}: {message}"

/-- Equality without conversion: objects are equal to themselves only, and no NaN to another. -/
def strictEq : Value → Value → Bool
  | undefined, undefined | null, null => true
  | bool a, bool b => a = b
  | number a, number b => a == b
  | string a, string b => a = b
  | function a _ _, function b _ _ | arguments a _, arguments b _ | error a _ _, error b _ _ =>
    a = b
  | _, _ => false

def isNullish : Value → Bool
  | undefined | null => true
  | _ => false

/-- Whether two values are compared as numbers when conversion is allowed. -/
def comparesAsNumber : Value → Value → Bool
  | number _, string _ | string _, number _ | bool _, _ | _, bool _ => true
  | _, _ => false

/-- Equality that converts: `undefined` and `null` are equal to each other and to nothing else. -/
def looseEq (a b : Value) : Bool :=
  if a.isNullish || b.isNullish then a.isNullish && b.isNullish
  else if comparesAsNumber a b then a.toNumber == b.toNumber
  else strictEq a b

/-- The sum, which is a text if one of the two is. -/
def add : Value → Value → Value
  | string a, b => string (a ++ toString b)
  | a, string b => string (toString a ++ b)
  | a, b => number (a.toNumber + b.toNumber)

/-- Two strings compare by the code points of their characters, all else as numbers. -/
def less : Value → Value → Bool
  | string a, string b => a < b
  | a, b => a.toNumber < b.toNumber

def lessEq : Value → Value → Bool
  | string a, string b => !(b < a)
  | a, b => a.toNumber ≤ b.toNumber

def unary : UnaryOp → Value → Value
  | .not, a => bool !a.isTruthy
  | .minus, a => number (-a.toNumber)
  | .plus, a => number a.toNumber

/-- An operator on two values; the logical ones take the second, since where the first decides
they do not get here. -/
def binary : BinaryOp → Value → Value → Value
  | .add, a, b => a.add b
  | .subtract, a, b => number (a.toNumber - b.toNumber)
  | .multiply, a, b => number (a.toNumber * b.toNumber)
  | .divide, a, b => number (a.toNumber / b.toNumber)
  | .remainder, a, b => number (Binary64.remainder a.toNumber b.toNumber)
  | .less, a, b => bool (a.less b)
  | .greater, a, b => bool (b.less a)
  | .lessEq, a, b => bool (a.lessEq b)
  | .greaterEq, a, b => bool (b.lessEq a)
  | .looseEq, a, b => bool (a.looseEq b)
  | .looseNe, a, b => bool !(a.looseEq b)
  | .strictEq, a, b => bool (a.strictEq b)
  | .strictNe, a, b => bool !(a.strictEq b)
  | .logicalAnd, _, b | .logicalOr, _, b => b

mutual

/-- The scopes of the functions that a value is or holds. -/
def scopes : Value → List ScopeId
  | function _ _ scope => [scope]
  | arguments _ items => allScopes items
  | undefined | null | bool _ | number _ | string _ | error .. => []

def allScopes : List Value → List ScopeId
  | [] => []
  | v :: vs => v.scopes ++ allScopes vs

end

end Value

end ScopeChain
