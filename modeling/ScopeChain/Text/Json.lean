import ScopeChain.Decimal.Reading
import ScopeChain.Text.Hexadecimal

/-! JSON texts as trees. What is read but not asked for may hold what no tree of plain values can: a
number of any size, a string with half a surrogate pair. Such values are kept as missing. -/
namespace ScopeChain.Text

inductive Json where
  | null
  | bool (b : Bool)
  /-- A number, with its value if digits are all there is to it. -/
  | number (natural : Option Nat)
  /-- A string, with its text unless an escape in it denotes no character. -/
  | string (text : Option String)
  | array (items : List Json)
  /-- The members in the order of the text; a key may occur more than once. -/
  | object (members : List (Option String × Json))

namespace Json

instance : Inhabited Json := ⟨null⟩

inductive Lexeme where
  | scalar (v : Json)
  /-- A bracket, a brace, a comma or a colon. -/
  | mark (c : Char)

def isBlank (c : Char) : Bool := c = ' ' || c = '\n' || c = '\r' || c = '\t'

def isMark (c : Char) : Bool :=
  c = '[' || c = ']' || c = '\x7b' || c = '\x7d' || c = ',' || c = ':'

/-- Skips one or more digits. -/
def afterDigits? : List Char → Option (List Char)
  | [] => none
  | c :: cs => if c.isDigit then some (cs.dropWhile Char.isDigit) else none

def afterFraction? : List Char → Option (List Char)
  | '.' :: cs => afterDigits? cs
  | cs => some cs

def afterExponent? : List Char → Option (List Char)
  | [] => some []
  | c :: cs =>
    if c = 'e' ∨ c = 'E' then afterDigits? (Decimal.splitSign cs).2 else some (c :: cs)

/-- Reads a number without its sign. Zero may start it only if no digit follows. -/
def number? (negative : Bool) (cs : List Char) : Option (Lexeme × List Char) := do
  let whole := cs.takeWhile Char.isDigit
  let behind ← afterDigits? cs
  if whole.head? = some '0' ∧ whole ≠ ['0'] then none
  let rest ← afterExponent? (← afterFraction? behind)
  let plain := !negative && rest.length = behind.length
  return (.scalar (.number (if plain then some (Decimal.digitsValue whole) else none)), rest)

/-- What a backslash and one more character stand for. -/
def escaped? : Char → Option Char
  | '"' => some '"'
  | '\\' => some '\\'
  | '/' => some '/'
  | 'b' => some '\x08'
  | 'f' => some '\x0c'
  | 'n' => some '\n'
  | 'r' => some '\r'
  | 't' => some '\t'
  | _ => none

/-- The inside of a string up to its closing quote, as code points and escaped units of sixteen
bits, and the characters behind the quote. -/
def stringUnits? : List Char → Option (List Nat × List Char)
  | [] => none
  | '"' :: cs => some ([], cs)
  | '\\' :: 'u' :: a :: b :: c :: d :: cs => do
    let unit ← hexFold 0 [a, b, c, d]
    let (units, rest) ← stringUnits? cs
    return (unit :: units, rest)
  | '\\' :: c :: cs => do
    let char ← escaped? c
    let (units, rest) ← stringUnits? cs
    return (char.toNat :: units, rest)
  | c :: cs => do
    if c.toNat < 0x20 ∨ c = '\\' then none
    let (units, rest) ← stringUnits? cs
    return (c.toNat :: units, rest)

def isHighSurrogate (u : Nat) : Bool := 0xd800 ≤ u && u < 0xdc00

def isLowSurrogate (u : Nat) : Bool := 0xdc00 ≤ u && u < 0xe000

/-- The characters behind some units; a surrogate counts only in a pair. -/
def decode? : List Nat → Option (List Char)
  | [] => some []
  | [u] => if isHighSurrogate u || isLowSurrogate u then none else some [Char.ofNat u]
  | u :: v :: us =>
    if isHighSurrogate u && isLowSurrogate v then
      (decode? us).map (Char.ofNat (0x10000 + (u - 0xd800) * 0x400 + (v - 0xdc00)) :: ·)
    else if isHighSurrogate u || isLowSurrogate u then none
    else (decode? (v :: us)).map (Char.ofNat u :: ·)

/-- Reads the lexeme at the head of a text that starts with no blank. -/
def lexeme? : List Char → Option (Lexeme × List Char)
  | [] => none
  | '"' :: cs => do
    let (units, rest) ← stringUnits? cs
    return (.scalar (.string ((decode? units).map String.ofList)), rest)
  | '-' :: cs => number? true cs
  | 'n' :: 'u' :: 'l' :: 'l' :: cs => some (.scalar .null, cs)
  | 't' :: 'r' :: 'u' :: 'e' :: cs => some (.scalar (.bool true), cs)
  | 'f' :: 'a' :: 'l' :: 's' :: 'e' :: cs => some (.scalar (.bool false), cs)
  | c :: cs => if isMark c then some (.mark c, cs) else number? false (c :: cs)

/-- Reads lexemes up to the end of the text, fewer than `fuel`. -/
def lexemesFrom? : (fuel : Nat) → List Char → Option (List Lexeme)
  | 0, _ => none
  | fuel + 1, cs =>
    match cs.dropWhile isBlank with
    | [] => some []
    | c :: cs => do
      let (l, rest) ← lexeme? (c :: cs)
      return l :: (← lexemesFrom? fuel rest)

/-- Reads a whole text; each lexeme takes a character, so the fuel is enough. -/
def lexemes? (text : String) : Option (List Lexeme) := lexemesFrom? (text.length + 1) text.toList

/-- A container whose end is still to come, with what was read of it in reverse. -/
inductive Container where
  | array (items : List Json)
  /-- The key is that of the member being read. -/
  | object (members : List (Option String × Json)) (key : Option String)

mutual

/-- Reads on where a value must follow. -/
def value? (around : List Container) : List Lexeme → Option Json
  | .scalar v :: ls => afterValue? v around ls
  | .mark '[' :: ls => value? (.array [] :: around) ls
  | .mark ']' :: ls =>
    match around with
    | .array [] :: around => afterValue? (.array []) around ls
    | _ => none
  | .mark '\x7b' :: ls => key? [] around ls
  | _ => none

/-- Reads on where a key must follow, or the end of an object without members. -/
def key? (members : List (Option String × Json)) (around : List Container) :
    List Lexeme → Option Json
  | .scalar (.string k) :: .mark ':' :: ls => value? (.object members k :: around) ls
  | .mark '\x7d' :: ls => if members.isEmpty then afterValue? (.object []) around ls else none
  | _ => none

/-- Reads on behind a value. -/
def afterValue? (v : Json) : List Container → List Lexeme → Option Json
  | [], [] => some v
  | .array items :: around, .mark ',' :: ls => value? (.array (v :: items) :: around) ls
  | .array items :: around, .mark ']' :: ls => afterValue? (.array (v :: items).reverse) around ls
  | .object members key :: around, .mark ',' :: ls => key? ((key, v) :: members) around ls
  | .object members key :: around, .mark '\x7d' :: ls =>
    afterValue? (.object ((key, v) :: members).reverse) around ls
  | _, _ => none

end

/-- The value that a whole text denotes. -/
def parse? (text : String) : Option Json := (lexemes? text).bind (value? [])

def bool? : Json → Option Bool
  | bool b => some b
  | _ => none

/-- A natural number below a limit. -/
def natural? (limit : Nat) : Json → Option Nat
  | number n => n.filter (· < limit)
  | _ => none

def string? : Json → Option String
  | string s => s
  | _ => none

def list? {α : Type} (read : Json → Option α) : Json → Option (List α)
  | array items => items.mapM read
  | _ => none

/-- A value that may be left out by writing `null`. -/
def optional? {α : Type} (read : Json → Option α) : Json → Option (Option α)
  | null => some none
  | v => (read v).map some

def member (members : List (Option String × Json)) (key : String) : Json :=
  (members.lookup (some key)).getD null

/-- The fields of a record, `null` for a missing one. A record is an object, in which no field
occurs twice and other members do not count, or an array of exactly its fields. -/
def fields? (keys : List String) : Json → Option (List Json)
  | array items => if items.length = keys.length then some items else none
  | object members =>
    if members.all (·.1.isSome) && keys.all fun k => members.countP (·.1 = some k) ≤ 1 then
      some (keys.map (member members))
    else none
  | _ => none

end Json

end ScopeChain.Text
