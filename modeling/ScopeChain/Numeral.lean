import ScopeChain.Decimal.Reading
import ScopeChain.Text.Hexadecimal
import ScopeChain.Unicode.Blank

/-! The numbers that literals and strings denote. -/
namespace ScopeChain.Numeral

/-- A number in base sixteen of at most 64 bits. -/
def ofHex (digits : List Char) : Float :=
  match Text.hexValue? UInt64.size digits with
  | some n => Binary64.ofNat n
  | none => Binary64.nan

/-- The double that a word names, in letters of either case. -/
def ofWord? (negative : Bool) (cs : List Char) : Option Float :=
  let word := cs.map Char.toLower
  if word = "inf".toList ∨ word = "infinity".toList then some (Binary64.infinity negative)
  else if word = "nan".toList then some Binary64.nan
  else none

/-- Reads a whole text as a double: a decimal, or a word behind an optional sign. -/
def parse? (cs : List Char) : Option Float :=
  match Decimal.read? cs with
  | some d => some d.toFloat
  | none =>
    let (negative, unsigned) := Decimal.splitSign cs
    ofWord? negative unsigned

def ofDecimal (cs : List Char) : Float := (parse? cs).getD Binary64.nan

/-- The digits behind the mark of base sixteen. -/
def hexDigits? : List Char → Option (List Char)
  | '0' :: 'x' :: cs | '0' :: 'X' :: cs => some cs
  | _ => none

/-- The number that a numeric literal denotes. -/
def ofLiteral (cs : List Char) : Float :=
  match hexDigits? cs with
  | some ds => ofHex ds
  | none => ofDecimal cs

/-- The infinity that a text names. -/
def infinity? (cs : List Char) : Option Float :=
  if cs = "Infinity".toList ∨ cs = "+Infinity".toList then some (Binary64.infinity false)
  else if cs = "-Infinity".toList then some (Binary64.infinity true)
  else none

/-- A letter that no decimal has. -/
def isForeignLetter (c : Char) : Bool := c.isAlpha && !(c = 'e' || c = 'E')

/-- The number that a string converts to: blanks around it do not count, and of nothing the
number is zero. A word is no number, though it would be read as a double. -/
def ofText (s : String) : Float :=
  let cs := Unicode.trim s.toList
  if cs = [] then Binary64.ofNat 0
  else match hexDigits? cs with
    | some ds => ofHex ds
    | none =>
      (infinity? cs).getD (if cs.any isForeignLetter then Binary64.nan else ofDecimal cs)

end ScopeChain.Numeral
