/-! Reading unsigned numbers in base sixteen. -/
namespace ScopeChain.Text

def hexDigit? (c : Char) : Option Nat :=
  if c.isDigit then some (c.toNat - '0'.toNat)
  else if 'a' ≤ c ∧ c ≤ 'f' then some (c.toNat - 'a'.toNat + 10)
  else if 'A' ≤ c ∧ c ≤ 'F' then some (c.toNat - 'A'.toNat + 10)
  else none

def isHexDigit (c : Char) : Bool := (hexDigit? c).isSome

/-- Continues a number already read with further digits. -/
def hexFold : Nat → List Char → Option Nat
  | n, [] => some n
  | n, c :: cs => (hexDigit? c).bind fun d => hexFold (16 * n + d) cs

/-- The number spelt by one or more digits, which a plus sign may precede, if it is below
`limit`. -/
def hexValue? (limit : Nat) (cs : List Char) : Option Nat :=
  let digits := match cs with
    | '+' :: ds => ds
    | _ => cs
  if digits = [] then none else (hexFold 0 digits).filter (· < limit)

end ScopeChain.Text
