import ScopeChain.Binary64

/-! Reading numbers in decimal, with an optional sign, fraction and exponent. -/
namespace ScopeChain

/-- The number `digits * 10 ^ exponent`, negated if `negative`. -/
structure Decimal where
  negative : Bool
  digits : Nat
  exponent : Int
deriving DecidableEq, Repr

namespace Decimal

/-- The number whose digits are those of `n` with one more behind them. -/
def withDigit (n : Nat) (c : Char) : Nat := 10 * n + (c.toNat - '0'.toNat)

def digitsValue (cs : List Char) : Nat := cs.foldl withDigit 0

theorem foldl_withDigit (n : Nat) (cs : List Char) :
    cs.foldl withDigit n = n * Nat.pow 10 cs.length + digitsValue cs := by
  induction cs generalizing n with
  | nil => simp [digitsValue]
  | cons c cs ih =>
    have front : digitsValue (c :: cs) = withDigit 0 c * Nat.pow 10 cs.length + digitsValue cs :=
      ih (withDigit 0 c)
    rw [List.foldl_cons, ih, front]
    simp only [withDigit, List.length_cons, Nat.pow_eq, Nat.pow_succ]
    grind

theorem digitsValue_append (cs ds : List Char) :
    digitsValue (cs ++ ds) = digitsValue cs * Nat.pow 10 ds.length + digitsValue ds := by
  rw [digitsValue, List.foldl_append, foldl_withDigit]
  rfl

/-- The value of a text cut in half as often as `depth` says. The numbers that arise on the way
are short, so a long text is read much faster than digit by digit. -/
def valueByHalves : Nat → List Char → Nat
  | 0, cs => digitsValue cs
  | depth + 1, cs =>
    let behind := cs.drop (cs.length / 2)
    valueByHalves depth (cs.take (cs.length / 2)) * Nat.pow 10 behind.length +
      valueByHalves depth behind

theorem valueByHalves_eq (depth : Nat) (cs : List Char) :
    valueByHalves depth cs = digitsValue cs := by
  induction depth generalizing cs with
  | zero => rfl
  | succ depth ih => simp only [valueByHalves, ih, ← digitsValue_append, List.take_append_drop]

/-- An exponent that has come to this takes no further digits. -/
def exponentLimit : Nat := 65536

/-- The value of an exponent's digits. Those behind the limit are read without effect: only a
mantissa with as many digits could tell. -/
def exponentValue (cs : List Char) : Nat :=
  cs.foldl (fun n c => if n < exponentLimit then withDigit n c else n) 0

/-- Splits off a sign; `true` for minus. -/
def splitSign : List Char → Bool × List Char
  | '-' :: cs => (true, cs)
  | '+' :: cs => (false, cs)
  | cs => (false, cs)

/-- Reads what follows the mantissa: nothing, or an exponent of at least one digit. -/
def exponent? : List Char → Option Int
  | [] => some 0
  | c :: cs =>
    let (negative, ds) := splitSign cs
    if (c = 'e' ∨ c = 'E') ∧ ds ≠ [] ∧ ds.all Char.isDigit then
      some (if negative then -(exponentValue ds : Int) else exponentValue ds)
    else none

/-- Reads a whole text as a decimal; its mantissa has at least one digit, on either side of the
point. -/
def read? (cs : List Char) : Option Decimal :=
  let (negative, unsigned) := splitSign cs
  let whole := unsigned.takeWhile Char.isDigit
  let behind := unsigned.dropWhile Char.isDigit
  let (fraction, rest) := match behind with
    | '.' :: ds => (ds.takeWhile Char.isDigit, ds.dropWhile Char.isDigit)
    | _ => ([], behind)
  if whole = [] ∧ fraction = [] then none
  else (exponent? rest).map fun e =>
    let digits := whole ++ fraction
    ⟨negative, valueByHalves (digits.length.log2 - 5) digits, e - fraction.length⟩

/-- The double nearest to a decimal. Far outside the range of doubles the power of ten is not
worked out: the answer there is infinity or zero whatever the digits. A decimal is put there by the
bits of its digits alone, ten of which are worth more than three decimal digits and three of which
no more than one. -/
def toFloat (d : Decimal) : Float :=
  let bits : Int := d.digits.log2
  if d.digits = 0 ∨ bits + 1 + 3 * d.exponent < -1200 then Binary64.ofRatio d.negative 0 1
  else if 4000 < 3 * bits + 10 * d.exponent then Binary64.infinity d.negative
  else if d.exponent < 0 then Binary64.ofRatio d.negative d.digits (Nat.pow 10 (-d.exponent).toNat)
  else Binary64.ofRatio d.negative (d.digits * Nat.pow 10 d.exponent.toNat) 1

end Decimal

end ScopeChain
