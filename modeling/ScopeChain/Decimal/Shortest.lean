import ScopeChain.Binary64

/-! Writing a double with the fewest digits that read back as the same double, never with an
exponent. -/
namespace ScopeChain.Decimal

/-- A value `num / den` and the two ends of the interval of numbers that round to it, over the
same denominator. -/
structure Interval where
  low : Nat
  num : Nat
  high : Nat
  den : Nat
  /-- Whether the ends themselves round to the value. -/
  closed : Bool
deriving DecidableEq, Repr

/-- The numbers that round to `mantissa * 2 ^ exponent`. Below a power of two the doubles lie
twice as close as above it. -/
def Interval.around (mantissa : Nat) (exponent : Int) : Interval :=
  let quarters : Int := exponent - 2
  let up := 1 <<< quarters.toNat
  let below := if mantissa = Binary64.leadingBit then 1 else 2
  { low := (4 * mantissa - below) * up
    num := 4 * mantissa * up
    high := (4 * mantissa + 2) * up
    den := 1 <<< (-quarters).toNat
    closed := mantissa % 2 = 0 }

/-- The interval with all its numbers divided by `10 ^ p`. -/
def Interval.scale (i : Interval) (p : Int) : Interval :=
  let up := Nat.pow 10 (-p).toNat
  { i with
    low := i.low * up
    num := i.num * up
    high := i.high * up
    den := i.den * Nat.pow 10 p.toNat }

/-- The whole number in the interval that is nearest to the value, the larger of two equally
near. Only the two neighbours of the value need to be tried. -/
def Interval.whole? (i : Interval) : Option Nat :=
  let n := i.num / i.den
  let down := i.low < n * i.den || (i.closed && i.low = n * i.den)
  let up := (n + 1) * i.den < i.high || (i.closed && (n + 1) * i.den = i.high)
  if up && (!down || i.den ≤ 2 * (i.num % i.den)) then some (n + 1)
  else if down then some n
  else none

/-- Looks for a point of the interval on the grids of the powers of ten from `10 ^ p` downward:
the first grid that has one gives the fewest digits. -/
def coarsest (i : Interval) : (fuel : Nat) → (p : Int) → Nat × Int
  | 0, p => (i.num * Nat.pow 10 (-p).toNat / (i.den * Nat.pow 10 p.toNat), p)
  | fuel + 1, p =>
    match (i.scale p).whole? with
    | some n => (n, p)
    | none => coarsest i fuel (p - 1)

/-- A power of ten above `mantissa * 2 ^ exponent`, found from its number of bits. -/
def gridAbove (mantissa : Nat) (exponent : Int) : Int :=
  ((mantissa.log2 : Int) + exponent + 1) * 30103 / 100000 + 2

/-- The digits and the power of ten of the shortest decimal that reads back. -/
def shortest (mantissa : Nat) (exponent : Int) : Nat × Int :=
  coarsest (.around mantissa exponent) 24 (gridAbove mantissa exponent)

/-- Writes `digits * 10 ^ p` in full. -/
def positional (digits : Nat) (p : Int) : String :=
  let ds := Nat.toDigits 10 digits
  if 0 ≤ p then String.ofList (ds ++ List.replicate p.toNat '0')
  else
    let places := (-p).toNat
    let padded := List.replicate (places + 1 - ds.length) '0' ++ ds
    let whole := padded.length - places
    String.ofList (padded.take whole ++ '.' :: padded.drop whole)

/-- How numbers are written: no sign on zero, and words for what is not finite. -/
def write (x : Float) : String :=
  match Binary64.exact x with
  | .nan => "NaN"
  | .infinite negative => if negative then "-Infinity" else "Infinity"
  | .finite negative m e =>
    if m = 0 then "0"
    else
      let (digits, p) := shortest m e
      (if negative then "-" else "") ++ positional digits p

end ScopeChain.Decimal
