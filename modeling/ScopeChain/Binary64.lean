/-! Double-precision numbers as exact values: taking them apart, rounding a quotient to the
nearest of them, and the remainder of a division. -/
namespace ScopeChain.Binary64

/-- The exact value of a double: `mantissa * 2 ^ exponent`, negated if `negative`. -/
inductive Exact where
  | nan
  | infinite (negative : Bool)
  | finite (negative : Bool) (mantissa : Nat) (exponent : Int)
deriving DecidableEq, Repr

/-- The bit above the 52 of the fraction, set in the mantissa of a normal double. -/
def leadingBit : Nat := 1 <<< 52

def signBit : Nat := 1 <<< 63

def exact (x : Float) : Exact :=
  let bits := x.toBits.toNat
  let negative := signBit ≤ bits
  let biased : Nat := bits / leadingBit % 2048
  let fraction : Nat := bits % leadingBit
  if biased = 2047 then (if fraction = 0 then .infinite negative else .nan)
  else if biased = 0 then .finite negative fraction (-1074)
  else .finite negative (leadingBit + fraction) ((biased : Int) - 1075)

def infinityBits : Nat := 2047 * leadingBit

/-- The quotient rounded to the nearest natural number, a half to the even neighbour. -/
def roundDiv (num den : Nat) : Nat :=
  let q := num / den
  let r := num % den
  if 2 * r < den ∨ (2 * r = den ∧ q % 2 = 0) then q else q + 1

/-- The exponent of the last bit that a double near `num / den` keeps. -/
def unitExponent (num den : Nat) : Int :=
  let guess : Int := (num.log2 : Int) - den.log2 - 52
  let scaled :=
    if guess < 0 then (num <<< (-guess).toNat) / den else num / (den <<< guess.toNat)
  max (-1074) (if scaled < leadingBit then guess - 1 else guess)

/-- The bits of the double nearest to `num / den`, infinity beyond the largest. A mantissa that
rounds up to the next power of two carries into the exponent, where it belongs. -/
def bitsOfRatio (num den : Nat) : Nat :=
  if num = 0 then 0
  else
    let e := unitExponent num den
    let m := if e < 0 then roundDiv (num <<< (-e).toNat) den
      else roundDiv num (den <<< e.toNat)
    min infinityBits ((e + 1074).toNat * leadingBit + m)

def ofMagnitude (negative : Bool) (bits : Nat) : Float :=
  .ofBits (UInt64.ofNat (bits + if negative then signBit else 0))

/-- The double nearest to a fraction. -/
def ofRatio (negative : Bool) (num den : Nat) : Float :=
  ofMagnitude negative (bitsOfRatio num den)

def ofNat (n : Nat) : Float := ofRatio false n 1

def nan : Float := .ofBits 0x7ff8000000000000

def infinity (negative : Bool) : Float := ofMagnitude negative infinityBits

/-- The remainder of the division of `m * 2 ^ e` by the nonzero `n * 2 ^ f`, rounded toward zero;
it is exact, since it has no more bits than one of the two. -/
def remainderOf (negative : Bool) (m : Nat) (e : Int) (n : Nat) (f : Int) : Float :=
  let unit := min e f
  let r := (m <<< (e - unit).toNat) % (n <<< (f - unit).toNat)
  if unit < 0 then ofRatio negative r (1 <<< (-unit).toNat)
  else ofRatio negative (r <<< unit.toNat) 1

/-- What is left of `x` after taking away a whole multiple of `y`, with the sign of `x`. -/
def remainder (x y : Float) : Float :=
  match exact x, exact y with
  | .nan, _ | _, .nan | .infinite _, _ => nan
  | .finite .., .infinite _ => x
  | .finite negative m e, .finite _ n f => if n = 0 then nan else remainderOf negative m e n f

end ScopeChain.Binary64
