import Mathlib
import ScopeChain.Decimal.Reading

/-! The double that a fraction is rounded to is the one nearest to it. -/
namespace ScopeChain.Binary64

/-- The number that a double stands for, if it is finite. -/
def value? (d : Float) : Option ℚ :=
  match exact d with
  | .finite negative m e => some ((if negative then -1 else 1) * (m * 2 ^ e))
  | _ => none

/-- Half a unit beyond the largest double. -/
def overflow : ℚ := (2 ^ 54 - 1) * 2 ^ (970 : Int)

/-- The double nearest to a number that is not negative: infinity from `overflow` on and below it
a finite one than which no other is nearer, with an even mantissa if another is as near. -/
inductive Nearest (x : ℚ) : Exact → Prop where
  | infinite : overflow ≤ x → Nearest x (.infinite false)
  | finite {m : Nat} {e : Int} : x < overflow →
    (∀ f v, value? f = some v → |x - m * 2 ^ e| ≤ |x - v| ∧
      (|x - m * 2 ^ e| = |x - v| → v = m * 2 ^ e ∨ m % 2 = 0)) →
    Nearest x (.finite false m e)

/-- So many units make a number up to half a unit, and are even if half a unit is missing. -/
structure Rounded (x u : ℚ) (m : Nat) : Prop where
  le : |x - m * u| ≤ u / 2
  even : |x - m * u| = u / 2 → m % 2 = 0

theorem rounded_roundDiv {num den : Nat} (hden : 0 < den) :
    Rounded (num / den) 1 (roundDiv num den) := by
  have hpos : (0 : ℚ) < den := by exact_mod_cast hden
  have hdiv : (num : ℚ) / den = (num / den : Nat) + (num % den : Nat) / den := by
    have h : (num : ℚ) = den * (num / den : Nat) + (num % den : Nat) := by
      exact_mod_cast (Nat.div_add_mod num den).symm
    conv => lhs; rw [h]
    field_simp
  have hle : ((num % den : Nat) : ℚ) / den ≤ 1 / 2 ↔ 2 * (num % den) ≤ den := by
    rw [div_le_div_iff₀ hpos two_pos, one_mul, mul_comm]
    exact_mod_cast Iff.rfl
  have hge : 1 / 2 ≤ ((num % den : Nat) : ℚ) / den ↔ den ≤ 2 * (num % den) := by
    rw [div_le_div_iff₀ two_pos hpos, one_mul, mul_comm]
    exact_mod_cast Iff.rfl
  have hnonneg : (0 : ℚ) ≤ (num % den : Nat) / den := by positivity
  have hlt : ((num % den : Nat) : ℚ) / den < 1 := by
    rw [div_lt_one hpos]
    exact_mod_cast Nat.mod_lt num hden
  unfold roundDiv
  dsimp only
  rw [hdiv]
  generalize ((num % den : Nat) : ℚ) / den = f at *
  split
  · next h =>
    have habs : |((num / den : Nat) : ℚ) + f - (num / den : Nat) * 1| = f := by
      rw [mul_one, add_sub_cancel_left, abs_of_nonneg hnonneg]
    refine ⟨?_, fun heq => ?_⟩
    · rw [habs]
      exact hle.2 (by omega)
    · rw [habs] at heq
      have := hge.1 heq.ge
      omega
  · next h =>
    have habs : |((num / den : Nat) : ℚ) + f - (num / den + 1 : Nat) * 1| = 1 - f := by
      push_cast
      rw [abs_of_nonpos (by linarith)]
      ring
    have hhalf : 1 / 2 ≤ f := hge.2 (by omega)
    refine ⟨?_, fun heq => ?_⟩
    · rw [habs]
      linarith
    · rw [habs] at heq
      have := hle.1 (by linarith)
      omega

/-- Rounding in units. -/
theorem Rounded.scale {x u : ℚ} {m : Nat} (h : Rounded x 1 m) (hu : 0 < u) :
    Rounded (x * u) u m := by
  have habs : |x * u - m * u| = |x - m * 1| * u := by
    rw [mul_one, ← sub_mul, abs_mul, abs_of_pos hu]
  refine ⟨?_, fun heq => h.even ?_⟩
  · rw [habs]
    have := mul_le_mul_of_nonneg_right h.le hu.le
    linarith
  · rw [habs] at heq
    refine mul_right_cancel₀ hu.ne' ?_
    rw [heq]
    ring

/-- What is not so many units itself is no nearer if it is some number of them. -/
theorem Rounded.nearest {x u : ℚ} {m : Nat} (h : Rounded x u m) (hu : 0 < u) {k : Int} :
    |x - m * u| ≤ |x - k * u| ∧ (|x - m * u| = |x - k * u| → (k : ℚ) * u = m * u ∨ m % 2 = 0) := by
  by_cases hk : k = m
  · subst hk
    exact ⟨le_rfl, fun _ => .inl (by push_cast; rfl)⟩
  · have hone : (1 : ℚ) ≤ |(k : ℚ) - m| := by
      exact_mod_cast Int.one_le_abs (sub_ne_zero.2 hk)
    have hunit : u ≤ |x - m * u| + |x - k * u| := by
      calc u ≤ |(k : ℚ) - m| * u := le_mul_of_one_le_left hu.le hone
        _ = |(x - m * u) - (x - k * u)| := by
          rw [← abs_of_pos hu, ← abs_mul, abs_of_pos hu]
          congr 1
          ring
        _ ≤ |x - m * u| + |x - k * u| := abs_sub _ _
    have hle := h.le
    refine ⟨by linarith, fun heq => .inr (h.even ?_)⟩
    linarith

theorem Rounded.le_of_mul_le {x u : ℚ} {m n : Nat} (h : Rounded x u m) (hu : 0 < u)
    (hn : n * u ≤ x) : n ≤ m := by
  refine Nat.le_of_not_lt fun hlt => ?_
  have hsucc : ((m : ℚ) + 1) * u ≤ n * u :=
    mul_le_mul_of_nonneg_right (by exact_mod_cast hlt) hu.le
  have := (abs_le.1 h.le).2
  linarith

theorem Rounded.le_of_lt_mul {x u : ℚ} {m n : Nat} (h : Rounded x u m) (hu : 0 < u)
    (hn : x < n * u) : m ≤ n := by
  refine Nat.le_of_not_lt fun hlt => ?_
  have hsucc : ((n : ℚ) + 1) * u ≤ m * u :=
    mul_le_mul_of_nonneg_right (by exact_mod_cast hlt) hu.le
  have := (abs_le.1 h.le).1
  linarith

theorem two_zpow_eq {m n k : Int} (h : m = n + k) : (2 : ℚ) ^ m = 2 ^ n * 2 ^ k := by
  rw [h, zpow_add₀ two_ne_zero]

theorem overflow_le_two_pow : overflow ≤ 2 ^ (1024 : Int) := by
  calc overflow ≤ 2 ^ (54 : Int) * 2 ^ (970 : Int) := by
        unfold overflow
        gcongr
        norm_num
    _ = 2 ^ (1024 : Int) := (two_zpow_eq rfl).symm

/-- A fraction in units of `2 ^ e`, as it is worked out without fractions of bits. -/
theorem exists_scaled (f : Nat → Nat → Nat) (num : Nat) {den : Nat} (hden : 0 < den) (e : Int) :
    ∃ a b : Nat, 0 < b ∧ (num : ℚ) / den = a / b * 2 ^ e ∧
      (if e < 0 then f (num <<< (-e).toNat) den else f num (den <<< e.toNat)) = f a b := by
  have hpos : (0 : ℚ) < den := by exact_mod_cast hden
  split
  · next h =>
    obtain ⟨n, rfl⟩ : ∃ n : Nat, e = -n := ⟨(-e).toNat, by omega⟩
    refine ⟨_, den, hden, ?_, rfl⟩
    rw [neg_neg, Int.toNat_natCast, Nat.shiftLeft_eq, zpow_neg, zpow_natCast]
    push_cast
    field_simp
  · next h =>
    obtain ⟨n, rfl⟩ : ∃ n : Nat, e = n := ⟨e.toNat, by omega⟩
    refine ⟨num, _, ?_, ?_, rfl⟩
    · rw [Nat.shiftLeft_eq]
      positivity
    · rw [Int.toNat_natCast, Nat.shiftLeft_eq, zpow_natCast]
      push_cast
      field_simp

/-- The powers of two around a quotient. -/
theorem log2_div_bounds {num den : Nat} (hnum : num ≠ 0) (hden : den ≠ 0) :
    (2 : ℚ) ^ ((num.log2 : Int) - den.log2 - 1) < num / den ∧
      (num : ℚ) / den < 2 ^ ((num.log2 : Int) - den.log2 + 1) := by
  have hbounds {n : Nat} (hn : n ≠ 0) :
      (2 : ℚ) ^ (n.log2 : Int) ≤ n ∧ (n : ℚ) < 2 ^ ((n.log2 : Int) + 1) := by
    constructor
    · exact_mod_cast Nat.log2_self_le hn
    · exact_mod_cast @Nat.lt_log2_self n
  have hpos : (0 : ℚ) < den := by exact_mod_cast Nat.pos_of_ne_zero hden
  obtain ⟨hnumle, hnumlt⟩ := hbounds hnum
  obtain ⟨hdenle, hdenlt⟩ := hbounds hden
  constructor
  · rw [lt_div_iff₀ hpos]
    calc (2 : ℚ) ^ ((num.log2 : Int) - den.log2 - 1) * den
        < 2 ^ ((num.log2 : Int) - den.log2 - 1) * 2 ^ ((den.log2 : Int) + 1) := by gcongr
      _ = 2 ^ (num.log2 : Int) := (two_zpow_eq (by omega)).symm
      _ ≤ num := hnumle
  · rw [div_lt_iff₀ hpos]
    calc (num : ℚ) < 2 ^ ((num.log2 : Int) + 1) := hnumlt
      _ = 2 ^ ((num.log2 : Int) - den.log2 + 1) * 2 ^ (den.log2 : Int) :=
        two_zpow_eq (by omega)
      _ ≤ 2 ^ ((num.log2 : Int) - den.log2 + 1) * den := by gcongr

/-- In the unit, a number has all the bits that a double has, but not more. -/
structure Fits (x : ℚ) (e : Int) : Prop where
  le : -1074 ≤ e
  lt : x < 2 ^ (53 : Int) * 2 ^ e
  full : e = -1074 ∨ 2 ^ (52 : Int) * 2 ^ e ≤ x

theorem fits_max {x : ℚ} {e : Int} (hle : 2 ^ (52 : Int) * 2 ^ e ≤ x)
    (hlt : x < 2 ^ (53 : Int) * 2 ^ e) : Fits x (max (-1074) e) := by
  rcases le_total (-1074) e with h | h
  · rw [max_eq_right h]
    exact ⟨h, hlt, .inr hle⟩
  · rw [max_eq_left h]
    refine ⟨le_rfl, hlt.trans_le ?_, .inl rfl⟩
    gcongr
    exact one_le_two

theorem fits_unitExponent {num den : Nat} (hnum : num ≠ 0) (hden : den ≠ 0) :
    Fits (num / den) (unitExponent num den) := by
  obtain ⟨hlow, hhigh⟩ := log2_div_bounds hnum hden
  unfold unitExponent
  dsimp only
  generalize hguess : (num.log2 : Int) - den.log2 - 52 = guess
  obtain ⟨a, b, hb, hx, hscaled⟩ := exists_scaled (· / ·) num (Nat.pos_of_ne_zero hden) guess
  rw [hscaled]
  have hfull : a / b < leadingBit ↔ (num : ℚ) / den < 2 ^ (52 : Int) * 2 ^ guess := by
    have hbpos : (0 : ℚ) < b := by exact_mod_cast hb
    rw [hx, mul_lt_mul_iff_left₀ (by positivity), div_lt_iff₀ hbpos, Nat.div_lt_iff_lt_mul hb]
    exact_mod_cast Iff.rfl
  split
  · next h =>
    rw [hfull, ← two_zpow_eq rfl] at h
    refine fits_max ?_ ?_
    · rw [← two_zpow_eq (by omega : (num.log2 : Int) - den.log2 - 1 = 52 + (guess - 1))]
      exact hlow.le
    · rwa [← two_zpow_eq (by omega : 52 + guess = 53 + (guess - 1))]
  · next h =>
    rw [hfull, not_lt] at h
    refine fits_max h ?_
    rwa [← two_zpow_eq (by omega : (num.log2 : Int) - den.log2 + 1 = 53 + guess)]

theorem exists_of_value? {d : Float} {v : ℚ} (h : value? d = some v) :
    ∃ (k : Int) (e : Int), v = k * 2 ^ e ∧ k < 2 ^ 53 ∧ -1074 ≤ e := by
  have hsigned (negative : Bool) {m : Nat} (e : Int) (hm : m < 2 ^ 53) (he : -1074 ≤ e)
      (hexact : exact d = .finite negative m e) :
      ∃ (k : Int) (e : Int), v = k * 2 ^ e ∧ k < 2 ^ 53 ∧ -1074 ≤ e := by
    rw [value?, hexact] at h
    obtain rfl := Option.some.inj h
    cases negative with
    | false => exact ⟨m, e, by simp, by exact_mod_cast hm, he⟩
    | true => exact ⟨-m, e, by simp, by omega, he⟩
  have hfraction : d.toBits.toNat % leadingBit < 2 ^ 52 := Nat.mod_lt _ (by decide)
  have hleading : leadingBit = 2 ^ 52 := rfl
  cases hexact : exact d with
  | nan => simp [value?, hexact] at h
  | infinite => simp [value?, hexact] at h
  | finite negative m e =>
    refine hsigned negative e ?_ ?_ hexact
    all_goals
      unfold exact at hexact
      dsimp only at hexact
      split at hexact
      · split at hexact <;> cases hexact
      · split at hexact
        · cases hexact
          omega
        · cases hexact
          omega

/-- No double is nearer to a number than what it is rounded to in the unit that it fits. -/
theorem Fits.nearest {x v : ℚ} {e e' : Int} {m : Nat} {k : Int} (h : Fits x e)
    (hrounded : Rounded x (2 ^ e) m) (hv : v = k * 2 ^ e') (hk : k < 2 ^ 53) (he' : -1074 ≤ e') :
    |x - m * 2 ^ e| ≤ |x - v| ∧ (|x - m * 2 ^ e| = |x - v| → v = m * 2 ^ e ∨ m % 2 = 0) := by
  have hunit : (0 : ℚ) < 2 ^ e := by positivity
  rcases le_or_gt e e' with hle | hlt
  · obtain ⟨n, rfl⟩ := Int.le.dest hle
    have hmultiple : v = (k * 2 ^ n : Int) * 2 ^ e := by
      rw [hv, zpow_add₀ two_ne_zero, zpow_natCast]
      push_cast
      ring
    rw [hmultiple]
    exact hrounded.nearest hunit
  · have hx : (2 : ℚ) ^ (52 : Int) * 2 ^ e ≤ x := h.full.resolve_left (by omega)
    -- the smallest number with all bits in this unit lies between the two
    have hbetween : v < 2 ^ (52 : Int) * 2 ^ e := by
      calc v = k * 2 ^ e' := hv
        _ < 2 ^ (53 : Int) * 2 ^ e' := by
          gcongr
          exact_mod_cast hk
        _ ≤ 2 ^ (53 : Int) * 2 ^ (e - 1) := by
          gcongr
          · exact one_le_two
          · omega
        _ = 2 ^ (52 : Int) * 2 ^ e := by
          rw [zpow_sub_one₀ two_ne_zero]
          ring
    have hfarther : |x - m * 2 ^ e| < |x - v| := by
      calc |x - m * 2 ^ e| ≤ |x - (2 ^ 52 : Int) * 2 ^ e| := (hrounded.nearest hunit).1
        _ = x - 2 ^ (52 : Int) * 2 ^ e := by
          rw [abs_of_nonneg]
          · norm_num
          · push_cast
            exact sub_nonneg.2 hx
        _ < x - v := by linarith
        _ ≤ |x - v| := le_abs_self _
    exact ⟨hfarther.le, fun heq => absurd heq hfarther.ne⟩

theorem Fits.mantissa_le {x : ℚ} {e : Int} {m : Nat} (h : Fits x e)
    (hrounded : Rounded x (2 ^ e) m) :
    m ≤ 2 ^ 53 := by
  refine hrounded.le_of_lt_mul (by positivity) ?_
  exact_mod_cast h.lt

theorem Fits.le_mantissa {x : ℚ} {e : Int} {m : Nat} (h : Fits x e) (hrounded : Rounded x (2 ^ e) m)
    (he : e ≠ -1074) : 2 ^ 52 ≤ m := by
  refine hrounded.le_of_mul_le (by positivity) ?_
  exact_mod_cast h.full.resolve_left he

/-- In the unit of the largest double, just the numbers from `overflow` on are rounded beyond it. -/
theorem Rounded.overflow_le_iff {x : ℚ} {m : Nat} (h : Rounded x (2 ^ (971 : Int)) m) :
    overflow ≤ x ↔ 2 ^ 53 ≤ m := by
  have hunit : (2 : ℚ) ^ (971 : Int) = 2 ^ (970 : Int) * 2 := zpow_add_one₀ two_ne_zero 970
  have hpos : (0 : ℚ) < 2 ^ (970 : Int) := by positivity
  obtain ⟨habs, heven⟩ := h
  rw [overflow]
  rw [hunit] at habs heven
  clear hunit
  generalize (2 : ℚ) ^ (970 : Int) = half at *
  obtain ⟨hlow, hhigh⟩ := abs_le.1 habs
  constructor
  · intro hx
    refine Nat.le_of_not_lt fun hlt => ?_
    -- only halfway from the largest double is in question, and that is odd
    have hm : 2 ^ 53 - 1 ≤ m := by
      have hodd : (2 ^ 54 - 1 : ℚ) ≤ 2 * m + 1 := by
        refine le_of_mul_le_mul_right ?_ hpos
        linarith
      have hint : (2 ^ 54 - 1 : Int) ≤ 2 * m + 1 := by exact_mod_cast hodd
      omega
    obtain rfl := Nat.le_antisymm (by omega : m ≤ 2 ^ 53 - 1) hm
    refine absurd (heven ?_) (by decide)
    have hcast : ((2 ^ 53 - 1 : Nat) : ℚ) = 2 ^ 53 - 1 := by norm_num
    rw [hcast] at hhigh ⊢
    rw [abs_of_nonneg (by linarith)]
    linarith
  · intro hm
    have hle : (2 ^ 53 : ℚ) ≤ m := by exact_mod_cast hm
    have := mul_le_mul_of_nonneg_right hle (by positivity : 0 ≤ half * 2)
    linarith

/-- The bits are those of infinity exactly from `overflow` on. -/
theorem Fits.overflow_le_iff {x : ℚ} {e : Int} {m : Nat} (h : Fits x e)
    (hrounded : Rounded x (2 ^ e) m) :
    overflow ≤ x ↔ infinityBits ≤ (e + 1074).toNat * leadingBit + m := by
  have hle := h.mantissa_le hrounded
  have hfull := h.le_mantissa hrounded
  have hmin := h.le
  simp only [infinityBits, leadingBit]
  rcases lt_trichotomy e 971 with hlt | rfl | hgt
  · have hsmall : x < overflow := by
      calc x < 2 ^ (53 : Int) * 2 ^ e := h.lt
        _ ≤ 2 ^ (53 : Int) * 2 ^ (970 : Int) := by
          gcongr
          · exact one_le_two
          · omega
        _ ≤ overflow := by
          unfold overflow
          gcongr
          norm_num
    exact iff_of_false hsmall.not_ge (by omega)
  · rw [hrounded.overflow_le_iff]
    omega
  · have hlarge : overflow ≤ x := by
      calc overflow ≤ 2 ^ (1024 : Int) := overflow_le_two_pow
        _ = 2 ^ (52 : Int) * 2 ^ (972 : Int) := two_zpow_eq rfl
        _ ≤ 2 ^ (52 : Int) * 2 ^ e := by
          gcongr
          · exact one_le_two
          · omega
        _ ≤ x := h.full.resolve_left (by omega)
    exact iff_of_true hlarge (by omega)

section

open Float.Model Float.Model.UnpackedFloat

/-- Bits that are not those of no number are kept. -/
theorem toBits_ofBits {b : UInt64} (h : @isNaNBits Format.binary64 b.toBitVec = false) :
    (Float.ofBits b).toBits = b := by
  refine UInt64.toBitVec_inj.1 ?_
  change (unpack Format.binary64 b.toBitVec).pack Format.binary64 = b.toBitVec
  rw [pack_unpack, h]
  rfl

/-- Up to those of infinity, bits are those of a number, whatever the sign before them. -/
theorem isNaNBits_eq_false (negative : Bool) {bits : Nat} (h : bits ≤ infinityBits) :
    @isNaNBits Format.binary64
      (UInt64.ofNat (bits + if negative then signBit else 0)).toBitVec = false := by
  have hmod : (bits + if negative then signBit else 0) % 9223372036854775808 = bits := by
    have hlt : bits < 9223372036854775808 := Nat.lt_of_le_of_lt h (by decide)
    rw [show signBit = 9223372036854775808 from rfl]
    split <;> omega
  generalize (bits + if negative then signBit else 0) = signed at hmod
  simp only [infinityBits, leadingBit] at h
  unfold isNaNBits
  rw [decide_eq_false_iff_not, unpackExponent_def, unpackMantissa_def]
  rintro ⟨hexponent, hmantissa⟩
  have hfraction : ¬ signed % 2 ^ 52 = 0 := by
    intro hzero
    refine hmantissa (BitVec.eq_of_toNat_eq ?_)
    simpa [BitVec.extractLsb'_toNat] using hzero
  have hones := congrArg BitVec.toNat hexponent
  simp [BitVec.extractLsb'_toNat, Nat.shiftRight_eq_div_pow] at hones
  omega

theorem isNaN_ofBits {b : UInt64} (h : @isNaNBits Format.binary64 b.toBitVec = false) :
    (Float.ofBits b).isNaN = false := by
  change (UnpackedFloat.unpack Format.binary64 (Float.ofBits b).toBits.toBitVec).isNaN = false
  rw [toBits_ofBits h]
  rw [isNaNBits, decide_eq_false_iff_not] at h
  unfold UnpackedFloat.unpack
  dsimp only
  split
  · next hexponent =>
    rw [if_pos (by_contra fun hmantissa => h ⟨hexponent, hmantissa⟩)]
    rfl
  · split
    · split
      · rfl
      · rfl
    · rfl

end

theorem toNat_toBits_ofMagnitude {bits : Nat} (h : bits ≤ infinityBits) :
    (ofMagnitude false bits).toBits.toNat = bits := by
  have hlt : bits < 2 ^ 64 := Nat.lt_of_le_of_lt h (by decide)
  rw [ofMagnitude, toBits_ofBits (isNaNBits_eq_false false h), if_neg Bool.false_ne_true,
    Nat.add_zero]
  exact UInt64.toNat_ofNat_of_lt' hlt

theorem isNaN_ofMagnitude (negative : Bool) {bits : Nat} (h : bits ≤ infinityBits) :
    (ofMagnitude negative bits).isNaN = false :=
  isNaN_ofBits (isNaNBits_eq_false negative h)

theorem isNaN_nan : nan.isNaN = true := by decide +kernel

theorem exact_infinity : exact (ofMagnitude false infinityBits) = .infinite false := by
  unfold exact
  rw [toNat_toBits_ofMagnitude le_rfl]
  decide

theorem exact_nan : exact nan = .nan := by decide +kernel

theorem exact_ofMagnitude {bits : Nat} (h : bits < infinityBits) :
    exact (ofMagnitude false bits) =
      if bits < leadingBit then .finite false bits (-1074)
      else .finite false (leadingBit + bits % leadingBit)
        (((bits / leadingBit : Nat) : Int) - 1075) := by
  have hzero : bits / leadingBit = 0 ↔ bits < leadingBit := Nat.div_eq_zero_iff_lt (by decide)
  have hbiased : bits / leadingBit < 2047 := Nat.div_lt_of_lt_mul (by rwa [mul_comm])
  have hsign : ¬ signBit ≤ bits := by
    simp only [infinityBits, leadingBit] at h
    simp only [signBit]
    omega
  unfold exact
  dsimp only
  rw [toNat_toBits_ofMagnitude h.le, Nat.mod_eq_of_lt (by omega : bits / leadingBit < 2048),
    if_neg (by omega), decide_eq_false hsign]
  simp only [hzero]
  split
  · next hlt => rw [Nat.mod_eq_of_lt hlt]
  · rfl

/-- What a number is rounded to in the unit that it fits has the value of a double. -/
theorem Fits.exists_exact {x : ℚ} {e : Int} {m : Nat} (h : Fits x e)
    (hrounded : Rounded x (2 ^ e) m)
    (hlt : (e + 1074).toNat * leadingBit + m < infinityBits) :
    ∃ (n : Nat) (k : Int),
      exact (ofMagnitude false ((e + 1074).toNat * leadingBit + m)) = .finite false n k ∧
        (n : ℚ) * 2 ^ k = m * 2 ^ e ∧ (m % 2 = 0 → n % 2 = 0) := by
  have hmin := h.le
  have hle := h.mantissa_le hrounded
  have hfull := h.le_mantissa hrounded
  have hleading : leadingBit = 2 ^ 52 := rfl
  rw [exact_ofMagnitude hlt]
  split
  · next hsub =>
    obtain rfl : e = -1074 := by omega
    exact ⟨_, _, rfl, by simp, by simp⟩
  · next hnormal =>
    rw [hleading] at hnormal ⊢
    rcases hle.lt_or_eq with hm | rfl
    · have hmantissa : 2 ^ 52 + ((e + 1074).toNat * 2 ^ 52 + m) % 2 ^ 52 = m := by omega
      have hexponent : ((((e + 1074).toNat * 2 ^ 52 + m) / 2 ^ 52 : Nat) : Int) - 1075 = e := by
        omega
      rw [hmantissa, hexponent]
      exact ⟨m, e, rfl, rfl, id⟩
    · have hmantissa : 2 ^ 52 + ((e + 1074).toNat * 2 ^ 52 + 2 ^ 53) % 2 ^ 52 = 2 ^ 52 := by
        omega
      have hexponent : ((((e + 1074).toNat * 2 ^ 52 + 2 ^ 53) / 2 ^ 52 : Nat) : Int) - 1075 =
          e + 1 := by omega
      rw [hmantissa, hexponent]
      refine ⟨_, _, rfl, ?_, fun _ => by norm_num⟩
      rw [zpow_add_one₀ two_ne_zero]
      push_cast
      ring

/-- Rounded in the unit that it fits, a number gives the bits of the double nearest to it. -/
theorem Fits.nearest_ofMagnitude {x : ℚ} {e : Int} {m : Nat} (h : Fits x e)
    (hrounded : Rounded x (2 ^ e) m) :
    Nearest x (exact (ofMagnitude false
      (min infinityBits ((e + 1074).toNat * leadingBit + m)))) := by
  rcases Nat.lt_or_ge ((e + 1074).toNat * leadingBit + m) infinityBits with hlt | hge
  · obtain ⟨n, k, hexact, hvalue, heven⟩ := h.exists_exact hrounded hlt
    rw [min_eq_right hlt.le, hexact]
    have hx : x < overflow := by
      rw [← not_le, h.overflow_le_iff hrounded]
      exact hlt.not_ge
    refine .finite hx fun f v hf => ?_
    obtain ⟨j, e', hv, hj, he'⟩ := exists_of_value? hf
    rw [hvalue]
    obtain ⟨hle, htie⟩ := h.nearest hrounded hv hj he'
    exact ⟨hle, fun heq => (htie heq).imp_right heven⟩
  · rw [min_eq_left hge, exact_infinity]
    exact .infinite ((h.overflow_le_iff hrounded).2 hge)

/-- Up to half of the smallest double all numbers are nearest to zero. -/
theorem nearest_zero {x : ℚ} (hnonneg : 0 ≤ x) (hx : x ≤ 2 ^ (-1075 : Int)) :
    Nearest x (exact (ofMagnitude false 0)) := by
  have hunit : (2 : ℚ) ^ (-1074 : Int) = 2 ^ (-1075 : Int) * 2 := zpow_add_one₀ two_ne_zero (-1075)
  have hpos : (0 : ℚ) < 2 ^ (-1075 : Int) := by positivity
  have hfits : Fits x (-1074) := by
    refine ⟨le_rfl, ?_, .inl rfl⟩
    rw [hunit]
    linarith
  have hrounded : Rounded x (2 ^ (-1074 : Int)) 0 := by
    refine ⟨?_, fun _ => rfl⟩
    rw [Nat.cast_zero, zero_mul, sub_zero, abs_of_nonneg hnonneg, hunit]
    linarith
  have hbits : min infinityBits (((-1074 : Int) + 1074).toNat * leadingBit + 0) = 0 := by
    rw [Int.add_left_neg, Int.toNat_zero, Nat.zero_mul, Nat.zero_add, Nat.min_zero]
  have hnearest := hfits.nearest_ofMagnitude hrounded
  rwa [hbits] at hnearest

theorem nearest_ofRatio (num : Nat) {den : Nat} (hden : 0 < den) :
    Nearest (num / den) (exact (ofRatio false num den)) := by
  rw [ofRatio, bitsOfRatio]
  split
  · next hzero =>
    rw [hzero, Nat.cast_zero, zero_div]
    exact nearest_zero le_rfl (by positivity)
  · next hnum =>
    have hfits := fits_unitExponent hnum hden.ne'
    obtain ⟨a, b, hb, hx, hscaled⟩ := exists_scaled roundDiv num hden (unitExponent num den)
    have hrounded := (@rounded_roundDiv a b hb).scale
      (by positivity : (0 : ℚ) < 2 ^ unitExponent num den)
    rw [← hx, ← hscaled] at hrounded
    exact hfits.nearest_ofMagnitude hrounded

/-- A whole number is taken for the double nearest to it. -/
theorem nearest_ofNat (n : Nat) : Nearest n (exact (ofNat n)) := by
  have hnearest := nearest_ofRatio n Nat.one_pos
  rwa [Nat.cast_one, div_one] at hnearest

end ScopeChain.Binary64

namespace ScopeChain.Decimal

open Binary64

/-- The number that a decimal stands for, but for its sign. -/
def magnitude (d : Decimal) : ℚ := d.digits * 10 ^ d.exponent

/-- Below the range of doubles the bits of the digits tell it, since ten is more than eight. -/
theorem magnitude_le {d : Decimal} (h : (d.digits.log2 : Int) + 1 + 3 * d.exponent < -1200) :
    d.magnitude ≤ 2 ^ (-1075 : Int) := by
  obtain ⟨n, hn⟩ : ∃ n : Nat, d.exponent = -n := ⟨(-d.exponent).toNat, by omega⟩
  have hdigits : (d.digits : ℚ) ≤ 2 ^ ((d.digits.log2 : Int) + 1) := by
    exact_mod_cast (@Nat.lt_log2_self d.digits).le
  have hten : (10 : ℚ) ^ (-n : Int) ≤ 2 ^ (3 * (-n) : Int) := by
    rw [zpow_mul, zpow_neg, zpow_neg, zpow_natCast, zpow_natCast]
    gcongr
    norm_num
  rw [hn] at h
  calc d.magnitude = d.digits * 10 ^ (-n : Int) := by rw [magnitude, hn]
    _ ≤ 2 ^ ((d.digits.log2 : Int) + 1) * 2 ^ (3 * (-n) : Int) := by gcongr
    _ = 2 ^ ((d.digits.log2 : Int) + 1 + 3 * (-n)) := (two_zpow_eq rfl).symm
    _ ≤ 2 ^ (-1075 : Int) := zpow_le_zpow_right₀ one_le_two (by omega)

/-- Beyond the range of doubles the bits of the digits tell it, since ten is more than eight and
its third power less than the tenth of two. -/
theorem le_magnitude {d : Decimal} (hdigits : d.digits ≠ 0)
    (h : 4000 < 3 * (d.digits.log2 : Int) + 10 * d.exponent) :
    2 ^ (1024 : Int) ≤ d.magnitude := by
  have hlog : 2 ^ d.digits.log2 ≤ d.digits := Nat.log2_self_le hdigits
  rcases le_or_gt 0 d.exponent with hpos | hneg
  · obtain ⟨n, hn⟩ : ∃ n : Nat, d.exponent = n := ⟨d.exponent.toNat, by omega⟩
    rw [hn] at h
    have hten : (2 : ℚ) ^ (3 * n : Int) ≤ 10 ^ (n : Int) := by
      rw [zpow_mul, zpow_natCast, zpow_natCast]
      gcongr
      norm_num
    calc (2 : ℚ) ^ (1024 : Int) ≤ 2 ^ ((d.digits.log2 : Int) + 3 * n) :=
          zpow_le_zpow_right₀ one_le_two (by omega)
      _ = 2 ^ (d.digits.log2 : Int) * 2 ^ (3 * n : Int) := two_zpow_eq rfl
      _ ≤ d.digits * 10 ^ (n : Int) := by
        gcongr
        exact_mod_cast hlog
      _ = d.magnitude := by rw [magnitude, hn]
  · obtain ⟨n, hn⟩ : ∃ n : Nat, d.exponent = -n := ⟨(-d.exponent).toNat, by omega⟩
    rw [hn] at h
    have hcube : (2 ^ 1024 * 10 ^ n) ^ 3 ≤ (2 ^ d.digits.log2) ^ 3 := by
      calc (2 ^ 1024 * 10 ^ n) ^ 3 = 2 ^ (1024 * 3) * (10 ^ 3) ^ n := by
            rw [mul_pow, ← pow_mul, pow_right_comm]
        _ ≤ 2 ^ (1024 * 3) * (2 ^ 10) ^ n :=
          Nat.mul_le_mul_left _ (Nat.pow_le_pow_left (by decide) n)
        _ = 2 ^ (1024 * 3 + 10 * n) := by rw [pow_add, pow_mul 2 10]
        _ ≤ 2 ^ (d.digits.log2 * 3) := Nat.pow_le_pow_right two_pos (by omega)
        _ = (2 ^ d.digits.log2) ^ 3 := pow_mul _ _ _
    have hnat : 2 ^ 1024 * 10 ^ n ≤ d.digits :=
      ((Nat.pow_le_pow_iff_left three_ne_zero).1 hcube).trans hlog
    rw [magnitude, hn, zpow_neg, ← div_eq_mul_inv, le_div_iff₀ (by positivity)]
    exact_mod_cast hnat

/-- A decimal is taken for the double nearest to it. -/
theorem nearest_toFloat {d : Decimal} (h : d.negative = false) :
    Nearest d.magnitude (exact d.toFloat) := by
  have hnonneg : 0 ≤ d.magnitude := by
    unfold magnitude
    positivity
  unfold toFloat
  dsimp only
  rw [h]
  split
  · next hsmall =>
    have hle : d.magnitude ≤ 2 ^ (-1075 : Int) := by
      obtain hzero | hsmall := hsmall
      · rw [magnitude, hzero, Nat.cast_zero, zero_mul]
        positivity
      · exact magnitude_le hsmall
    exact nearest_zero hnonneg hle
  · next hsmall =>
    split
    · next hlarge =>
      rw [infinity, exact_infinity]
      exact .infinite (overflow_le_two_pow.trans
        (le_magnitude (fun hzero => hsmall (.inl hzero)) hlarge))
    · split
      · next hneg =>
        obtain ⟨n, hn⟩ : ∃ n : Nat, d.exponent = -n := ⟨(-d.exponent).toNat, by omega⟩
        have hnearest := nearest_ofRatio d.digits (Nat.pow_pos (n := n) (by decide : 0 < 10))
        rw [hn, neg_neg, Int.toNat_natCast, magnitude, hn, zpow_neg, zpow_natCast,
          ← div_eq_mul_inv]
        exact_mod_cast hnearest
      · next hpos =>
        obtain ⟨n, hn⟩ : ∃ n : Nat, d.exponent = n := ⟨d.exponent.toNat, by omega⟩
        have hnearest := nearest_ofRatio (d.digits * 10 ^ n) Nat.one_pos
        rw [Nat.cast_one, div_one] at hnearest
        rw [hn, Int.toNat_natCast, magnitude, hn, zpow_natCast]
        exact_mod_cast hnearest

end ScopeChain.Decimal
