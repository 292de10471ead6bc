import Mathlib.Data.List.Forall2
import Mathlib.Data.Nat.Digits.Defs
import Mathlib.Tactic.Ring
import ScopeChain.Text.Hexadecimal

/-! What numbers in base sixteen are read as: a text is read exactly if it consists of digits, in
either case, and then as the number that these are the digits of. -/
namespace ScopeChain.Text

/-- The digits of base sixteen with their values, in both cases. -/
def hexDigits : List (Char × Nat) :=
  "0123456789abcdef".toList.zipIdx ++ "ABCDEF".toList.zipIdx 10

theorem hexDigit?_eq_none {c : Char} (h : 128 ≤ c.toNat) : hexDigit? c = none := by
  have hlt (d : Char) (hd : d.toNat < 128) : ¬ c ≤ d := by
    rw [Char.le_def, UInt32.le_iff_toNat_le]
    exact Nat.not_le.2 (Nat.lt_of_lt_of_le hd h)
  have hdigit : c.isDigit = false := by
    rw [Bool.eq_false_iff]
    intro hdigit
    simp only [Char.isDigit, Bool.and_eq_true, decide_eq_true_eq] at hdigit
    exact hlt '9' (by decide) hdigit.2
  simp [hexDigit?, hdigit, hlt 'f' (by decide), hlt 'F' (by decide)]

theorem hexDigit?_eq_some_iff {c : Char} {d : Nat} :
    hexDigit? c = some d ↔ (c, d) ∈ hexDigits := by
  constructor
  · intro h
    have hlt : c.toNat < 128 := by
      refine Nat.lt_of_not_le fun hle => ?_
      rw [hexDigit?_eq_none hle] at h
      cases h
    have hall : ∀ n < 128, ∀ d ∈ hexDigit? (Char.ofNat n), (Char.ofNat n, d) ∈ hexDigits := by
      decide
    have hc := hall c.toNat hlt
    rw [Char.ofNat_toNat] at hc
    exact hc d h
  · have hall : ∀ p ∈ hexDigits, hexDigit? p.1 = some p.2 := by decide
    exact hall (c, d)

/-- A number in base sixteen, the highest digit first. -/
def DenotesHex (cs : List Char) (n : Nat) : Prop :=
  ∃ ds, List.Forall₂ (fun c d => (c, d) ∈ hexDigits) cs ds ∧ n = Nat.ofDigits 16 ds.reverse

theorem denotesHex_nil {n : Nat} : DenotesHex [] n ↔ n = 0 := by
  constructor
  · rintro ⟨_, ⟨⟩, rfl⟩
    rfl
  · rintro rfl
    exact ⟨[], .nil, rfl⟩

theorem denotesHex_cons {c : Char} {cs : List Char} {n : Nat} :
    DenotesHex (c :: cs) n ↔
      ∃ d k, (c, d) ∈ hexDigits ∧ DenotesHex cs k ∧ n = d * 16 ^ cs.length + k := by
  have hvalue (d : Nat) (ds : List Nat) : Nat.ofDigits 16 (d :: ds).reverse =
      d * 16 ^ ds.length + Nat.ofDigits 16 ds.reverse := by
    rw [List.reverse_cons, Nat.ofDigits_append, List.length_reverse, Nat.ofDigits_singleton]
    ring
  constructor
  · rintro ⟨_, hds, rfl⟩
    cases hds with
    | cons hd hds =>
      refine ⟨_, _, hd, ⟨_, hds, rfl⟩, ?_⟩
      rw [hvalue, hds.length_eq]
  · rintro ⟨d, _, hd, ⟨ds, hds, rfl⟩, rfl⟩
    refine ⟨d :: ds, .cons hd hds, ?_⟩
    rw [hvalue, hds.length_eq]

theorem hexFold_eq_some_iff {m n : Nat} {cs : List Char} :
    hexFold m cs = some n ↔ ∃ k, DenotesHex cs k ∧ n = m * 16 ^ cs.length + k := by
  induction cs generalizing m with
  | nil => simp [hexFold, denotesHex_nil, eq_comm]
  | cons c cs ih =>
    rw [hexFold, Option.bind_eq_some_iff]
    simp only [hexDigit?_eq_some_iff, ih, denotesHex_cons]
    constructor
    · rintro ⟨d, hd, k, hk, rfl⟩
      refine ⟨_, ⟨d, k, hd, hk, rfl⟩, ?_⟩
      rw [List.length_cons]
      ring
    · rintro ⟨_, ⟨d, k, hd, hk, rfl⟩, rfl⟩
      refine ⟨d, hd, k, hk, ?_⟩
      rw [List.length_cons]
      ring

theorem hexFold_zero_eq_some_iff {n : Nat} {cs : List Char} :
    hexFold 0 cs = some n ↔ DenotesHex cs n := by simp [hexFold_eq_some_iff]

/-- Digits denote one number. -/
theorem DenotesHex.unique {cs : List Char} {m n : Nat} (hm : DenotesHex cs m)
    (hn : DenotesHex cs n) : m = n :=
  Option.some.inj ((hexFold_zero_eq_some_iff.2 hm).symm.trans (hexFold_zero_eq_some_iff.2 hn))

theorem exists_denotesHex {cs : List Char} (h : ∀ c ∈ cs, isHexDigit c = true) :
    ∃ n, DenotesHex cs n := by
  induction cs with
  | nil => exact ⟨0, denotesHex_nil.2 rfl⟩
  | cons c cs ih =>
    obtain ⟨d, hd⟩ := Option.isSome_iff_exists.1 (h c List.mem_cons_self)
    obtain ⟨k, hk⟩ := ih fun c hc => h c (List.mem_cons_of_mem _ hc)
    exact ⟨_, denotesHex_cons.2 ⟨d, k, hexDigit?_eq_some_iff.1 hd, hk, rfl⟩⟩

theorem DenotesHex.isHexDigit {cs : List Char} {n : Nat} (h : DenotesHex cs n) :
    ∀ c ∈ cs, isHexDigit c = true := by
  intro c hc
  induction cs generalizing n with
  | nil => cases hc
  | cons b cs ih =>
    obtain ⟨d, k, hd, hk, -⟩ := denotesHex_cons.1 h
    rcases List.mem_cons.1 hc with rfl | hc
    · exact Option.isSome_iff_exists.2 ⟨d, hexDigit?_eq_some_iff.2 hd⟩
    · exact ih hk hc

theorem not_denotesHex_plus {cs : List Char} {n : Nat} : ¬ DenotesHex ('+' :: cs) n := by
  rw [denotesHex_cons]
  rintro ⟨d, -, hd, -⟩
  exact absurd (hexDigit?_eq_some_iff.2 hd) (by simp [show hexDigit? '+' = none by decide])

/-- A number is read if it has digits and is below the limit; a plus sign may stand before it. -/
theorem hexValue?_eq_some_iff {limit n : Nat} {cs : List Char} :
    hexValue? limit cs = some n ↔
      ∃ ds, (cs = ds ∨ cs = '+' :: ds) ∧ ds ≠ [] ∧ DenotesHex ds n ∧ n < limit := by
  have hread (ds : List Char) :
      (if ds = [] then none else (hexFold 0 ds).filter (· < limit)) = some n ↔
        ds ≠ [] ∧ DenotesHex ds n ∧ n < limit := by
    simp [Option.filter_eq_some_iff, hexFold_zero_eq_some_iff]
  unfold hexValue?
  split
  · next ds =>
    simp only [hread]
    constructor
    · exact fun h => ⟨ds, .inr rfl, h⟩
    · rintro ⟨_, rfl | heq, h⟩
      · exact (not_denotesHex_plus h.2.1).elim
      · rwa [(List.cons.inj heq).2]
  · next hplus =>
    simp only [hread]
    constructor
    · exact fun h => ⟨cs, .inl rfl, h⟩
    · rintro ⟨ds, rfl | heq, h⟩
      · exact h
      · exact (hplus ds heq).elim

end ScopeChain.Text
