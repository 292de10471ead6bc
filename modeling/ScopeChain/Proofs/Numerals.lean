import ScopeChain.Numeral
import ScopeChain.Proofs.Hexadecimal
import ScopeChain.Proofs.Rounding
import ScopeChain.Proofs.Spellings

/-! What numeric literals stand for: the double nearest to the number that their text denotes,
unless that is in base sixteen and has no digits or too many. -/
namespace ScopeChain.Numeral

/-- The parts that a number in base ten is written with. -/
structure Form where
  whole : List Char
  fraction : List Char
  negative : Bool
  exponent : List Char

/-- The digits behind a point, which may be missing. -/
inductive WritesFraction : (digits : List Char) → List Char → Prop where
  | none : WritesFraction [] []
  | some {digits : List Char} : (∀ c ∈ digits, c.isDigit = true) →
    WritesFraction digits ('.' :: digits)

/-- The sign and the digits behind the letter of an exponent, which may be missing. -/
inductive WritesExponent : (negative : Bool) → (digits : List Char) → List Char → Prop where
  | none : WritesExponent false [] []
  | some {negative : Bool} {letter : Char} {sign digits : List Char} :
    letter = 'e' ∨ letter = 'E' →
    (negative = false ∧ (sign = [] ∨ sign = ['+'])) ∨ (negative = true ∧ sign = ['-']) →
    digits ≠ [] → (∀ c ∈ digits, c.isDigit = true) →
    WritesExponent negative digits (letter :: (sign ++ digits))

/-- A text has the form of a number in base ten. -/
inductive Form.Writes (f : Form) : List Char → Prop where
  | mk {point mark : List Char} : (∀ c ∈ f.whole, c.isDigit = true) →
    WritesFraction f.fraction point → WritesExponent f.negative f.exponent mark →
    f.whole ++ f.fraction ≠ [] → f.Writes (f.whole ++ (point ++ mark))

/-- The number with some digits in base ten, the highest first. -/
def ofDigits (cs : List Char) : Nat :=
  Nat.ofDigits 10 (cs.map fun c => c.toNat - '0'.toNat).reverse

/-- An exponent with its sign. -/
def signed (negative : Bool) (e : Nat) : Int := if negative then -e else e

/-- The number of some form, if the digits of its exponent come to `e`. -/
def Form.value (f : Form) (e : Nat) : ℚ :=
  ofDigits (f.whole ++ f.fraction) * 10 ^ (signed f.negative e - f.fraction.length)

/-- The decimal of some form, if the digits of its exponent come to `e`. -/
def Form.decimal (f : Form) (e : Nat) : Decimal :=
  ⟨false, ofDigits (f.whole ++ f.fraction), signed f.negative e - f.fraction.length⟩

/-- What a literal is taken for. An exponent of six digits is cut short, which only a literal with
many digits besides can tell. In base sixteen there are numbers up to a limit only. -/
inductive TakenFor (cs : List Char) (d : Float) : Prop where
  | decimal {f : Form} : f.Writes cs →
    Binary64.Nearest (f.value (Decimal.exponentValue f.exponent)) (Binary64.exact d) →
    (ofDigits f.exponent < 10 * Decimal.exponentLimit ∨
      f.whole.length + f.fraction.length ≤ 40000 →
      Binary64.Nearest (f.value (ofDigits f.exponent)) (Binary64.exact d)) → TakenFor cs d
  | hex {mark : Char} {digits : List Char} {n : Nat} : cs = '0' :: mark :: digits →
    mark = 'x' ∨ mark = 'X' → digits ≠ [] → Text.DenotesHex digits n → n < UInt64.size →
    Binary64.Nearest n (Binary64.exact d) → TakenFor cs d
  | none {mark : Char} {digits : List Char} {n : Nat} : cs = '0' :: mark :: digits →
    mark = 'x' ∨ mark = 'X' → Text.DenotesHex digits n → digits = [] ∨ UInt64.size ≤ n →
    d = Binary64.nan → TakenFor cs d

theorem ofDigits_append_singleton (cs : List Char) (c : Char) :
    ofDigits (cs ++ [c]) = Decimal.withDigit (ofDigits cs) c := by
  rw [ofDigits, List.map_append, List.reverse_append, List.map_singleton, List.reverse_singleton,
    List.singleton_append, Nat.ofDigits_cons, Decimal.withDigit, Nat.add_comm]
  rfl

theorem digitsValue_eq_ofDigits (cs : List Char) : Decimal.digitsValue cs = ofDigits cs := by
  induction cs using List.reverseRecOn with
  | nil => rfl
  | append_singleton cs c ih =>
    rw [ofDigits_append_singleton, ← ih, Decimal.digitsValue, List.foldl_append]
    rfl

/-- An exponent is taken for what it is, unless both are large. -/
theorem exponentValue_cases (cs : List Char) :
    Decimal.exponentValue cs = ofDigits cs ∨
    Decimal.exponentLimit ≤ Decimal.exponentValue cs ∧
      10 * Decimal.exponentLimit ≤ ofDigits cs := by
  induction cs using List.reverseRecOn with
  | nil => exact .inl rfl
  | append_singleton cs c ih =>
    have hnext : Decimal.exponentValue (cs ++ [c]) =
        if Decimal.exponentValue cs < Decimal.exponentLimit then
          Decimal.withDigit (Decimal.exponentValue cs) c
        else Decimal.exponentValue cs := by
      rw [Decimal.exponentValue, List.foldl_append]
      rfl
    rw [hnext, ofDigits_append_singleton]
    split
    · next hlt =>
      obtain heq | ⟨hge, -⟩ := ih
      · exact .inl (by rw [heq])
      · exact absurd hlt (Nat.not_lt.2 hge)
    · next hge =>
      refine .inr ⟨Nat.le_of_not_lt hge, ?_⟩
      unfold Decimal.withDigit
      obtain heq | ⟨-, hlarge⟩ := ih
      · omega
      · omega

theorem ofDigits_lt {cs : List Char} (h : ∀ c ∈ cs, c.isDigit = true) :
    ofDigits cs < 10 ^ cs.length := by
  have hdigits : ∀ d ∈ (cs.map fun c => c.toNat - '0'.toNat).reverse, d < 10 := by
    intro d hd
    obtain ⟨c, hc, rfl⟩ := List.mem_map.1 (List.mem_reverse.1 hd)
    have hle := h c hc
    simp only [Char.isDigit, Bool.and_eq_true, decide_eq_true_eq, UInt32.le_iff_toNat_le] at hle
    have h9 : '9'.val.toNat = 57 := rfl
    have h0 : '0'.toNat = 48 := rfl
    have hval : c.val.toNat = c.toNat := rfl
    omega
  have hlt := Nat.ofDigits_lt_base_pow_length (by decide : 1 < 10) hdigits
  rwa [List.length_reverse, List.length_map] at hlt

/-- Beyond the limit the exponent makes no difference to a number of not too many digits. -/
theorem toFloat_decimal {f : Form} (hdigits : ∀ c ∈ f.whole ++ f.fraction, c.isDigit = true)
    (hlength : f.whole.length + f.fraction.length ≤ 40000) {e : Nat}
    (he : Decimal.exponentLimit ≤ e) :
    (f.decimal e).toFloat =
      if ofDigits (f.whole ++ f.fraction) = 0 ∨ f.negative = true then Binary64.ofRatio false 0 1
      else Binary64.infinity false := by
  have hlog : (ofDigits (f.whole ++ f.fraction)).log2 ≤ 4 * (f.whole ++ f.fraction).length := by
    by_cases hzero : ofDigits (f.whole ++ f.fraction) = 0
    · rw [hzero]
      exact Nat.zero_le _
    · refine ((Nat.log2_lt hzero).2 ((ofDigits_lt hdigits).trans_le ?_)).le
      rw [pow_mul]
      exact Nat.pow_le_pow_left (by decide) _
  rw [List.length_append] at hlog
  simp only [Decimal.exponentLimit] at he
  unfold Decimal.toFloat Form.decimal signed
  dsimp only
  generalize ofDigits (f.whole ++ f.fraction) = m at *
  cases f.negative with
  | true =>
    simp only [if_true]
    rw [if_pos (.inr (by omega)), if_pos (.inr trivial)]
  | false =>
    simp only [Bool.false_eq_true, if_false, or_false]
    by_cases hzero : m = 0
    · rw [if_pos (.inl hzero), if_pos hzero]
    · rw [if_neg (by omega), if_pos (by omega), if_neg hzero]

theorem splitSign_eq {cs : List Char} (h : ∀ c ∈ cs.head?, c ≠ '-' ∧ c ≠ '+') :
    Decimal.splitSign cs = (false, cs) := by
  unfold Decimal.splitSign
  split
  · exact absurd rfl (h '-' rfl).1
  · exact absurd rfl (h '+' rfl).2
  · rfl

theorem ne_sign_of_isDigit {c : Char} (h : c.isDigit = true) : c ≠ '-' ∧ c ≠ '+' := by
  constructor
  · rintro rfl
    exact absurd h (by decide)
  · rintro rfl
    exact absurd h (by decide)

theorem head?_ne_sign {cs : List Char} (h : ∀ c ∈ cs, c.isDigit = true) :
    ∀ c ∈ cs.head?, c ≠ '-' ∧ c ≠ '+' :=
  fun c hc => ne_sign_of_isDigit (h c (List.mem_of_mem_head? hc))

theorem dropWhile_append_of_stops {p : Char → Bool} {cs ds : List Char}
    (hcs : ∀ c ∈ cs, p c = true) (hds : ∀ d ∈ ds.head?, p d = false) :
    (cs ++ ds).dropWhile p = ds := by
  have happend := List.takeWhile_append_dropWhile (p := p) (l := cs ++ ds)
  rw [Lexer.takeWhile_append_of_stops hcs hds] at happend
  exact List.append_cancel_left happend

theorem WritesExponent.exponent? {negative : Bool} {digits mark : List Char}
    (h : WritesExponent negative digits mark) :
    Decimal.exponent? mark = Option.some (signed negative (Decimal.exponentValue digits)) := by
  cases h with
  | none => rfl
  | @some _ letter sign _ hletter hsign hne hdigits =>
    have hall : digits.all Char.isDigit = true := List.all_eq_true.2 hdigits
    have hsplit : Decimal.splitSign (sign ++ digits) = (negative, digits) := by
      obtain ⟨rfl, rfl | rfl⟩ | ⟨rfl, rfl⟩ := hsign
      · exact splitSign_eq (head?_ne_sign hdigits)
      · rfl
      · rfl
    rw [Decimal.exponent?, hsplit]
    exact if_pos ⟨hletter, hne, hall⟩

theorem WritesExponent.head? {negative : Bool} {digits mark : List Char}
    (h : WritesExponent negative digits mark) :
    ∀ c ∈ mark.head?, c.isDigit = false ∧ c ≠ '.' := by
  cases h with
  | none => nofun
  | some hletter =>
    rintro c ⟨⟩
    obtain rfl | rfl := hletter
    · exact ⟨by decide, by decide⟩
    · exact ⟨by decide, by decide⟩

theorem Form.Writes.splitSign {f : Form} {cs : List Char} (h : f.Writes cs) :
    Decimal.splitSign cs = (false, cs) := by
  obtain ⟨whole, fraction, negative, exponent⟩ := f
  obtain ⟨hwhole, hpoint, -, hne⟩ := h
  dsimp only at *
  apply splitSign_eq
  cases whole with
  | nil =>
    cases hpoint with
    | none => exact absurd rfl hne
    | some =>
      rintro c ⟨⟩
      decide
  | cons d ds =>
    rintro c ⟨⟩
    exact ne_sign_of_isDigit (hwhole _ List.mem_cons_self)

/-- A text of the form of a number in base ten is read as that. -/
theorem Form.Writes.read? {f : Form} {cs : List Char} (h : f.Writes cs) :
    Decimal.read? cs = some (f.decimal (Decimal.exponentValue f.exponent)) := by
  have hsplit := h.splitSign
  obtain ⟨whole, fraction, negative, exponent⟩ := f
  obtain ⟨hwhole, hpoint, hmark, hne⟩ := h
  next point mark =>
  dsimp only at *
  have hbehind : ∀ c ∈ (point ++ mark).head?, c.isDigit = false := by
    cases hpoint with
    | none => exact fun c hc => (hmark.head? c hc).1
    | some =>
      rintro c ⟨⟩
      decide
  have hempty : ¬ (whole = [] ∧ fraction = []) := fun h => hne (by rw [h.1, h.2]; rfl)
  unfold Decimal.read?
  rw [hsplit]
  simp only [Lexer.takeWhile_append_of_stops hwhole hbehind,
    dropWhile_append_of_stops hwhole hbehind, Decimal.valueByHalves_eq, digitsValue_eq_ofDigits]
  cases hpoint with
  | none =>
    have hread := hmark.exponent?
    have hmap := congrArg (Option.map fun e : Int =>
      (⟨false, ofDigits (whole ++ []), e - ([] : List Char).length⟩ : Decimal)) hread
    cases hmark with
    | none => exact if_neg hempty
    | some hletter =>
      obtain rfl | rfl := hletter
      all_goals exact (if_neg hempty).trans hmap
  | some hfraction =>
    have hstops : ∀ c ∈ mark.head?, c.isDigit = false := fun c hc => (hmark.head? c hc).1
    simp only [List.cons_append, Lexer.takeWhile_append_of_stops hfraction hstops,
      dropWhile_append_of_stops hfraction hstops, hempty, if_false, hmark.exponent?,
      Option.map_some, Form.decimal]

theorem Form.Writes.isDigit {f : Form} {cs : List Char} (h : f.Writes cs) :
    ∀ c ∈ f.whole ++ f.fraction, c.isDigit = true := by
  obtain ⟨whole, fraction, negative, exponent⟩ := f
  obtain ⟨hwhole, hpoint, -, -⟩ := h
  dsimp only at *
  refine List.forall_mem_append.2 ⟨hwhole, ?_⟩
  cases hpoint with
  | none => nofun
  | some hfraction => exact hfraction

theorem Form.Writes.takenFor {f : Form} {cs : List Char} (h : f.Writes cs)
    (hhex : hexDigits? cs = none) : TakenFor cs (ofLiteral cs) := by
  have hnearest (e : Nat) :
      Binary64.Nearest (f.value e) (Binary64.exact (f.decimal e).toFloat) :=
    Decimal.nearest_toFloat (d := f.decimal e) rfl
  have hliteral : ofLiteral cs = (f.decimal (Decimal.exponentValue f.exponent)).toFloat := by
    rw [ofLiteral, hhex]
    exact (by rw [ofDecimal, parse?, h.read?] : ofDecimal cs = _)
  rw [hliteral]
  refine .decimal h (hnearest _) fun hexponent => ?_
  obtain heq | ⟨hlarge, hlarge'⟩ := exponentValue_cases f.exponent
  · rw [heq]
    exact hnearest _
  · have hlength := hexponent.resolve_left (Nat.not_lt.2 hlarge')
    rw [toFloat_decimal h.isDigit hlength hlarge, ← toFloat_decimal h.isDigit hlength
      ((Nat.le_mul_of_pos_left _ (by decide)).trans hlarge')]
    exact hnearest _

theorem hexDigits?_eq_none {cs : List Char} (h : ∀ c ∈ cs, ¬ (c = 'x' ∨ c = 'X')) :
    hexDigits? cs = none := by
  unfold hexDigits?
  split
  · exact absurd (.inl rfl) (h 'x' (by simp))
  · exact absurd (.inr rfl) (h 'X' (by simp))
  · rfl

theorem takenFor_hex {mark : Char} {digits : List Char} (hmark : mark = 'x' ∨ mark = 'X')
    (hdigits : ∀ c ∈ digits, Text.isHexDigit c = true) :
    TakenFor ('0' :: mark :: digits) (ofLiteral ('0' :: mark :: digits)) := by
  obtain ⟨n, hn⟩ := Text.exists_denotesHex hdigits
  have hliteral : ofLiteral ('0' :: mark :: digits) = ofHex digits := by
    obtain rfl | rfl := hmark
    · rfl
    · rfl
  by_cases hread : digits ≠ [] ∧ n < UInt64.size
  · obtain ⟨hne, hlt⟩ := hread
    have hvalue := Text.hexValue?_eq_some_iff.2 ⟨digits, .inl rfl, hne, hn, hlt⟩
    have hnumber : ofHex digits = Binary64.ofNat n := by rw [ofHex, hvalue]
    refine .hex rfl hmark hne hn hlt ?_
    rw [hliteral, hnumber]
    exact Binary64.nearest_ofNat n
  · have hvalue : Text.hexValue? UInt64.size digits = none := by
      rw [Option.eq_none_iff_forall_ne_some]
      rintro k hk
      obtain ⟨ds, rfl | rfl, hne, hk, hlt⟩ := Text.hexValue?_eq_some_iff.1 hk
      · exact hread ⟨hne, hn.unique hk ▸ hlt⟩
      · exact Text.not_denotesHex_plus hn
    have hnumber : ofHex digits = Binary64.nan := by rw [ofHex, hvalue]
    refine .none rfl hmark hn ?_ (hliteral.trans hnumber)
    rw [not_and_or, not_not, Nat.not_lt] at hread
    exact hread

end ScopeChain.Numeral

namespace ScopeChain.Lexer

theorem number_of_lexeme {cs : List Char} {w : String} (h : (lexeme cs).kind = .number w) :
    startsNumber cs = true ∧ w.toList = cs.take (numberWidth cs) := by
  match cs with
  | [] => cases h
  | c :: cs =>
    obtain ⟨p, -, heq⟩ | ⟨-, heq⟩ | ⟨hnumber, heq⟩ | ⟨-, heq⟩ | heq := lexeme_cases c cs
    all_goals rw [heq] at h
    · cases h
    · obtain ⟨covered, hcovered⟩ := exists_completes_stringBody c [] 1 cs
      obtain ⟨s, hs⟩ := hcovered.kind
      rw [hs] at h
      cases h
    · obtain rfl := Token.Kind.number.inj h
      exact ⟨hnumber, String.toList_ofList⟩
    · exact absurd h (wordKind_ne _ nofun nofun)
    · cases h

theorem Exponent.exists_writes {cs : List Char} (h : Exponent cs) :
    ∃ negative digits, Numeral.WritesExponent negative digits cs := by
  cases h with
  | none => exact ⟨_, _, .none⟩
  | some hletter hsign hne hdigits =>
    obtain rfl | rfl | rfl := hsign
    · exact ⟨false, _, .some hletter (.inl ⟨rfl, .inl rfl⟩) hne hdigits⟩
    · exact ⟨false, _, .some hletter (.inl ⟨rfl, .inr rfl⟩) hne hdigits⟩
    · exact ⟨true, _, .some hletter (.inr ⟨rfl, rfl⟩) hne hdigits⟩

theorem Fraction.exists_writes {cs : List Char} (h : Fraction cs) :
    ∃ digits, Numeral.WritesFraction digits cs := by
  cases h with
  | none => exact ⟨_, .none⟩
  | some hdigits => exact ⟨_, .some hdigits⟩

/-- A number in base ten has digits before its exponent. -/
theorem Decimal.exists_writes {cs ds : List Char} (h : Decimal cs)
    (hstarts : startsNumber (cs ++ ' ' :: ds) = true) : ∃ f : Numeral.Form, f.Writes cs := by
  obtain ⟨hwhole, hfraction, hexponent⟩ := h
  next whole fraction exponent =>
  obtain ⟨digits, hdigits⟩ := hfraction.exists_writes
  obtain ⟨negative, exponentDigits, hmark⟩ := hexponent.exists_writes
  refine ⟨⟨whole, digits, negative, exponentDigits⟩, .mk hwhole hdigits hmark fun hnil => ?_⟩
  obtain ⟨rfl, rfl⟩ := List.append_eq_nil_iff.1 hnil
  have hbehind (c : Char) (tail : List Char) (hc : exponent ++ ' ' :: ds = c :: tail) :
      c.isDigit = false ∧ c ≠ '.' := by
    obtain rfl | rfl | rfl := hexponent.head? ds c (by rw [hc]; rfl)
    all_goals exact ⟨by decide, by decide⟩
  obtain ⟨c, tail, hc⟩ : ∃ c tail, exponent ++ ' ' :: ds = c :: tail :=
    List.exists_cons_of_ne_nil (by simp)
  obtain ⟨hdigit, hpoint⟩ := hbehind c tail hc
  cases hdigits with
  | none =>
    rw [List.nil_append, List.nil_append, hc] at hstarts
    obtain h | ⟨h, -⟩ := startsNumber_cases hstarts
    · rw [h] at hdigit
      cases hdigit
    · exact hpoint h
  | some =>
    rw [List.nil_append, List.cons_append, List.cons_append, List.nil_append, hc] at hstarts
    obtain h | ⟨-, d, ds, heq, h⟩ := startsNumber_cases hstarts
    · exact absurd h (by decide)
    · rw [← (List.cons.inj heq).1, hdigit] at h
      cases h

theorem takenFor_of_startsNumber {cs : List Char} (h : startsNumber cs = true) :
    Numeral.TakenFor (cs.take (numberWidth cs)) (Numeral.ofLiteral (cs.take (numberWidth cs))) := by
  match cs, h with
  | c :: cs, h =>
    have hagain := startsNumber_take h []
    obtain ⟨mark, ds, heq, hmark, hwidth⟩ | hwidth := numberWidth_cases (c :: cs)
    · rw [hwidth, heq, Nat.add_comm, List.take_succ_cons, List.take_succ_cons,
        take_length_takeWhile]
      exact Numeral.takenFor_hex hmark (all_takeWhile _ _)
    · rw [hwidth] at hagain ⊢
      have hdecimal := decimal_take (c :: cs)
      obtain ⟨f, hf⟩ := hdecimal.exists_writes hagain
      exact hf.takenFor (Numeral.hexDigits?_eq_none hdecimal.ne_x)

/-- Each number of a text is taken for the double nearest to it, if it is not in base sixteen, and
is one unless it has no digits there or comes to the limit. -/
theorem numbers_are_taken_for_nearest (text : String) :
    ∀ t ∈ (read text).tokens, ∀ w, t.kind = .number w →
      Numeral.TakenFor w.toList (Numeral.ofLiteral w.toList) := by
  intro t ht w hw
  obtain ⟨-, hkind, -⟩ := occurs_read text t ht
  obtain ⟨hstarts, hword⟩ := number_of_lexeme (hkind.symm.trans hw)
  rw [hword]
  exact takenFor_of_startsNumber hstarts

theorem numbers_of_both_bases_are_taken :
    ((⟨.number "0x1f", ⟨0, 4⟩, false⟩ : Token) ∈ (read "0x1f 2.5e-1").tokens ∧
      Numeral.TakenFor "0x1f".toList (Numeral.ofLiteral "0x1f".toList)) ∧
    (⟨.number "2.5e-1", ⟨5, 11⟩, false⟩ : Token) ∈ (read "0x1f 2.5e-1").tokens ∧
      Numeral.TakenFor "2.5e-1".toList (Numeral.ofLiteral "2.5e-1".toList) := by
  have hhex : (⟨.number "0x1f", ⟨0, 4⟩, false⟩ : Token) ∈ (read "0x1f 2.5e-1").tokens := by
    decide +kernel
  have hdecimal : (⟨.number "2.5e-1", ⟨5, 11⟩, false⟩ : Token) ∈ (read "0x1f 2.5e-1").tokens := by
    decide +kernel
  exact ⟨⟨hhex, numbers_are_taken_for_nearest _ _ hhex _ rfl⟩,
    hdecimal, numbers_are_taken_for_nearest _ _ hdecimal _ rfl⟩

/-- The first number of more than 64 bits has a double of its own, but in base sixteen it is taken
for none. -/
theorem number_of_many_bits_is_lost :
    read "0x10000000000000000" =
      ⟨[⟨.number "0x10000000000000000", ⟨0, 19⟩, false⟩, ⟨.endOfFile, ⟨19, 19⟩, false⟩], []⟩ ∧
    Text.DenotesHex "10000000000000000".toList (2 ^ 64) ∧
    Numeral.ofLiteral "0x10000000000000000".toList = Binary64.nan ∧
    ¬ Binary64.Nearest ((2 ^ 64 : Nat) : ℚ)
      (Binary64.exact (Numeral.ofLiteral "0x10000000000000000".toList)) := by
  have hvalue : Text.hexValue? UInt64.size "10000000000000000".toList = none := by decide
  have hnan : Numeral.ofLiteral "0x10000000000000000".toList = Binary64.nan := by
    have hhex : Numeral.ofLiteral "0x10000000000000000".toList =
        Numeral.ofHex "10000000000000000".toList := rfl
    rw [hhex, Numeral.ofHex, hvalue]
  refine ⟨by decide +kernel, Text.hexFold_zero_eq_some_iff.1 (by decide +kernel), hnan, ?_⟩
  rw [hnan, Binary64.exact_nan]
  nofun

end ScopeChain.Lexer
