import ScopeChain.Proofs.Numerals

/-! What strings convert to: a number if the string, without the blanks around it, is written like
one, and not a number otherwise. Base sixteen is the exception, where numbers of more than 64 bits
are lost and a plus sign may stand before the digits. -/
namespace ScopeChain

namespace Unicode

/-- Leaving away the white space at both ends of the first text makes the second. -/
def Trims (cs ds : List Char) : Prop :=
  ∃ front back, cs = front ++ ds ++ back ∧
    (∀ c ∈ front, isWhiteSpace c = true) ∧ (∀ c ∈ back, isWhiteSpace c = true) ∧
    (∀ c ∈ ds.head?, isWhiteSpace c = false) ∧ ∀ c ∈ ds.getLast?, isWhiteSpace c = false

/-- Text that starts with no white space loses it at the end only. -/
theorem exists_trimmed_end {cs : List Char} (h : ∀ c ∈ cs.head?, isWhiteSpace c = false) :
    ∃ back, cs = (cs.reverse.dropWhile isWhiteSpace).reverse ++ back ∧
      (∀ c ∈ back, isWhiteSpace c = true) ∧
      ∀ c ∈ (cs.reverse.dropWhile isWhiteSpace).reverse.head?, isWhiteSpace c = false := by
  have hsplit := congrArg List.reverse
    (List.takeWhile_append_dropWhile (p := isWhiteSpace) (l := cs.reverse))
  rw [List.reverse_append, List.reverse_reverse] at hsplit
  refine ⟨_, hsplit.symm, ?_, ?_⟩
  · intro c hc
    exact Lexer.all_takeWhile _ _ c (List.mem_reverse.mp hc)
  · intro c hc
    apply h c
    rw [← hsplit, List.head?_append, hc]
    rfl

theorem trims_trim (cs : List Char) : Trims cs (trim cs) := by
  have hstart := List.takeWhile_append_dropWhile (p := isWhiteSpace) (l := cs)
  have hhead : ∀ c ∈ (cs.dropWhile isWhiteSpace).head?, isWhiteSpace c = false := by
    intro c hc
    have hnot := List.head?_dropWhile_not isWhiteSpace cs
    rw [hc] at hnot
    exact hnot
  obtain ⟨back, hend, hback, hhead⟩ := exists_trimmed_end hhead
  refine ⟨cs.takeWhile isWhiteSpace, back, ?_, Lexer.all_takeWhile _ _, hback, hhead, ?_⟩
  · rw [List.append_assoc, trim, ← hend, hstart]
  · intro c hc
    have hnot := List.head?_dropWhile_not isWhiteSpace (cs.dropWhile isWhiteSpace).reverse
    rw [trim, List.getLast?_reverse] at hc
    rw [hc] at hnot
    exact hnot

end Unicode

namespace Numeral

/-- A sign, which may be missing. -/
inductive WritesSign : (negative : Bool) → List Char → Prop where
  | none : WritesSign false []
  | plus : WritesSign false ['+']
  | minus : WritesSign true ['-']

/-- A text is written like a number, of which nothing is one. -/
inductive WritesNumber : List Char → Prop where
  | nothing : WritesNumber []
  | infinity {negative : Bool} {sign : List Char} : WritesSign negative sign →
    WritesNumber (sign ++ "Infinity".toList)
  | decimal {negative : Bool} {sign cs : List Char} {f : Form} : WritesSign negative sign →
    f.Writes cs → WritesNumber (sign ++ cs)
  | hex {mark : Char} {digits : List Char} : mark = 'x' ∨ mark = 'X' → digits ≠ [] →
    (∀ c ∈ digits, Text.isHexDigit c = true) → WritesNumber ('0' :: mark :: digits)

/-- A text is written like a number in base sixteen that comes to the limit. -/
def WritesLarge (cs : List Char) : Prop :=
  ∃ mark digits n, cs = '0' :: mark :: digits ∧ (mark = 'x' ∨ mark = 'X') ∧
    Text.DenotesHex digits n ∧ UInt64.size ≤ n

/-- A text is written like a number in base sixteen below the limit, but with a plus sign. -/
def WritesPlus (cs : List Char) : Prop :=
  ∃ mark digits n, cs = '0' :: mark :: '+' :: digits ∧ (mark = 'x' ∨ mark = 'X') ∧ digits ≠ [] ∧
    Text.DenotesHex digits n ∧ n < UInt64.size

variable {cs ds : List Char}

theorem exists_splitSign (cs : List Char) : ∃ sign,
    WritesSign (Decimal.splitSign cs).1 sign ∧ cs = sign ++ (Decimal.splitSign cs).2 := by
  unfold Decimal.splitSign
  split
  · exact ⟨_, .minus, rfl⟩
  · exact ⟨_, .plus, rfl⟩
  · exact ⟨_, .none, rfl⟩

theorem exists_writesExponent {e : Int} (h : Decimal.exponent? cs = some e) :
    ∃ negative digits, WritesExponent negative digits cs := by
  cases cs with
  | nil => exact ⟨_, _, .none⟩
  | cons c cs =>
    obtain ⟨sign, hsign, heq⟩ := exists_splitSign cs
    rw [Decimal.exponent?] at h
    generalize Decimal.splitSign cs = split at h hsign heq
    obtain ⟨negative, digits⟩ := split
    obtain ⟨⟨hletter, hne, hdigits⟩, -⟩ := Option.ite_none_right_eq_some.mp h
    rw [heq]
    refine ⟨negative, digits, .some hletter ?_ hne (List.all_eq_true.mp hdigits)⟩
    cases hsign with
    | none => exact .inl ⟨rfl, .inl rfl⟩
    | plus => exact .inl ⟨rfl, .inr rfl⟩
    | minus => exact .inr ⟨rfl, rfl⟩

/-- What is read as a decimal is written like one behind its sign. -/
theorem exists_writes {d : Decimal} (h : Decimal.read? cs = some d) :
    ∃ f : Form, f.Writes (Decimal.splitSign cs).2 := by
  unfold Decimal.read? at h
  generalize Decimal.splitSign cs = split at h
  obtain ⟨negative, unsigned⟩ := split
  dsimp only at h ⊢
  have hunsigned := List.takeWhile_append_dropWhile (p := Char.isDigit) (l := unsigned)
  have hwhole := Lexer.all_takeWhile Char.isDigit unsigned
  generalize unsigned.takeWhile Char.isDigit = whole at h hunsigned hwhole
  generalize unsigned.dropWhile Char.isDigit = behind at h hunsigned
  subst hunsigned
  split at h
  · next ds =>
    obtain ⟨hne, h⟩ := Option.ite_none_left_eq_some.mp h
    obtain ⟨e, he, -⟩ := Option.map_eq_some_iff.mp h
    obtain ⟨negative, digits, hmark⟩ := exists_writesExponent he
    have hfraction := Lexer.all_takeWhile Char.isDigit ds
    have hne' : whole ++ ds.takeWhile Char.isDigit ≠ [] := by simpa using hne
    refine ⟨⟨whole, ds.takeWhile Char.isDigit, negative, digits⟩, ?_⟩
    have hwrites : Form.Writes ⟨whole, ds.takeWhile Char.isDigit, negative, digits⟩ _ :=
      .mk hwhole (.some hfraction) hmark hne'
    rwa [List.cons_append, List.takeWhile_append_dropWhile] at hwrites
  · obtain ⟨hne, h⟩ := Option.ite_none_left_eq_some.mp h
    obtain ⟨e, he, -⟩ := Option.map_eq_some_iff.mp h
    obtain ⟨negative, digits, hmark⟩ := exists_writesExponent he
    have hne' : whole ++ [] ≠ [] := by simpa using hne
    have hwrites : Form.Writes ⟨whole, [], negative, digits⟩ (whole ++ ([] ++ behind)) :=
      .mk hwhole .none hmark hne'
    exact ⟨_, hwrites⟩

/-- A sign before a number changes no more than its sign. -/
theorem read?_append_of_writesSign {negative : Bool} {sign : List Char} {d : Decimal}
    (hsign : WritesSign negative sign) (h : Decimal.read? cs = some d)
    (hcs : Decimal.splitSign cs = (false, cs)) :
    Decimal.read? (sign ++ cs) = some { d with negative } := by
  have hsplit : Decimal.splitSign (sign ++ cs) = (negative, cs) := by
    cases hsign with
    | none => exact hcs
    | plus | minus => rfl
  unfold Decimal.read? at h ⊢
  rw [hcs] at h
  rw [hsplit]
  obtain ⟨hne, h⟩ := Option.ite_none_left_eq_some.mp h
  obtain ⟨e, he, rfl⟩ := Option.map_eq_some_iff.mp h
  exact (if_neg hne).trans (congrArg _ he)

/-- A text is read as a decimal if it is written like one, with a sign or without. -/
theorem isSome_read?_iff : (Decimal.read? cs).isSome = true ↔
    ∃ (negative : Bool) (sign ds : List Char) (f : Form),
      WritesSign negative sign ∧ f.Writes ds ∧ cs = sign ++ ds := by
  constructor
  · intro h
    obtain ⟨d, hd⟩ := Option.isSome_iff_exists.mp h
    obtain ⟨f, hf⟩ := exists_writes hd
    obtain ⟨sign, hsign, hcs⟩ := exists_splitSign cs
    exact ⟨_, sign, _, f, hsign, hf, hcs⟩
  · rintro ⟨negative, sign, ds, f, hsign, hf, rfl⟩
    rw [read?_append_of_writesSign hsign hf.read? hf.splitSign]
    rfl

end Numeral

theorem Binary64.isNaN_ofRatio (negative : Bool) (num den : Nat) :
    (ofRatio negative num den).isNaN = false := by
  apply isNaN_ofMagnitude
  unfold bitsOfRatio
  split
  · exact Nat.zero_le _
  · exact Nat.min_le_left _ _

theorem Decimal.isNaN_toFloat (d : Decimal) : d.toFloat.isNaN = false := by
  unfold toFloat
  dsimp only
  split
  · exact Binary64.isNaN_ofRatio _ _ _
  · split
    · exact Binary64.isNaN_ofMagnitude _ (Nat.le_refl _)
    · split
      · exact Binary64.isNaN_ofRatio _ _ _
      · exact Binary64.isNaN_ofRatio _ _ _

namespace Numeral

theorem isForeignLetter_eq_false_of_isDigit {c : Char} (h : c.isDigit = true) :
    isForeignLetter c = false := by
  have hrange : 48 ≤ c.val ∧ c.val ≤ 57 := by simpa [Char.isDigit] using h
  have halpha : c.isAlpha = false := by
    simp only [Char.isAlpha, Char.isUpper, Char.isLower]
    grind
  rw [isForeignLetter, halpha, Bool.false_and]

/-- A letter is foreign in either case. -/
theorem isForeignLetter_of_toLower {c : Char} (h : isForeignLetter c.toLower = true) :
    isForeignLetter c = true := by
  by_cases hupper : 'A'.val ≤ c.val ∧ c.val ≤ 'Z'.val
  · have halpha : c.isAlpha = true := by
      rw [Char.isAlpha, Char.isUpper, decide_eq_true hupper, Bool.true_or]
    have hlower : c ≠ 'e' := by
      rintro rfl
      exact absurd hupper (by decide)
    have hmark : c ≠ 'E' := by
      rintro rfl
      exact absurd h (by decide)
    simp [isForeignLetter, halpha, hlower, hmark]
  · rwa [Char.toLower, dif_neg hupper] at h

/-- A decimal has no letter but that of its exponent. -/
theorem Form.Writes.any_isForeignLetter {f : Form} (h : f.Writes cs) :
    cs.any isForeignLetter = false := by
  have hnone {ds : List Char} (hds : ∀ c ∈ ds, c.isDigit = true) :
      ds.any isForeignLetter = false := by
    rw [List.any_eq_false]
    intro c hc
    rw [isForeignLetter_eq_false_of_isDigit (hds c hc)]
    exact Bool.false_ne_true
  obtain ⟨whole, fraction, negative, exponent⟩ := f
  obtain ⟨hwhole, hpoint, hmark, -⟩ := h
  dsimp only at hwhole hpoint hmark
  simp only [List.any_append, Bool.or_eq_false_iff]
  refine ⟨hnone hwhole, ?_, ?_⟩
  · cases hpoint with
    | none => rfl
    | some hdigits =>
      rw [List.any_cons, hnone hdigits]
      rfl
  · cases hmark with
    | none => rfl
    | some hletter hsign _ hdigits =>
      rw [List.any_cons, List.any_append, hnone hdigits]
      rcases hletter with rfl | rfl <;>
        rcases hsign with ⟨-, rfl | rfl⟩ | ⟨-, rfl⟩ <;> rfl

/-- Each word that is read as a double has a letter that no decimal has. -/
theorem isForeignLetter_ofWord? {negative : Bool} (h : (ofWord? negative cs).isSome = true) :
    cs.any isForeignLetter = true := by
  have hword : (cs.map Char.toLower).any isForeignLetter = true := by
    unfold ofWord? at h
    dsimp only at h
    split at h
    · next hinf =>
      rcases hinf with hinf | hinf <;> rw [hinf] <;> decide
    · split at h
      · next hnan =>
        rw [hnan]
        decide
      · cases h
  obtain ⟨c, hc, hforeign⟩ := List.any_eq_true.mp hword
  obtain ⟨d, hd, rfl⟩ := List.mem_map.mp hc
  exact List.any_eq_true.mpr ⟨d, hd, isForeignLetter_of_toLower hforeign⟩

theorem any_isForeignLetter_of_read? (h : (Decimal.read? cs).isSome = true) :
    cs.any isForeignLetter = false := by
  obtain ⟨negative, sign, ds, f, hsign, hf, rfl⟩ := isSome_read?_iff.mp h
  rw [List.any_append, Bool.or_eq_false_iff]
  constructor
  · cases hsign <;> decide
  · exact hf.any_isForeignLetter

/-- Of the texts that are read as doubles, the letters hold back the words and no decimal. -/
theorem any_isForeignLetter_iff (h : (parse? cs).isSome = true) :
    cs.any isForeignLetter = true ↔ Decimal.read? cs = none := by
  constructor
  · intro hany
    cases hread : Decimal.read? cs with
    | none => rfl
    | some d =>
      rw [any_isForeignLetter_of_read? (Option.isSome_of_eq_some hread)] at hany
      cases hany
  · intro hread
    rw [parse?, hread] at h
    have hword := isForeignLetter_ofWord? h
    obtain ⟨sign, -, hcs⟩ := exists_splitSign cs
    rw [hcs, List.any_append, Bool.or_eq_true]
    exact .inr hword

/-- Without the words just the decimals are left. -/
theorem isNaN_ofDecimal_iff :
    (if cs.any isForeignLetter then Binary64.nan else ofDecimal cs).isNaN = false ↔
      (Decimal.read? cs).isSome = true := by
  by_cases hany : cs.any isForeignLetter = true
  · rw [if_pos hany, Binary64.isNaN_nan]
    refine iff_of_false (by decide) ?_
    intro hread
    rw [any_isForeignLetter_of_read? hread] at hany
    cases hany
  · rw [if_neg hany, ofDecimal]
    cases hread : Decimal.read? cs with
    | some d =>
      rw [parse?, hread]
      exact iff_of_true d.isNaN_toFloat rfl
    | none =>
      have hparse : parse? cs = none := by
        by_contra hsome
        exact hany ((any_isForeignLetter_iff (Option.isSome_iff_ne_none.mpr hsome)).mpr hread)
      rw [hparse, Option.getD_none, Binary64.isNaN_nan]
      exact iff_of_false (by decide) Bool.false_ne_true

theorem isNaN_ofHex_iff :
    (ofHex cs).isNaN = false ↔ (Text.hexValue? UInt64.size cs).isSome = true := by
  unfold ofHex
  cases Text.hexValue? UInt64.size cs with
  | none => exact iff_of_false (by rw [Binary64.isNaN_nan]; decide) Bool.false_ne_true
  | some n => exact iff_of_true (Binary64.isNaN_ofRatio _ _ _) rfl

theorem infinity?_cases (cs : List Char) :
    (∃ negative sign, WritesSign negative sign ∧ cs = sign ++ "Infinity".toList ∧
      infinity? cs = some (Binary64.infinity negative)) ∨
    (∀ negative sign, WritesSign negative sign → cs ≠ sign ++ "Infinity".toList) ∧
      infinity? cs = none := by
  unfold infinity?
  split
  · next h =>
    rcases h with rfl | rfl
    · exact .inl ⟨_, _, .none, rfl, rfl⟩
    · exact .inl ⟨_, _, .plus, rfl, rfl⟩
  · next h =>
    rw [not_or] at h
    split
    · next hminus => exact .inl ⟨_, _, .minus, hminus, rfl⟩
    · next hminus =>
      refine .inr ⟨?_, rfl⟩
      intro negative sign hsign
      cases hsign with
      | none => exact h.1
      | plus => exact h.2
      | minus => exact hminus

theorem hexDigits?_eq_some_iff :
    hexDigits? cs = some ds ↔ ∃ mark, (mark = 'x' ∨ mark = 'X') ∧ cs = '0' :: mark :: ds := by
  unfold hexDigits?
  constructor
  · intro h
    split at h
    · cases h
      exact ⟨_, .inl rfl, rfl⟩
    · cases h
      exact ⟨_, .inr rfl, rfl⟩
    · cases h
  · rintro ⟨mark, rfl | rfl, rfl⟩
    · rfl
    · rfl

theorem ne_of_hexDigits?_eq_none (h : hexDigits? cs = none) {mark : Char}
    (hmark : mark = 'x' ∨ mark = 'X') (ds : List Char) : cs ≠ '0' :: mark :: ds := by
  rintro rfl
  rw [hexDigits?_eq_some_iff.mpr ⟨mark, hmark, rfl⟩] at h
  cases h

/-- Behind the mark of base sixteen nothing is read in base ten. -/
theorem read?_hex {mark : Char} (hmark : mark = 'x' ∨ mark = 'X') (ds : List Char) :
    Decimal.read? ('0' :: mark :: ds) = none := by
  have hnone : Decimal.exponent? (mark :: ds) = none := by
    refine if_neg ?_
    rintro ⟨rfl | rfl, -⟩
    · exact absurd hmark (by decide)
    · exact absurd hmark (by decide)
  have hmap := congrArg (Option.map fun e : Int =>
    (⟨false, Decimal.valueByHalves 0 ['0'], e - ([] : List Char).length⟩ : Decimal)) hnone
  rcases hmark with rfl | rfl
  · exact hmap
  · exact hmap

/-- With the mark of base sixteen a number is written in digits, and in no other way. -/
theorem writesNumber_hex_iff {mark : Char} (hmark : mark = 'x' ∨ mark = 'X') :
    WritesNumber ('0' :: mark :: ds) ↔ ds ≠ [] ∧ ∀ c ∈ ds, Text.isHexDigit c = true := by
  constructor
  · intro h
    generalize hcs : '0' :: mark :: ds = cs at h
    cases h with
    | nothing => cases hcs
    | infinity hsign => cases hsign <;> cases hcs
    | decimal hsign hwrites =>
      have hread := isSome_read?_iff.mpr ⟨_, _, _, _, hsign, hwrites, hcs⟩
      rw [read?_hex hmark] at hread
      cases hread
    | hex _ hne hdigits =>
      cases hcs
      exact ⟨hne, hdigits⟩
  · rintro ⟨hne, hdigits⟩
    exact .hex hmark hne hdigits

/-- Digits in base sixteen come to a number if they are below the limit. -/
theorem isNaN_hex_iff {mark : Char} (hmark : mark = 'x' ∨ mark = 'X') :
    (ofHex ds).isNaN = false ↔
      (WritesNumber ('0' :: mark :: ds) ∧ ¬ WritesLarge ('0' :: mark :: ds)) ∨
        WritesPlus ('0' :: mark :: ds) := by
  rw [isNaN_ofHex_iff, writesNumber_hex_iff hmark]
  constructor
  · intro h
    obtain ⟨n, hn⟩ := Option.isSome_iff_exists.mp h
    obtain ⟨digits, rfl | rfl, hne, hdenotes, hlt⟩ := Text.hexValue?_eq_some_iff.mp hn
    · refine .inl ⟨⟨hne, hdenotes.isHexDigit⟩, ?_⟩
      rintro ⟨_, _, m, ⟨⟩, -, hm, hle⟩
      have heq := hdenotes.unique hm
      omega
    · exact .inr ⟨mark, digits, n, rfl, hmark, hne, hdenotes, hlt⟩
  · rintro (⟨⟨hne, hdigits⟩, hsmall⟩ | ⟨_, digits, n, ⟨⟩, -, hne, hdenotes, hlt⟩)
    · obtain ⟨n, hn⟩ := Text.exists_denotesHex hdigits
      have hlt : n < UInt64.size := by
        refine Nat.lt_of_not_le fun hle => hsmall ⟨mark, ds, n, rfl, hmark, hn, hle⟩
      rw [Text.hexValue?_eq_some_iff.mpr ⟨ds, .inl rfl, hne, hn, hlt⟩]
      rfl
    · rw [Text.hexValue?_eq_some_iff.mpr ⟨digits, .inr rfl, hne, hdenotes, hlt⟩]
      rfl

/-- All else comes to a number if it is an infinity or in base ten. -/
theorem isNaN_decimal_iff (hne : cs ≠ []) (hhex : hexDigits? cs = none) :
    ((infinity? cs).getD (if cs.any isForeignLetter then Binary64.nan else
      ofDecimal cs)).isNaN = false ↔ WritesNumber cs := by
  constructor
  · intro h
    rcases infinity?_cases cs with ⟨negative, sign, hsign, rfl, -⟩ | ⟨-, hnone⟩
    · exact .infinity hsign
    · rw [hnone, Option.getD_none, isNaN_ofDecimal_iff, isSome_read?_iff] at h
      obtain ⟨negative, sign, ds, f, hsign, hwrites, rfl⟩ := h
      exact .decimal hsign hwrites
  · intro h
    rcases infinity?_cases cs with ⟨negative, sign, -, -, hsome⟩ | ⟨hnot, hnone⟩
    · rw [hsome]
      exact Binary64.isNaN_ofMagnitude _ (Nat.le_refl _)
    · rw [hnone, Option.getD_none, isNaN_ofDecimal_iff, isSome_read?_iff]
      cases h with
      | nothing => exact absurd rfl hne
      | infinity hsign => exact absurd rfl (hnot _ _ hsign)
      | decimal hsign hwrites => exact ⟨_, _, _, _, hsign, hwrites, rfl⟩
      | hex hmark => exact absurd rfl (ne_of_hexDigits?_eq_none hhex hmark _)

/-- A string converts to a number exactly if it is written like one, white space at its ends left
away. In base sixteen it may not come to the limit, and may have a plus sign behind the mark. -/
theorem strings_are_numbers_as_written (s : String) :
    Unicode.Trims s.toList (Unicode.trim s.toList) ∧
    ((ofText s).isNaN = false ↔
      (WritesNumber (Unicode.trim s.toList) ∧ ¬ WritesLarge (Unicode.trim s.toList)) ∨
        WritesPlus (Unicode.trim s.toList)) := by
  refine ⟨Unicode.trims_trim _, ?_⟩
  unfold ofText
  generalize Unicode.trim s.toList = cs
  dsimp only
  cases hhex : hexDigits? cs with
  | some ds =>
    obtain ⟨mark, hmark, rfl⟩ := hexDigits?_eq_some_iff.mp hhex
    exact isNaN_hex_iff hmark
  | none =>
    have hlarge : ¬ WritesLarge cs := by
      rintro ⟨mark, digits, n, hcs, hmark, -⟩
      exact ne_of_hexDigits?_eq_none hhex hmark _ hcs
    have hplus : ¬ WritesPlus cs := by
      rintro ⟨mark, digits, n, hcs, hmark, -⟩
      exact ne_of_hexDigits?_eq_none hhex hmark _ hcs
    rw [and_iff_left hlarge, or_iff_left hplus]
    split
    · next hnil =>
      subst hnil
      exact iff_of_true (Binary64.isNaN_ofRatio _ _ _) .nothing
    · next hne => exact isNaN_decimal_iff hne hhex

/-- A plus sign behind the mark of base sixteen does no harm, but the first number of more than 64
bits is none. -/
theorem conversion_differs_from_writing :
    ((ofText "0x+1f").isNaN = false ∧ ¬ WritesNumber (Unicode.trim "0x+1f".toList)) ∧
    (ofText "0x10000000000000000").isNaN = true ∧
      WritesNumber (Unicode.trim "0x10000000000000000".toList) := by
  have hplus : ¬ WritesNumber ('0' :: 'x' :: "+1f".toList) := by
    rw [writesNumber_hex_iff (.inl rfl)]
    rintro ⟨-, hdigits⟩
    exact absurd (hdigits '+' List.mem_cons_self) (by decide)
  have hlarge : WritesNumber ('0' :: 'x' :: "10000000000000000".toList) :=
    .hex (.inl rfl) (by simp) (List.all_eq_true.mp (by decide))
  exact ⟨⟨by decide +kernel, hplus⟩, by decide +kernel, hlarge⟩

end Numeral

end ScopeChain
