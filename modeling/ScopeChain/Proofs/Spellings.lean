import ScopeChain.Proofs.Tiling

/-! How tokens can be written so that they are read again: what a name, a number, a string or a
fixed word is read from, whatever stands before and behind, with blanks between. -/
namespace ScopeChain.Lexer

/-- Wherever the text stands before a blank, it is read as one token of some kind. -/
def Spells (w : String) (k : Token.Kind) : Prop := ∀ pos cs,
  step ⟨pos, w.toList ++ ' ' :: cs⟩ =
    ⟨⟨k, ⟨pos, pos + w.length⟩, false⟩, ⟨pos + w.length, ' ' :: cs⟩, []⟩

/-- No gap goes on into a character. -/
structure EndsGap (c : Char) : Prop where
  lineBreak : isLineBreak c = false
  blank : isBlank c = false

theorem EndsGap.gap {c : Char} (h : EndsGap c) {cs : List Char}
    (hslash : c = '/' → ∀ d ∈ cs.head?, d ≠ '/' ∧ d ≠ '*') (lb : Bool) (pos : Nat) :
    Lexer.gap .outside lb pos (c :: cs) = ⟨pos, c :: cs, lb, none⟩ := by
  have hline (ds : List Char) (hc : c = '/') (hcs : cs = '/' :: ds) : False :=
    (hslash hc '/' (by rw [hcs]; rfl)).1 rfl
  have hblock (ds : List Char) (hc : c = '/') (hcs : cs = '*' :: ds) : False :=
    (hslash hc '*' (by rw [hcs]; rfl)).2 rfl
  rw [Lexer.gap.eq_6 lb pos c cs hline hblock, h.lineBreak, h.blank]
  rfl

/-- A gap that ends before the end of the text ends at a character of no gap. -/
theorem endsGap_of_gap {c : Char} {cs ds : List Char} {mode : Comment} {lb : Bool} {pos : Nat}
    (h : (gap mode lb pos cs).rest = c :: ds) : EndsGap c := by
  fun_induction gap mode lb pos cs with
  | case1 | case2 | case3 => cases h
  | case8 lb pos d ds _ _ hbreak hblank =>
    cases h
    exact ⟨Bool.eq_false_iff.2 hbreak, Bool.eq_false_iff.2 hblank⟩
  | _ => exact (by assumption : _ → _) h

/-- A text spells what it is read as before each blank. -/
theorem spells_of_lexeme {w : String} {k : Token.Kind} {c : Char} {cs : List Char}
    (hw : w.toList = c :: cs) (hc : EndsGap c) (hslash : c = '/' → cs = [])
    (h : ∀ ds, lexeme (w.toList ++ ' ' :: ds) = ⟨k, w.length, ' ' :: ds, none⟩) : Spells w k := by
  intro pos ds
  have hgap : gap .outside false pos (w.toList ++ ' ' :: ds) =
      ⟨pos, w.toList ++ ' ' :: ds, false, none⟩ := by
    rw [hw, List.cons_append]
    refine hc.gap (fun heq d hd => ?_) false pos
    rw [hslash heq] at hd
    obtain rfl : ' ' = d := by simpa using hd
    decide
  simp only [step, hgap, h ds]
  rfl

theorem spells_punctuator (p : Punctuator) : Spells p.text (.punctuator p) := by
  cases p
  all_goals
    refine spells_of_lexeme rfl ⟨by decide, by decide⟩ ?_ fun ds => rfl
    decide

/-- No punctuator begins with the character. -/
theorem atHead?_eq_none {c : Char} (h : ∀ p : Punctuator, p.text.toList.head? ≠ some c)
    (cs : List Char) : Punctuator.atHead? (c :: cs) = none := by
  rw [Punctuator.atHead?, List.find?_eq_none]
  intro p _ hp
  obtain ⟨ds, hds⟩ := List.isPrefixOf_iff_prefix.1 hp
  have hne : p.text.toList ≠ [] := by cases p <;> decide
  obtain ⟨d, ds', hd⟩ := List.exists_cons_of_ne_nil hne
  refine h p ?_
  rw [hd, List.cons_append] at hds
  rw [hd, List.head?_cons, (List.cons.inj hds).1]

theorem head?_text_ne_of_isIdentifierStart {c : Char} (h : isIdentifierStart c = true)
    (p : Punctuator) : p.text.toList.head? ≠ some c := by
  intro hc
  have hnone : p.text.toList.head?.any isIdentifierStart = false := by cases p <;> decide
  rw [hc, Option.any_some, h] at hnone
  exact Bool.noConfusion hnone

theorem isDigit_eq_false_of_isIdentifierStart {c : Char} (h : isIdentifierStart c = true) :
    c.isDigit = false := by
  rw [Bool.eq_false_iff]
  intro hdigit
  simp only [Char.isDigit, Bool.and_eq_true, decide_eq_true_eq, UInt32.le_iff_toNat_le] at hdigit
  simp only [isIdentifierStart, Bool.or_eq_true, decide_eq_true_eq] at h
  obtain (rfl | rfl) | h := h
  · exact absurd hdigit (by decide)
  · exact absurd hdigit (by decide)
  · have hascii : c.toNat < 128 := Nat.lt_of_le_of_lt hdigit.2 (by decide)
    have halpha : c.isAlpha = (decide (c.val ≥ 'A'.val ∧ c.val ≤ 'Z'.val) ||
      (decide (c.val ≥ 'a'.val) && decide (c.val ≤ 'z'.val))) := rfl
    simp only [Unicode.xid.start_ascii c hascii, halpha, Bool.or_eq_true, Bool.and_eq_true,
      decide_eq_true_eq, UInt32.le_iff_toNat_le, ge_iff_le] at h
    have h9 : '9'.val.toNat = 57 := rfl
    have hA : 'A'.val.toNat = 65 := rfl
    have ha : 'a'.val.toNat = 97 := rfl
    omega

theorem ne_of_isIdentifierStart {c d : Char} (h : isIdentifierStart c = true)
    (hd : isIdentifierStart d = false) : c ≠ d := by
  rintro rfl
  rw [h] at hd
  exact Bool.noConfusion hd

theorem lexeme_of_isIdentifierStart {c : Char} (h : isIdentifierStart c = true)
    (cs : List Char) : lexeme (c :: cs) =
      .ofWidth wordKind ((c :: cs).takeWhile isIdentifierPart).length (c :: cs) := by
  have hquote : ¬ (c = '"' ∨ c = '\'') := fun hc =>
    hc.elim (ne_of_isIdentifierStart h (by decide)) (ne_of_isIdentifierStart h (by decide))
  have hnumber : startsNumber (c :: cs) = false := by
    rw [startsNumber]
    · exact isDigit_eq_false_of_isIdentifierStart h
    · exact fun _ _ hc => absurd hc (ne_of_isIdentifierStart h (by decide))
  rw [lexeme, atHead?_eq_none (head?_text_ne_of_isIdentifierStart h)]
  simp only [hquote, hnumber, h, if_true, if_false, Bool.false_eq_true]

theorem spells_word {w : String} {c : Char} {cs : List Char} (hw : w.toList = c :: cs)
    (hc : EndsGap c) (hstart : isIdentifierStart c = true)
    (hpart : ∀ d ∈ w.toList, isIdentifierPart d = true) : Spells w (wordKind w) := by
  refine spells_of_lexeme hw hc (fun hslash => ?_) fun ds => ?_
  · exact absurd hslash (ne_of_isIdentifierStart hstart (by decide))
  · have htake : (w.toList ++ ' ' :: ds).takeWhile isIdentifierPart = w.toList := by
      rw [List.takeWhile_append_of_pos hpart, List.takeWhile_cons]
      simp [show isIdentifierPart ' ' = false by decide]
    have hlexeme := lexeme_of_isIdentifierStart hstart (cs ++ ' ' :: ds)
    rw [← List.cons_append, ← hw, htake] at hlexeme
    rw [hlexeme, Lexeme.ofWidth, List.take_left, List.drop_left, String.ofList_toList,
      String.length_toList]

theorem wordKind_text (k : Keyword) : wordKind k.text = .keyword k := by cases k <;> rfl

theorem spells_keyword (k : Keyword) : Spells k.text (.keyword k) := by
  have hpart : ∀ d ∈ k.text.toList, isIdentifierPart d = true :=
    List.all_eq_true.mp (by cases k <;> decide +kernel)
  rw [← wordKind_text]
  cases k
  all_goals exact spells_word rfl ⟨by decide, by decide⟩ (by decide) hpart

theorem takeWhile_append_of_stops {p : Char → Bool} {cs ds : List Char}
    (hcs : ∀ c ∈ cs, p c = true) (hds : ∀ d ∈ ds.head?, p d = false) :
    (cs ++ ds).takeWhile p = cs := by
  rw [List.takeWhile_append_of_pos hcs]
  cases ds with
  | nil => simp
  | cons d ds => simp [hds d rfl]

theorem take_length_takeWhile (p : Char → Bool) (cs : List Char) :
    cs.take (cs.takeWhile p).length = cs.takeWhile p :=
  (List.prefix_iff_eq_take.1 (List.takeWhile_prefix _)).symm

theorem all_takeWhile (p : Char → Bool) (cs : List Char) : ∀ c ∈ cs.takeWhile p, p c = true :=
  List.all_eq_true.1 List.all_takeWhile

/-- The exponent of a number, which may be missing. -/
inductive Exponent : List Char → Prop where
  | none : Exponent []
  | some {c : Char} {sign digits : List Char} : c = 'e' ∨ c = 'E' →
    sign = [] ∨ sign = ['+'] ∨ sign = ['-'] → digits ≠ [] → (∀ d ∈ digits, d.isDigit = true) →
    Exponent (c :: (sign ++ digits))

/-- The point and the digits behind it, which may be missing. -/
inductive Fraction : List Char → Prop where
  | none : Fraction []
  | some {digits : List Char} : (∀ d ∈ digits, d.isDigit = true) → Fraction ('.' :: digits)

/-- A number in base ten, whose parts may all be missing. -/
inductive Decimal : List Char → Prop where
  | mk {whole fraction exponent : List Char} : (∀ d ∈ whole, d.isDigit = true) →
    Fraction fraction → Exponent exponent → Decimal (whole ++ (fraction ++ exponent))

theorem exponent_take (cs : List Char) : Exponent (cs.take (exponentWidth cs)) := by
  unfold exponentWidth
  split
  · exact .none
  · next c cs =>
    have hdigits (sign : List Char) (hsign : sign = [] ∨ sign = ['+'] ∨ sign = ['-'])
        (hc : c = 'e' ∨ c = 'E') (ds : List Char) :
        Exponent ((c :: (sign ++ ds)).take
          (if (ds.takeWhile Char.isDigit).length = 0 then 0
            else 1 + sign.length + (ds.takeWhile Char.isDigit).length)) := by
      split
      · exact .none
      · next hne =>
        rw [Nat.add_assoc, Nat.add_comm 1, List.take_succ_cons, List.take_length_add_append,
          take_length_takeWhile]
        exact .some hc hsign (fun h => hne (by rw [h]; rfl)) (all_takeWhile _ _)
    split
    · next hc =>
      split
      · next ds => exact hdigits ['+'] (by simp) hc ds
      · next ds => exact hdigits ['-'] (by simp) hc ds
      · exact hdigits [] (by simp) hc cs
    · exact .none

theorem fraction_take (cs : List Char) : Fraction (cs.take (fractionWidth cs)) := by
  unfold fractionWidth
  split
  · next cs =>
    rw [Nat.add_comm, List.take_succ_cons, take_length_takeWhile]
    exact .some (all_takeWhile _ _)
  · exact .none

theorem Exponent.width {cs : List Char} (h : Exponent cs) (ds : List Char) :
    exponentWidth (cs ++ ' ' :: ds) = cs.length := by
  cases h with
  | none => simp [exponentWidth]
  | @some c sign digits hc hsign hne hdigits =>
    have hwhile : (digits ++ ' ' :: ds).takeWhile Char.isDigit = digits :=
      takeWhile_append_of_stops hdigits (by simp)
    have hlength : digits.length ≠ 0 := by simpa using hne
    have hsigned (s : Char) (hs : s = '+' ∨ s = '-') :
        exponentWidth (c :: s :: (digits ++ ' ' :: ds)) = (c :: s :: digits).length := by
      obtain rfl | rfl := hs
      all_goals
        simp only [exponentWidth, hc, if_true, List.drop_succ_cons, List.drop_zero, hwhile,
          hlength, if_false, List.length_cons]
        omega
    obtain rfl | rfl | rfl := hsign
    · have hunsigned (s : Char) (hs : s.isDigit = false) (tail : List Char)
          (h : digits ++ ' ' :: ds = s :: tail) : False := by
        obtain ⟨d, digits, rfl⟩ := List.exists_cons_of_ne_nil hne
        rw [← (List.cons.inj h).1, hdigits d (by simp)] at hs
        exact Bool.noConfusion hs
      rw [List.nil_append, List.cons_append, exponentWidth, if_pos hc]
      · simp only [List.drop_zero, hwhile, hlength, if_false, List.length_cons]
        omega
      · exact hunsigned '+' (by decide)
      · exact hunsigned '-' (by decide)
    · exact hsigned '+' (.inl rfl)
    · exact hsigned '-' (.inr rfl)

theorem Exponent.head? {cs : List Char} (h : Exponent cs) (ds : List Char) :
    ∀ d ∈ (cs ++ ' ' :: ds).head?, d = 'e' ∨ d = 'E' ∨ d = ' ' := by
  cases h with
  | none => simp
  | some hc => simpa [or_assoc] using Or.inl hc

theorem Fraction.width {cs : List Char} (h : Fraction cs) {ds : List Char}
    (hdigit : ∀ d ∈ ds.head?, d.isDigit = false) (hpoint : ∀ d ∈ ds.head?, d ≠ '.') :
    fractionWidth (cs ++ ds) = cs.length := by
  cases h with
  | none =>
    rw [List.nil_append, fractionWidth]
    · rfl
    · rintro ds rfl
      exact hpoint '.' rfl rfl
  | some hdigits =>
    rw [List.cons_append, fractionWidth, takeWhile_append_of_stops hdigits hdigit, Nat.add_comm,
      List.length_cons]

theorem Fraction.head? {cs : List Char} (h : Fraction cs) (ds : List Char) :
    ∀ d ∈ (cs ++ ds).head?, d = '.' ∨ d ∈ ds.head? := by
  cases h with
  | none => exact fun d hd => .inr hd
  | some => simp

theorem decimal_take (cs : List Char) : Decimal (cs.take (decimalWidth cs)) := by
  rw [decimalWidth, List.take_add, List.take_add, take_length_takeWhile, List.append_assoc]
  exact .mk (all_takeWhile _ _) (fraction_take _) (exponent_take _)

theorem Decimal.width {cs : List Char} (h : Decimal cs) (ds : List Char) :
    decimalWidth (cs ++ ' ' :: ds) = cs.length := by
  obtain ⟨hwhole, hfraction, hexponent⟩ := h
  next whole fraction exponent =>
  have hbehind : ∀ d ∈ (exponent ++ ' ' :: ds).head?, d.isDigit = false ∧ d ≠ '.' := by
    intro d hd
    obtain rfl | rfl | rfl := hexponent.head? ds d hd
    all_goals exact ⟨by decide, by decide⟩
  have hdigit : ∀ d ∈ (fraction ++ (exponent ++ ' ' :: ds)).head?, d.isDigit = false := by
    intro d hd
    obtain rfl | hd := hfraction.head? _ d hd
    · decide
    · exact (hbehind d hd).1
  have hwhile := takeWhile_append_of_stops hwhole hdigit
  have hwidth := hfraction.width (fun d hd => (hbehind d hd).1) fun d hd => (hbehind d hd).2
  rw [List.append_assoc, List.append_assoc, decimalWidth, hwhile]
  simp only [List.drop_left, hwidth]
  rw [← List.drop_drop, List.drop_left, List.drop_left, hexponent.width]
  simp only [List.length_append, Nat.add_assoc]

theorem Decimal.ne_x {cs : List Char} (h : Decimal cs) : ∀ c ∈ cs, ¬ (c = 'x' ∨ c = 'X') := by
  have hdigit (c : Char) (hc : c.isDigit = true) : ¬ (c = 'x' ∨ c = 'X') := by
    rintro (rfl | rfl)
    all_goals exact absurd hc (by decide)
  obtain ⟨hwhole, hfraction, hexponent⟩ := h
  intro c hc
  rw [List.mem_append, List.mem_append] at hc
  obtain hc | hc | hc := hc
  · exact hdigit c (hwhole c hc)
  · cases hfraction with
    | none => cases hc
    | some hdigits =>
      obtain rfl | hc := List.mem_cons.1 hc
      · decide
      · exact hdigit c (hdigits c hc)
  · cases hexponent with
    | none => cases hc
    | some he hsign _ hdigits =>
      rw [List.mem_cons, List.mem_append] at hc
      obtain rfl | hc | hc := hc
      · obtain rfl | rfl := he
        all_goals decide
      · obtain rfl | rfl | rfl := hsign
        · cases hc
        · rw [List.mem_singleton.1 hc]
          decide
        · rw [List.mem_singleton.1 hc]
          decide
      · exact hdigit c (hdigits c hc)

theorem numberWidth_cases (cs : List Char) :
    (∃ x ds, cs = '0' :: x :: ds ∧ (x = 'x' ∨ x = 'X') ∧
      numberWidth cs = 2 + (ds.takeWhile Text.isHexDigit).length) ∨
    numberWidth cs = decimalWidth cs := by
  unfold numberWidth
  split
  · split
    · next hx => exact .inl ⟨_, _, rfl, hx, rfl⟩
    · exact .inr rfl
  · exact .inr rfl

theorem Decimal.numberWidth {cs : List Char} (h : Decimal cs) (ds : List Char) :
    numberWidth (cs ++ ' ' :: ds) = cs.length := by
  obtain ⟨x, ds', heq, hx, -⟩ | hdecimal := numberWidth_cases (cs ++ ' ' :: ds)
  · match cs with
    | [] => exact absurd (List.cons.inj heq).1 (by decide)
    | [c] =>
      rw [← (List.cons.inj (List.cons.inj heq).2).1] at hx
      exact absurd hx (by decide)
    | c :: y :: cs =>
      rw [← (List.cons.inj (List.cons.inj heq).2).1] at hx
      exact absurd hx (h.ne_x y (by simp))
  · rw [hdecimal, h.width]

/-- A number is the same when it is read again before a blank. -/
theorem numberWidth_take (cs ds : List Char) :
    numberWidth (cs.take (numberWidth cs) ++ ' ' :: ds) = numberWidth cs := by
  obtain ⟨x, cs, rfl, hx, hwidth⟩ | hwidth := numberWidth_cases cs
  · have htake : ('0' :: x :: cs).take (2 + (cs.takeWhile Text.isHexDigit).length) =
        '0' :: x :: cs.takeWhile Text.isHexDigit := by
      rw [Nat.add_comm, List.take_succ_cons, List.take_succ_cons, take_length_takeWhile]
    have hwhile : (cs.takeWhile Text.isHexDigit ++ ' ' :: ds).takeWhile Text.isHexDigit =
        cs.takeWhile Text.isHexDigit :=
      takeWhile_append_of_stops (all_takeWhile _ _) (by simp; decide)
    rw [hwidth, htake, List.cons_append, List.cons_append, numberWidth, if_pos hx, hwhile]
  · rw [hwidth, (decimal_take cs).numberWidth, List.length_take_of_le (decimalWidth_le cs)]

/-- How a character stands in a string literal. -/
def escape (c : Char) : List Char :=
  if c = '\n' then ['\\', 'n']
  else if c = '\r' then ['\\', 'r']
  else if c = '\u2028' then ['\\', 'u', '2', '0', '2', '8']
  else if c = '\u2029' then ['\\', 'u', '2', '0', '2', '9']
  else if c = '"' ∨ c = '\\' then ['\\', c]
  else [c]

/-- A literal between double quotes for a string. -/
def literal (s : String) : String := String.ofList ('"' :: (s.toList.flatMap escape ++ ['"']))

theorem stringBody_escape (c : Char) (value : List Char) (width : Nat) (cs : List Char) :
    stringBody '"' value width (escape c ++ cs) =
      stringBody '"' (c :: value) (width + (escape c).length) cs := by
  unfold escape
  split
  · next h =>
    subst h
    rfl
  split
  · next h =>
    subst h
    rfl
  split
  · next h =>
    subst h
    rfl
  split
  · next h =>
    subst h
    rfl
  split
  · next h =>
    obtain rfl | rfl := h
    · rfl
    · rfl
  · next hn hr h8 h9 h =>
    have hbreak : isLineBreak c = false := by simp [isLineBreak, hn, hr, h8, h9]
    have hquote : c ≠ '"' := fun hc => h (.inl hc)
    have hslash : c ≠ '\\' := fun hc => h (.inr hc)
    rw [List.singleton_append, stringBody.eq_def]
    simp [hquote, hbreak, hslash]

theorem stringBody_flatMap (value : List Char) (width : Nat) (cs rest : List Char) :
    stringBody '"' value width (cs.flatMap escape ++ '"' :: rest) =
      ⟨.string (String.ofList (value.reverse ++ cs)), width + (cs.flatMap escape).length + 1,
        rest, none⟩ := by
  induction cs generalizing value width with
  | nil =>
    rw [stringBody.eq_def]
    simp
  | cons c cs ih =>
    rw [List.flatMap_cons, List.append_assoc, stringBody_escape, ih, List.reverse_cons,
      List.append_assoc, List.singleton_append, List.length_append, Nat.add_assoc width]

theorem spells_literal (s : String) : Spells (literal s) (.string s) := by
  have hlist : (literal s).toList = '"' :: (s.toList.flatMap escape ++ ['"']) :=
    String.toList_ofList
  refine spells_of_lexeme hlist ⟨by decide, by decide⟩ (fun h => absurd h (by decide))
    fun ds => ?_
  have hquote : Punctuator.atHead? ('"' :: (s.toList.flatMap escape ++ '"' :: ' ' :: ds)) = none :=
    atHead?_eq_none (fun p => by cases p <;> decide) _
  rw [← String.length_toList, hlist, List.cons_append, List.append_assoc, List.singleton_append,
    lexeme, hquote]
  simp only [true_or, if_true, stringBody_flatMap, List.reverse_nil, List.nil_append,
    String.ofList_toList, List.length_cons, List.length_append, List.length_nil]
  rw [Nat.add_comm 1]

theorem startsNumber_cases {c : Char} {cs : List Char} (h : startsNumber (c :: cs) = true) :
    c.isDigit = true ∨ c = '.' ∧ ∃ d ds, cs = d :: ds ∧ d.isDigit = true := by
  unfold startsNumber at h
  split at h
  · next heq =>
    obtain ⟨rfl, rfl⟩ := List.cons.inj heq
    exact .inr ⟨rfl, _, _, rfl, h⟩
  · next heq =>
    rw [(List.cons.inj heq).1]
    exact .inl h
  · exact Bool.noConfusion h

theorem head?_text_ne_of_startsNumber {c : Char} {cs : List Char}
    (h : startsNumber (c :: cs) = true) (p : Punctuator) : p.text.toList.head? ≠ some c := by
  intro hc
  have hnone : p.text.toList.head?.any (fun c => c.isDigit || c = '.') = false := by
    cases p <;> decide
  rw [hc, Option.any_some, Bool.or_eq_false_iff, decide_eq_false_iff_not] at hnone
  obtain hdigit | ⟨hpoint, -⟩ := startsNumber_cases h
  · rw [hnone.1] at hdigit
    exact Bool.noConfusion hdigit
  · exact hnone.2 hpoint

theorem startsNumber_of_isDigit {c : Char} (h : c.isDigit = true) (cs : List Char) :
    startsNumber (c :: cs) = true := by
  rw [startsNumber]
  · exact h
  · rintro d ds rfl
    exact absurd h (by decide)

/-- The number at the head of a text is still one before a blank. -/
theorem startsNumber_take {c : Char} {cs : List Char} (h : startsNumber (c :: cs) = true)
    (ds : List Char) :
    startsNumber ((c :: cs).take (numberWidth (c :: cs)) ++ ' ' :: ds) = true := by
  have hpos := numberWidth_pos h
  obtain hdigit | ⟨rfl, d, cs, rfl, hd⟩ := startsNumber_cases h
  · obtain ⟨n, hn⟩ := Nat.exists_eq_add_one_of_ne_zero (Nat.pos_iff_ne_zero.1 hpos)
    rw [hn, List.take_succ_cons, List.cons_append]
    exact startsNumber_of_isDigit hdigit _
  · have hwidth : 2 ≤ numberWidth ('.' :: d :: cs) := by
      rw [numberWidth, decimalWidth]
      · simp [fractionWidth, hd]
        omega
      · exact fun _ _ hzero => absurd (List.cons.inj hzero).1 (by decide)
    obtain ⟨n, hn⟩ := Nat.exists_eq_add_of_le' hwidth
    rw [hn, List.take_succ_cons, List.take_succ_cons]
    exact hd

theorem spells_number {c : Char} {cs : List Char} (hc : EndsGap c)
    (h : startsNumber (c :: cs) = true) :
    Spells (String.ofList ((c :: cs).take (numberWidth (c :: cs))))
      (.number (String.ofList ((c :: cs).take (numberWidth (c :: cs))))) := by
  have hlength := List.length_take_of_le (numberWidth_le (c :: cs))
  have hagain := numberWidth_take (c :: cs)
  have hstarts := startsNumber_take h
  obtain ⟨n, hn⟩ := Nat.exists_eq_add_one_of_ne_zero (Nat.pos_iff_ne_zero.1 (numberWidth_pos h))
  rw [hn, List.take_succ_cons] at hlength hagain hstarts ⊢
  refine spells_of_lexeme String.toList_ofList hc (fun hslash => ?_) fun ds => ?_
  · exact absurd (by rw [hslash]; rfl) (head?_text_ne_of_startsNumber h .slash)
  · have hquote : ¬ (c = '"' ∨ c = '\'') := by
      rintro (rfl | rfl)
      · exact absurd (startsNumber_cases h) (by simp)
      · exact absurd (startsNumber_cases h) (by simp)
    rw [String.toList_ofList, List.cons_append, lexeme,
      atHead?_eq_none (head?_text_ne_of_startsNumber h)]
    simp only [hquote, if_false, ← List.cons_append, hstarts ds, if_true, Lexeme.ofWidth]
    rw [hagain ds, ← hlength, List.take_left, List.drop_left, ← String.length_ofList]

/-- A name or a number is what its text is read as. -/
def Genuine : Token.Kind → Prop
  | .identifier w => Spells w (.identifier w)
  | .number w => Spells w (.number w)
  | _ => True

theorem genuine_lexeme {c : Char} (hc : EndsGap c) (cs : List Char) :
    Genuine (lexeme (c :: cs)).kind := by
  obtain ⟨p, -, heq⟩ | ⟨-, heq⟩ | ⟨hnumber, heq⟩ | ⟨hstart, heq⟩ | heq := lexeme_cases c cs
  all_goals rw [heq]
  · trivial
  · obtain ⟨covered, hcovered⟩ := exists_completes_stringBody c [] 1 cs
    obtain ⟨s, hs⟩ := hcovered.kind
    rw [hs]
    trivial
  · exact spells_number hc hnumber
  · have hpart := all_takeWhile isIdentifierPart (c :: cs)
    have hword : ∃ ds, (c :: cs).takeWhile isIdentifierPart = c :: ds :=
      ⟨_, List.takeWhile_cons_of_pos (isIdentifierPart_of_start hstart)⟩
    rw [Lexeme.ofWidth, take_length_takeWhile]
    obtain ⟨ds, hds⟩ := hword
    rw [hds] at hpart ⊢
    have hspells := spells_word String.toList_ofList hc hstart (by rwa [String.toList_ofList])
    dsimp only
    obtain ⟨k, -, hkind⟩ | ⟨-, hkind⟩ := wordKind_cases (String.ofList (c :: ds))
    · rw [hkind]
      trivial
    · rw [hkind] at hspells ⊢
      exact hspells
  · trivial

theorem genuine_step (pos : Nat) (cs : List Char) : Genuine (step ⟨pos, cs⟩).token.kind := by
  rw [step]
  cases hrest : (gap .outside false pos cs).rest with
  | nil => trivial
  | cons c ds => exact genuine_lexeme (endsGap_of_gap hrest) ds

theorem genuine_readFrom (fuel : Nat) (at_ : Cursor) :
    ∀ t ∈ (readFrom fuel at_).tokens, Genuine t.kind := by
  induction fuel generalizing at_ with
  | zero =>
    intro t ht
    rw [List.mem_singleton.1 ht]
    exact genuine_step _ _
  | succ fuel ih =>
    intro t ht
    rw [readFrom] at ht
    split at ht
    · rw [List.mem_singleton.1 ht]
      exact genuine_step _ _
    · obtain rfl | ht := List.mem_cons.1 ht
      · exact genuine_step _ _
      · exact ih _ t ht

/-- Each name and each number of a text can be written again as it stands there. -/
theorem genuine_read (text : String) : ∀ t ∈ (read text).tokens, Genuine t.kind :=
  genuine_readFrom _ _

end ScopeChain.Lexer
