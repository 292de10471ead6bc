import ScopeChain.Proofs.Hexadecimal
import ScopeChain.Proofs.Spellings

/-! What string literals stand for. The inside of a literal falls into parts, each of which stands
for some characters whatever was read before it, up to the quote, the line break or the end of the
text at which it stops. -/
namespace ScopeChain.Lexer

/-- The letters behind a backslash that stand for another character. -/
def letterEscapes : List (Char × Char) := [('n', '\n'), ('t', '\t'), ('r', '\r'), ('0', '\x00')]

/-- The digits of a character, as they stand behind `\u`. -/
def Escape (window : List Char) (c : Char) : Prop :=
  window.length = 4 ∧ Text.DenotesHex window c.toNat

/-- The digits of a character, the first of which may have given way to a plus sign. -/
def LooseEscape (window : List Char) (c : Char) : Prop :=
  window.length = 4 ∧ ∃ digits, (window = digits ∨ window = '+' :: digits) ∧
    Text.DenotesHex digits c.toNat

/-- How characters are spelt in a literal between some quotes. A backslash before a line break that
it joins stands for nothing. -/
inductive Spelling (joins : Char → Bool) (quote : Char) : (covered value : List Char) → Prop where
  | raw {c : Char} : c ≠ quote → c ≠ '\\' → isLineBreak c = false → Spelling joins quote [c] [c]
  | letter {x c : Char} : (x, c) ∈ letterEscapes → Spelling joins quote ['\\', x] [c]
  | unicode {window : List Char} {c : Char} : Escape window c →
    Spelling joins quote ('\\' :: 'u' :: window) [c]
  | itself {c : Char} : c ∉ ['n', 't', 'r', '0', 'u'] → joins c = false →
    Spelling joins quote ['\\', c] [c]
  | joined {c : Char} : joins c = true → Spelling joins quote ['\\', c] []
  | joinedPair : joins '\r' = true → Spelling joins quote ['\\', '\r', '\n'] []

/-- A text that spells some characters one after the other. -/
inductive Spelt (joins : Char → Bool) (quote : Char) : (text value : List Char) → Prop where
  | nil : Spelt joins quote [] []
  | cons {covered v text value : List Char} : Spelling joins quote covered v →
    Spelt joins quote text value → Spelt joins quote (covered ++ text) (v ++ value)

/-- The only line break that a backslash joins is the line feed. -/
def joinsLine (c : Char) : Bool := c = '\n'

/-- What a stretch of a literal stands for before the rest of the text: what it spells, or what
comes of a `\u` that spells nothing. -/
inductive Stands (quote : Char) : (covered value behind : List Char) → Prop where
  | spelling {covered value behind : List Char} : Spelling joinsLine quote covered value →
    Stands quote covered value behind
  | plus {digits behind : List Char} {c : Char} : digits.length = 3 →
    Text.DenotesHex digits c.toNat → Stands quote ('\\' :: 'u' :: '+' :: digits) [c] behind
  | letterU {behind : List Char} : (∀ c, ¬ LooseEscape (behind.take 4) c) →
    Stands quote ['\\', 'u'] ['u'] behind

/-- The place at which a literal stops, how many characters of it still belong to the literal, and
what is wrong with it. -/
inductive Stops (quote : Char) : (tail : List Char) → (closing : Nat) → Option Message → Prop where
  | closed {rest : List Char} : Stops quote (quote :: rest) 1 none
  | lineBreak {c : Char} {rest : List Char} : c ≠ quote → isLineBreak c = true →
    Stops quote (c :: rest) 0 (some .unterminatedString)
  | ended : Stops quote [] 0 (some .unterminatedString)
  | escaping : quote ≠ '\\' → Stops quote ['\\'] 1 (some .unterminatedString)

/-- A stretch of a literal and the characters that it stands for. -/
structure Part where
  covered : List Char
  value : List Char

/-- Each of some parts before a tail stands for its value where it is. -/
def Splits (quote : Char) (tail : List Char) : List Part → Prop
  | [] => True
  | p :: ps => Stands quote p.covered p.value (ps.flatMap Part.covered ++ tail) ∧
    Splits quote tail ps

/-- What stands at the head of a text is a literal of some width for a string, with these parts and
this tail, at which it stops. -/
structure LiteralAt (cs : List Char) (width : Nat) (s : String) (quote : Char) (ps : List Part)
    (tail : List Char) : Prop where
  chars : cs = quote :: (ps.flatMap Part.covered ++ tail)
  isQuote : quote = '"' ∨ quote = '\''
  splits : Splits quote tail ps
  stops : ∃ closing problem?, Stops quote tail closing problem? ∧
    width = 1 + (ps.flatMap Part.covered).length + closing
  value : s = String.ofList (ps.flatMap Part.value)

theorem escapedUnit?_eq_some_iff {window : List Char} {c : Char} (h : window.length = 4) :
    escapedUnit? window = some c ↔ LooseEscape window c := by
  rw [escapedUnit?, Option.bind_eq_some_iff]
  simp only [Text.hexValue?_eq_some_iff]
  constructor
  · rintro ⟨n, ⟨digits, hdigits, -, hn, -⟩, hc⟩
    split at hc
    · next hvalid =>
      obtain rfl := Option.some.inj hc
      refine ⟨h, digits, hdigits, ?_⟩
      rwa [Char.ofNat, dif_pos hvalid]
    · cases hc
  · rintro ⟨-, digits, hdigits, hn⟩
    refine ⟨c.toNat, ⟨digits, hdigits, ?_, hn, c.val.toNat_lt_size⟩, ?_⟩
    · rintro rfl
      rcases hdigits with rfl | rfl
      · cases h
      · cases h
    · rw [if_pos (show c.toNat.isValidChar from c.valid), Char.ofNat_toNat]

theorem Escape.loose {window : List Char} {c : Char} (h : Escape window c) :
    LooseEscape window c := ⟨h.1, window, .inl rfl, h.2⟩

section

variable {quote : Char} (hquote : quote ≠ '\\') (value : List Char) (width : Nat)

include hquote

theorem stringBody_backslash {x : Char} (hbreak : x ≠ '\n') (hu : x ≠ 'u') (ds : List Char) :
    stringBody quote value width ('\\' :: x :: ds) =
      stringBody quote ((escapedLetter? x).getD x :: value) (width + 2) ds := by
  rw [stringBody.eq_def]
  simp [hquote.symm, hu, show isLineBreak '\\' = false by decide]

theorem stringBody_digits {window : List Char} {c : Char} (h : LooseEscape window c)
    (behind : List Char) :
    stringBody quote value width ('\\' :: 'u' :: (window ++ behind)) =
      stringBody quote (c :: value) (width + 6) behind := by
  obtain ⟨a, ds, rfl⟩ := List.exists_cons_of_length_eq_add_one h.1
  obtain ⟨b, d, e, rfl⟩ := List.length_eq_three.1 (Nat.succ.inj h.1)
  have hunit := (escapedUnit?_eq_some_iff h.1).2 h
  rw [stringBody.eq_def]
  simp [hquote.symm, hunit, show isLineBreak '\\' = false by decide]

theorem stringBody_letterU {behind : List Char} (h : ∀ c, ¬ LooseEscape (behind.take 4) c) :
    stringBody quote value width ('\\' :: 'u' :: behind) =
      stringBody quote ('u' :: value) (width + 2) behind := by
  rw [stringBody.eq_def]
  simp only [hquote.symm, show isLineBreak '\\' = false by decide]
  rcases behind with _ | ⟨a, _ | ⟨b, _ | ⟨d, _ | ⟨e, ds⟩⟩⟩⟩
  case cons.cons.cons.cons =>
    have hunit : escapedUnit? [a, b, d, e] = none := by
      rw [Option.eq_none_iff_forall_ne_some]
      exact fun c hc => h c ((escapedUnit?_eq_some_iff rfl).1 hc)
    simp [hunit]
  all_goals simp [escapedLetter?]

theorem stringBody_spelling {covered v : List Char} (h : Spelling joinsLine quote covered v)
    (behind : List Char) :
    stringBody quote value width (covered ++ behind) =
      stringBody quote (v.reverse ++ value) (width + covered.length) behind := by
  cases h with
  | raw hne hslash hbreak =>
    rw [List.singleton_append, stringBody.eq_def]
    simp [hne, hslash, hbreak]
  | @letter x c hx =>
    simp only [letterEscapes, List.mem_cons, Prod.mk.injEq, List.not_mem_nil, or_false] at hx
    obtain ⟨rfl, rfl⟩ | ⟨rfl, rfl⟩ | ⟨rfl, rfl⟩ | ⟨rfl, rfl⟩ := hx
    all_goals exact stringBody_backslash hquote value width (by decide) (by decide) behind
  | @unicode window c hc =>
    rw [List.cons_append, List.cons_append, stringBody_digits hquote value width hc.loose,
      List.length_cons, List.length_cons, hc.1]
    rfl
  | @itself c hc hjoins =>
    simp only [List.mem_cons, List.not_mem_nil, or_false, not_or] at hc
    obtain ⟨hn, ht, hr, h0, hu⟩ := hc
    have hletter : escapedLetter? c = none := by
      unfold escapedLetter?
      split
      · exact absurd rfl hn
      · exact absurd rfl ht
      · exact absurd rfl hr
      · exact absurd rfl h0
      · rfl
    have hbreak : c ≠ '\n' := of_decide_eq_false hjoins
    have hbody := stringBody_backslash hquote value width hbreak hu behind
    rwa [hletter] at hbody
  | @joined c hc =>
    obtain rfl : c = '\n' := of_decide_eq_true hc
    rw [List.cons_append, stringBody.eq_def]
    simp [hquote.symm, show isLineBreak '\\' = false by decide]
  | joinedPair h => exact absurd h (by decide)

/-- A part is read as what it stands for. -/
theorem stringBody_stands {covered v behind : List Char} (h : Stands quote covered v behind) :
    stringBody quote value width (covered ++ behind) =
      stringBody quote (v.reverse ++ value) (width + covered.length) behind := by
  cases h with
  | spelling h => exact stringBody_spelling hquote value width h behind
  | @plus digits _ c hlength hc =>
    have hwindow : LooseEscape ('+' :: digits) c :=
      ⟨by rw [List.length_cons, hlength], digits, .inr rfl, hc⟩
    have hbody := stringBody_digits hquote value width hwindow behind
    rw [List.length_cons, List.length_cons, List.length_cons, hlength]
    exact hbody
  | letterU h => exact stringBody_letterU hquote value width h

theorem stringBody_splits {tail : List Char} {ps : List Part} (h : Splits quote tail ps) :
    stringBody quote value width (ps.flatMap Part.covered ++ tail) =
      stringBody quote ((ps.flatMap Part.value).reverse ++ value)
        (width + (ps.flatMap Part.covered).length) tail := by
  induction ps generalizing value width with
  | nil => rfl
  | cons p ps ih =>
    rw [List.flatMap_cons, List.append_assoc, stringBody_stands hquote value width h.1,
      ih _ _ h.2, List.flatMap_cons, List.reverse_append, List.append_assoc, List.length_append,
      Nat.add_assoc]

end

/-- Where a literal stops, what is read of it is its value. -/
theorem stringBody_stops {quote : Char} {tail : List Char} {closing : Nat}
    {problem? : Option Message} (h : Stops quote tail closing problem?) (value : List Char)
    (width : Nat) :
    stringBody quote value width tail =
      ⟨.string (String.ofList value.reverse), width + closing, tail.drop closing, problem?⟩ := by
  cases h with
  | closed =>
    rw [stringBody.eq_def]
    simp
  | lineBreak hne hbreak =>
    rw [stringBody.eq_def]
    simp [hne, hbreak]
  | ended => rfl
  | escaping hne =>
    rw [stringBody.eq_def]
    simp [hne.symm, show isLineBreak '\\' = false by decide]

/-- What a backslash and the characters behind it stand for. -/
theorem exists_stands_backslash (quote : Char) (x : Char) (cs : List Char) :
    ∃ covered v behind, Stands quote covered v behind ∧ covered ≠ [] ∧
      '\\' :: x :: cs = covered ++ behind := by
  by_cases hu : x = 'u'
  · subst hu
    by_cases h : ∃ c, LooseEscape (cs.take 4) c
    · obtain ⟨c, hlength, digits, hdigits, hc⟩ := h
      refine ⟨'\\' :: 'u' :: cs.take 4, [c], cs.drop 4, ?_, List.cons_ne_nil _ _, ?_⟩
      · obtain hwindow | hwindow := hdigits
        · exact .spelling (.unicode ⟨hlength, hwindow ▸ hc⟩)
        · rw [hwindow] at hlength ⊢
          exact .plus (Nat.succ.inj hlength) hc
      · rw [List.cons_append, List.cons_append, List.take_append_drop]
    · exact ⟨['\\', 'u'], ['u'], cs, .letterU (not_exists.1 h), List.cons_ne_nil _ _, rfl⟩
  · by_cases hletter : ∃ c, (x, c) ∈ letterEscapes
    · obtain ⟨c, hc⟩ := hletter
      exact ⟨['\\', x], [c], cs, .spelling (.letter hc), List.cons_ne_nil _ _, rfl⟩
    · cases hjoins : joinsLine x with
      | true => exact ⟨['\\', x], [], cs, .spelling (.joined hjoins), List.cons_ne_nil _ _, rfl⟩
      | false =>
        refine ⟨['\\', x], [x], cs, .spelling (.itself ?_ hjoins), List.cons_ne_nil _ _, rfl⟩
        intro hx
        refine hletter ?_
        simp only [List.mem_cons, List.not_mem_nil, or_false] at hx
        obtain rfl | rfl | rfl | rfl | rfl := hx
        · exact ⟨'\n', by decide⟩
        · exact ⟨'\t', by decide⟩
        · exact ⟨'\r', by decide⟩
        · exact ⟨'\x00', by decide⟩
        · exact absurd rfl hu

/-- A text is where a literal stops, or a part of one stands at its head. -/
theorem stops_or_stands {quote : Char} (hquote : quote ≠ '\\') (cs : List Char) :
    (∃ closing problem?, Stops quote cs closing problem?) ∨
    ∃ covered v behind, Stands quote covered v behind ∧ covered ≠ [] ∧ cs = covered ++ behind := by
  match cs with
  | [] => exact .inl ⟨_, _, .ended⟩
  | c :: cs =>
    by_cases hc : c = quote
    · subst hc
      exact .inl ⟨_, _, .closed⟩
    cases hbreak : isLineBreak c with
    | true => exact .inl ⟨_, _, .lineBreak hc hbreak⟩
    | false =>
      by_cases hslash : c = '\\'
      · subst hslash
        match cs with
        | [] => exact .inl ⟨_, _, .escaping hquote⟩
        | x :: cs => exact .inr (exists_stands_backslash quote x cs)
      · exact .inr ⟨[c], [c], cs, .spelling (.raw hc hslash hbreak), List.cons_ne_nil _ _, rfl⟩

theorem exists_splits {quote : Char} (hquote : quote ≠ '\\') (cs : List Char) :
    ∃ ps tail closing problem?, cs = ps.flatMap Part.covered ++ tail ∧ Splits quote tail ps ∧
      Stops quote tail closing problem? := by
  induction hn : cs.length using Nat.strong_induction_on generalizing cs with
  | _ n ih =>
    obtain ⟨closing, problem?, hstops⟩ | ⟨covered, v, behind, hstands, hne, rfl⟩ :=
      stops_or_stands hquote cs
    · exact ⟨[], cs, closing, problem?, rfl, trivial, hstops⟩
    · have hpos := List.length_pos_iff.2 hne
      rw [List.length_append] at hn
      obtain ⟨ps, tail, closing, problem?, rfl, hsplits, hstops⟩ :=
        ih behind.length (by omega) behind rfl
      refine ⟨⟨covered, v⟩ :: ps, tail, closing, problem?, ?_, ⟨hstands, hsplits⟩, hstops⟩
      rw [List.flatMap_cons, List.append_assoc]

theorem ne_backslash_of_quote {quote : Char} (h : quote = '"' ∨ quote = '\'') :
    quote ≠ '\\' := by
  rcases h with rfl | rfl
  · decide
  · decide

theorem lexeme_of_quote {quote : Char} (h : quote = '"' ∨ quote = '\'') (cs : List Char) :
    lexeme (quote :: cs) = stringBody quote [] 1 cs := by
  have hnone : Punctuator.atHead? (quote :: cs) = none := by
    refine atHead?_eq_none (fun p => ?_) cs
    rcases h with rfl | rfl
    · cases p <;> decide
    · cases p <;> decide
  rw [lexeme, hnone]
  exact if_pos h

/-- Only at a quote does a string literal start. -/
theorem starts_with_quote {cs : List Char} {s : String} (h : (lexeme cs).kind = .string s) :
    ∃ quote behind, cs = quote :: behind ∧ (quote = '"' ∨ quote = '\'') := by
  match cs with
  | [] => cases h
  | c :: cs =>
    refine ⟨c, cs, rfl, ?_⟩
    obtain ⟨p, -, heq⟩ | ⟨hquote, -⟩ | ⟨-, heq⟩ | ⟨-, heq⟩ | heq := lexeme_cases c cs
    · rw [heq] at h
      cases h
    · exact hquote
    · rw [heq] at h
      cases h
    · rw [heq] at h
      exact absurd h (wordKind_ne _ nofun nofun)
    · rw [heq] at h
      cases h

/-- A literal is read part after part. -/
theorem lexeme_splits {quote : Char} (hquote : quote = '"' ∨ quote = '\'') {ps : List Part}
    {tail : List Char} {closing : Nat} {problem? : Option Message} (hsplits : Splits quote tail ps)
    (hstops : Stops quote tail closing problem?) :
    lexeme (quote :: (ps.flatMap Part.covered ++ tail)) =
      ⟨.string (String.ofList (ps.flatMap Part.value)),
        1 + (ps.flatMap Part.covered).length + closing, tail.drop closing, problem?⟩ := by
  rw [lexeme_of_quote hquote, stringBody_splits (ne_backslash_of_quote hquote) [] 1 hsplits,
    stringBody_stops hstops, List.append_nil, List.reverse_reverse]

theorem Spelt.splits {quote : Char} {text value : List Char} (h : Spelt joinsLine quote text value)
    (tail : List Char) :
    ∃ ps, Splits quote tail ps ∧ text = ps.flatMap Part.covered ∧
      value = ps.flatMap Part.value := by
  induction h with
  | nil => exact ⟨[], trivial, rfl, rfl⟩
  | @cons covered v text value hspelling _ ih =>
    obtain ⟨ps, hsplits, rfl, rfl⟩ := ih
    exact ⟨⟨covered, v⟩ :: ps, ⟨.spelling hspelling, hsplits⟩, by simp, by simp⟩

theorem step_spelt {quote : Char} (hquote : quote = '"' ∨ quote = '\'') {text value : List Char}
    (h : Spelt joinsLine quote text value) (pos : Nat) (rest : List Char) :
    step ⟨pos, quote :: (text ++ quote :: rest)⟩ =
      ⟨⟨.string (String.ofList value), ⟨pos, pos + (text.length + 2)⟩, false⟩,
        ⟨pos + (text.length + 2), rest⟩, []⟩ := by
  obtain ⟨ps, hsplits, rfl, rfl⟩ := h.splits (quote :: rest)
  have hends : EndsGap quote := by
    rcases hquote with rfl | rfl
    · exact ⟨by decide, by decide⟩
    · exact ⟨by decide, by decide⟩
  have hslash : quote ≠ '/' := by
    rcases hquote with rfl | rfl
    · decide
    · decide
  have hgap (cs : List Char) :
      gap .outside false pos (quote :: cs) = ⟨pos, quote :: cs, false, none⟩ :=
    hends.gap (fun h => absurd h hslash) false pos
  have hwidth : 1 + (ps.flatMap Part.covered).length + 1 =
      (ps.flatMap Part.covered).length + 2 := by omega
  simp only [step, hgap, lexeme_splits hquote hsplits .closed, hwidth]
  rfl

/-- A literal is read as what it spells, as one token and without complaint. -/
theorem spelt_literal_decodes {quote : Char} (hquote : quote = '"' ∨ quote = '\'')
    {text value : List Char} (h : Spelt joinsLine quote text value) :
    (∀ pos rest, step ⟨pos, quote :: (text ++ quote :: rest)⟩ =
      ⟨⟨.string (String.ofList value), ⟨pos, pos + (text.length + 2)⟩, false⟩,
        ⟨pos + (text.length + 2), rest⟩, []⟩) ∧
    read (String.ofList (quote :: (text ++ [quote]))) =
      ⟨[⟨.string (String.ofList value), ⟨0, text.length + 2⟩, false⟩,
        ⟨.endOfFile, ⟨text.length + 2, text.length + 2⟩, false⟩], []⟩ := by
  have hstep := step_spelt hquote h
  refine ⟨hstep, ?_⟩
  have hlength : (String.ofList (quote :: (text ++ [quote]))).length = text.length + 2 := by
    rw [String.length_ofList, List.length_cons, List.length_append]
    rfl
  rw [read, hlength, String.toList_ofList, readFrom, hstep 0 []]
  simp only [reduceCtorEq, if_false, Nat.zero_add]
  rfl

theorem spelt_literal_decodes_mixed :
    Spelt joinsLine '\'' "a\\n\"\\u0041\\\n\\q".toList "a\n\"Aq".toList ∧
    read "'a\\n\"\\u0041\\\n\\q'" =
      ⟨[⟨.string "a\n\"Aq", ⟨0, 16⟩, false⟩, ⟨.endOfFile, ⟨16, 16⟩, false⟩], []⟩ := by
  have hdigits : Text.DenotesHex ['0', '0', '4', '1'] 'A'.toNat :=
    Text.hexFold_zero_eq_some_iff.1 (by decide)
  have hspelt : Spelt joinsLine '\'' "a\\n\"\\u0041\\\n\\q".toList "a\n\"Aq".toList :=
    .cons (.raw (c := 'a') (by decide) (by decide) (by decide)) <|
    .cons (.letter (x := 'n') (c := '\n') (by decide)) <|
    .cons (.raw (c := '"') (by decide) (by decide) (by decide)) <|
    .cons (.unicode ⟨rfl, hdigits⟩) <|
    .cons (.joined (c := '\n') (by decide)) <|
    .cons (.itself (c := 'q') (by decide) (by decide)) .nil
  exact ⟨hspelt, (spelt_literal_decodes (.inr rfl) hspelt).2⟩

/-- A carriage return behind a backslash is kept, and the line feed behind it ends the literal, for
all that the two break the line as one. -/
theorem carriage_return_is_not_joined :
    Spelt isLineBreak '\'' "a\\\r\nb".toList "ab".toList ∧
    (step ⟨0, "'a\\\r\nb'".toList⟩).token = ⟨.string "a\r", ⟨0, 4⟩, false⟩ ∧
    (step ⟨0, "'a\\\r\nb'".toList⟩).problems =
      [Diagnostic.located "" ⟨0, 4⟩ .unterminatedString []] := by
  refine ⟨?_, by decide +kernel, by decide +kernel⟩
  exact .cons (.raw (c := 'a') (by decide) (by decide) (by decide)) <|
    .cons (.joinedPair (by decide)) <|
    .cons (.raw (c := 'b') (by decide) (by decide) (by decide)) .nil

/-- With `behind` behind its `\u`, a part takes the four characters there if these are the digits of
a character, and stands for that; otherwise it is the `\u` alone and stands for the letter. -/
inductive IsUnicode (behind : List Char) : Part → Prop where
  | digits {c : Char} : LooseEscape (behind.take 4) c →
    IsUnicode behind ⟨'\\' :: 'u' :: behind.take 4, [c]⟩
  | letter : (∀ c, ¬ LooseEscape (behind.take 4) c) → IsUnicode behind ⟨['\\', 'u'], ['u']⟩

theorem LooseEscape.isUnicode {window : List Char} {c : Char} (h : LooseEscape window c)
    (behind : List Char) : IsUnicode (window ++ behind) ⟨'\\' :: 'u' :: window, [c]⟩ := by
  have htake : (window ++ behind).take 4 = window := by rw [← h.1, List.take_left]
  rw [← htake] at h
  have hdigits := IsUnicode.digits h
  rwa [htake] at hdigits

theorem eq_of_unicode_prefix {c : Char} {cs : List Char} (h : ['\\', 'u'] <+: '\\' :: c :: cs) :
    c = 'u' := by
  rw [List.cons_prefix_cons, List.cons_prefix_cons] at h
  exact h.2.1.symm

theorem Stands.isUnicode {quote : Char} {p : Part} {behind : List Char}
    (h : Stands quote p.covered p.value behind) (hu : ['\\', 'u'] <+: p.covered) :
    IsUnicode (p.covered.drop 2 ++ behind) p := by
  obtain ⟨covered, v⟩ := p
  cases h with
  | spelling h =>
    cases h with
    | raw =>
      have hle := hu.length_le
      simp at hle
    | letter hx =>
      obtain rfl := eq_of_unicode_prefix hu
      simp [letterEscapes] at hx
    | unicode hc => exact hc.loose.isUnicode behind
    | itself hc =>
      obtain rfl := eq_of_unicode_prefix hu
      simp at hc
    | joined hjoins =>
      obtain rfl := eq_of_unicode_prefix hu
      exact absurd hjoins (by decide)
    | joinedPair hjoins => exact absurd hjoins (by decide)
  | @plus digits _ c hlength hc =>
    have hwindow : LooseEscape ('+' :: digits) c :=
      ⟨by rw [List.length_cons, hlength], digits, .inr rfl, hc⟩
    exact hwindow.isUnicode behind
  | letterU h => exact .letter h

theorem Splits.mem {quote : Char} {tail : List Char} {front back : List Part} {p : Part}
    (h : Splits quote tail (front ++ p :: back)) :
    Stands quote p.covered p.value (back.flatMap Part.covered ++ tail) := by
  induction front with
  | nil => exact h.1
  | cons _ _ ih => exact ih h.2

theorem exists_literalAt {cs : List Char} {s : String} (h : (lexeme cs).kind = .string s) :
    ∃ quote ps tail, LiteralAt cs (lexeme cs).width s quote ps tail := by
  obtain ⟨quote, cs, rfl, hquote⟩ := starts_with_quote h
  obtain ⟨ps, tail, closing, problem?, rfl, hsplits, hstops⟩ :=
    exists_splits (ne_backslash_of_quote hquote) cs
  have hlexeme := lexeme_splits hquote hsplits hstops
  rw [hlexeme] at h
  refine ⟨quote, ps, tail, rfl, hquote, hsplits, ⟨closing, problem?, hstops, ?_⟩, ?_⟩
  · rw [hlexeme]
  · exact (Token.Kind.string.inj h).symm

/-- Each literal falls into parts, and those that start with `\u` take the four characters behind it
exactly if these are the digits of a character, the first of which may have given way to a plus
sign. All that they leave is covered by the parts behind them. -/
theorem unicode_escapes_in_literals (text : String) :
    ∀ t ∈ (read text).tokens, ∀ s, t.kind = .string s →
      ∃ width quote ps tail, t.span.stop = t.span.start + width ∧
        LiteralAt (text.toList.drop t.span.start) width s quote ps tail ∧
        ∀ front p back, ps = front ++ p :: back → ['\\', 'u'] <+: p.covered →
          IsUnicode (p.covered.drop 2 ++ (back.flatMap Part.covered ++ tail)) p := by
  intro t ht s hs
  obtain ⟨-, hkind, hstop⟩ := occurs_read text t ht
  obtain ⟨quote, ps, tail, hliteral⟩ := exists_literalAt (hkind.symm.trans hs)
  refine ⟨_, quote, ps, tail, hstop, hliteral, ?_⟩
  rintro front p back rfl hu
  exact hliteral.splits.mem.isUnicode hu

theorem unicode_escapes_in_two_parts :
    (⟨.string "Au004", ⟨0, 13⟩, false⟩ : Token) ∈ (read "'\\u0041\\u004'").tokens ∧
    ∃ width quote ps tail, 13 = 0 + width ∧
      LiteralAt "'\\u0041\\u004'".toList width "Au004" quote ps tail ∧
      ∀ front p back, ps = front ++ p :: back → ['\\', 'u'] <+: p.covered →
        IsUnicode (p.covered.drop 2 ++ (back.flatMap Part.covered ++ tail)) p := by
  have hmem : (⟨.string "Au004", ⟨0, 13⟩, false⟩ : Token) ∈ (read "'\\u0041\\u004'").tokens := by
    decide +kernel
  exact ⟨hmem, unicode_escapes_in_literals _ _ hmem _ rfl⟩

/-- The plus sign and three digits are taken for a character, but they are not its four digits. -/
theorem plus_sign_is_taken_for_digit :
    (∀ c, ¬ Escape ['+', '0', '4', '1'] c) ∧
    read "'\\u+041'" =
      ⟨[⟨.string "A", ⟨0, 8⟩, false⟩, ⟨.endOfFile, ⟨8, 8⟩, false⟩], []⟩ := by
  refine ⟨?_, by decide +kernel⟩
  rintro c ⟨-, hc⟩
  exact Text.not_denotesHex_plus hc

end ScopeChain.Lexer
