import ScopeChain.Token.Lexer

/-! The tokens of a text tile it: between them stand blanks, line breaks and comments, no character
is read twice and none is left out. -/
namespace ScopeChain.Lexer

/-- What stands between two tokens. It is open if it ends in a comment that is never closed. -/
inductive Filler : (isOpen : Bool) → List Char → Prop where
  | nil : Filler false []
  | space {isOpen : Bool} {c : Char} {cs : List Char} :
    isBlank c = true ∨ isLineBreak c = true → Filler isOpen cs → Filler isOpen (c :: cs)
  /-- A comment up to the end of its line, which is not part of it. -/
  | line {isOpen : Bool} {body cs : List Char} :
    (∀ c ∈ body, isLineBreak c = false) → (∀ c ∈ cs.head?, isLineBreak c = true) →
    Filler isOpen cs → Filler isOpen ('/' :: '/' :: (body ++ cs))
  | block {isOpen : Bool} {body cs : List Char} :
    ¬ ['*', '/'] <:+: body → Filler isOpen cs →
    Filler isOpen ('/' :: '*' :: (body ++ '*' :: '/' :: cs))
  | unclosed {body : List Char} : ¬ ['*', '/'] <:+: body → Filler true ('/' :: '*' :: body)

/-- The characters that a token covers, and those behind it, are right for its kind. -/
def Covers : Token.Kind → (covered rest : List Char) → Prop
  | .number s, covered, _ => covered = s.toList
  | .punctuator p, covered, _ => covered = p.text.toList
  | .identifier s, covered, rest =>
    covered = s.toList ∧ ∀ c ∈ rest.head?, isIdentifierPart c = false
  | .keyword k, covered, rest =>
    covered = k.text.toList ∧ ∀ c ∈ rest.head?, isIdentifierPart c = false
  | .string _, _, _ | .unknown, _, _ => True
  | .endOfFile, _, _ => False

/-- Tokens share out the characters from a position on. Before each stands what belongs to no token,
and its mark of a line break tells whether there is one in that; the end of the file comes last. -/
inductive Tiles : (pos : Nat) → List Char → List Token → Prop where
  | last {pos : Nat} {isOpen : Bool} {gap : List Char} : Filler isOpen gap →
    Tiles pos gap
      [⟨.endOfFile, ⟨pos + gap.length, pos + gap.length⟩, gap.any isLineBreak⟩]
  | next {pos : Nat} {gap covered rest : List Char} {kind : Token.Kind} {ts : List Token} :
    Filler false gap → covered ≠ [] → Covers kind covered rest →
    Tiles (pos + gap.length + covered.length) rest ts →
    Tiles pos (gap ++ (covered ++ rest))
      (⟨kind, ⟨pos + gap.length, pos + gap.length + covered.length⟩, gap.any isLineBreak⟩ :: ts)

/-- What is read from inside of a comment, or from outside of all, to the end of a gap. -/
def Fills : Comment → (isOpen : Bool) → List Char → Prop
  | .outside, isOpen, cs => Filler isOpen cs
  | .line, isOpen, cs => ∃ body more, cs = body ++ more ∧ (∀ c ∈ body, isLineBreak c = false) ∧
    (∀ c ∈ more.head?, isLineBreak c = true) ∧ Filler isOpen more
  | .block _, isOpen, cs =>
    (∃ body more, cs = body ++ '*' :: '/' :: more ∧ ¬ ['*', '/'] <:+: body ∧
      Filler isOpen more) ∨ isOpen = true ∧ ¬ ['*', '/'] <:+: cs

/-- A comment that is not closed by its next two characters is not closed before its rest is. -/
theorem not_infix_cons {c : Char} {body more : List Char} (h : ¬ ['*', '/'] <:+: body)
    (hc : ∀ cs, c = '*' → body ++ more = '/' :: cs → False) : ¬ ['*', '/'] <:+: c :: body := by
  rw [List.infix_cons_iff, not_or]
  refine ⟨?_, h⟩
  rintro ⟨cs, hcs⟩
  obtain ⟨hstar, hbody⟩ := List.cons.inj hcs
  refine hc (cs ++ more) hstar.symm ?_
  rw [← hbody]
  rfl

/-- A gap takes some characters of those from a position on. -/
structure Gap.Takes (g : Gap) (mode : Comment) (lb : Bool) (pos : Nat) (cs read : List Char) :
    Prop where
  chars : cs = read ++ g.rest
  stop : g.stop = pos + read.length
  lineBreak : g.lineBreak = (lb || read.any isLineBreak)
  fills : Fills mode g.unclosed?.isSome read
  ends : g.unclosed?.isSome = true → g.rest = []

theorem Gap.Takes.behind {g : Gap} {mode mode' : Comment} {lb : Bool} {pos : Nat}
    {cs read : List Char} (front : List Char)
    (h : g.Takes mode' (lb || front.any isLineBreak) (pos + front.length) cs read)
    (hfills : ∀ isOpen, Fills mode' isOpen read → Fills mode isOpen (front ++ read)) :
    g.Takes mode lb pos (front ++ cs) (front ++ read) where
  chars := by rw [h.chars, List.append_assoc]
  stop := by rw [h.stop, List.length_append, Nat.add_assoc]
  lineBreak := by rw [h.lineBreak, List.any_append, Bool.or_assoc]
  fills := hfills _ h.fills
  ends := h.ends

theorem exists_takes_gap (mode : Comment) (lb : Bool) (pos : Nat) (cs : List Char) :
    ∃ read, (gap mode lb pos cs).Takes mode lb pos cs read := by
  fun_induction gap mode lb pos cs with
  | case1 lb pos => exact ⟨[], rfl, rfl, by simp, .nil, nofun⟩
  | case2 lb pos => exact ⟨[], rfl, rfl, by simp, ⟨[], [], rfl, nofun, nofun, .nil⟩, nofun⟩
  | case3 start lb pos => exact ⟨[], rfl, rfl, by simp, .inr ⟨rfl, by simp⟩, fun _ => rfl⟩
  | case4 lb pos cs ih =>
    obtain ⟨read, h⟩ := ih
    refine ⟨_, Gap.Takes.behind ['/', '/'] (by simpa [isLineBreak] using h) ?_⟩
    rintro isOpen ⟨body, more, rfl, hbody, hmore, hfill⟩
    exact (.line hbody hmore hfill : Filler isOpen ('/' :: '/' :: (body ++ more)))
  | case5 lb pos cs ih =>
    obtain ⟨read, h⟩ := ih
    refine ⟨_, Gap.Takes.behind ['/', '*'] (by simpa [isLineBreak] using h) ?_⟩
    rintro isOpen (⟨body, more, rfl, hbody, hfill⟩ | ⟨rfl, hbody⟩)
    · exact .block hbody hfill
    · exact .unclosed hbody
  | case6 lb pos c cs _ _ hc ih =>
    obtain ⟨read, h⟩ := ih
    refine ⟨_, Gap.Takes.behind [c] (by simpa [hc] using h) fun _ hfill => ?_⟩
    exact .space (.inr hc) hfill
  | case7 lb pos c cs _ _ hc hblank ih =>
    obtain ⟨read, h⟩ := ih
    refine ⟨_, Gap.Takes.behind [c] (by simpa [hc] using h) fun _ hfill => ?_⟩
    exact .space (.inl hblank) hfill
  | case8 lb pos c cs => exact ⟨[], rfl, rfl, by simp, .nil, nofun⟩
  | case9 lb pos c cs hc ih =>
    obtain ⟨read, h⟩ := ih
    refine ⟨_, Gap.Takes.behind [c] (by simpa [hc] using h) fun _ hfill => ?_⟩
    exact ⟨[], c :: read, rfl, nofun, by simpa using hc, .space (.inr hc) hfill⟩
  | case10 lb pos c cs hc ih =>
    obtain ⟨read, h⟩ := ih
    refine ⟨_, Gap.Takes.behind [c] (by simpa [hc] using h) ?_⟩
    rintro isOpen ⟨body, more, rfl, hbody, hmore, hfill⟩
    exact ⟨c :: body, more, rfl, by simpa [hc] using hbody, hmore, hfill⟩
  | case11 start lb pos cs ih =>
    obtain ⟨read, h⟩ := ih
    refine ⟨_, Gap.Takes.behind ['*', '/'] (by simpa [isLineBreak] using h) fun _ hfill => ?_⟩
    exact .inl ⟨[], read, rfl, by simp, hfill⟩
  | case12 start lb pos c cs hclose ih =>
    obtain ⟨read, h⟩ := ih
    refine ⟨_, Gap.Takes.behind [c] (by simpa using h) ?_⟩
    have hopen (more : List Char) (hmore : cs = more) (ds : List Char) (hstar : c = '*') :
        more = '/' :: ds → False := fun hslash => hclose ds hstar (hmore.trans hslash)
    rintro isOpen (⟨body, more, hread, hbody, hfill⟩ | ⟨rfl, hbody⟩)
    · have hcs := h.chars
      rw [hread, List.append_assoc] at hcs
      exact .inl ⟨c :: body, more, by rw [hread]; rfl, not_infix_cons hbody (hopen _ hcs), hfill⟩
    · exact .inr ⟨rfl, not_infix_cons hbody (hopen _ h.chars)⟩

theorem length_takeWhile_le (p : Char → Bool) (cs : List Char) :
    (cs.takeWhile p).length ≤ cs.length := (List.takeWhile_sublist p).length_le

theorem exponentWidth_le (cs : List Char) : exponentWidth cs ≤ cs.length := by
  unfold exponentWidth
  split
  · exact Nat.zero_le _
  · next c cs =>
    have hdigits (sign : Nat) (hsign : sign ≤ cs.length) :
        (if ((cs.drop sign).takeWhile Char.isDigit).length = 0 then 0
          else 1 + sign + ((cs.drop sign).takeWhile Char.isDigit).length) ≤ (c :: cs).length := by
      have := length_takeWhile_le Char.isDigit (cs.drop sign)
      rw [List.length_drop] at this
      split <;> simp only [List.length_cons] <;> omega
    split
    · split
      · exact hdigits 1 (by simp)
      · exact hdigits 1 (by simp)
      · exact hdigits 0 (Nat.zero_le _)
    · exact Nat.zero_le _

theorem fractionWidth_le (cs : List Char) : fractionWidth cs ≤ cs.length := by
  unfold fractionWidth
  split
  · next ds =>
    have := length_takeWhile_le Char.isDigit ds
    rw [List.length_cons]
    omega
  · exact Nat.zero_le _

theorem decimalWidth_le (cs : List Char) : decimalWidth cs ≤ cs.length := by
  have hwhole := length_takeWhile_le Char.isDigit cs
  have hfraction := fractionWidth_le (cs.drop (cs.takeWhile Char.isDigit).length)
  have hexponent := exponentWidth_le (cs.drop ((cs.takeWhile Char.isDigit).length +
    fractionWidth (cs.drop (cs.takeWhile Char.isDigit).length)))
  rw [List.length_drop] at hfraction hexponent
  rw [decimalWidth]
  omega

theorem numberWidth_le (cs : List Char) : numberWidth cs ≤ cs.length := by
  unfold numberWidth
  split
  · next x ds =>
    split
    · have := length_takeWhile_le Text.isHexDigit ds
      simp only [List.length_cons]
      omega
    · exact decimalWidth_le _
  · exact decimalWidth_le _

theorem decimalWidth_pos {cs : List Char} (h : startsNumber cs = true) : 0 < decimalWidth cs := by
  unfold startsNumber at h
  rw [decimalWidth]
  split at h
  · next c cs =>
    simp only [List.takeWhile_cons, show Char.isDigit '.' = false by decide, fractionWidth]
    simp only [Bool.false_eq_true, if_false, List.length_nil, List.drop_zero]
    omega
  · next c cs _ =>
    simp only [List.takeWhile_cons, h]
    simp only [if_true, List.length_cons]
    omega
  · exact absurd h (by simp)

theorem numberWidth_pos {cs : List Char} (h : startsNumber cs = true) : 0 < numberWidth cs := by
  unfold numberWidth
  split
  · split
    · omega
    · exact decimalWidth_pos h
  · exact decimalWidth_pos h

/-- A lexeme takes some characters at the head of a text, at least one. -/
structure Lexeme.Takes (l : Lexeme) (cs covered : List Char) : Prop where
  chars : cs = covered ++ l.rest
  width : l.width = covered.length
  nonempty : covered ≠ []
  covers : Covers l.kind covered l.rest

theorem takes_ofWidth {kind : String → Token.Kind} {width : Nat} {cs : List Char}
    (hpos : 0 < width) (hle : width ≤ cs.length)
    (hcovers : Covers (kind (String.ofList (cs.take width))) (cs.take width) (cs.drop width)) :
    (Lexeme.ofWidth kind width cs).Takes cs (cs.take width) where
  chars := (List.take_append_drop width cs).symm
  width := (List.length_take_of_le hle).symm
  nonempty := by
    rw [← List.length_pos_iff, List.length_take_of_le hle]
    exact hpos
  covers := hcovers

theorem atHead?_takes {p : Punctuator} {cs : List Char} (h : Punctuator.atHead? cs = some p) :
    (Lexeme.ofWidth (fun _ => .punctuator p) p.text.length cs).Takes cs p.text.toList := by
  have hprefix : p.text.toList <+: cs := by
    simpa [List.isPrefixOf_iff_prefix] using List.find?_some h
  have htake : cs.take p.text.length = p.text.toList := by
    rw [← String.length_toList]
    exact (List.prefix_iff_eq_take.1 hprefix).symm
  have hle : p.text.length ≤ cs.length := by
    rw [← String.length_toList]
    exact hprefix.length_le
  have hpos : 0 < p.text.length := by cases p <;> decide
  rw [← htake]
  exact takes_ofWidth hpos hle htake

/-- What is left of a string literal takes some characters more than those read before. -/
structure Lexeme.Completes (l : Lexeme) (width : Nat) (cs covered : List Char) : Prop where
  chars : cs = covered ++ l.rest
  width : l.width = width + covered.length
  kind : ∃ s, l.kind = .string s

theorem Lexeme.Completes.behind {l : Lexeme} {width : Nat} {cs covered : List Char}
    (front : List Char) (h : l.Completes (width + front.length) cs covered) :
    l.Completes width (front ++ cs) (front ++ covered) where
  chars := by rw [h.chars, List.append_assoc]
  width := by rw [h.width, List.length_append, Nat.add_assoc]
  kind := h.kind

theorem exists_completes_stringBody (quote : Char) (value : List Char) (width : Nat)
    (cs : List Char) : ∃ covered, (stringBody quote value width cs).Completes width cs covered := by
  fun_induction stringBody quote value width cs with
  | case1 value width => exact ⟨[], rfl, rfl, _, rfl⟩
  | case2 value width cs => exact ⟨[quote], rfl, rfl, _, rfl⟩
  | case3 value width c cs => exact ⟨[], rfl, rfl, _, rfl⟩
  | case4 value width => exact ⟨['\\'], rfl, rfl, _, rfl⟩
  | case5 value width ds _ _ ih =>
    obtain ⟨covered, h⟩ := ih
    exact ⟨_, h.behind ['\\', '\n']⟩
  | case6 value width a b d e ds u _ _ _ ih =>
    obtain ⟨covered, h⟩ := ih
    exact ⟨_, h.behind ['\\', 'u', a, b, d, e]⟩
  | case7 value width a b d e ds _ _ _ ih =>
    obtain ⟨covered, h⟩ := ih
    exact ⟨_, h.behind ['\\', 'u']⟩
  | case8 value width x ds _ _ _ _ ih =>
    obtain ⟨covered, h⟩ := ih
    exact ⟨_, h.behind ['\\', x]⟩
  | case9 value width c cs _ _ _ ih =>
    obtain ⟨covered, h⟩ := ih
    exact ⟨_, h.behind [c]⟩

theorem isIdentifierPart_of_start {c : Char} (h : isIdentifierStart c = true) :
    isIdentifierPart c = true := by
  simp only [isIdentifierStart, Bool.or_eq_true, decide_eq_true_eq] at h
  simp only [isIdentifierPart, Bool.or_eq_true, decide_eq_true_eq]
  obtain (rfl | rfl) | h := h
  · exact .inl rfl
  · exact .inr (by decide)
  · exact .inr (Unicode.xid.part_of_start c h)

theorem Keyword.text_of_ofText? {s : String} {k : Keyword} (h : Keyword.ofText? s = some k) :
    k.text = s := by
  simpa using List.find?_some h

theorem covers_wordKind {word rest : List Char}
    (hrest : ∀ c ∈ rest.head?, isIdentifierPart c = false) :
    Covers (wordKind (String.ofList word)) word rest := by
  unfold wordKind
  split
  · next k hk => exact ⟨by rw [Keyword.text_of_ofText? hk, String.toList_ofList], hrest⟩
  · exact ⟨String.toList_ofList.symm, hrest⟩

/-- A word is the longest run of characters that may stand in one. -/
theorem takes_word {c : Char} {cs : List Char} (h : isIdentifierStart c = true) :
    (Lexeme.ofWidth wordKind ((c :: cs).takeWhile isIdentifierPart).length (c :: cs)).Takes
      (c :: cs) ((c :: cs).takeWhile isIdentifierPart) := by
  have htake : (c :: cs).take ((c :: cs).takeWhile isIdentifierPart).length =
      (c :: cs).takeWhile isIdentifierPart :=
    (List.prefix_iff_eq_take.1 (List.takeWhile_prefix _)).symm
  have hdrop : (c :: cs).drop ((c :: cs).takeWhile isIdentifierPart).length =
      (c :: cs).dropWhile isIdentifierPart := by
    have hleft : ((c :: cs).takeWhile isIdentifierPart ++ (c :: cs).dropWhile isIdentifierPart).drop
        ((c :: cs).takeWhile isIdentifierPart).length = (c :: cs).dropWhile isIdentifierPart :=
      List.drop_left
    rwa [List.takeWhile_append_dropWhile] at hleft
  have hpos : 0 < ((c :: cs).takeWhile isIdentifierPart).length := by
    rw [List.takeWhile_cons, isIdentifierPart_of_start h, if_pos rfl]
    exact Nat.succ_pos _
  have htakes := @takes_ofWidth wordKind _ _ hpos (length_takeWhile_le _ _) <| by
    rw [htake, hdrop]
    refine covers_wordKind fun d hd => ?_
    have := List.head?_dropWhile_not isIdentifierPart (c :: cs)
    rw [Option.mem_def.1 hd] at this
    simpa using this
  rwa [htake] at htakes

/-- What the token at a character can be. -/
theorem lexeme_cases (c : Char) (cs : List Char) :
    (∃ p, Punctuator.atHead? (c :: cs) = some p ∧
      lexeme (c :: cs) = .ofWidth (fun _ => .punctuator p) p.text.length (c :: cs)) ∨
    ((c = '"' ∨ c = '\'') ∧ lexeme (c :: cs) = stringBody c [] 1 cs) ∨
    (startsNumber (c :: cs) = true ∧
      lexeme (c :: cs) = .ofWidth .number (numberWidth (c :: cs)) (c :: cs)) ∨
    (isIdentifierStart c = true ∧ lexeme (c :: cs) =
      .ofWidth wordKind ((c :: cs).takeWhile isIdentifierPart).length (c :: cs)) ∨
    lexeme (c :: cs) = ⟨.unknown, 1, cs, some .invalidCharacter⟩ := by
  rw [lexeme]
  split
  · next p hp => exact .inl ⟨p, hp, rfl⟩
  · split
    · next hquote => exact .inr (.inl ⟨hquote, rfl⟩)
    · split
      · next hnumber => exact .inr (.inr (.inl ⟨hnumber, rfl⟩))
      · split
        · next hstart => exact .inr (.inr (.inr (.inl ⟨hstart, rfl⟩)))
        · exact .inr (.inr (.inr (.inr rfl)))

theorem exists_takes_lexeme (c : Char) (cs : List Char) :
    ∃ covered, (lexeme (c :: cs)).Takes (c :: cs) covered := by
  obtain ⟨p, hp, heq⟩ | ⟨-, heq⟩ | ⟨hnumber, heq⟩ | ⟨hstart, heq⟩ | heq := lexeme_cases c cs
  all_goals rw [heq]
  · exact ⟨_, atHead?_takes hp⟩
  · obtain ⟨covered, h⟩ := exists_completes_stringBody c [] 1 cs
    obtain ⟨s, hs⟩ := h.kind
    refine ⟨c :: covered, ⟨congrArg (c :: ·) h.chars, ?_, List.cons_ne_nil _ _, ?_⟩⟩
    · rw [h.width, List.length_cons, Nat.add_comm]
    · rw [hs]
      trivial
  · exact ⟨_, takes_ofWidth (numberWidth_pos hnumber) (numberWidth_le _)
      String.toList_ofList.symm⟩
  · exact ⟨_, takes_word hstart⟩
  · exact ⟨[c], rfl, rfl, List.cons_ne_nil _ _, trivial⟩

theorem wordKind_cases (s : String) :
    (∃ k, Keyword.ofText? s = some k ∧ wordKind s = .keyword k) ∨
    Keyword.ofText? s = none ∧ wordKind s = .identifier s := by
  unfold wordKind
  cases hk : Keyword.ofText? s with
  | some k => exact .inl ⟨k, rfl, rfl⟩
  | none => exact .inr ⟨rfl, rfl⟩

theorem wordKind_ne (s : String) {k : Token.Kind} (hkeyword : ∀ w, k ≠ .keyword w)
    (hidentifier : ∀ w, k ≠ .identifier w) : wordKind s ≠ k := by
  rintro rfl
  obtain ⟨w, -, h⟩ | ⟨-, h⟩ := wordKind_cases s
  · exact hkeyword w h
  · exact hidentifier s h

theorem lexeme_kind_eq_endOfFile {cs : List Char} (h : (lexeme cs).kind = .endOfFile) :
    cs = [] := by
  cases cs with
  | nil => rfl
  | cons c cs =>
    obtain ⟨covered, hcovered⟩ := exists_takes_lexeme c cs
    exact (h ▸ hcovered.covers : Covers .endOfFile covered _).elim

/-- The tokens before the end of the file are as many at most as the characters they share. -/
theorem Tiles.length_le {pos : Nat} {cs : List Char} {ts : List Token} (h : Tiles pos cs ts) :
    ∃ init lb, ts = init ++ [⟨.endOfFile, ⟨pos + cs.length, pos + cs.length⟩, lb⟩] ∧
      init.length ≤ cs.length ∧ ∀ t ∈ init, t.kind ≠ .endOfFile := by
  induction h with
  | last => exact ⟨[], _, rfl, Nat.zero_le _, nofun⟩
  | @next pos gap covered rest kind ts _ hne hcovers _ ih =>
    obtain ⟨init, lb, rfl, hlength, hinit⟩ := ih
    have hpos := List.length_pos_iff.2 hne
    refine ⟨⟨kind, ⟨pos + gap.length, pos + gap.length + covered.length⟩, gap.any isLineBreak⟩ ::
      init, lb, ?_, ?_, ?_⟩
    · simp only [List.cons_append, List.length_append, Nat.add_assoc]
    · simp only [List.length_cons, List.length_append]
      omega
    · rintro t (_ | ⟨_, ht⟩)
      · rintro (rfl : kind = _)
        exact hcovers
      · exact hinit t ht

/-- No two tokens begin at the same place. -/
theorem Tiles.ascending {pos : Nat} {cs : List Char} {ts : List Token} (h : Tiles pos cs ts) :
    (∀ t ∈ ts, pos ≤ t.span.start) ∧ ts.Pairwise (·.span.start < ·.span.start) := by
  induction h with
  | last => simp
  | next _ hne _ _ ih =>
    have hpos := List.length_pos_iff.2 hne
    refine ⟨List.forall_mem_cons.2 ⟨Nat.le_add_right _ _, fun t ht => ?_⟩,
      List.pairwise_cons.2 ⟨fun t ht => ?_, ih.2⟩⟩
    · have := ih.1 t ht
      omega
    · have := ih.1 t ht
      dsimp only
      omega

/-- A step reads a gap and, unless the text ends there, a token behind it. -/
theorem exists_step (pos : Nat) (cs : List Char) :
    (∃ isOpen gap, Filler isOpen gap ∧ cs = gap ∧ (step ⟨pos, cs⟩).token =
      ⟨.endOfFile, ⟨pos + gap.length, pos + gap.length⟩, gap.any isLineBreak⟩) ∨
    ∃ gap covered rest kind, Filler false gap ∧ covered ≠ [] ∧ Covers kind covered rest ∧
      cs = gap ++ (covered ++ rest) ∧
      (step ⟨pos, cs⟩).token =
        ⟨kind, ⟨pos + gap.length, pos + gap.length + covered.length⟩, gap.any isLineBreak⟩ ∧
      (step ⟨pos, cs⟩).next = ⟨pos + gap.length + covered.length, rest⟩ := by
  obtain ⟨read, h⟩ := exists_takes_gap .outside false pos cs
  have hbreak := h.lineBreak
  rw [Bool.false_or] at hbreak
  cases hrest : (gap .outside false pos cs).rest with
  | nil =>
    refine .inl ⟨_, read, h.fills, by rw [h.chars, hrest, List.append_nil], ?_⟩
    simp only [step, hrest, lexeme, h.stop, hbreak, Nat.add_zero]
  | cons c ds =>
    obtain ⟨covered, hcovered⟩ := exists_takes_lexeme c ds
    have hclosed : (gap .outside false pos cs).unclosed?.isSome = false :=
      Bool.eq_false_iff.2 fun hopen => by simp [h.ends hopen] at hrest
    refine .inr ⟨read, covered, (lexeme (c :: ds)).rest, (lexeme (c :: ds)).kind,
      hclosed ▸ h.fills, hcovered.nonempty, hcovered.covers, ?_, ?_, ?_⟩
    · rw [← hcovered.chars, ← hrest, ← h.chars]
    · simp only [step, hrest, h.stop, hbreak, hcovered.width]
    · simp only [step, hrest, h.stop, hcovered.width]

theorem tiles_readFrom (fuel pos : Nat) (cs : List Char) (hfuel : cs.length ≤ fuel) :
    Tiles pos cs (readFrom fuel ⟨pos, cs⟩).tokens := by
  induction fuel generalizing pos cs with
  | zero =>
    obtain rfl := List.length_eq_zero_iff.1 (Nat.le_zero.1 hfuel)
    exact .last .nil
  | succ fuel ih =>
    rw [readFrom]
    obtain ⟨isOpen, gap, hgap, rfl, htoken⟩ |
      ⟨gap, covered, rest, kind, hgap, hne, hcovers, rfl, htoken, hnext⟩ := exists_step pos cs
    · rw [htoken, if_pos rfl]
      exact .last hgap
    · have hkind : kind ≠ .endOfFile := by
        rintro rfl
        exact hcovers
      have hpos := List.length_pos_iff.2 hne
      rw [List.length_append, List.length_append] at hfuel
      rw [htoken, if_neg hkind, hnext]
      exact .next hgap hne hcovers (ih _ _ (by omega))

theorem tiles_read (text : String) : Tiles 0 text.toList (read text).tokens :=
  tiles_readFrom _ _ _ (Nat.le_of_eq String.length_toList)

theorem ascending_read (text : String) :
    (read text).tokens.Pairwise (·.span.start < ·.span.start) := (tiles_read text).ascending.2

/-- A token among the characters from `pos` on is the lexeme that they have where it starts. -/
structure Occurs (pos : Nat) (cs : List Char) (t : Token) : Prop where
  le : pos ≤ t.span.start
  kind : t.kind = (lexeme (cs.drop (t.span.start - pos))).kind
  stop : t.span.stop = t.span.start + (lexeme (cs.drop (t.span.start - pos))).width

theorem occurs_step (pos : Nat) (cs : List Char) : Occurs pos cs (step ⟨pos, cs⟩).token := by
  obtain ⟨read, h⟩ := exists_takes_gap .outside false pos cs
  have hdrop : cs.drop ((step ⟨pos, cs⟩).token.span.start - pos) =
      (gap .outside false pos cs).rest := by
    change cs.drop ((gap .outside false pos cs).stop - pos) = _
    rw [h.stop, Nat.add_sub_cancel_left]
    conv => lhs; rw [h.chars]
    exact List.drop_left
  refine ⟨?_, by rw [hdrop]; rfl, by rw [hdrop]; rfl⟩
  change pos ≤ (gap .outside false pos cs).stop
  rw [h.stop]
  exact Nat.le_add_right _ _

theorem Occurs.behind {pos : Nat} {front cs : List Char} {t : Token}
    (h : Occurs (pos + front.length) cs t) : Occurs pos (front ++ cs) t := by
  have hle := h.le
  have hdrop : (front ++ cs).drop (t.span.start - pos) =
      cs.drop (t.span.start - (pos + front.length)) := by
    rw [List.drop_append, List.drop_eq_nil_of_le (by omega), List.nil_append]
    congr 1
    omega
  refine ⟨by omega, ?_, ?_⟩
  · rw [hdrop]
    exact h.kind
  · rw [hdrop]
    exact h.stop

theorem occurs_readFrom (fuel pos : Nat) (cs : List Char) :
    ∀ t ∈ (readFrom fuel ⟨pos, cs⟩).tokens, Occurs pos cs t := by
  induction fuel generalizing pos cs with
  | zero => exact List.forall_mem_singleton.2 (occurs_step pos cs)
  | succ fuel ih =>
    rw [readFrom]
    split
    · exact List.forall_mem_singleton.2 (occurs_step pos cs)
    · next hkind =>
      refine List.forall_mem_cons.2 ⟨occurs_step pos cs, fun t ht => ?_⟩
      obtain ⟨isOpen, gap, -, -, htoken⟩ |
        ⟨gap, covered, rest, kind, -, -, -, rfl, -, hnext⟩ := exists_step pos cs
      · exact absurd (congrArg Token.kind htoken) hkind
      · rw [hnext, Nat.add_assoc, ← List.length_append] at ht
        rw [← List.append_assoc]
        exact (ih _ _ t ht).behind

theorem occurs_read (text : String) : ∀ t ∈ (read text).tokens, Occurs 0 text.toList t :=
  occurs_readFrom _ _ _

/-- Only the last token of a text is the end of the file. -/
theorem exists_tokens_read (text : String) : ∃ init last,
    (read text).tokens = init ++ [last] ∧ last.kind = .endOfFile ∧
      ∀ t ∈ init, t.kind ≠ .endOfFile := by
  obtain ⟨init, lb, htokens, -, hinit⟩ := (tiles_read text).length_le
  exact ⟨init, _, htokens, rfl, hinit⟩

theorem getLast?_read (text : String) :
    ∃ last, (read text).tokens.getLast? = some last ∧ last.kind = .endOfFile := by
  obtain ⟨init, last, htokens, hlast, -⟩ := exists_tokens_read text
  exact ⟨last, by rw [htokens, List.getLast?_concat], hlast⟩

theorem read_tiles (text : String) :
    Tiles 0 text.toList (read text).tokens ∧
    ∃ init lb, (read text).tokens =
        init ++ [⟨.endOfFile, ⟨text.length, text.length⟩, lb⟩] ∧
      init.length ≤ text.length ∧ ∀ t ∈ init, t.kind ≠ .endOfFile := by
  refine ⟨tiles_read text, ?_⟩
  have := (tiles_read text).length_le
  rwa [Nat.zero_add, String.length_toList] at this

end ScopeChain.Lexer
