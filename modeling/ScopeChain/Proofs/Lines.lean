import ScopeChain.Span

/-! Lines and columns of positions: the search for a position among the starts of lines ends at a
line that does not start behind it, so that there is one for each position. In a text that has a
position at its end no start of a line is cut off, and the search ends at the last such line. -/
namespace ScopeChain.LineMap

variable {m : LineMap} {pos pos' start : TextPos} {base lo hi line : Nat} {cs : List Char}
  {text : String} {place : LineColumn}

/-- A line starts behind each line feed. -/
theorem mem_startsAfterFeeds : start ∈ startsAfterFeeds base cs ↔
    ∃ i, cs[i]? = some '\n' ∧ start = .ofNat (base + i + 1) := by
  induction cs generalizing base with
  | nil => simp [startsAfterFeeds]
  | cons c cs ih =>
    have hlater : start ∈ startsAfterFeeds (base + 1) cs ↔
        ∃ i, (c :: cs)[i + 1]? = some '\n' ∧ start = .ofNat (base + (i + 1) + 1) := by
      rw [ih]
      simp only [List.getElem?_cons_succ, Nat.add_assoc, Nat.add_comm 1]
    rw [startsAfterFeeds]
    constructor
    · intro h
      split at h
      · next hc =>
        rcases List.mem_cons.mp h with rfl | h
        · exact ⟨0, by rw [hc]; rfl, rfl⟩
        · obtain ⟨i, hi⟩ := hlater.mp h
          exact ⟨i + 1, hi⟩
      · obtain ⟨i, hi⟩ := hlater.mp h
        exact ⟨i + 1, hi⟩
    · rintro ⟨i, hi⟩
      cases i with
      | zero =>
        obtain ⟨hc, rfl⟩ := hi
        rw [if_pos (Option.some.inj hc)]
        exact List.mem_cons_self
      | succ i =>
        have hmem := hlater.mpr ⟨i, hi⟩
        split
        · exact List.mem_cons_of_mem _ hmem
        · exact hmem

/-- No start is cut off where all positions fit. -/
theorem exists_feed_of_mem (hfits : base + cs.length < UInt32.size)
    (h : start ∈ startsAfterFeeds base cs) :
    ∃ i, cs[i]? = some '\n' ∧ start.toNat = base + i + 1 := by
  obtain ⟨i, hi, rfl⟩ := mem_startsAfterFeeds.mp h
  obtain ⟨hlt, -⟩ := List.getElem?_eq_some_iff.mp hi
  exact ⟨i, hi, UInt32.toNat_ofNat_of_lt' (by omega)⟩

theorem pairwise_startsAfterFeeds (hfits : base + cs.length < UInt32.size) :
    (startsAfterFeeds base cs).Pairwise (· < ·) := by
  induction cs generalizing base with
  | nil => exact .nil
  | cons c cs ih =>
    rw [List.length_cons] at hfits
    have hlater : base + 1 + cs.length < UInt32.size := by omega
    rw [startsAfterFeeds]
    split
    · refine .cons ?_ (ih hlater)
      intro start hstart
      obtain ⟨i, -, hi⟩ := exists_feed_of_mem hlater hstart
      rw [UInt32.lt_iff_toNat_lt, hi, UInt32.toNat_ofNat_of_lt' (by omega)]
      omega
    · exact ih hlater

/-- As many lines start up to a position as there are line feeds before it. -/
theorem countP_startsAfterFeeds (hfits : base + cs.length < UInt32.size) (n : Nat) :
    (startsAfterFeeds base cs).countP (·.toNat ≤ base + n) = (cs.take n).count '\n' := by
  induction cs generalizing base n with
  | nil => simp [startsAfterFeeds]
  | cons c cs ih =>
    cases n with
    | zero =>
      rw [List.take_zero, List.count_nil, List.countP_eq_zero]
      intro start hstart
      obtain ⟨i, -, hi⟩ := exists_feed_of_mem hfits hstart
      rw [decide_eq_true_eq]
      omega
    | succ n =>
      rw [List.length_cons] at hfits
      have hstart : (UInt32.ofNat (base + 1)).toNat = base + 1 :=
        UInt32.toNat_ofNat_of_lt' (by omega)
      have hlater : base + 1 + cs.length < UInt32.size := by omega
      have hih := ih hlater n
      rw [Nat.add_right_comm, Nat.add_assoc] at hih
      rw [startsAfterFeeds, List.take_succ_cons, List.count_cons]
      split
      · next hc =>
        rw [List.countP_cons_of_pos (by rw [hstart, decide_eq_true_eq]; omega), hih, hc]
        rfl
      · next hc => simp [hih, hc]

/-- What a search may come to: a line that starts at the position, or a number of lines the last of
which starts before it, where the next one starts behind it. -/
def Search.Right (m : LineMap) (pos : TextPos) : Search → Prop
  | hit line => m.starts[line]? = some pos
  | miss lines => (∀ line, lines = line + 1 → ∃ s, m.starts[line]? = some s ∧ s < pos) ∧
    ∀ s, m.starts[lines]? = some s → pos < s

/-- Each step leaves a stretch with the line right before it before the position and the line right
behind it behind the position. -/
theorem right_searchFrom (hhi : hi ≤ m.starts.size) (hle : lo ≤ hi)
    (hbefore : ∀ line, lo = line + 1 → ∃ s, m.starts[line]? = some s ∧ s < pos)
    (hbehind : ∀ s, m.starts[hi]? = some s → pos < s) :
    (m.searchFrom pos lo hi hhi).Right m pos := by
  fun_induction searchFrom m pos lo hi hhi with
  | case1 lo hi hhi hlt mid start hstart => exact Array.getElem?_eq_some_iff.mpr ⟨by omega, hstart⟩
  | case2 lo hi hhi hlt mid start hne hstart ih =>
    refine ih (by omega) ?_ hbehind
    intro line hline
    obtain rfl : mid = line := Nat.succ.inj hline
    exact ⟨start, Array.getElem?_eq_getElem _, hstart⟩
  | case3 lo hi hhi hlt mid start hne hstart ih =>
    refine ih (by omega) hbefore ?_
    intro s hs
    obtain ⟨-, rfl⟩ := Array.getElem?_eq_some_iff.mp hs
    exact UInt32.lt_of_le_of_ne (UInt32.not_lt.mp hstart) (Ne.symm hne)
  | case4 lo hi hhi hnot =>
    obtain rfl : lo = hi := by omega
    exact ⟨hbefore, hbehind⟩

theorem right_search (m : LineMap) (pos : TextPos) : (m.search pos).Right m pos := by
  apply right_searchFrom
  · exact Nat.zero_le _
  · intro line hline
    cases hline
  · intro s hs
    obtain ⟨hlt, -⟩ := Array.getElem?_eq_some_iff.mp hs
    exact absurd hlt (Nat.lt_irrefl _)

/-- The search for a position comes to a line that starts up to it. The next line starts behind it,
unless this one starts right there. -/
structure Finds (m : LineMap) (pos : TextPos) (line : Nat) (start : TextPos) : Prop where
  starts : m.starts[line]? = some start
  le : start ≤ pos
  next : start = pos ∨ ∀ s, m.starts[line + 1]? = some s → pos < s
  found : m.lineOf? pos = some (.ofNat line)

theorem exists_finds (hfirst : m.starts[0]? = some 0) (pos : TextPos) :
    ∃ line start, m.Finds pos line start := by
  have hright := right_search m pos
  cases hfound : m.search pos with
  | hit line =>
    rw [hfound] at hright
    exact ⟨line, pos, hright, UInt32.le_refl _, .inl rfl, by rw [lineOf?, hfound]⟩
  | miss lines =>
    rw [hfound] at hright
    obtain ⟨hbefore, hbehind⟩ := hright
    cases lines with
    | zero => exact absurd (hbehind 0 hfirst) UInt32.not_lt_zero
    | succ line =>
      obtain ⟨s, hs, hlt⟩ := hbefore line rfl
      exact ⟨line, s, hs, UInt32.le_of_lt hlt, .inr hbehind, by rw [lineOf?, hfound]⟩

theorem Finds.lt_size (h : m.Finds pos line start) : line < m.starts.size :=
  (Array.getElem?_eq_some_iff.mp h.starts).1

theorem Finds.lineOf (h : m.Finds pos line start) : m.lineOf pos = .ofNat line := by
  rw [LineMap.lineOf, h.found]
  rfl

/-- In a map of no more lines than can be numbered the number of a line is not cut off. -/
theorem Finds.toNat_lineOf (h : m.Finds pos line start) (hsize : m.starts.size ≤ UInt32.size) :
    (m.lineOf pos).toNat = line := by
  rw [h.lineOf]
  exact UInt32.toNat_ofNat_of_lt' (Nat.lt_of_lt_of_le h.lt_size hsize)

theorem Finds.lineColumnOf? (h : m.Finds pos line start) (hsize : m.starts.size ≤ UInt32.size) :
    m.lineColumnOf? pos = some ⟨m.lineOf pos, pos - start⟩ := by
  have hline := h.toNat_lineOf hsize
  rw [h.lineOf] at hline ⊢
  simp [LineMap.lineColumnOf?, h.found, hline, h.starts, h.le]

theorem Finds.lineColumnOf (h : m.Finds pos line start) (hsize : m.starts.size ≤ UInt32.size) :
    m.lineColumnOf pos = ⟨m.lineOf pos, pos - start⟩ := by
  rw [LineMap.lineColumnOf, h.lineColumnOf? hsize]
  rfl

theorem exists_of_lineColumnOf? (h : m.lineColumnOf? pos = some place) :
    ∃ start, m.starts[place.line.toNat]? = some start ∧ start ≤ pos ∧
      place.column = pos - start := by
  unfold LineMap.lineColumnOf? at h
  obtain ⟨line, -, h⟩ := Option.bind_eq_some_iff.mp h
  obtain ⟨start, hstart, h⟩ := Option.bind_eq_some_iff.mp h
  obtain ⟨hle, h⟩ := Option.ite_none_right_eq_some.mp h
  cases h
  exact ⟨start, hstart, hle, rfl⟩

/-- No two positions have one place. -/
theorem lineColumnOf?_inj (h : m.lineColumnOf? pos = some place)
    (h' : m.lineColumnOf? pos' = some place) : pos = pos' := by
  obtain ⟨start, hstart, -, hcolumn⟩ := exists_of_lineColumnOf? h
  obtain ⟨start', hstart', -, hcolumn'⟩ := exists_of_lineColumnOf? h'
  obtain rfl : start = start' := Option.some.inj (hstart.symm.trans hstart')
  rw [← UInt32.sub_add_cancel pos start, ← hcolumn, hcolumn', UInt32.sub_add_cancel]

/-- Each line starts behind those before it. -/
def Ascending (m : LineMap) : Prop := m.starts.toList.Pairwise (· < ·)

theorem Ascending.lt (hm : m.Ascending) {i j : Nat} (hij : i < j) (hj : j < m.starts.size) :
    m.starts[i].toNat < m.starts[j].toNat :=
  UInt32.lt_iff_toNat_lt.mp (List.pairwise_iff_getElem.mp hm i j
    (by simpa using Nat.lt_trans hij hj) (by simpa using hj) hij)

section Fits

variable (hfits : text.length < UInt32.size)

include hfits

theorem fits_chars : 0 + text.toList.length < UInt32.size := by
  rwa [Nat.zero_add, String.length_toList]

theorem ascending_ofText : (ofText text).Ascending := by
  refine .cons ?_ (pairwise_startsAfterFeeds (fits_chars hfits))
  intro start hstart
  obtain ⟨i, -, hi⟩ := exists_feed_of_mem (fits_chars hfits) hstart
  rw [UInt32.lt_iff_toNat_lt, hi]
  exact Nat.succ_pos _

theorem countP_starts (n : Nat) :
    (ofText text).starts.toList.countP (·.toNat ≤ n) = (text.toList.take n).count '\n' + 1 := by
  have hcount := countP_startsAfterFeeds (fits_chars hfits) n
  rw [Nat.zero_add] at hcount
  rw [← hcount]
  exact List.countP_cons_of_pos (decide_eq_true (Nat.zero_le n))

end Fits

/-- A text has one line more than line feeds. -/
theorem size_starts (text : String) : (ofText text).starts.size = text.toList.count '\n' + 1 := by
  have hlength (base : Nat) (cs : List Char) :
      (startsAfterFeeds base cs).length = cs.count '\n' := by
    induction cs generalizing base with
    | nil => rfl
    | cons c cs ih =>
      rw [startsAfterFeeds, List.count_cons]
      split
      · next hc => simp [ih, hc]
      · next hc => simp [ih, hc]
  simp [ofText, hlength]

theorem size_starts_le (hfits : text.length < UInt32.size) :
    (ofText text).starts.size ≤ UInt32.size := by
  have hcount : text.toList.count '\n' ≤ text.toList.length := List.count_le_length
  rw [String.length_toList] at hcount
  rw [size_starts]
  omega

namespace Finds

/-- All later lines start behind the position. -/
theorem later (h : m.Finds pos line start) (hm : m.Ascending) {i : Nat} (hi : i < m.starts.size)
    (hlt : line < i) : pos.toNat < m.starts[i].toNat := by
  obtain ⟨hline, hstart⟩ := Array.getElem?_eq_some_iff.mp h.starts
  rcases h.next with rfl | hnext
  · rw [← hstart]
    exact hm.lt hlt hi
  · have hgt := UInt32.lt_iff_toNat_lt.mp (hnext _ (Array.getElem?_eq_getElem (by omega)))
    rcases Nat.lt_or_eq_of_le (Nat.succ_le_of_lt hlt) with hlt | rfl
    · exact Nat.lt_trans hgt (hm.lt hlt hi)
    · exact hgt

theorem lt_of_mem (h : m.Finds pos line start) (hm : m.Ascending) {s : TextPos}
    (hs : s ∈ m.starts) (hlt : start.toNat < s.toNat) : pos.toNat < s.toNat := by
  obtain ⟨i, hi, rfl⟩ := Array.mem_iff_getElem.mp hs
  obtain ⟨hline, hstart⟩ := Array.getElem?_eq_some_iff.mp h.starts
  apply h.later hm hi
  rcases Nat.lt_trichotomy i line with hbefore | rfl | hbehind
  · have hgt := hm.lt hbefore hline
    rw [hstart] at hgt
    omega
  · rw [hstart] at hlt
    omega
  · exact hbehind

/-- The lines up to that of a position are those that start up to the position. -/
theorem countP_eq (h : m.Finds pos line start) (hm : m.Ascending) :
    m.starts.toList.countP (·.toNat ≤ pos.toNat) = line + 1 := by
  obtain ⟨hline, hstart⟩ := Array.getElem?_eq_some_iff.mp h.starts
  have hle := UInt32.le_iff_toNat_le.mp h.le
  rw [← hstart] at hle
  have hupto : (m.starts.toList.take (line + 1)).countP (·.toNat ≤ pos.toNat) = line + 1 := by
    rw [List.countP_eq_length.mpr, List.length_take, Array.length_toList]
    · omega
    · intro s hs
      obtain ⟨i, hi, rfl⟩ := List.mem_take_iff_getElem.mp hs
      rw [decide_eq_true_eq, Array.getElem_toList]
      by_cases hlast : i = line
      · subst hlast
        exact hle
      · have hlt := hm.lt (show i < line by omega) hline
        omega
  have hbehind : (m.starts.toList.drop (line + 1)).countP (·.toNat ≤ pos.toNat) = 0 := by
    rw [List.countP_eq_zero]
    intro s hs
    obtain ⟨i, hi, rfl⟩ := List.mem_drop_iff_getElem.mp hs
    rw [Array.length_toList] at hi
    rw [decide_eq_true_eq, Array.getElem_toList, Nat.not_le]
    exact h.later hm _ (by omega)
  rw [← List.take_append_drop (line + 1) m.starts.toList, List.countP_append, hupto, hbehind]

/-- The last line feed before a position stands right before the start of its line. -/
theorem takeWhile_eq (h : (ofText text).Finds pos line start)
    (hfits : text.length < UInt32.size) :
    (text.toList.take pos.toNat).reverse.takeWhile (· ≠ '\n') =
      ((text.toList.take pos.toNat).drop start.toNat).reverse := by
  have hmem {s : TextPos} : s ∈ (ofText text).starts ↔
      s = 0 ∨ s ∈ startsAfterFeeds 0 text.toList := by
    simp [ofText]
  have hsince : ∀ c ∈ ((text.toList.take pos.toNat).drop start.toNat).reverse, c ≠ '\n' := by
    rintro c hc rfl
    obtain ⟨i, hi⟩ := List.mem_iff_getElem?.mp (List.mem_reverse.mp hc)
    rw [List.getElem?_drop, List.getElem?_take] at hi
    split at hi
    · -- the line behind this line feed would start behind the position
      obtain ⟨hlt, -⟩ := List.getElem?_eq_some_iff.mp hi
      rw [String.length_toList] at hlt
      have hnext : (UInt32.ofNat (0 + (start.toNat + i) + 1)).toNat = start.toNat + i + 1 := by
        rw [UInt32.toNat_ofNat_of_lt' (by omega)]
        omega
      have hgt := h.lt_of_mem (ascending_ofText hfits)
        (hmem.mpr (.inr (mem_startsAfterFeeds.mpr ⟨_, hi, rfl⟩))) (by omega)
      omega
    · cases hi
  have hstops : ((text.toList.take pos.toNat).take start.toNat).reverse.takeWhile (· ≠ '\n') =
      [] := by
    rw [List.take_take, Nat.min_eq_left (UInt32.le_iff_toNat_le.mp h.le)]
    rcases hmem.mp (Array.mem_of_getElem? h.starts) with rfl | hstart
    · rfl
    · obtain ⟨i, hi, heq⟩ := exists_feed_of_mem (fits_chars hfits) hstart
      rw [heq, Nat.zero_add, List.take_add_one, hi]
      simp
  conv => lhs; rw [← List.take_append_drop start.toNat (text.toList.take pos.toNat)]
  rw [List.reverse_append, List.takeWhile_append_of_pos (by simpa using hsince), hstops,
    List.append_nil]

end Finds

theorem startsAfterFeeds_replicate (base n : Nat) :
    startsAfterFeeds base (List.replicate n 'a' ++ ['\n']) = [.ofNat (base + n + 1)] := by
  induction n generalizing base with
  | zero => rfl
  | succ n ih =>
    rw [List.replicate_succ, List.cons_append, startsAfterFeeds, if_neg (by decide), ih,
      Nat.add_right_comm base 1 n, Nat.add_assoc base n 1]

/-- Without a position at the end of the text a start is cut off, and a line is counted that starts
far behind the position. -/
theorem lines_are_lost_beyond_positions : ∃ text : String, text.length = UInt32.size + 5 ∧
    (ofText text).lineColumnOf? 10 = some ⟨1, 5⟩ ∧ (text.toList.take 10).count '\n' = 0 := by
  have long (n : Nat) (hn : 10 ≤ n) (hcut : UInt32.ofNat (0 + n + 1) = 5) :
      ∃ text : String, text.length = n + 1 ∧ (ofText text).lineColumnOf? 10 = some ⟨1, 5⟩ ∧
        (text.toList.take 10).count '\n' = 0 := by
    refine ⟨String.ofList (List.replicate n 'a' ++ ['\n']), ?_, ?_, ?_⟩
    · rw [String.length_ofList, List.length_append, List.length_replicate]
      rfl
    · have hstarts : ofText (String.ofList (List.replicate n 'a' ++ ['\n'])) = ⟨#[0, 5]⟩ := by
        rw [ofText, String.toList_ofList, startsAfterFeeds_replicate, hcut]
      rw [hstarts]
      decide +kernel
    · rw [String.toList_ofList, List.take_append_of_le_length (by simpa using hn),
        List.count_eq_zero]
      intro hfeed
      exact absurd (List.eq_of_mem_replicate (List.mem_of_mem_take hfeed)) (by decide)
  exact long (UInt32.size + 4) (by decide) (by decide)

end ScopeChain.LineMap
