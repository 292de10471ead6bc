import ScopeChain.Proofs.Grammar
import ScopeChain.Proofs.Printing

/-! How readers fare on tokens that are known beforehand: what they make of them, how many levels
they need for it and how much fuel. -/
namespace ScopeChain.Parser

open Token (Kind)

variable {α β : Type} {t : Interner}

/-- A state before tokens of some kinds, all in one line and none too deep; inside of a function if
that is asked for. -/
structure State.Facing (inside : Bool) (ks : List Kind) (s : State) : Prop where
  kinds : s.tokens.map Token.kind = ks
  ascending : s.tokens.Pairwise fun tok tok' => tok.span.start < tok'.span.start
  unbroken : ∀ tok ∈ s.tokens, tok.afterLineBreak = false
  depth : s.depth ≤ maxDepth
  functionDepth : inside = true → s.functionDepth ≠ 0

namespace State.Facing

variable {inside : Bool} {k : Kind} {ks : List Kind} {s : State}

theorem kind_eq (h : s.Facing inside (k :: ks)) : s.token.kind = k :=
  (List.cons.inj h.kinds).1

theorem length_tokens (h : s.Facing inside ks) : s.tokens.length = ks.length := by
  rw [← h.kinds, List.length_map]

theorem deep (h : s.Facing inside ks) {d : Nat} (hd : d ≤ maxDepth) :
    ({ s with depth := d } : State).Facing inside ks :=
  ⟨h.kinds, h.ascending, h.unbroken, hd, h.functionDepth⟩

/-- Going on from here leads to what is before the last tokens. -/
theorem onward {ls : List Kind} {s' : State} (h : s.Facing inside (ks ++ ls)) (hs : Onward s s')
    (hlength : s'.tokens.length = ls.length) : s'.Facing inside ls where
  kinds := by
    have hsuffix := hs.tokens.map Token.kind
    rw [h.kinds] at hsuffix
    have hlength' : (s'.tokens.map Token.kind).length = ls.length := by rw [List.length_map, hlength]
    exact (List.suffix_of_suffix_length_le hsuffix (List.suffix_append ks ls)
      (Nat.le_of_eq hlength')).eq_of_length hlength'
  ascending := h.ascending.sublist hs.tokens.sublist
  unbroken tok htok := h.unbroken tok (hs.tokens.subset htok)
  depth := hs.depth ▸ h.depth
  functionDepth hi := hs.functionDepth ▸ h.functionDepth hi

/-- Going on without reading a token leads to what is before the same tokens. -/
theorem stay {s' : State} (h : s.Facing inside ks) (hs : Onward s s')
    (hlength : s'.tokens.length = s.tokens.length) : s'.Facing inside ks :=
  have hnil : s.Facing inside ([] ++ ks) := h
  hnil.onward hs (hlength.trans h.length_tokens)

/-- Behind something that was read begins a later token. -/
theorem start_lt {k' : Kind} {ls : List Kind} {s' : State} (h : s.Facing inside (ks ++ k' :: ls))
    (hks : ks ≠ []) (hs : Onward s s') (h' : s'.Facing inside (k' :: ls)) :
    s.token.span.start < s'.token.span.start := by
  have hlength : s'.tokens.length < s.tokens.length := by
    rw [h.length_tokens, h'.length_tokens, List.length_append]
    have := List.length_pos_iff.2 hks
    omega
  have hsuffix : s'.tokens <:+ s.rest :=
    (List.suffix_cons_iff.1 hs.tokens).resolve_left fun heq => by
      rw [heq] at hlength
      exact Nat.lt_irrefl _ hlength
  exact (List.pairwise_cons.1 h.ascending).1 _ (hsuffix.subset List.mem_cons_self)

end State.Facing

/-- How reading that needs `n` levels ends: before the tokens `ks` if they were left, and with a
report otherwise. -/
structure Outcome (inside : Bool) (n : Nat) (ks : List Kind) (Q : Prop) (s s' : State) : Prop where
  done : s.depth + n ≤ maxDepth →
    s'.Facing inside ks ∧ s'.problems = s.problems ∧ Q
  tooDeep : maxDepth < s.depth + n → s'.problems ≠ []

/-- What a reader makes of the tokens `ks` if the one behind them is such as `G` says. The fuel has
to last for all tokens up to the end and for `b` calls beyond. -/
def Rereads (t : Interner) (inside : Bool) (fuel b : Nat) (φ : Prop) (n : Nat) (ks : List Kind)
    (G : Kind → Prop) (f : ParseM α) (Q : α → Prop) : Prop :=
  φ → ∀ s next rest, s.Facing inside (ks ++ next :: rest) →
    16 * (ks.length + rest.length + 1) + b ≤ fuel → G next → (f s).2.names ≤ t →
    Outcome inside n (next :: rest) (Q (f s).1) s (f s).2

/-- The same of a reader that goes on in any case. -/
structure Recovers (t : Interner) (inside : Bool) (fuel b : Nat) (φ : Prop) (n : Nat)
    (ks : List Kind) (G : Kind → Prop) (f : ParseM α) (Q : α → Prop) : Prop where
  goesOn : GoesOn f
  rereads : Rereads t inside fuel b φ n ks G f Q

section Rules

variable {inside : Bool} {fuel b b' n n₁ n₂ : Nat} {φ ψ : Prop} {k : Kind} {ks ks₁ ks₂ : List Kind}
  {G G₁ : Kind → Prop} {f : ParseM α} {g : α → ParseM β} {Q Q' Q₁ : α → Prop} {R : β → Prop}

theorem Rereads.more (h : Rereads t inside fuel b φ n ks G f Q) (hb : b ≤ b') (hφ : ψ → φ) :
    Rereads t inside fuel b' ψ n ks G f Q := fun hψ s next rest hs hfuel hnext hnames =>
  h (hφ hψ) s next rest hs (Nat.le_trans (Nat.add_le_add_left hb _) hfuel) hnext hnames

theorem Recovers.more (h : Recovers t inside fuel b φ n ks G f Q) (hb : b ≤ b') (hφ : ψ → φ) :
    Recovers t inside fuel b' ψ n ks G f Q := ⟨h.goesOn, h.rereads.more hb hφ⟩

theorem Recovers.of_eq (h : Recovers t inside fuel b φ n₁ ks₁ G f Q) (hn : n = n₁)
    (hks : ks = ks₁) : Recovers t inside fuel b φ n ks G f Q := by
  rw [hn, hks]
  exact h

theorem Recovers.guard (h : Recovers t inside fuel b φ n ks G₁ f Q) (hG : ∀ k, G k → G₁ k) :
    Recovers t inside fuel b φ n ks G f Q :=
  ⟨h.goesOn, fun hφ s next rest hs hfuel hnext hnames =>
    h.rereads hφ s next rest hs hfuel (hG next hnext) hnames⟩

/-- What is assumed may be used. -/
theorem Recovers.assume (hf : GoesOn f) (h : φ → Recovers t inside fuel b φ n ks G f Q) :
    Recovers t inside fuel b φ n ks G f Q := ⟨hf, fun hφ => (h hφ).rereads hφ⟩

theorem Recovers.absurd (hf : GoesOn f) (h : ¬φ) : Recovers t inside fuel b φ n ks G f Q :=
  ⟨hf, fun hφ => (h hφ).elim⟩

/-- A reader that opens no level always comes to an end. -/
theorem Outcome.flat {ls : List Kind} {q : Prop} {s s' : State} (hs : s.Facing inside ls)
    (h : s'.Facing inside ks ∧ s'.problems = s.problems ∧ q) : Outcome inside 0 ks q s s' :=
  ⟨fun _ => h, fun hd => (Nat.not_lt.2 hs.depth hd).elim⟩

theorem recovers_pure {a : α} (h : φ → Q a) :
    Recovers t inside fuel b φ 0 [] G (pure a) Q :=
  ⟨goesOn_pure a, fun hφ _ _ _ hs _ _ _ => .flat hs ⟨hs, rfl, h hφ⟩⟩

theorem Recovers.bind_of_le (hf : Recovers t inside fuel b φ n₁ ks₁ G₁ f Q₁)
    (hb : b' ≤ b + 16 * ks₁.length)
    (hg : ∀ a, Recovers t inside fuel b' (Q₁ a ∧ φ) n₂ ks₂ G (g a) R)
    (hG : ∀ k, G k → G₁ (ks₂.headD k)) :
    Recovers t inside fuel b φ (max n₁ n₂) (ks₁ ++ ks₂) G (f >>= g) R := by
  refine ⟨hf.goesOn.bind fun a => (hg a).goesOn, fun hφ s next rest hs hfuel hnext hnames => ?_⟩
  have hgo := (hg (f s).1).goesOn (f s).2
  obtain ⟨next₁, rest₁, hmid, hhead⟩ : ∃ next₁ rest₁, ks₂ ++ next :: rest = next₁ :: rest₁ ∧
      next₁ = ks₂.headD next := by
    cases ks₂ with
    | nil => exact ⟨_, _, rfl, rfl⟩
    | cons k ks => exact ⟨_, _, rfl, rfl⟩
  have hlength := congrArg List.length hmid
  rw [List.length_append, List.length_cons, List.length_cons] at hlength
  rw [List.length_append] at hfuel
  rw [List.append_assoc, hmid] at hs
  have hfirst := hf.rereads hφ s next₁ rest₁ hs (by omega) (hhead ▸ hG next hnext)
    (Interner.laws.le_trans hgo.names hnames)
  have hdepth : (f s).2.depth = s.depth := (hf.goesOn s).depth
  by_cases h₁ : s.depth + n₁ ≤ maxDepth
  · obtain ⟨hface, hproblems, hQ⟩ := hfirst.done h₁
    have hsecond := (hg _).rereads ⟨hQ, hφ⟩ _ next rest (hmid ▸ hface) (by omega) hnext hnames
    refine ⟨fun h => ?_, fun h => hsecond.tooDeep (by omega)⟩
    obtain ⟨hface, hsame, hR⟩ := hsecond.done (by omega)
    exact ⟨hface, hsame.trans hproblems, hR⟩
  · refine ⟨fun h => (h₁ (by omega)).elim, fun _ hnil => hfirst.tooDeep (by omega) ?_⟩
    obtain ⟨new, hnew, -⟩ := hgo.problems
    exact (List.append_eq_nil_iff.1 (hnew.symm.trans hnil)).2

/-- One reader behind another that reads at least one token. -/
theorem Recovers.bind (hf : Recovers t inside fuel b φ n₁ ks₁ G₁ f Q₁) (hks : ks₁ ≠ [])
    (hG : ∀ k, G k → G₁ (ks₂.headD k))
    (hg : ∀ a, Recovers t inside fuel (b + 16) (Q₁ a ∧ φ) n₂ ks₂ G (g a) R) :
    Recovers t inside fuel b φ (max n₁ n₂) (ks₁ ++ ks₂) G (f >>= g) R := by
  have := List.length_pos_iff.2 hks
  exact hf.bind_of_le (by omega) hg hG

theorem Recovers.silent (hf : Recovers t inside fuel b φ 0 [] (fun _ => True) f Q₁)
    (hg : ∀ a, Recovers t inside fuel b (Q₁ a ∧ φ) n ks G (g a) R) :
    Recovers t inside fuel b φ n ks G (f >>= g) R :=
  (hf.bind_of_le (Nat.le_refl _) hg fun _ _ => trivial).of_eq (Nat.zero_max n).symm rfl

theorem Recovers.token (hf : Recovers t inside fuel b φ 0 [k] (fun _ => True) f Q₁)
    (hg : ∀ a, Recovers t inside fuel (b + 16) (Q₁ a ∧ φ) n ks G (g a) R) :
    Recovers t inside fuel b φ n (k :: ks) G (f >>= g) R :=
  (hf.bind (List.cons_ne_nil _ _) (fun _ _ => trivial) hg).of_eq (Nat.zero_max n).symm rfl

/-- What is read last is put into its place. -/
theorem Recovers.last {h : α → β} (hf : Recovers t inside fuel b φ n ks G f Q₁)
    (hR : φ → ∀ a, Q₁ a → R (h a)) :
    Recovers t inside fuel b φ n ks G (f >>= fun a => pure (h a)) R :=
  ⟨hf.goesOn.bind fun _ => goesOn_pure _, fun hφ s next rest hs hfuel hnext hnames =>
    have hread := hf.rereads hφ s next rest hs hfuel hnext hnames
    ⟨fun hd => ⟨(hread.done hd).1, (hread.done hd).2.1, hR hφ _ (hread.done hd).2.2⟩, hread.tooDeep⟩⟩

theorem Recovers.pure_bind {a : α} (h : Recovers t inside fuel b φ n ks G (g a) R) :
    Recovers t inside fuel b φ n ks G (pure a >>= g) R := ⟨h.goesOn, h.rereads⟩

theorem Recovers.map_bind {γ : Type} {h : α → γ} {g : γ → ParseM β}
    (hf : Recovers t inside fuel b φ n ks G (f >>= fun a => g (h a)) R) :
    Recovers t inside fuel b φ n ks G (h <$> f >>= g) R := ⟨hf.goesOn, hf.rereads⟩

theorem Rereads.kind_bind {g : Kind → ParseM β} (h : Rereads t inside fuel b φ n (k :: ks) G (g k) R) :
    Rereads t inside fuel b φ n (k :: ks) G (kind >>= g) R := fun hφ s next rest hs => by
  rw [run_kind_bind, hs.kind_eq]
  exact h hφ s next rest hs

/-- Looking at the token behind what is to be read. -/
theorem Rereads.kind_bind_next {g : Kind → ParseM β}
    (h : ∀ k, G k → Rereads t inside fuel b φ n [] G (g k) R) :
    Rereads t inside fuel b φ n [] G (kind >>= g) R := fun hφ s next rest hs hfuel hnext => by
  rw [run_kind_bind, hs.kind_eq]
  exact h next hnext hφ s next rest hs hfuel hnext

theorem Rereads.span_bind {g : Span → ParseM β}
    (h : ∀ at_, Rereads t inside fuel b φ n ks G (g at_) R) :
    Rereads t inside fuel b φ n ks G (span >>= g) R := fun hφ s => by
  rw [run_span_bind]
  exact h _ hφ s

theorem Rereads.get_bind {g : State → ParseM β}
    (h : ∀ s₀ ls, s₀.Facing inside (k :: ls) → Rereads t inside fuel b φ n (k :: ks) G (g s₀) R) :
    Rereads t inside fuel b φ n (k :: ks) G (get >>= g) R := fun hφ s next rest hs =>
  h s _ hs hφ s next rest hs

theorem Recovers.kind_bind {g : Kind → ParseM β} (hgo : ∀ k, GoesOn (g k))
    (h : Recovers t inside fuel b φ n (k :: ks) G (g k) R) :
    Recovers t inside fuel b φ n (k :: ks) G (kind >>= g) R :=
  ⟨goesOn_kind.bind hgo, .kind_bind h.rereads⟩

/-- Looking at a token that is the first of those to be read, if there is one. -/
theorem Recovers.kind_bind_any {g : Kind → ParseM β}
    (h : ∀ k, Recovers t inside fuel b (ks.headD k = k ∧ φ) n ks G (g k) R) :
    Recovers t inside fuel b φ n ks G (kind >>= g) R := by
  refine ⟨goesOn_kind.bind fun k => (h k).goesOn, fun hφ s next rest hs => ?_⟩
  rw [run_kind_bind]
  refine (h _).rereads ⟨?_, hφ⟩ s next rest hs
  cases ks with
  | nil => rfl
  | cons k ks => exact hs.kind_eq.symm

theorem Recovers.get_bind {g : State → ParseM β} (hgo : ∀ s₀, GoesOn (g s₀))
    (h : ∀ s₀ ls, s₀.Facing inside (k :: ls) → Recovers t inside fuel b φ n (k :: ks) G (g s₀) R) :
    Recovers t inside fuel b φ n (k :: ks) G (get >>= g) R :=
  ⟨goesOn_get.bind hgo, .get_bind fun s₀ ls hs => (h s₀ ls hs).rereads⟩

theorem Recovers.span_bind {g : Span → ParseM β}
    (h : ∀ at_, Recovers t inside fuel b φ n ks G (g at_) R) :
    Recovers t inside fuel b φ n ks G (span >>= g) R :=
  ⟨goesOn_span.bind fun at_ => (h at_).goesOn, .span_bind fun at_ => (h at_).rereads⟩

/-- Where something was read, reading goes on elsewhere. -/
theorem Recovers.elsewhere (hf : Recovers t inside fuel b φ n ks G f Q) (hks : ks ≠ []) :
    Recovers t inside fuel b φ n ks G (do
      let start ← span
      let a ← f
      let stop ← span
      return (start, a, stop)) fun r => r.2.2.start ≠ r.1.start ∧ Q r.2.1 := by
  refine ⟨goesOn_span.bind fun _ => hf.goesOn.bind fun _ => goesOn_span.bind fun _ => goesOn_pure _,
    fun hφ s next rest hs hfuel hnext hnames => ?_⟩
  have hread := hf.rereads hφ s next rest hs hfuel hnext hnames
  refine ⟨fun hd => ?_, hread.tooDeep⟩
  obtain ⟨hface, hproblems, hQ⟩ := hread.done hd
  exact ⟨hface, hproblems, Nat.ne_of_gt (hs.start_lt hks (hf.goesOn s) hface), hQ⟩

theorem Recovers.elsewhere_bind {g : Span → α → Span → ParseM β}
    (hf : Recovers t inside fuel b φ n₁ ks₁ G₁ f Q₁) (hks : ks₁ ≠ [])
    (hG : ∀ k, G k → G₁ (ks₂.headD k))
    (hg : ∀ start a stop, Recovers t inside fuel (b + 16)
      ((stop.start ≠ start.start ∧ Q₁ a) ∧ φ) n₂ ks₂ G (g start a stop) R) :
    Recovers t inside fuel b φ (max n₁ n₂) (ks₁ ++ ks₂) G (do
      let start ← span
      let a ← f
      let stop ← span
      g start a stop) R := by
  have h : Recovers t inside fuel b φ (max n₁ n₂) (ks₁ ++ ks₂) G
      (_ >>= fun r : Span × α × Span => g r.1 r.2.1 r.2.2) R :=
    (hf.elsewhere hks).bind hks hG fun r => hg r.1 r.2.1 r.2.2
  exact ⟨h.goesOn, h.rereads⟩

/-- A reader that is called with fuel has some left within. -/
theorem recovers_reader {f : Nat → ParseM α} (hgo : ∀ fuel, GoesOn (f fuel))
    (h : ∀ fuel, Rereads t inside fuel b φ n ks G (f (fuel + 1)) Q) :
    Recovers t inside fuel (b + 1) φ n ks G (f fuel) Q := by
  refine ⟨hgo fuel, fun hφ s next rest hs hfuel => ?_⟩
  obtain ⟨fuel, rfl⟩ : ∃ m, fuel = m + 1 := ⟨fuel - 1, by omega⟩
  exact h fuel hφ s next rest hs (by omega)

theorem Rereads.nested {m : Message} {a : α} (h : Rereads t inside fuel b φ n ks G f Q) :
    Rereads t inside fuel b φ (1 + n) ks G (nested m a f) Q :=
  fun hφ s next rest hs hfuel hnext hnames => by
  rw [nested_run] at hnames ⊢
  split at hnames
  · next hdepth =>
    rw [if_pos hdepth]
    exact ⟨fun h => by omega, fun _ => List.cons_ne_nil _ _⟩
  · next hdepth =>
    rw [if_neg hdepth]
    have hread := h hφ { s with depth := s.depth + 1 } next rest (hs.deep (by omega)) hfuel hnext
      hnames
    refine ⟨fun h => ?_, fun h => hread.tooDeep ?_⟩
    · obtain ⟨hface, hproblems, hQ⟩ := hread.done (by dsimp only; omega)
      exact ⟨hface.deep (Nat.le_trans (Nat.sub_le _ _) hface.depth), hproblems, hQ⟩
    · dsimp only
      omega

theorem Recovers.inFunction (h : Recovers t true fuel b φ n ks G f Q) :
    Recovers t inside fuel b φ n ks G (inFunction f) Q := by
  refine ⟨h.goesOn.inFunction, fun hφ s next rest hs hfuel hnext hnames => ?_⟩
  have hread := h.rereads hφ { s with functionDepth := s.functionDepth + 1 } next rest
    ⟨hs.kinds, hs.ascending, hs.unbroken, hs.depth, fun _ => Nat.succ_ne_zero _⟩ hfuel hnext hnames
  refine ⟨fun hd => ?_, hread.tooDeep⟩
  obtain ⟨hface, hproblems, hQ⟩ := hread.done hd
  have hback := (h.goesOn.inFunction s).functionDepth
  exact ⟨⟨hface.kinds, hface.ascending, hface.unbroken, hface.depth,
    fun hi => hback ▸ hs.functionDepth hi⟩, hproblems, hQ⟩

theorem run_advance (s : State) : advance s = ((), match s.rest with
    | [] => s
    | tok :: ts => { s with token := tok, rest := ts }) := rfl

theorem recovers_advance :
    Recovers t inside fuel b φ 0 [k] (fun _ => True) advance fun _ => True := by
  refine ⟨goesOn_advance, fun _ s next rest hs _ _ _ => .flat hs ?_⟩
  have hlength := hs.length_tokens
  have hface := hs.onward (goesOn_advance s)
  rw [State.tokens] at hlength
  rw [run_advance] at hface ⊢
  cases hrest : s.rest with
  | nil =>
    rw [hrest] at hlength
    cases hlength
  | cons tok ts =>
    simp only [hrest] at hface hlength ⊢
    exact ⟨hface (Nat.succ.inj hlength), trivial, trivial⟩

/-- Reading on behind a token that is known. -/
theorem recovers_advance_bind {g : Unit → ParseM β}
    (h : Recovers t inside fuel (b + 16) φ n ks G (g ()) R) :
    Recovers t inside fuel b φ n (k :: ks) G (advance >>= g) R :=
  recovers_advance.token fun _ => h.more (Nat.le_refl _) And.right

theorem recovers_accept :
    Recovers t inside fuel b φ 0 [k] (fun _ => True) (accept k) (· = true) := by
  refine ⟨goesOn_accept k, Rereads.kind_bind ?_⟩
  rw [if_pos rfl]
  exact (recovers_advance.last fun _ _ _ => rfl).rereads

theorem recovers_accept_other :
    Recovers t inside fuel b φ 0 [] (· ≠ k) (accept k) (· = false) := by
  refine ⟨goesOn_accept k, Rereads.kind_bind_next fun k' hne => ?_⟩
  rw [if_neg hne]
  exact (recovers_pure fun _ => rfl).rereads

/-- What comes behind an answer that is known. -/
theorem Recovers.known {c : Bool} {g : Bool → ParseM β} (hgo : ∀ a, GoesOn (g a))
    (h : Recovers t inside fuel b φ n ks G (g c) R) (a : Bool) :
    Recovers t inside fuel b (a = c ∧ φ) n ks G (g a) R :=
  .assume (hgo a) fun ha => by
    rw [ha.1]
    exact h.more (Nat.le_refl _) And.right

theorem recovers_accept_bind {g : Bool → ParseM β} (hgo : GoesOn (g false))
    (h : Recovers t inside fuel (b + 16) φ n ks G (g true) R) :
    Recovers t inside fuel b φ n (k :: ks) G (accept k >>= g) R :=
  recovers_accept.token (h.known (Bool.rec hgo h.goesOn))

theorem recovers_accept_other_bind {g : Bool → ParseM β} (hgo : GoesOn (g true))
    (hG : ∀ next, G next → ks.headD next ≠ k)
    (h : Recovers t inside fuel b φ n ks G (g false) R) :
    Recovers t inside fuel b φ n ks G (accept k >>= g) R :=
  (recovers_accept_other.bind_of_le (Nat.le_refl _) (h.known (Bool.rec h.goesOn hgo)) hG).of_eq
    (Nat.zero_max n).symm rfl

theorem recovers_expect (p : Punctuator) :
    Recovers t inside fuel b φ 0 [.punctuator p] (fun _ => True) (expect p) (· = true) :=
  recovers_accept_bind ((goesOn_report rfl _).bind fun _ => goesOn_pure _) (recovers_pure fun _ => rfl)

theorem recovers_expect_bind {p : Punctuator} {g : Bool → ParseM β} (hgo : GoesOn (g false))
    (h : Recovers t inside fuel (b + 16) φ n ks G (g true) R) :
    Recovers t inside fuel b φ n (.punctuator p :: ks) G (expect p >>= g) R :=
  (recovers_expect p).token (h.known (Bool.rec hgo h.goesOn))

theorem recovers_expect_then {p : Punctuator} {g : ParseM β}
    (h : Recovers t inside fuel (b + 16) φ n ks G g R) :
    Recovers t inside fuel b φ n (.punctuator p :: ks) G (expect p >>= fun _ => g) R :=
  recovers_expect_bind h.goesOn h

/-- Nothing is read behind a token that does not come. -/
theorem recovers_absent {rest : Option α → ParseM β} (hf : GoesOn f)
    (hgo : ∀ v, GoesOn (rest v)) (hG : ∀ next, G next → ks.headD next ≠ k)
    (h : Recovers t inside fuel b φ n ks G (rest none) R) :
    Recovers t inside fuel b φ n ks G (accept k >>= fun c =>
      if c = true then some <$> f >>= rest else pure none >>= rest) R :=
  recovers_accept_other_bind (hf.map.bind hgo) hG h.pure_bind

theorem recovers_present {rest : Option α → ParseM β}
    (hf : Recovers t inside fuel (b + 16) φ n₁ ks₁ G₁ f Q₁) (hgo : ∀ v, GoesOn (rest v))
    (hG : ∀ next, G next → G₁ (ks₂.headD next))
    (h : ∀ a, Recovers t inside fuel (b + 16) (Q₁ a ∧ φ) n₂ ks₂ G (rest (some a)) R) :
    Recovers t inside fuel b φ (max n₁ n₂) (k :: (ks₁ ++ ks₂)) G (accept k >>= fun c =>
      if c = true then some <$> f >>= rest else pure none >>= rest) R := by
  exact recovers_accept_bind ((goesOn_pure _).bind hgo)
    (.map_bind (hf.bind_of_le (Nat.le_add_right _ _) h hG))

theorem recovers_endStatement : Recovers t inside fuel b φ 0 [.punctuator .semicolon]
    (fun _ => True) endStatement fun _ => True :=
  recovers_accept_bind (by grind [Message.tokenExpected]) (recovers_pure fun _ => trivial)

theorem recovers_endStatement_bind {g : Unit → ParseM β}
    (h : Recovers t inside fuel (b + 16) φ n ks G (g ()) R) :
    Recovers t inside fuel b φ n (.punctuator .semicolon :: ks) G (endStatement >>= g) R :=
  recovers_endStatement.token fun _ => h.more (Nat.le_refl _) And.right

theorem recovers_freshId :
    Recovers t inside fuel b φ 0 [] (fun _ => True) freshId fun _ => True :=
  ⟨goesOn_freshId, fun _ s _ _ hs _ _ _ =>
    .flat hs ⟨hs.stay (goesOn_freshId s) rfl, rfl, trivial⟩⟩

theorem recovers_freshId_bind {g : NodeId → ParseM β}
    (h : ∀ id, Recovers t inside fuel b φ n ks G (g id) R) :
    Recovers t inside fuel b φ n ks G (freshId >>= g) R :=
  recovers_freshId.silent fun id => (h id).more (Nat.le_refl _) And.right

theorem recovers_spanFrom (start : Nat) :
    Recovers t inside fuel b φ 0 [] (fun _ => True) (spanFrom start) fun _ => True :=
  .span_bind fun _ => recovers_pure fun _ => trivial

theorem recovers_intern (text : String) :
    Recovers t inside fuel b φ 0 [] (fun _ => True) (intern text) fun m => t.text m = text :=
  ⟨goesOn_intern text, fun _ s _ _ hs _ _ hnames =>
    .flat hs ⟨hs.stay (goesOn_intern text s) rfl, rfl,
      Interner.laws.text_of_le hnames (Interner.laws.find?_intern s.names text)⟩⟩

theorem recovers_identifier (w : String) : Recovers t inside fuel b φ 0 [.identifier w]
    (fun _ => True) identifier fun i => t.text i.name = w := by
  refine ⟨goesOn_identifier, Rereads.span_bind fun at_ => Rereads.kind_bind ?_⟩
  refine ((recovers_intern w).silent fun m => recovers_advance_bind (Recovers.pure_bind ?_)).rereads
  exact recovers_freshId_bind fun id => recovers_pure And.left

theorem recovers_identifier_bind {w : String} {g : Identifier → ParseM β}
    (h : ∀ i, Recovers t inside fuel (b + 16) (t.text i.name = w ∧ φ) n ks G (g i) R) :
    Recovers t inside fuel b φ n (.identifier w :: ks) G (identifier >>= g) R :=
  (recovers_identifier w).token h

theorem isReserved_eq_false {i : Identifier} {strict : Bool} (ht : .wellKnown ≤ t)
    (hi : Source.Bindable strict (t.text i.name)) : (strict && isReserved i.name) = false := by
  cases hs : strict with
  | false => rfl
  | true =>
    obtain ⟨heval, harguments⟩ := hi.unreserved hs
    rw [Bool.true_and, isReserved, Bool.or_eq_false_iff, decide_eq_false_iff_not,
      decide_eq_false_iff_not]
    refine ⟨fun h => heval ?_, fun h => harguments ?_⟩
    · rw [h]
      exact Interner.laws.text_of_le ht Interner.find?_eval
    · rw [h]
      exact Interner.laws.text_of_le ht Interner.find?_arguments

theorem recovers_checkBinding (ht : .wellKnown ≤ t) {strict : Bool} {i : Identifier}
    (hi : φ → Source.Bindable strict (t.text i.name)) :
    Recovers t inside fuel b φ 0 [] (fun _ => True) (checkBinding strict i) fun _ => True := by
  refine .assume (goesOn_checkBinding strict i) fun hφ => ?_
  rw [checkBinding, isReserved_eq_false ht (hi hφ)]
  exact recovers_pure fun _ => trivial

theorem recovers_checkBinding_bind (ht : .wellKnown ≤ t) {strict : Bool} {i : Identifier}
    {g : Unit → ParseM β} (hi : φ → Source.Bindable strict (t.text i.name))
    (h : Recovers t inside fuel b φ n ks G (g ()) R) :
    Recovers t inside fuel b φ n ks G (checkBinding strict i >>= g) R :=
  (recovers_checkBinding ht hi).silent fun _ => h.more (Nat.le_refl _) And.right

theorem recovers_checkParams (ht : .wellKnown ≤ t) {strict : Bool} {earlier : List Name}
    {ps : List Identifier} (hps : ∀ p ∈ ps, Source.Bindable strict (t.text p.name))
    (hnodup : strict = true → (ps.map Identifier.name).Nodup)
    (hearlier : strict = true → ∀ p ∈ ps, p.name ∉ earlier) :
    Recovers t inside fuel b φ 0 [] (fun _ => True) (checkParams strict earlier ps)
      fun _ => True := by
  induction ps generalizing earlier with
  | nil => exact recovers_pure fun _ => trivial
  | cons p ps ih =>
    refine recovers_checkBinding_bind ht (fun _ => hps p List.mem_cons_self) ?_
    have hfresh : (strict && earlier.contains p.name) = false := by
      cases hs : strict with
      | false => rfl
      | true => simpa using hearlier hs p List.mem_cons_self
    rw [hfresh]
    refine ih (fun q hq => hps q (List.mem_cons_of_mem _ hq)) (fun hs => (hnodup hs).of_cons) ?_
    intro hs q hq hmem
    obtain heq | hmem := List.mem_cons.1 hmem
    · exact (List.nodup_cons.1 (hnodup hs)).1 (heq ▸ List.mem_map_of_mem hq)
    · exact hearlier hs q (List.mem_cons_of_mem _ hq) hmem

theorem recovers_params {w : String} {ws : List String} :
    Recovers t inside fuel (b + 1) φ 0 (Source.nameTokens (w :: ws)) (· ≠ .punctuator .comma)
      (params fuel) fun ps => ps.map (fun i => t.text i.name) = w :: ws := by
  induction ws generalizing w b φ fuel with
  | nil =>
    refine recovers_reader goesOn_params fun fuel => Recovers.rereads (recovers_identifier_bind
      fun p => recovers_accept_other_bind ((goesOn_params fuel).bind fun _ => goesOn_pure _)
        (fun _ h => h) (recovers_pure fun h => ?_))
    rw [List.map_cons, h.1, List.map_nil]
  | cons w' ws ih =>
    refine recovers_reader goesOn_params fun fuel => Recovers.rereads (recovers_identifier_bind
      fun p => recovers_accept_bind (goesOn_pure _) (ih.last fun h ps hps => ?_))
    rw [List.map_cons, h.1, hps]

end Rules

end ScopeChain.Parser
