import ScopeChain.Proofs.Numbering
import ScopeChain.Proofs.Onward
import ScopeChain.Proofs.Sources

/-! What is read without an error is grammatical. -/
namespace ScopeChain.Parser

open Token (Kind)

variable {α β : Type} {t : Interner}

/-- Nothing has been reported, and all names given out are names of a last interner. -/
structure State.Settled (t : Interner) (s : State) : Prop where
  problems : s.problems = []
  names : s.names ≤ t

theorem Onward.settled {s s' : State} (h : Onward s s') (hs : s'.Settled t) : s.Settled t where
  problems := by
    obtain ⟨new, hnew, -⟩ := h.problems
    exact (List.append_eq_nil_iff.1 (hnew.symm.trans hs.problems)).2
  names := Interner.laws.le_trans h.names hs.names

/-- A reader that begins at `P` and reports nothing ends at `Q`. -/
structure Clean (t : Interner) (P : State → Prop) (f : ParseM α) (Q : α → State → Prop) :
    Prop where
  goesOn : GoesOn f
  clean : ∀ s, P s → (f s).2.Settled t → Q (f s).1 (f s).2

section Rules

variable {P P' : State → Prop} {f : ParseM α} {g : α → ParseM β} {Q Q' : α → State → Prop}
  {R : β → State → Prop}

theorem Clean.bind (hf : Clean t P f Q) (hg : ∀ a, Clean t (Q a) (g a) R) :
    Clean t P (f >>= g) R where
  goesOn := hf.goesOn.bind fun a => (hg a).goesOn
  clean s hs hend := (hg _).clean _ (hf.clean s hs (((hg _).goesOn _).settled hend)) hend

theorem Clean.mono (h : Clean t P f Q) (hP : ∀ s, P' s → P s) (hQ : ∀ a s, Q a s → Q' a s) :
    Clean t P' f Q' := ⟨h.goesOn, fun s hs hend => hQ _ _ (h.clean s (hP s hs) hend)⟩

theorem Clean.of_pre (hP : ∀ s, P' s → P s) (h : Clean t P f Q) : Clean t P' f Q :=
  h.mono hP fun _ _ h => h

theorem Clean.and (h : Clean t P f Q) (h' : Clean t P' f Q') :
    Clean t (fun s => P s ∧ P' s) f fun a s => Q a s ∧ Q' a s :=
  ⟨h.goesOn, fun s hs hend => ⟨h.clean s hs.1 hend, h'.clean s hs.2 hend⟩⟩

theorem Clean.pure {a : α} (h : ∀ s, P s → Q a s) : Clean t P (pure a) Q :=
  ⟨goesOn_pure a, fun s hs _ => h s hs⟩

theorem Clean.pure_bind {a : α} (h : Clean t P (g a) R) : Clean t P (Pure.pure a >>= g) R :=
  ⟨h.goesOn, h.clean⟩

theorem Clean.map {h : α → β} (hf : Clean t P f fun a => R (h a)) : Clean t P (h <$> f) R :=
  ⟨hf.goesOn.map, hf.clean⟩

theorem Clean.kind_bind {g : Kind → ParseM β}
    (h : ∀ k, Clean t (fun s => P s ∧ s.token.kind = k) (g k) R) : Clean t P (kind >>= g) R :=
  ⟨goesOn_kind.bind fun k => (h k).goesOn, fun s hs hend => (h _).clean s ⟨hs, rfl⟩ hend⟩

theorem Clean.span_bind {g : Span → ParseM β} (h : ∀ at_, Clean t P (g at_) R) :
    Clean t P (span >>= g) R :=
  ⟨goesOn_span.bind fun a => (h a).goesOn, fun s hs hend => (h _).clean s hs hend⟩

theorem Clean.get_bind {g : State → ParseM β}
    (h : ∀ s₀, Clean t (fun s => P s ∧ s = s₀) (g s₀) R) : Clean t P (get >>= g) R :=
  ⟨goesOn_get.bind fun a => (h a).goesOn, fun s hs hend => (h _).clean s ⟨hs, rfl⟩ hend⟩

theorem Clean.ite {c : Bool} {f f' : ParseM α} (h : Clean t P f Q) (h' : Clean t P' f' Q) :
    Clean t (fun s => (c = true → P s) ∧ (c = false → P' s)) (if c = true then f else f') Q := by
  cases c
  · exact h'.of_pre fun s hs => hs.2 rfl
  · exact h.of_pre fun s hs => hs.1 rfl

/-- A report leaves nothing to be said. -/
theorem clean_reportAt (at_ : Span) {m : Message} (h : m.severity = .error) (args : List String) :
    Clean t P (reportAt at_ m args) fun _ _ => False :=
  ⟨goesOn_reportAt at_ h args, fun _ _ hend => List.cons_ne_nil _ _ hend.problems⟩

theorem clean_report {m : Message} (h : m.severity = .error) (args : List String) :
    Clean t P (report m args) fun _ _ => False :=
  Clean.span_bind fun at_ => clean_reportAt at_ h args

theorem Clean.absurd (hf : GoesOn f) : Clean t (fun _ => False) f Q :=
  ⟨hf, fun _ h => h.elim⟩

theorem nested_run (m : Message) (a : α) (f : ParseM α) (s : State) : nested m a f s =
    if maxDepth ≤ s.depth then
      (a, { s with problems := .located "" s.token.span m [] :: s.problems })
    else
      let r := f { s with depth := s.depth + 1 }
      (r.1, { r.2 with depth := r.2.depth - 1 }) := by
  by_cases h : maxDepth ≤ s.depth
  · have hget : nested m a f s = (if maxDepth ≤ s.depth then _ else _ : ParseM α) s := rfl
    rw [hget, if_pos h, if_pos h]
    rfl
  · have hget : nested m a f s = (if maxDepth ≤ s.depth then _ else _ : ParseM α) s := rfl
    rw [hget, if_neg h, if_neg h]
    rfl

theorem Clean.nested {m : Message} (hm : m.severity = .error) {a : α}
    (hP : ∀ s d, P s → P { s with depth := d })
    (hQ : ∀ a s d, Q a s → Q a { s with depth := d }) (h : Clean t P f Q) :
    Clean t P (nested m a f) Q where
  goesOn := h.goesOn.nested hm
  clean s hs hend := by
    rw [nested_run] at hend ⊢
    split at hend
    · exact (List.cons_ne_nil _ _ hend.problems).elim
    · next hdepth =>
      rw [if_neg hdepth]
      exact hQ _ _ _ (h.clean _ (hP _ _ hs) ⟨hend.problems, hend.names⟩)

end Rules

/-- A state from which to read with some fuel: of the budget of each token all is left, and so
much beyond. -/
structure State.Ready (n extra fuel : Nat) (s : State) : Prop where
  known : .wellKnown ≤ s.names
  ends : ∃ last, s.tokens.getLast? = some last ∧ last.kind = .endOfFile
  genuine : ∀ tok ∈ s.tokens, Lexer.Genuine tok.kind
  functionDepth : s.functionDepth = n
  spare : 16 * s.tokens.length + extra ≤ fuel

/-- Such a state, and what is known of the trees that were read before. -/
def At (n extra fuel : Nat) (φ : Prop) (s : State) : Prop := s.Ready n extra fuel ∧ φ

section States

variable {n b b' fuel : Nat} {φ ψ : Prop} {f : ParseM α} {k : Kind}

theorem Onward.ready {s s' : State} (h : Onward s s') (hs : s.Ready n b fuel) :
    s'.Ready n b fuel where
  known := Interner.laws.le_trans hs.known h.names
  ends := by
    obtain ⟨front, hfront⟩ := h.tokens
    obtain ⟨last, hlast, hkind⟩ := hs.ends
    refine ⟨last, ?_, hkind⟩
    rw [← hfront, List.getLast?_append, State.tokens, List.getLast?_cons] at hlast
    rw [State.tokens, List.getLast?_cons]
    exact hlast
  genuine tok htok := hs.genuine tok (h.tokens.subset htok)
  functionDepth := h.functionDepth.trans hs.functionDepth
  spare := by
    have := h.tokens.length_le
    have := hs.spare
    omega

theorem at_succ : At n (b + 1) (fuel + 1) φ = At n b fuel φ := by
  funext s
  refine propext ⟨fun h => ⟨⟨h.1.known, h.1.ends, h.1.genuine, h.1.functionDepth, ?_⟩, h.2⟩,
    fun h => ⟨⟨h.1.known, h.1.ends, h.1.genuine, h.1.functionDepth, ?_⟩, h.2⟩⟩
  · have := h.1.spare
    omega
  · have := h.1.spare
    omega

theorem At.mono (hb : b' ≤ b) (h : φ → ψ) {s : State} (hs : At n b fuel φ s) :
    At n b' fuel ψ s :=
  ⟨⟨hs.1.known, hs.1.ends, hs.1.genuine, hs.1.functionDepth, Nat.le_trans (by omega) hs.1.spare⟩,
    h hs.2⟩

theorem At.deep {s : State} (h : At n b fuel φ s) (d : Nat) :
    At n b fuel φ { s with depth := d } :=
  ⟨⟨h.1.known, h.1.ends, h.1.genuine, h.1.functionDepth, h.1.spare⟩, h.2⟩

theorem GoesOn.clean (hf : GoesOn f) : Clean t (At n b fuel φ) f fun _ => At n b fuel φ :=
  ⟨hf, fun s hs _ => ⟨(hf s).ready hs.1, hs.2⟩⟩

/-- The last token stays, so behind each other one there is one more. -/
theorem State.Ready.rest_ne_nil {s : State} (h : s.Ready n b fuel)
    (hk : s.token.kind ≠ .endOfFile) : s.rest ≠ [] := by
  obtain ⟨last, hlast, hkind⟩ := h.ends
  intro hrest
  rw [State.tokens, hrest] at hlast
  obtain rfl := Option.some.inj hlast
  exact hk hkind

theorem clean_advance (hk : k ≠ .endOfFile) :
    Clean t (fun s => At n b fuel φ s ∧ s.token.kind = k) advance
      fun _ => At n (b + 16) fuel φ := by
  refine ⟨goesOn_advance, fun s hs _ => ⟨?_, hs.1.2⟩⟩
  have hgo := (goesOn_advance s).ready hs.1.1
  have hspare := hs.1.1.spare
  obtain ⟨u, us, hrest⟩ := List.exists_cons_of_ne_nil (hs.1.1.rest_ne_nil (hs.2 ▸ hk))
  have hnext : (advance s).2.tokens = u :: us := by
    rw [advance_of_cons hrest]
    rfl
  refine ⟨hgo.known, hgo.ends, hgo.genuine, hgo.functionDepth, ?_⟩
  rw [State.tokens, List.length_cons, hrest] at hspare
  rw [hnext]
  omega

theorem clean_accept_of (hk : k ≠ .endOfFile) {X : Kind → Prop} :
    Clean t (fun s => At n b fuel φ s ∧ X s.token.kind) (accept k) fun c s =>
      (c = true → At n (b + 16) fuel (X k ∧ φ) s) ∧
      (c = false → At n b fuel φ s ∧ s.token.kind ≠ k) := by
  refine Clean.kind_bind fun k' => ?_
  split
  · next heq =>
    subst heq
    have hread : Clean t (fun s => At n b fuel (X k' ∧ φ) s ∧ s.token.kind = k')
        (do advance; return true) fun c s => (c = true → At n (b + 16) fuel (X k' ∧ φ) s) ∧
          (c = false → At n b fuel φ s ∧ s.token.kind ≠ k') :=
      (clean_advance hk).bind fun _ => .pure fun s hs => ⟨fun _ => hs, nofun⟩
    exact hread.of_pre fun s hs =>
      ⟨hs.1.1.mono (Nat.le_refl _) fun h => ⟨hs.2 ▸ hs.1.2, h⟩, hs.2⟩
  · next hne => exact .pure fun s hs => ⟨nofun, fun _ => ⟨hs.1.1, hs.2 ▸ hne⟩⟩

theorem clean_accept (hk : k ≠ .endOfFile) : Clean t (At n b fuel φ) (accept k) fun c s =>
    (c = true → At n (b + 16) fuel φ s) ∧ (c = false → At n b fuel φ s ∧ s.token.kind ≠ k) := by
  have haccept : Clean t (At n b fuel φ) (accept k) fun c s =>
      (c = true → At n (b + 16) fuel (True ∧ φ) s) ∧
      (c = false → At n b fuel φ s ∧ s.token.kind ≠ k) :=
    Clean.of_pre (P := fun s => At n b fuel φ s ∧ True) (fun s hs => ⟨hs, trivial⟩)
      (clean_accept_of (X := fun _ => True) hk)
  exact haccept.mono (fun _ h => h) fun c s h =>
    ⟨fun hc => (h.1 hc).mono (Nat.le_refl _) And.right, h.2⟩

theorem clean_expect (p : Punctuator) :
    Clean t (At n b fuel φ) (expect p) fun c => At n (b + 16) fuel (c = true ∧ φ) := by
  refine (clean_accept (by simp)).bind fun c => Clean.ite (.pure fun s hs => ?_) ?_
  · exact hs.mono (Nat.le_refl _) fun h => ⟨rfl, h⟩
  · exact (clean_report rfl _).bind fun _ => .pure fun _ h => h.elim

/-- The name of an identifier is the one that its text has in a last interner. -/
structure Named (t : Interner) (i : Identifier) : Prop where
  word : Source.IsWord (t.text i.name)
  find : t.find? (t.text i.name) = some i.name

theorem clean_intern {text : String} :
    Clean t (fun s => At n b fuel φ s ∧ s.token.kind = k) (intern text)
      fun m s => At n b fuel (t.find? text = some m ∧ φ) s ∧ s.token.kind = k := by
  refine ⟨goesOn_intern text, fun s hs hend => ?_⟩
  have hgo := (goesOn_intern text s).ready hs.1.1
  have hfind := Interner.laws.find?_of_le hend.names (Interner.laws.find?_intern s.names text)
  exact ⟨⟨hgo, hfind, hs.1.2⟩, hs.2⟩

theorem clean_identifier :
    Clean t (At n b fuel φ) identifier fun i => At n (b + 16) fuel (Named t i ∧ φ) := by
  refine Clean.span_bind fun at_ => Clean.kind_bind fun k => ?_
  extract_lets rest
  have hrest : ∀ name, Clean t
      (At n (b + 16) fuel (Source.IsWord (t.text name) ∧ t.find? (t.text name) = some name ∧ φ))
      (rest name) fun i => At n (b + 16) fuel (Named t i ∧ φ) := fun name =>
    goesOn_freshId.clean.bind fun id => .pure fun s hs =>
      hs.mono (Nat.le_refl _) fun h => ⟨⟨h.1, h.2.1⟩, h.2.2⟩
  split
  · next text =>
    have hread : Clean t (fun s => At n b fuel (Source.IsWord text ∧ φ) s ∧
        s.token.kind = .identifier text) (do
          let m ← intern text
          advance
          let name ← pure m
          rest name) fun i => At n (b + 16) fuel (Named t i ∧ φ) := by
      refine clean_intern.bind fun m => (clean_advance (by simp)).bind fun _ => ?_
      refine (hrest m).of_pre fun s hs => hs.mono (Nat.le_refl _) fun ⟨hm, hword, h⟩ => ?_
      rw [Interner.laws.text_of_find? hm]
      exact ⟨hword, hm, h⟩
    refine hread.of_pre fun s hs => ⟨hs.1.mono (Nat.le_refl _) fun h => ⟨?_, h⟩, hs.2⟩
    have hgenuine := hs.1.1.genuine s.token List.mem_cons_self
    rw [hs.2] at hgenuine
    exact hgenuine
  · refine (clean_report rfl _).bind fun _ => Clean.absurd ?_
    exact (goesOn_intern _).bind fun name => (hrest name).goesOn

/-- A text that is spelt like a reserved name has that name. -/
theorem Named.unreserved {i : Identifier} (h : Named t i) (ht : .wellKnown ≤ t)
    (hi : isReserved i.name = false) :
    t.text i.name ≠ "eval" ∧ t.text i.name ≠ "arguments" := by
  have hne (text : String) (m : Name) (hm : Interner.wellKnown.find? text = some m)
      (hr : isReserved m = true) : t.text i.name ≠ text := by
    intro heq
    have hfind := Interner.laws.find?_of_le ht hm
    rw [← heq, h.find] at hfind
    rw [Option.some.inj hfind, hr] at hi
    exact Bool.noConfusion hi
  exact ⟨hne "eval" .eval Interner.find?_eval rfl,
    hne "arguments" .arguments Interner.find?_arguments rfl⟩

theorem clean_checkBinding {strict : Bool} {i : Identifier} (hi : φ → Named t i) :
    Clean t (At n b fuel φ) (checkBinding strict i)
      fun _ => At n b fuel (Source.Bindable strict (t.text i.name) ∧ φ) := by
  refine ⟨goesOn_checkBinding strict i, fun s hs hend => ?_⟩
  have hgo := goesOn_checkBinding strict i s
  have hknown := Interner.laws.le_trans hs.1.known (Interner.laws.le_trans hgo.names hend.names)
  refine ⟨hgo.ready hs.1, ⟨(hi hs.2).word, fun hstrict => ?_⟩, hs.2⟩
  refine (hi hs.2).unreserved hknown ?_
  rw [Bool.eq_false_iff]
  intro hreserved
  unfold checkBinding at hend
  rw [hstrict, hreserved] at hend
  exact List.cons_ne_nil _ _ hend.problems

/-- What is checked of the parameters of a function. -/
structure ParamsChecked (t : Interner) (strict : Bool) (earlier : List Name)
    (ps : List Identifier) : Prop where
  bindable : ∀ p ∈ ps, Source.Bindable strict (t.text p.name)
  nodup : strict = true → (ps.map Identifier.name).Nodup
  fresh : strict = true → ∀ p ∈ ps, p.name ∉ earlier

theorem clean_checkParams {strict : Bool} {earlier : List Name} {ps : List Identifier}
    (hps : φ → ∀ p ∈ ps, Named t p) :
    Clean t (At n b fuel φ) (checkParams strict earlier ps)
      fun _ => At n b fuel (ParamsChecked t strict earlier ps ∧ φ) := by
  induction ps generalizing earlier φ with
  | nil => exact .pure fun s hs => hs.mono (Nat.le_refl _) fun h => ⟨⟨nofun, fun _ => .nil, nofun⟩, h⟩
  | cons p ps ih =>
    refine (clean_checkBinding fun h => hps h p List.mem_cons_self).bind fun _ => ?_
    split
    · exact ((Clean.get_bind fun _ => clean_reportAt _ rfl _).bind fun _ =>
        Clean.absurd (goesOn_checkParams _ _ _))
    · next hfresh =>
      refine (ih fun h q hq => hps h.2 q (List.mem_cons_of_mem _ hq)).mono (fun _ h => h) ?_
      refine fun _ s hs => hs.mono (Nat.le_refl _) fun ⟨hrest, hp, h⟩ => ⟨⟨?_, ?_, ?_⟩, h⟩
      · exact List.forall_mem_cons.2 ⟨hp, hrest.bindable⟩
      · intro hstrict
        refine List.nodup_cons.2 ⟨fun hmem => ?_, hrest.nodup hstrict⟩
        obtain ⟨q, hq, heq⟩ := List.mem_map.1 hmem
        exact hrest.fresh hstrict q hq (heq ▸ List.mem_cons_self)
      · intro hstrict
        refine List.forall_mem_cons.2 ⟨fun hmem => hfresh ?_, fun q hq hmem => ?_⟩
        · simp [hstrict, hmem]
        · exact hrest.fresh hstrict q hq (List.mem_cons_of_mem _ hmem)

/-- Parameters of different names are spelt differently. -/
theorem nodup_texts {ps : List Identifier} (hps : ∀ p ∈ ps, Named t p)
    (h : (ps.map Identifier.name).Nodup) : (ps.map fun p => t.text p.name).Nodup := by
  rw [List.Nodup, List.pairwise_map] at h ⊢
  refine h.imp_of_mem fun {p q} hp hq hne heq => hne ?_
  have hfind := (hps p hp).find
  rw [heq, (hps q hq).find] at hfind
  exact (Option.some.inj hfind).symm

theorem clean_params (m : Nat) : Clean t (At n b fuel φ) (params m)
    fun ps => At n b fuel ((∀ p ∈ ps, Named t p) ∧ φ) := by
  induction m generalizing b φ with
  | zero => exact .pure fun s hs => hs.mono (Nat.le_refl _) fun h => ⟨nofun, h⟩
  | succ m ih =>
    refine clean_identifier.bind fun p => (clean_accept (by simp)).bind fun c => Clean.ite ?_ ?_
    · refine ih.bind fun ps => .pure fun s hs => hs.mono (by omega) fun h => ⟨?_, h.2.2⟩
      exact List.forall_mem_cons.2 ⟨h.2.1, h.1⟩
    · refine .pure fun s hs => hs.1.mono (by omega) fun h => ⟨?_, h.2⟩
      exact List.forall_mem_cons.2 ⟨h.1, nofun⟩

/-- What is read for a place that may stay empty has its property there. -/
theorem Clean.some {P : State → Prop} {χ : α → Prop}
    (h : Clean t P f fun a => At n b fuel (χ a ∧ φ)) :
    Clean t P (some <$> f) fun v =>
      At n b fuel ((v.isSome = true ∧ ∀ a ∈ v, χ a) ∧ φ) :=
  ⟨h.goesOn.map, fun _ hs hend => (h.clean _ hs hend).mono (Nat.le_refl _) fun hf =>
    ⟨⟨rfl, fun _ ha => Option.some.inj ha ▸ hf.1⟩, hf.2⟩⟩

theorem Clean.inFunction {ψ : α → Prop}
    (h : Clean t (At (n + 1) b fuel φ) f fun a => At (n + 1) b' fuel (ψ a)) :
    Clean t (At n b fuel φ) (inFunction f) fun a => At n b' fuel (ψ a) := by
  refine ⟨h.goesOn.inFunction, fun s hs hend => ?_⟩
  have hinner := h.clean { s with functionDepth := s.functionDepth + 1 }
    ⟨⟨hs.1.known, hs.1.ends, hs.1.genuine, congrArg (· + 1) hs.1.functionDepth, hs.1.spare⟩, hs.2⟩
    ⟨hend.problems, hend.names⟩
  exact ⟨⟨hinner.1.known, hinner.1.ends, hinner.1.genuine,
    congrArg (· - 1) hinner.1.functionDepth, hinner.1.spare⟩, hinner.2⟩

end States

/-- An expression that may stand in code of some strictness; if it is a name, it may be assigned
unless it is reserved. -/
structure Sound (t : Interner) (strict : Bool) (e : Expr) : Prop where
  grammatical : (e.source t).Grammatical strict
  named : ∀ i, e.identifier? = some i → Named t i

theorem Sound.of_unnamed {e : Expr} (h : (e.source t).Grammatical strict)
    (hn : e.identifier? = none) : Sound t strict e := by
  refine ⟨h, fun i hi => ?_⟩
  rw [hn] at hi
  cases hi

theorem not_endsOpen {s : Source.Stmt} {P : Prop} (h : s.endsOpen = false) (hs : s.endsOpen = true) :
    P :=
  Bool.noConfusion (h.symm.trans hs)

/-- What comes out of each reader that reports nothing: grammatical trees. Behind a statement that
an alternate could belong to none begins. -/
structure AllClean (t : Interner) (fuel : Nat) : Prop where
  statement : ∀ {n b φ} (strict : Bool), 5 ≤ b →
    Clean t (At n b fuel φ) (statement fuel strict) fun st s =>
      At n (b + 16) fuel ((st.source t).Grammatical strict (n != 0) ∧ φ) s ∧
      ((st.source t).endsOpen = true → s.token.kind ≠ .keyword .elseKw)
  condition : ∀ {n b φ} (strict : Bool), 1 ≤ b →
    Clean t (At n b fuel φ) (condition fuel strict) fun e =>
      At n (b + 16) fuel ((e.source t).Grammatical strict ∧ φ)
  declarators : ∀ {n b φ} (strict : Bool), 1 ≤ b →
    Clean t (At n b fuel φ) (declarators fuel strict) fun ds =>
      At n (b + 16) fuel ((Declarator.sources t ds ≠ [] ∧
        Source.Declarator.AllGrammatical strict (Declarator.sources t ds)) ∧ φ)
  statements : ∀ {n b φ} (ends : Kind → Bool) (strict : Bool), 6 ≤ b →
    Clean t (At n b fuel φ) (statements fuel ends strict) fun ss =>
      At n b fuel (Source.Stmt.AllGrammatical strict (n != 0) (Stmt.sources t ss) ∧ φ)
  block : ∀ {n b φ} (strict : Bool), 1 ≤ b →
    Clean t (At n b fuel φ) (block fuel strict) fun ss =>
      At n (b + 16) fuel (Source.Stmt.AllGrammatical strict (n != 0) (Stmt.sources t ss) ∧ φ)
  catchRest : ∀ {n b φ} (strict : Bool), 1 ≤ b →
    Clean t (At n b fuel φ) (catchRest fuel strict) fun c =>
      At n (b + 16) fuel
        (Source.Stmt.HandlerGrammatical strict (n != 0) (Stmt.handlerSource t (some c)) ∧ φ)
  directives : ∀ {n b φ} (strict : Bool), 6 ≤ b →
    Clean t (At n b fuel φ) (directives fuel strict) fun r =>
      At n b fuel ((Source.Stmt.AllGrammatical r.2 (n != 0) (Stmt.sources t r.1) ∧
        (strict = true → r.2 = true) ∧
        (r.2 = true → strict = true ∨
          "use strict" ∈ Source.prologue (Stmt.sources t r.1))) ∧ φ)
  functionRest : ∀ {n b φ} (strict declaration : Bool), 1 ≤ b →
    Clean t (At n b fuel φ) (functionRest fuel strict declaration) fun f =>
      At n (b + 16) fuel (((f.source t).Grammatical strict ∧
        (declaration = true → (f.source t).self.isSome = true)) ∧ φ)
  expression : ∀ {n b φ} (strict : Bool), 4 ≤ b →
    Clean t (At n b fuel φ) (expression fuel strict) fun e =>
      At n (b + 16) fuel (Sound t strict e ∧ φ)
  binary : ∀ {n b φ} (strict : Bool) (least : Nat), 3 ≤ b →
    Clean t (At n b fuel φ) (binary fuel strict least) fun e =>
      At n (b + 16) fuel (Sound t strict e ∧ φ)
  binaryRest : ∀ {n b φ} (strict : Bool) (least : Nat) (left : Expr), 1 ≤ b →
    Clean t (At n b fuel (Sound t strict left ∧ φ)) (binaryRest fuel strict least left) fun e =>
      At n b fuel (Sound t strict e ∧ φ)
  unary : ∀ {n b φ} (strict : Bool), 2 ≤ b →
    Clean t (At n b fuel φ) (unary fuel strict) fun e =>
      At n (b + 16) fuel (Sound t strict e ∧ φ)
  callRest : ∀ {n b φ} (strict : Bool) (start : Nat) (callee : Expr), 1 ≤ b →
    Clean t (At n b fuel (Sound t strict callee ∧ φ)) (callRest fuel strict start callee) fun e =>
      At n b fuel (Sound t strict e ∧ φ)
  arguments : ∀ {n b φ} (strict : Bool), 5 ≤ b →
    Clean t (At n b fuel φ) (arguments fuel strict) fun es =>
      At n (b + 16) fuel (Source.Expr.AllGrammatical strict (Expr.sources t es) ∧ φ)
  primary : ∀ {n b φ} (strict : Bool), 1 ≤ b →
    Clean t (At n b fuel φ) (primary fuel strict) fun e =>
      At n (b + 16) fuel (Sound t strict e ∧ φ)

section Readers

variable {n b fuel : Nat} {φ : Prop}

/-- Without fuel not even the end of the file could be read. -/
theorem not_at_zero {s : State} (h : At n b 0 φ s) : False := by
  have := h.1.spare
  rw [State.tokens, List.length_cons] at this
  omega

theorem allClean_zero : AllClean t 0 := by
  have hgo := allGoOn 0
  constructor
  all_goals intros
  all_goals refine ⟨?_, fun s hs _ => (not_at_zero hs).elim⟩
  · exact hgo.statement _
  · exact hgo.condition _
  · exact hgo.declarators _
  · exact hgo.statements _ _
  · exact hgo.block _
  · exact hgo.catchRest _
  · exact hgo.directives _
  · exact hgo.functionRest _ _
  · exact hgo.expression _
  · exact hgo.binary _ _
  · exact hgo.binaryRest _ _ _
  · exact hgo.unary _
  · exact hgo.callRest _ _ _
  · exact hgo.arguments _
  · exact hgo.primary _

theorem clean_condition (ih : AllClean t fuel) (strict : Bool) :
    Clean t (At n b fuel φ) (condition (fuel + 1) strict) fun e =>
      At n (b + 16) fuel ((e.source t).Grammatical strict ∧ φ) := by
  refine (clean_expect _).bind fun _ => (ih.expression strict (by omega)).bind fun e =>
    (clean_expect _).bind fun _ => .pure fun s hs => hs.mono (by omega) fun h => ?_
  exact ⟨h.2.1.grammatical, h.2.2.2⟩

theorem clean_primary (ih : AllClean t fuel) (strict : Bool) :
    Clean t (At n b fuel φ) (primary (fuel + 1) strict) fun e =>
      At n (b + 16) fuel (Sound t strict e ∧ φ) := by
  rw [Parser.primary]
  refine Clean.span_bind fun at_ => Clean.kind_bind fun k => ?_
  split
  · next text =>
    have hread : Clean t (fun s => At n b fuel (Source.Denoted (Numeral.ofLiteral text.toList) ∧ φ) s ∧
        s.token.kind = .number text) (do
          advance
          return Expr.number (Numeral.ofLiteral text.toList))
        fun e => At n (b + 16) fuel (Sound t strict e ∧ φ) :=
      (clean_advance (by simp)).bind fun _ => .pure fun s hs =>
        hs.mono (Nat.le_refl _) fun h => ⟨.of_unnamed h.1 rfl, h.2⟩
    refine hread.of_pre fun s hs => ⟨hs.1.mono (Nat.le_refl _) fun h => ⟨⟨text, ?_, rfl⟩, h⟩, hs.2⟩
    have hgenuine := hs.1.1.genuine s.token List.mem_cons_self
    rw [hs.2] at hgenuine
    exact hgenuine
  · exact (clean_advance (by simp)).bind fun _ => .pure fun s hs =>
      hs.mono (Nat.le_refl _) fun h => ⟨.of_unnamed trivial rfl, h⟩
  · exact (clean_advance (by simp)).bind fun _ => .pure fun s hs =>
      hs.mono (Nat.le_refl _) fun h => ⟨.of_unnamed trivial rfl, h⟩
  · exact (clean_advance (by simp)).bind fun _ => .pure fun s hs =>
      hs.mono (Nat.le_refl _) fun h => ⟨.of_unnamed trivial rfl, h⟩
  · exact (clean_advance (by simp)).bind fun _ => .pure fun s hs =>
      hs.mono (Nat.le_refl _) fun h => ⟨.of_unnamed trivial rfl, h⟩
  · exact (clean_advance (by simp)).bind fun _ => goesOn_freshId.clean.bind fun _ =>
      .pure fun s hs => hs.mono (Nat.le_refl _) fun h => ⟨.of_unnamed trivial rfl, h⟩
  · refine Clean.of_pre (fun s hs => hs.1) (clean_identifier.bind fun i => .pure fun s hs => ?_)
    refine hs.mono (Nat.le_refl _) fun h => ⟨⟨h.1.word, fun i hi => ?_⟩, h.2⟩
    obtain rfl := Option.some.inj hi
    exact h.1
  · exact (clean_advance (by simp)).bind fun _ => (ih.functionRest strict false (by omega)).bind
      fun f => .pure fun s hs => hs.mono (by omega) fun h => ⟨.of_unnamed h.1.1 rfl, h.2⟩
  · exact (clean_advance (by simp)).bind fun _ => (ih.expression strict (by omega)).bind fun e =>
      (clean_expect _).bind fun _ => .pure fun s hs => hs.mono (by omega) And.right
  · exact (clean_report rfl _).bind fun _ => .pure fun _ h => h.elim

theorem clean_arguments (ih : AllClean t fuel) (strict : Bool) (hb : 4 ≤ b) :
    Clean t (At n b fuel φ) (arguments (fuel + 1) strict) fun es =>
      At n (b + 16) fuel (Source.Expr.AllGrammatical strict (Expr.sources t es) ∧ φ) := by
  refine (ih.expression strict hb).bind fun e => (clean_accept (by simp)).bind fun c =>
    Clean.ite ?_ ?_
  · exact (ih.arguments strict (by omega)).bind fun es => .pure fun s hs =>
      hs.mono (by omega) fun h => ⟨⟨h.2.1.grammatical, h.1⟩, h.2.2⟩
  · exact .pure fun s hs => hs.1.mono (Nat.le_refl _) fun h => ⟨⟨h.1.grammatical, trivial⟩, h.2⟩

theorem clean_callRest (ih : AllClean t fuel) (strict : Bool) (start : Nat) (callee : Expr) :
    Clean t (At n b fuel (Sound t strict callee ∧ φ)) (callRest (fuel + 1) strict start callee)
      fun e => At n b fuel (Sound t strict e ∧ φ) := by
  refine (clean_accept (by simp)).bind fun c => Clean.ite ?_ (.pure fun s hs => hs.1)
  refine Clean.kind_bind fun k => ?_
  extract_lets rest
  have hrest : ∀ args, Clean t (At n (b + 16) fuel (Sound t strict callee ∧
      Source.Expr.AllGrammatical strict (Expr.sources t args) ∧ φ)) (rest args)
      fun e => At n b fuel (Sound t strict e ∧ φ) := by
    intro args
    refine Clean.span_bind fun at_ => (clean_expect _).bind fun _ => ?_
    have hmore : Clean t (At n (b + 16) fuel (Sound t strict
        (.call callee args ⟨start, at_.stop⟩) ∧ φ)) _ _ := ih.callRest strict start _ (by omega)
    refine hmore.mono (fun s hs => ?_) ?_
    · exact hs.mono (by omega) fun h => ⟨.of_unnamed ⟨h.2.1.grammatical, h.2.2.1⟩ rfl, h.2.2.2⟩
    · exact fun e s hs => hs.mono (by omega) id
  split
  · exact (hrest []).of_pre fun s hs => hs.1.mono (Nat.le_refl _) fun h => ⟨h.1, trivial, h.2⟩
  · refine Clean.of_pre (fun s hs => hs.1) ((ih.arguments strict (by omega)).bind fun args =>
      (hrest args).of_pre fun s hs => hs.mono (by omega) fun h => ⟨h.2.1, h.1, h.2.2⟩)

theorem isIdentifier_source (e : Expr) :
    (e.source t).isIdentifier = e.identifier?.isSome := by cases e <;> rfl

theorem clean_unary (ih : AllClean t fuel) (strict : Bool) (hb : 1 ≤ b) :
    Clean t (At n b fuel φ) (unary (fuel + 1) strict) fun e =>
      At n (b + 16) fuel (Sound t strict e ∧ φ) := by
  rw [Parser.unary]
  refine Clean.nested rfl (fun s d hs => hs.deep d) (fun _ s d hs => hs.deep d) ?_
  refine Clean.span_bind fun at_ => Clean.kind_bind fun k => ?_
  split
  · exact (clean_advance (by simp)).bind fun _ => (ih.unary strict (by omega)).bind fun e =>
      .pure fun s hs => hs.mono (by omega) fun h => ⟨.of_unnamed h.1.grammatical rfl, h.2⟩
  · refine (clean_advance (by simp)).bind fun _ => (ih.unary strict (by omega)).bind fun e => ?_
    extract_lets rest
    have hrest : ∀ u, Clean t (At n (b + 16) fuel ((strict = true → e.identifier?.isSome = false) ∧
        Sound t strict e ∧ φ)) (rest u) fun e => At n (b + 16) fuel (Sound t strict e ∧ φ) :=
      fun _ => (goesOn_spanFrom _).clean.bind fun span => .pure fun s hs =>
        hs.mono (Nat.le_refl _) fun h =>
          ⟨.of_unnamed ⟨h.2.1.grammatical, fun hs => (isIdentifier_source e).trans (h.1 hs)⟩ rfl,
            h.2.2⟩
    split
    · exact (clean_reportAt _ rfl _).bind fun u => (hrest u).of_pre fun _ h => h.elim
    · next hdelete =>
      refine (hrest ()).of_pre fun s hs => hs.mono (by omega) fun h => ⟨fun hstrict => ?_, h⟩
      simpa [hstrict] using hdelete
  · split
    · next op hop =>
      have hk : k ≠ .endOfFile := by
        rintro rfl
        cases hop
      exact (clean_advance hk).bind fun _ => (ih.unary strict (by omega)).bind fun e =>
        .pure fun s hs => hs.mono (by omega) fun h => ⟨.of_unnamed h.1.grammatical rfl, h.2⟩
    · exact Clean.of_pre (fun s hs => hs.1) ((ih.primary strict hb).bind fun e =>
        ih.callRest strict _ e (by omega))

theorem clean_binaryRest (ih : AllClean t fuel) (strict : Bool) (least : Nat) (left : Expr) :
    Clean t (At n b fuel (Sound t strict left ∧ φ)) (binaryRest (fuel + 1) strict least left)
      fun e => At n b fuel (Sound t strict e ∧ φ) := by
  refine Clean.kind_bind fun k => ?_
  split
  · next op strength hop =>
    split
    · exact .pure fun s hs => hs.1
    · have hk : k ≠ .endOfFile := by
        rintro rfl
        cases hop
      refine (clean_advance hk).bind fun _ => (ih.binary strict _ (by omega)).bind fun right => ?_
      have hmore : Clean t (At n (b + 16) fuel (Sound t strict (.binary op left right) ∧ φ)) _ _ :=
        ih.binaryRest strict least _ (by omega)
      refine hmore.mono (fun s hs => ?_) ?_
      · exact hs.mono (by omega) fun h => ⟨.of_unnamed ⟨h.2.1.grammatical, h.1.grammatical⟩ rfl, h.2.2⟩
      · exact fun e s hs => hs.mono (by omega) id
  · exact .pure fun s hs => hs.1

theorem clean_binary (ih : AllClean t fuel) (strict : Bool) (least : Nat) (hb : 2 ≤ b) :
    Clean t (At n b fuel φ) (binary (fuel + 1) strict least) fun e =>
      At n (b + 16) fuel (Sound t strict e ∧ φ) :=
  (ih.unary strict hb).bind fun e => ih.binaryRest strict least e (by omega)

theorem clean_expression (ih : AllClean t fuel) (strict : Bool) (hb : 3 ≤ b) :
    Clean t (At n b fuel φ) (expression (fuel + 1) strict) fun e =>
      At n (b + 16) fuel (Sound t strict e ∧ φ) := by
  rw [Parser.expression]
  refine Clean.nested rfl (fun s d hs => hs.deep d) (fun _ s d hs => hs.deep d) ?_
  refine Clean.span_bind fun at_ => (ih.binary strict 0 hb).bind fun left =>
    (clean_accept (by simp)).bind fun c => Clean.ite ?_ (.pure fun s hs => hs.1)
  refine (ih.expression strict (by omega)).bind fun value => ?_
  split
  · next target htarget =>
    refine (clean_checkBinding fun h => h.2.1.named target htarget).bind fun _ => .pure fun s hs => ?_
    exact hs.mono (by omega) fun h => ⟨.of_unnamed ⟨h.1, h.2.1.grammatical⟩ rfl, h.2.2.2⟩
  · exact (clean_reportAt _ rfl _).bind fun _ => .pure fun _ h => h.elim

theorem clean_declarators (ih : AllClean t fuel) (strict : Bool) :
    Clean t (At n b fuel φ) (declarators (fuel + 1) strict) fun ds =>
      At n (b + 16) fuel ((Declarator.sources t ds ≠ [] ∧
        Source.Declarator.AllGrammatical strict (Declarator.sources t ds)) ∧ φ) := by
  refine clean_identifier.bind fun target => (clean_checkBinding And.left).bind fun _ =>
    (clean_accept (by simp)).bind fun c => ?_
  extract_lets rest
  have hrest : ∀ value, Clean t (At n (b + 16) fuel (Source.Bindable strict (t.text target.name) ∧
      (∀ e ∈ value, (e.source t).Grammatical strict) ∧ φ)) (rest value) fun ds =>
        At n (b + 16) fuel ((Declarator.sources t ds ≠ [] ∧
          Source.Declarator.AllGrammatical strict (Declarator.sources t ds)) ∧ φ) := by
    intro value
    refine (clean_accept (by simp)).bind fun c => Clean.ite ?_ ?_
    · refine (ih.declarators strict (by omega)).bind fun ds => .pure fun s hs =>
        hs.mono (by omega) fun h => ⟨?_, h.2.2.2⟩
      cases value with
      | none => exact ⟨List.cons_ne_nil _ _, h.2.1, h.1.2⟩
      | some e => exact ⟨List.cons_ne_nil _ _, h.2.1, h.2.2.1 e rfl, h.1.2⟩
    · refine .pure fun s hs => hs.1.mono (by omega) fun h => ⟨?_, h.2.2⟩
      cases value with
      | none => exact ⟨List.cons_ne_nil _ _, h.1, trivial⟩
      | some e => exact ⟨List.cons_ne_nil _ _, h.1, h.2.1 e rfl, trivial⟩
  refine Clean.ite ((ih.expression strict (by omega)).some.bind fun value => ?_)
    (Clean.pure_bind ?_)
  · exact (hrest value).of_pre fun s hs => hs.mono (by omega) fun h =>
      ⟨h.2.1, fun e he => (h.1.2 e he).grammatical, h.2.2.2⟩
  · exact (hrest none).of_pre fun s hs => hs.1.mono (by omega) fun h => ⟨h.1, nofun, h.2.2⟩

theorem clean_statements (ih : AllClean t fuel) (ends : Kind → Bool) (strict : Bool)
    (hb : 5 ≤ b) : Clean t (At n b fuel φ) (statements (fuel + 1) ends strict) fun ss =>
      At n b fuel (Source.Stmt.AllGrammatical strict (n != 0) (Stmt.sources t ss) ∧ φ) := by
  refine Clean.kind_bind fun k => ?_
  split
  · exact .pure fun s hs => hs.1.mono (Nat.le_refl _) fun h => ⟨trivial, h⟩
  · refine Clean.of_pre (fun s hs => hs.1) (Clean.span_bind fun at_ => ?_)
    extract_lets start
    refine (ih.statement strict hb).bind fun st => Clean.of_pre (fun s hs => hs.1) ?_
    refine Clean.span_bind fun at_ => Clean.kind_bind fun k => Clean.of_pre (fun s hs => hs.1) ?_
    extract_lets rest
    have hrest : ∀ u, Clean t (At n (b + 16) fuel
        ((st.source t).Grammatical strict (n != 0) ∧ φ)) (rest u) fun ss =>
          At n b fuel (Source.Stmt.AllGrammatical strict (n != 0) (Stmt.sources t ss) ∧ φ) :=
      fun _ => (ih.statements ends strict (by omega)).bind fun ss => .pure fun s hs =>
        hs.mono (by omega) fun h => ⟨⟨h.2.1, h.1⟩, h.2.2⟩
    split
    · exact goesOn_advance.clean.bind hrest
    · exact hrest ()

theorem clean_block (ih : AllClean t fuel) (strict : Bool) :
    Clean t (At n b fuel φ) (block (fuel + 1) strict) fun ss =>
      At n (b + 16) fuel (Source.Stmt.AllGrammatical strict (n != 0) (Stmt.sources t ss) ∧ φ) := by
  refine (clean_expect _).bind fun c => ?_
  split
  · exact (ih.statements _ strict (by omega)).bind fun ss => (clean_expect _).bind fun _ =>
      .pure fun s hs => hs.mono (by omega) fun h => ⟨h.2.1, h.2.2.2⟩
  · next hc => exact .pure fun s hs => (hc hs.2.1).elim

theorem clean_catchRest (ih : AllClean t fuel) (strict : Bool) :
    Clean t (At n b fuel φ) (catchRest (fuel + 1) strict) fun c =>
      At n (b + 16) fuel
        (Source.Stmt.HandlerGrammatical strict (n != 0) (Stmt.handlerSource t (some c)) ∧ φ) :=
  goesOn_freshId.clean.bind fun _ => (clean_expect _).bind fun _ => clean_identifier.bind fun _ =>
    (clean_checkBinding And.left).bind fun _ => (clean_expect _).bind fun _ =>
      (ih.block strict (by omega)).bind fun body => .pure fun s hs =>
        hs.mono (by omega) fun h => ⟨⟨h.2.2.1, h.1⟩, h.2.2.2.2.2⟩

theorem run_kind_bind {g : Kind → ParseM β} (s : State) :
    (kind >>= g) s = g s.token.kind s := rfl

theorem run_span_bind {g : Span → ParseM β} (s : State) :
    (span >>= g) s = g s.token.span s := rfl

theorem answers_callRest (fuel : Nat) (strict : Bool) (start : Nat) (callee : Expr) :
    Answers (callRest fuel strict start callee) fun e => ∀ v, e = .string v → callee = .string v := by
  induction fuel generalizing callee with
  | zero => exact .pure fun _ h => h
  | succ fuel ih =>
    refine .bind ?_
    intro c
    split
    · refine .bind ?_
      intro k
      extract_lets rest
      have hrest : ∀ args, Answers (rest args) fun e => ∀ v, e = .string v → callee = .string v :=
        fun args => .bind fun at_ => .bind fun _ s v h => nomatch ih _ s v h
      split
      · exact hrest []
      · exact .bind hrest
    · exact .pure fun _ h => h

theorem answers_binaryRest (fuel : Nat) (strict : Bool) (least : Nat) (left : Expr) :
    Answers (binaryRest fuel strict least left) fun e =>
      ∀ v, e = .string v → left = .string v := by
  induction fuel generalizing left with
  | zero => exact .pure fun _ h => h
  | succ fuel ih =>
    refine .bind ?_
    intro k
    split
    · split
      · exact .pure fun _ h => h
      · exact .bind fun _ => .bind fun right s v h => nomatch ih _ s v h
    · exact .pure fun _ h => h

/-- Where a string comes next, an expression that is a string is this one. -/
def OpensWith (w : String) (f : ParseM Expr) : Prop :=
  ∀ s, s.token.kind = .string w → ∀ v, (f s).1 = .string v → v = w

theorem opensWith_primary (w : String) (fuel : Nat) (strict : Bool) :
    OpensWith w (primary fuel strict) := by
  intro s hs v h
  cases fuel with
  | zero => cases h
  | succ fuel =>
    rw [Parser.primary, run_span_bind, run_kind_bind, hs] at h
    cases h
    rfl

theorem opensWith_unary (w : String) (fuel : Nat) (strict : Bool) :
    OpensWith w (unary fuel strict) := by
  intro s hs v h
  cases fuel with
  | zero => cases h
  | succ fuel =>
    rw [Parser.unary, nested_run] at h
    split at h
    · cases h
    · rw [run_span_bind, run_kind_bind] at h
      dsimp only at h
      rw [hs] at h
      exact opensWith_primary w fuel strict { s with depth := s.depth + 1 } hs v
        (answers_callRest fuel strict _ _ _ v h)

theorem opensWith_binary (w : String) (fuel : Nat) (strict : Bool) (least : Nat) :
    OpensWith w (binary fuel strict least) := by
  intro s hs v h
  cases fuel with
  | zero => cases h
  | succ fuel => exact opensWith_unary w fuel strict s hs v (answers_binaryRest fuel strict _ _ _ v h)

theorem clean_expression_string (w : String) (fuel : Nat) (strict : Bool) :
    Clean t (fun s => s.token.kind = .string w) (expression fuel strict)
      fun e _ => ∀ v, e = .string v → v = w := by
  cases fuel with
  | zero => exact .pure fun _ _ v hv => Expr.noConfusion hv
  | succ fuel =>
    have hbinary : Clean t (fun s => s.token.kind = .string w) (binary fuel strict 0)
        fun e _ => ∀ v, e = .string v → v = w :=
      ⟨(allGoOn fuel).binary strict 0, fun s hs _ => opensWith_binary w fuel strict 0 s hs⟩
    rw [Parser.expression]
    refine Clean.nested rfl (fun _ _ h => h) (fun _ _ _ h => h) (Clean.span_bind fun at_ =>
      hbinary.bind fun left => ?_)
    have hkeep {γ : Type} {f : ParseM γ} (hf : GoesOn f) :
        Clean t (fun _ => ∀ v, left = .string v → v = w) f
          fun _ _ => ∀ v, left = .string v → v = w := ⟨hf, fun _ h _ => h⟩
    refine (hkeep (goesOn_accept _)).bind fun c => ?_
    split
    · refine (hkeep ((allGoOn fuel).expression strict)).bind fun value => ?_
      split
      · exact (hkeep (goesOn_checkBinding _ _)).bind fun _ => .pure fun _ _ v hv => Expr.noConfusion hv
      · exact (clean_reportAt _ rfl _).bind fun _ => .pure fun _ h => h.elim
    · exact .pure fun _ h => h

/-- A directive that is read where a string comes next is this string. -/
theorem clean_statement_string (w : String) (fuel : Nat) (strict : Bool) :
    Clean t (fun s => s.token.kind = .string w) (statement fuel strict)
      fun st _ => isDirective st = true → st = .expr (.string w) := by
  refine ⟨(allGoOn fuel).statement strict, fun s hs hend hdirective => ?_⟩
  cases fuel with
  | zero => cases hdirective
  | succ fuel =>
    rw [Parser.statement, nested_run] at hend hdirective ⊢
    split at hend
    · exact (List.cons_ne_nil _ _ hend.problems).elim
    · next hdepth =>
      rw [if_neg hdepth] at hdirective ⊢
      rw [run_kind_bind] at hend hdirective ⊢
      dsimp only at hend hdirective ⊢
      rw [hs] at hend hdirective ⊢
      have hread : Clean t (fun s => s.token.kind = .string w)
          (do
            let e ← expression fuel strict
            endStatement
            return Stmt.expr e)
          fun st _ => isDirective st = true → st = .expr (.string w) := by
        refine (clean_expression_string w fuel strict).bind fun e => ?_
        refine Clean.bind (Q := fun _ _ => ∀ v, e = .string v → v = w)
          ⟨goesOn_endStatement, fun _ h _ => h⟩ fun _ => .pure fun _ h hd => ?_
        cases e with
        | string v => rw [h v rfl]
        | _ => cases hd
      exact hread.clean { s with depth := s.depth + 1 } hs ⟨hend.problems, hend.names⟩ hdirective

theorem clean_directives (ih : AllClean t fuel) (strict : Bool) (hb : 5 ≤ b) :
    Clean t (At n b fuel φ) (directives (fuel + 1) strict) fun r =>
      At n b fuel ((Source.Stmt.AllGrammatical r.2 (n != 0) (Stmt.sources t r.1) ∧
        (strict = true → r.2 = true) ∧
        (r.2 = true → strict = true ∨
          "use strict" ∈ Source.prologue (Stmt.sources t r.1))) ∧ φ) := by
  refine Clean.kind_bind fun k => ?_
  split
  · next value =>
    refine ((ih.statement strict hb).and (clean_statement_string value fuel strict)).bind fun st => ?_
    split
    · next hdirective =>
      have hmore : Clean t (At n (b + 16) fuel (st = .expr (.string value) ∧ φ)) _ _ :=
        ih.directives (strict || value = "use strict") (by omega)
      refine Clean.of_pre (fun s hs => hs.1.1.mono (Nat.le_refl _) fun h => ⟨hs.2 hdirective, h.2⟩)
        (hmore.bind fun r => .pure fun s hs => hs.mono (by omega) fun ⟨⟨hr, hup, hdown⟩, hst, h⟩ => ?_)
      subst hst
      refine ⟨⟨⟨trivial, hr⟩, fun hs => hup (by rw [hs, Bool.true_or]), fun hs => ?_⟩, h⟩
      rw [Stmt.sources, Stmt.source, Expr.source, Source.prologue, List.mem_cons]
      obtain hflag | hmem := hdown hs
      · rw [Bool.or_eq_true, decide_eq_true_eq] at hflag
        exact hflag.imp_right fun heq => .inl heq.symm
      · exact .inr (.inr hmem)
    · exact .pure fun s hs => hs.1.1.mono (by omega) fun h => ⟨⟨⟨h.1, trivial⟩, id, .inl⟩, h.2⟩
  · exact .pure fun s hs => hs.1.mono (Nat.le_refl _) fun h => ⟨⟨trivial, id, .inl⟩, h⟩

theorem clean_functionBody (ih : AllClean t fuel) (outer : Bool) :
    Clean t (At n b fuel φ) (do
      if ← expect .openBrace then
        let (ds, strict) ← directives fuel outer
        let ss ← statements fuel atBlockEnd strict
        let _ ← expect .closeBrace
        return (ds ++ ss, strict)
      return ([], outer)) fun r =>
        At n b fuel ((Source.Stmt.AllGrammatical r.2 (n != 0) (Stmt.sources t r.1) ∧
          (outer = true → r.2 = true) ∧
          (r.2 = true → outer = true ∨
            "use strict" ∈ Source.prologue (Stmt.sources t r.1))) ∧ φ) := by
  refine (clean_expect _).bind fun c => ?_
  split
  · refine (ih.directives outer (by omega)).bind fun r => ?_
    refine (ih.statements _ _ (by omega)).bind fun ss => (clean_expect _).bind fun _ =>
      .pure fun s hs => hs.mono (by omega) fun ⟨_, hss, ⟨hds, hup, hdown⟩, _, h⟩ => ⟨⟨?_, hup, ?_⟩, h⟩
    · rw [Stmt.sources_append, Source.Stmt.allGrammatical_append]
      exact ⟨hds, hss⟩
    · rw [Stmt.sources_append]
      exact fun hs => (hdown hs).imp_right fun h => Source.mem_prologue_append h _
  · next hc => exact .pure fun s hs => (hc hs.2.1).elim

theorem clean_functionRest (ih : AllClean t fuel) (outer declaration : Bool) :
    Clean t (At n b fuel φ) (functionRest (fuel + 1) outer declaration) fun f =>
      At n (b + 16) fuel (((f.source t).Grammatical outer ∧
        (declaration = true → (f.source t).self.isSome = true)) ∧ φ) := by
  refine Clean.span_bind fun at_ => goesOn_freshId.clean.bind fun id => Clean.kind_bind fun k => ?_
  extract_lets named afterSelf
  have hself : ∀ self : Option Identifier, Clean t
      (At n b fuel ((declaration = true → self.isSome = true) ∧ (∀ i ∈ self, Named t i) ∧ φ))
      (afterSelf self) fun f => At n (b + 16) fuel (((f.source t).Grammatical outer ∧
        (declaration = true → (f.source t).self.isSome = true)) ∧ φ) := by
    intro self
    refine (clean_expect _).bind fun _ => Clean.kind_bind fun k => ?_
    extract_lets afterParams
    have hparams : ∀ ps : List Identifier, Clean t (At n (b + 16) fuel ((∀ p ∈ ps, Named t p) ∧
        (declaration = true → self.isSome = true) ∧ (∀ i ∈ self, Named t i) ∧ φ))
        (afterParams ps) fun f => At n (b + 16) fuel (((f.source t).Grammatical outer ∧
          (declaration = true → (f.source t).self.isSome = true)) ∧ φ) := by
      intro ps
      refine (clean_expect _).bind fun _ => (clean_functionBody ih outer).inFunction.bind ?_
      rintro ⟨body, strict⟩
      dsimp -zeta only
      extract_lets rest
      have hrest : ∀ u, Clean t (At n (b + 16) fuel
          ((∀ i ∈ self, Source.Bindable strict (t.text i.name)) ∧
            (Source.Stmt.AllGrammatical strict (n + 1 != 0) (Stmt.sources t body) ∧
              (outer = true → strict = true) ∧ (strict = true → outer = true ∨
                "use strict" ∈ Source.prologue (Stmt.sources t body))) ∧
            (∀ p ∈ ps, Named t p) ∧ (declaration = true → self.isSome = true) ∧ φ)) (rest u)
          fun f => At n (b + 16) fuel (((f.source t).Grammatical outer ∧
            (declaration = true → (f.source t).self.isSome = true)) ∧ φ) := by
        intro _
        refine (clean_checkParams fun h => h.2.2.1).bind fun _ => (goesOn_spanFrom _).clean.bind
          fun span => .pure fun s hs => hs.mono (Nat.le_refl _)
            fun ⟨hchecked, hself, ⟨hbody, hup, hdown⟩, hps, hsome, h⟩ => ⟨⟨?_, ?_⟩, h⟩
        · refine ⟨hup, hdown, ?_, ?_, fun hs => nodup_texts hps (hchecked.nodup hs), ?_⟩
          · simpa using hself
          · simpa using hchecked.bindable
          · simpa using hbody
        · simpa [FunctionDef.source] using hsome
      cases self with
      | none =>
        refine (hrest ()).of_pre fun s hs => hs.mono (by omega) fun ⟨hbody, _, hps, hsome, _, h⟩ => ?_
        exact ⟨nofun, hbody, hps, hsome, h⟩
      | some i =>
        refine (clean_checkBinding (i := i) fun h => h.2.2.2.2.1 i rfl).bind fun u => ?_
        refine (hrest u).of_pre fun s hs => hs.mono (by omega)
          fun ⟨hi, hbody, _, hps, hsome, _, h⟩ => ⟨?_, hbody, hps, hsome, h⟩
        simpa using hi
    split
    · exact Clean.pure_bind ((hparams []).of_pre fun s hs => hs.1.mono (by omega) fun h => ⟨nofun, h.2⟩)
    · refine Clean.of_pre (fun s hs => hs.1) ((clean_params fuel).bind fun ps => ?_)
      exact (hparams ps).of_pre fun s hs => hs.mono (by omega) fun h => ⟨h.1, h.2.2⟩
  split
  · refine Clean.of_pre (fun s hs => hs.1) (clean_identifier.some.bind fun self => ?_)
    exact (hself self).of_pre fun s hs => hs.mono (by omega) fun h =>
      ⟨fun _ => h.1.1, h.1.2, h.2⟩
  · next hnamed =>
    refine Clean.pure_bind ((hself none).of_pre fun s hs => hs.1.mono (Nat.le_refl _) fun h =>
      ⟨fun hd => (hnamed ?_).elim, nofun, h⟩)
    simp only [named, hd]
    split <;> rfl

theorem isSome_handlerSource (h : Option CatchClause) :
    (Stmt.handlerSource t h).isSome = h.isSome := by rcases h with _ | ⟨_, _, _⟩ <;> rfl

theorem isSome_finalizerSource (f : Option (List Stmt)) :
    (Stmt.finalizerSource t f).isSome = f.isSome := by cases f <;> rfl

theorem clean_statement (ih : AllClean t fuel) (strict : Bool) (hb : 4 ≤ b) :
    Clean t (At n b fuel φ) (statement (fuel + 1) strict) fun st s =>
      At n (b + 16) fuel ((st.source t).Grammatical strict (n != 0) ∧ φ) s ∧
      ((st.source t).endsOpen = true → s.token.kind ≠ .keyword .elseKw) := by
  rw [Parser.statement]
  refine Clean.nested rfl (fun s d hs => hs.deep d) (fun _ s d hs => ⟨hs.1.deep d, hs.2⟩)
    (Clean.kind_bind fun k => ?_)
  split
  · exact (clean_advance (by simp)).bind fun _ => (ih.declarators strict (by omega)).bind fun ds =>
      goesOn_endStatement.clean.bind fun _ => .pure fun s hs => ⟨hs.mono (by omega) id, not_endsOpen rfl⟩
  · exact (clean_advance (by simp)).bind fun _ => (ih.functionRest strict true (by omega)).bind
      fun f => .pure fun s hs =>
        ⟨hs.mono (by omega) fun h => ⟨⟨h.1.2 rfl, h.1.1⟩, h.2⟩, not_endsOpen rfl⟩
  · refine Clean.span_bind fun at_ => Clean.get_bind fun s₀ => ?_
    extract_lets ending reading
    have hending : ∀ argument : Option Expr, Clean t (At n (b + 16) fuel
        ((∀ e ∈ argument, (e.source t).Grammatical strict) ∧ (n != 0) = true ∧ φ))
        (ending argument) fun st s =>
          At n (b + 16) fuel ((st.source t).Grammatical strict (n != 0) ∧ φ) s ∧
          ((st.source t).endsOpen = true → s.token.kind ≠ .keyword .elseKw) := by
      intro argument
      refine goesOn_endStatement.clean.bind fun _ => ?_
      cases argument with
      | none => exact .pure fun s hs => ⟨hs.mono (Nat.le_refl _) And.right, not_endsOpen rfl⟩
      | some e => exact .pure fun s hs => ⟨hs.mono (Nat.le_refl _) fun h =>
          ⟨⟨h.2.1, h.1 e rfl⟩, h.2.2⟩, not_endsOpen rfl⟩
    have hreading : ∀ u, Clean t
        (fun s => At n b fuel ((n != 0) = true ∧ φ) s ∧ s.token.kind = .keyword .returnKw)
        (reading u) fun st s =>
          At n (b + 16) fuel ((st.source t).Grammatical strict (n != 0) ∧ φ) s ∧
          ((st.source t).endsOpen = true → s.token.kind ≠ .keyword .elseKw) := by
      intro u
      refine (clean_advance (by simp)).bind fun _ => Clean.get_bind fun s₁ => ?_
      extract_lets t
      split
      · exact Clean.pure_bind ((hending none).of_pre fun s hs => hs.1.mono (Nat.le_refl _)
          fun h => ⟨by simp, h⟩)
      · refine Clean.of_pre (fun s hs => hs.1) ((ih.expression strict (by omega)).some.bind
          fun argument => (hending argument).of_pre fun s hs => hs.mono (by omega) fun h => ?_)
        exact ⟨fun e he => (h.1.2 e he).grammatical, h.2⟩
    split
    · exact (clean_report rfl _).bind fun u => (hreading u).of_pre fun _ h => h.elim
    · next hdepth =>
      refine (hreading ()).of_pre fun s hs => ⟨hs.1.1.mono (Nat.le_refl _) fun h => ⟨?_, h⟩, hs.1.2⟩
      have hn := hs.1.1.1.functionDepth
      rw [hs.2] at hn
      simpa [← hn] using hdepth
  · refine (clean_advance (by simp)).bind fun _ => (ih.condition strict (by omega)).bind fun e =>
      (ih.statement strict (by omega)).bind fun c => ?_
    refine (clean_accept_of (X := fun k => (c.source t).endsOpen = true → k ≠ .keyword .elseKw)
      (by simp)).bind fun more => Clean.ite ?_ ?_
    · refine (ih.statement strict (by omega)).bind fun a => .pure fun s hs =>
        ⟨hs.1.mono (by omega) fun h => ⟨⟨h.2.2.2.1, h.2.2.1, ?_, h.1⟩, h.2.2.2.2⟩, hs.2⟩
      exact Bool.eq_false_iff.2 fun hends => h.2.1 hends rfl
    · exact .pure fun s hs => ⟨hs.1.mono (by omega) fun h => ⟨⟨h.2.1, h.1⟩, h.2.2⟩, fun _ => hs.2⟩
  · exact (clean_advance (by simp)).bind fun _ => (ih.condition strict (by omega)).bind fun e =>
      (ih.statement strict (by omega)).bind fun body => .pure fun s hs =>
        ⟨hs.1.mono (by omega) fun h => ⟨⟨h.2.1, h.1⟩, h.2.2⟩, hs.2⟩
  · exact Clean.of_pre (fun s hs => hs.1) ((ih.block strict (by omega)).bind fun body =>
      .pure fun s hs => ⟨hs, not_endsOpen rfl⟩)
  · refine (clean_advance (by simp)).bind fun _ => (ih.block strict (by omega)).bind fun body =>
      (clean_accept (by simp)).bind fun c => ?_
    extract_lets afterHandler
    have hhandler : ∀ h, Clean t (At n (b + 16) fuel
        (Source.Stmt.HandlerGrammatical strict (n != 0) (Stmt.handlerSource t h) ∧
          Source.Stmt.AllGrammatical strict (n != 0) (Stmt.sources t body) ∧ φ))
        (afterHandler h) fun st s =>
          At n (b + 16) fuel ((st.source t).Grammatical strict (n != 0) ∧ φ) s ∧
          ((st.source t).endsOpen = true → s.token.kind ≠ .keyword .elseKw) := by
      intro h
      refine (clean_accept (by simp)).bind fun c => ?_
      extract_lets afterFinalizer
      have hfinalizer : ∀ f, Clean t (At n (b + 16) fuel
          (Source.Stmt.FinalizerGrammatical strict (n != 0) (Stmt.finalizerSource t f) ∧
            Source.Stmt.HandlerGrammatical strict (n != 0) (Stmt.handlerSource t h) ∧
            Source.Stmt.AllGrammatical strict (n != 0) (Stmt.sources t body) ∧ φ))
          (afterFinalizer f) fun st s =>
            At n (b + 16) fuel ((st.source t).Grammatical strict (n != 0) ∧ φ) s ∧
            ((st.source t).endsOpen = true → s.token.kind ≠ .keyword .elseKw) := by
        intro f
        simp only [afterFinalizer]
        split
        · exact (clean_report rfl _).bind fun _ => .pure fun _ h => h.elim
        · next hsome =>
          refine .pure fun s hs => ⟨hs.mono (Nat.le_refl _) fun hall =>
            ⟨⟨?_, hall.2.2.1, hall.2.1, hall.1⟩, hall.2.2.2⟩, not_endsOpen rfl⟩
          rw [isSome_handlerSource, isSome_finalizerSource]
          cases h <;> cases f <;> simp at hsome ⊢
      refine Clean.ite ((ih.block strict (by omega)).some.bind fun f => ?_) (Clean.pure_bind ?_)
      · refine (hfinalizer f).of_pre fun s hs => hs.mono (by omega) fun h => ⟨?_, h.2⟩
        cases f with
        | none => trivial
        | some f => exact h.1.2 f rfl
      · exact (hfinalizer none).of_pre fun s hs => hs.1.mono (by omega) fun h => ⟨trivial, h⟩
    refine Clean.ite ((ih.catchRest strict (by omega)).some.bind fun h => ?_) (Clean.pure_bind ?_)
    · refine (hhandler h).of_pre fun s hs => hs.mono (by omega) fun hh => ⟨?_, hh.2⟩
      cases h with
      | none => trivial
      | some c => exact hh.1.2 c rfl
    · exact (hhandler none).of_pre fun s hs => hs.1.mono (by omega) fun h => ⟨trivial, h⟩
  · exact (clean_advance (by simp)).bind fun _ => (ih.expression strict (by omega)).bind fun e =>
      goesOn_endStatement.clean.bind fun _ => .pure fun s hs =>
        ⟨hs.mono (by omega) fun h => ⟨h.1.grammatical, h.2⟩, not_endsOpen rfl⟩
  · exact (clean_advance (by simp)).bind fun _ => .pure fun s hs =>
      ⟨hs.mono (Nat.le_refl _) fun h => ⟨trivial, h⟩, not_endsOpen rfl⟩
  · exact (clean_report rfl _).bind fun _ => .pure fun _ h => h.elim
  · exact (clean_report rfl _).bind fun _ => .pure fun _ h => h.elim
  · exact Clean.of_pre (fun s hs => hs.1) ((ih.expression strict hb).bind fun e =>
      goesOn_endStatement.clean.bind fun _ => .pure fun s hs =>
        ⟨hs.mono (Nat.le_refl _) fun h => ⟨h.1.grammatical, h.2⟩, not_endsOpen rfl⟩)

theorem allClean (fuel : Nat) : AllClean t fuel := by
  induction fuel with
  | zero => exact allClean_zero
  | succ fuel ih =>
    constructor
    all_goals
      intro n b φ
      intros
      obtain ⟨b, rfl⟩ : ∃ b', b = b' + 1 := ⟨b - 1, by omega⟩
      simp only [Nat.add_right_comm b 1 16, at_succ]
    · exact clean_statement ih _ (by omega)
    · exact clean_condition ih _
    · exact clean_declarators ih _
    · exact clean_statements ih _ _ (by omega)
    · exact clean_block ih _
    · exact clean_catchRest ih _
    · exact clean_directives ih _ (by omega)
    · exact clean_functionRest ih _ _
    · exact clean_expression ih _ (by omega)
    · exact clean_binary ih _ _ (by omega)
    · exact clean_binaryRest ih _ _ _
    · exact clean_unary ih _ (by omega)
    · exact clean_callRest ih _ _ _
    · exact clean_arguments ih _ (by omega)
    · exact clean_primary ih _

theorem clean_program (file : String) (strict : Bool) (hb : 6 ≤ b) :
    Clean t (At 0 b fuel φ) (program fuel file strict) fun p _ =>
      (p.source t).Grammatical strict := by
  refine goesOn_freshId.clean.bind fun id => ((allClean fuel).directives strict hb).bind ?_
  rintro ⟨ds, strict'⟩
  refine ((allClean fuel).statements _ strict' hb).bind fun ss => Clean.span_bind fun at_ =>
    .pure fun s ⟨_, hss, ⟨hds, hup, hdown⟩, _⟩ => ⟨hup, ?_, ?_⟩
  · rw [Program.source, Stmt.sources_append]
    exact fun hs => (hdown hs).imp_right fun h => Source.mem_prologue_append h _
  · rw [Program.source, Stmt.sources_append, Source.Stmt.allGrammatical_append]
    exact ⟨hds, hss⟩

end Readers

section Texts

variable {file text : String} {strict : Bool} {names : Interner}

theorem isError_attributeTo (file : String) (d : Diagnostic) :
    (d.attributeTo file).isError = d.isError := by
  unfold Diagnostic.attributeTo
  split <;> rfl

theorem hasErrors_sort_attributeTo (file : String) (ds : Diagnostics) :
    (Diagnostics.attributeTo file ds).sort.hasErrors = ds.hasErrors := by
  rw [Diagnostics.hasErrors, Diagnostics.sort, (List.mergeSort_perm _ _).any_eq,
    Diagnostics.attributeTo, List.any_map]
  exact congrArg (ds.any ·) (funext (isError_attributeTo file))

theorem tokens_start {tokens : List Token} (h : tokens ≠ []) (names : Interner) :
    (State.start tokens names).tokens = tokens := by
  obtain ⟨t, ts, rfl⟩ := List.exists_cons_of_ne_nil h
  rfl

theorem tokens_start_read (text : String) (names : Interner) :
    (State.start (Lexer.read text).tokens names).tokens = (Lexer.read text).tokens := by
  obtain ⟨init, last, htokens, -⟩ := Lexer.exists_tokens_read text
  exact tokens_start (by simp [htokens]) names

theorem ready_start (text : String) (h : .wellKnown ≤ names) :
    (State.start (Lexer.read text).tokens names).Ready 0 16
      (fuelFor (Lexer.read text).tokens) := by
  have hstart := tokens_start_read text names
  exact ⟨h, hstart ▸ Lexer.getLast?_read text, hstart ▸ Lexer.genuine_read text, rfl,
    hstart ▸ Nat.le_refl _⟩

/-- How the program of a text is read. -/
def reading (file text : String) (strict : Bool) (names : Interner) : Program × State :=
  program (fuelFor (Lexer.read text).tokens) file strict (.start (Lexer.read text).tokens names)

theorem diagnostics_parse : (parse file text strict names).diagnostics =
    (Diagnostics.attributeTo file ((Lexer.read text).problems ++
      (reading file text strict names).2.problems.reverse)).sort := rfl

theorem program_parse : (parse file text strict names).program =
    (reading file text strict names).1 := rfl

theorem names_parse : (parse file text strict names).names =
    (reading file text strict names).2.names := rfl

theorem goesOn_program (fuel : Nat) (file : String) (strict : Bool) :
    GoesOn (program fuel file strict) :=
  goesOn_freshId.bind fun _ => ((allGoOn fuel).directives strict).bind fun _ =>
    ((allGoOn fuel).statements _ _).bind fun _ => goesOn_span.bind fun _ => goesOn_pure _

/-- A name that is known before a text is read stays known. -/
theorem le_names_parse (file text : String) (strict : Bool) (names : Interner) :
    names ≤ (parse file text strict names).names := by
  have hgo := goesOn_program (fuelFor (Lexer.read text).tokens) file strict
    (.start (Lexer.read text).tokens names)
  exact hgo.names

/-- Whatever is reported while the tokens of a text are read is an error. -/
theorem fault_reading : ∀ d ∈ (reading file text strict names).2.problems, d.Fault := by
  obtain ⟨new, hnew, hfault⟩ := (goesOn_program _ file strict
    (.start (Lexer.read text).tokens names)).problems
  have hproblems : (reading file text strict names).2.problems = new :=
    hnew.trans (List.append_nil new)
  rwa [hproblems]

theorem hasErrors_parse (h : (reading file text strict names).2.problems ≠ []) :
    (parse file text strict names).diagnostics.hasErrors = true := by
  obtain ⟨d, hd⟩ := List.exists_mem_of_ne_nil _ h
  rw [diagnostics_parse, hasErrors_sort_attributeTo, Diagnostics.hasErrors, List.any_eq_true]
  exact ⟨d, List.mem_append_right _ (List.mem_reverse.mpr hd), (fault_reading d hd).isError⟩

/-- What is read from a text without an error is grammatical. -/
theorem grammatical_parse (hnames : .wellKnown ≤ names)
    (h : (parse file text strict names).diagnostics.hasErrors = false) :
    ((parse file text strict names).program.source
      (parse file text strict names).names).Grammatical strict := by
  have hproblems : (reading file text strict names).2.problems = [] :=
    Decidable.byContradiction fun hne => by
      rw [hasErrors_parse hne] at h
      cases h
  rw [program_parse, names_parse]
  rw [reading] at hproblems ⊢
  exact (clean_program file strict (by decide)).clean _ ⟨ready_start text hnames, trivial⟩
    ⟨hproblems, Interner.laws.le_refl _⟩

end Texts

end ScopeChain.Parser
