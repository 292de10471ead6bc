import Mathlib.Data.Fintype.Card
import ScopeChain.Proofs.NodeCounts
import ScopeChain.Proofs.RoundTrip

/-! Every span that is reported or put into a program lies in the text, and every node of a program
has a number that is its own. All of it can be stored with 32 bits, unless the text is longer than
there are positions. -/
namespace ScopeChain

open Token (Kind)

/-- A span of a text of `n` characters, which does not end before it begins. -/
structure Span.Within (n : Nat) (s : Span) : Prop where
  start_le : s.start ≤ s.stop
  stop_le : s.stop ≤ n

theorem Span.Within.start_le_length {n : Nat} {s : Span} (h : s.Within n) : s.start ≤ n :=
  Nat.le_trans h.start_le h.stop_le

/-- A span is stored as it is: its bounds are in order when its length is worked out, and neither is
cut off. -/
structure Span.Fits (s : Span) : Prop where
  ordered : UInt32.ofNat s.start ≤ UInt32.ofNat s.stop
  start_eq : s.stored.start.toNat = s.start
  stop_eq : s.stored.stop.toNat = s.stop

theorem Span.Within.fits {n : Nat} {s : Span} (h : s.Within n) (hn : n < UInt32.size) : s.Fits := by
  have hstart : (UInt32.ofNat s.start).toNat = s.start :=
    UInt32.toNat_ofNat_of_lt' (Nat.lt_of_le_of_lt h.start_le_length hn)
  have hstop : (UInt32.ofNat s.stop).toNat = s.stop :=
    UInt32.toNat_ofNat_of_lt' (Nat.lt_of_le_of_lt h.stop_le hn)
  have hordered : UInt32.ofNat s.start ≤ UInt32.ofNat s.stop := by
    rw [UInt32.le_iff_toNat_le, hstart, hstop]
    exact h.start_le
  refine ⟨hordered, hstart, ?_⟩
  rw [stored, TextSpan.stop, TextSpan.ofBounds, UInt32.add_comm, UInt32.sub_add_cancel, hstop]

theorem Span.within_default (n : Nat) : (default : Span).Within n :=
  ⟨Nat.le_refl _, Nat.zero_le _⟩

/-- All of some spans lie in a text. -/
abbrev Span.AllWithin (n : Nat) (xs : List Span) : Prop := ∀ s ∈ xs, s.Within n

theorem Span.allWithin_nil {n : Nat} : AllWithin n [] := List.forall_mem_nil _

/-- A diagnostic says where in a text of `n` characters it stands. -/
def Diagnostic.Within (n : Nat) (d : Diagnostic) : Prop := ∃ s, d.span = some s ∧ s.Within n

mutual

/-- The spans of an expression. -/
def Expr.spans : Expr → List Span
  | .number _ | .string _ | .bool _ | .null => []
  | .this i | .identifier i => [i.span]
  | .assign i e => i.span :: e.spans
  | .binary _ l r => l.spans ++ r.spans
  | .unary _ e | .typeof e => e.spans
  | .delete e span => span :: e.spans
  | .call f args span => span :: (f.spans ++ Expr.allSpans args)
  | .function f => f.spans

def Expr.allSpans : List Expr → List Span
  | [] => []
  | e :: es => e.spans ++ Expr.allSpans es

def Declarator.allSpans : List Declarator → List Span
  | [] => []
  | ⟨i, none⟩ :: ds => i.span :: Declarator.allSpans ds
  | ⟨i, some e⟩ :: ds => i.span :: (e.spans ++ Declarator.allSpans ds)

def Stmt.spans : Stmt → List Span
  | .var ds => Declarator.allSpans ds
  | .function f => f.spans
  | .expr e | .throw e => e.spans
  | .return none span => [span]
  | .return (some e) span => span :: e.spans
  | .if t c none => t.spans ++ c.spans
  | .if t c (some a) => t.spans ++ (c.spans ++ a.spans)
  | .while t b => t.spans ++ b.spans
  | .block b => Stmt.allSpans b
  | .try b h f => Stmt.allSpans b ++ (Stmt.handlerSpans h ++ Stmt.finalizerSpans f)
  | .empty => []

def Stmt.allSpans : List Stmt → List Span
  | [] => []
  | s :: ss => s.spans ++ Stmt.allSpans ss

def Stmt.handlerSpans : Option CatchClause → List Span
  | none => []
  | some ⟨_, param, body⟩ => param.span :: Stmt.allSpans body

def Stmt.finalizerSpans : Option (List Stmt) → List Span
  | none => []
  | some body => Stmt.allSpans body

def FunctionDef.spans : FunctionDef → List Span
  | ⟨_, self, params, body, _, span⟩ =>
    span :: ((self.toList ++ params).map Identifier.span ++ Stmt.allSpans body)

end

/-- All spans of a program, its own included. -/
def Program.spans (p : Program) : List Span := p.span :: Stmt.allSpans p.body

theorem Stmt.allSpans_append (ss ts : List Stmt) :
    Stmt.allSpans (ss ++ ts) = Stmt.allSpans ss ++ Stmt.allSpans ts := by
  induction ss with
  | nil => rfl
  | cons s ss ih => rw [List.cons_append, allSpans, allSpans, ih, List.append_assoc]

namespace Lexer

theorem Tiles.within {pos : Nat} {cs : List Char} {ts : List Token} (h : Tiles pos cs ts) :
    ∀ t ∈ ts, t.span.Within (pos + cs.length) := by
  induction h with
  | last =>
    intro t ht
    rw [List.mem_singleton.1 ht]
    exact ⟨Nat.le_refl _, Nat.le_refl _⟩
  | @next pos gap covered rest kind ts _ _ _ _ ih =>
    have hlength : pos + (gap ++ (covered ++ rest)).length =
        pos + gap.length + covered.length + rest.length := by
      simp only [List.length_append]
      omega
    rw [hlength]
    exact List.forall_mem_cons.2 ⟨⟨Nat.le_add_right _ _, Nat.le_add_right _ _⟩, ih⟩

/-- A comment that is never closed opens before the text ends. -/
theorem le_stop_of_unclosed {mode : Comment} {lb : Bool} {pos start : Nat} {cs : List Char}
    (hmode : ∀ opened, mode = .block opened → opened ≤ pos)
    (h : (gap mode lb pos cs).unclosed? = some start) : start ≤ (gap mode lb pos cs).stop := by
  fun_induction gap mode lb pos cs with
  | case1 | case2 | case8 => cases h
  | case3 opened lb pos =>
    obtain rfl := Option.some.inj h
    exact hmode opened rfl
  | case5 lb pos cs ih =>
    refine ih (fun opened hopened => ?_) h
    obtain rfl := Comment.block.inj hopened
    exact Nat.le_add_right pos 2
  | case12 opened lb pos c cs _ ih =>
    refine ih (fun opened' hopened => ?_) h
    exact Nat.le_succ_of_le (hmode opened' hopened)
  | _ =>
    rename_i ih
    refine ih (fun opened hopened => ?_) h
    cases hopened

/-- What is wrong with a token or with the gap before it lies between the place where reading
begins and the end of the text. -/
theorem within_problems_step (pos : Nat) (cs : List Char) :
    ∀ d ∈ (step ⟨pos, cs⟩).problems, d.Within (pos + cs.length) := by
  obtain ⟨read, hgap⟩ := exists_takes_gap .outside false pos cs
  have hstop : (gap .outside false pos cs).stop + (gap .outside false pos cs).rest.length =
      pos + cs.length := by
    rw [hgap.stop, Nat.add_assoc, ← List.length_append, ← hgap.chars]
  have hwidth : (lexeme (gap .outside false pos cs).rest).width ≤
      (gap .outside false pos cs).rest.length := by
    cases hrest : (gap .outside false pos cs).rest with
    | nil => exact Nat.le_refl _
    | cons c ds =>
      obtain ⟨covered, hcovered⟩ := exists_takes_lexeme c ds
      rw [hcovered.width]
      exact (congrArg List.length hcovered.chars).symm ▸ by simp
  intro d hd
  rcases List.mem_append.1 hd with hd | hd
  · obtain ⟨start, hstart, rfl⟩ := Option.map_eq_some_iff.1 (Option.mem_toList.1 hd)
    exact ⟨_, rfl, le_stop_of_unclosed nofun hstart, by dsimp only; omega⟩
  · obtain ⟨m, -, rfl⟩ := Option.map_eq_some_iff.1 (Option.mem_toList.1 hd)
    exact ⟨_, rfl, Nat.le_add_right _ _, by dsimp only; omega⟩

theorem within_problems_readFrom (fuel pos : Nat) (cs : List Char) :
    ∀ d ∈ (readFrom fuel ⟨pos, cs⟩).problems, d.Within (pos + cs.length) := by
  induction fuel generalizing pos cs with
  | zero => exact within_problems_step pos cs
  | succ fuel ih =>
    rw [readFrom]
    split
    · exact within_problems_step pos cs
    · next hkind =>
      refine List.forall_mem_append.2 ⟨within_problems_step pos cs, ?_⟩
      obtain ⟨isOpen, gap, -, -, htoken⟩ |
        ⟨gap, covered, rest, kind, -, -, -, rfl, -, hnext⟩ := exists_step pos cs
      · exact absurd (congrArg Token.kind htoken) hkind
      · have hlength : pos + (gap ++ (covered ++ rest)).length =
            pos + gap.length + covered.length + rest.length := by
          simp only [List.length_append]
          omega
        rw [hnext, hlength]
        exact ih _ _

end Lexer

namespace Parser

variable {α β : Type} {n lo : Nat}

/-- The tokens of a state stand in order from `lo` on in a text of `n` characters, in which
everything lies that was reported. -/
structure State.Placed (n lo : Nat) (s : State) : Prop where
  tokens : ∀ t ∈ s.tokens, lo ≤ t.span.start ∧ t.span.Within n
  ascending : s.tokens.Pairwise (·.span.start < ·.span.start)
  problems : ∀ d ∈ s.problems, d.Within n

theorem State.Placed.token {s : State} (h : s.Placed n lo) :
    lo ≤ s.token.span.start ∧ s.token.span.Within n := h.tokens _ List.mem_cons_self

/-- No token stands before the one to be read next. -/
theorem State.Placed.here {s : State} (h : s.Placed n lo) : s.Placed n s.token.span.start := by
  refine ⟨fun t ht => ⟨?_, (h.tokens t ht).2⟩, h.ascending, h.problems⟩
  rcases List.mem_cons.1 ht with rfl | ht
  · exact Nat.le_refl _
  · exact Nat.le_of_lt ((List.pairwise_cons.1 h.ascending).1 t ht)

theorem State.Placed.mono {lo' : Nat} {s : State} (h : s.Placed n lo) (hlo : lo' ≤ lo) :
    s.Placed n lo' :=
  ⟨fun t ht => ⟨Nat.le_trans hlo (h.tokens t ht).1, (h.tokens t ht).2⟩, h.ascending, h.problems⟩

/-- Reading stays in place, and what is read has a property. -/
def Places (n lo : Nat) (f : ParseM α) (P : α → Prop) : Prop :=
  ∀ s, s.Placed n lo → (f s).2.Placed n lo ∧ P (f s).1

section Rules

variable {f : ParseM α} {g : α → ParseM β} {Q : α → Prop} {P : β → Prop}

theorem Places.pure {a : α} (h : Q a) : Places n lo (pure a) Q := fun _ hs => ⟨hs, h⟩

theorem Places.bind (hf : Places n lo f Q) (h : ∀ a, Q a → Places n lo (g a) P) :
    Places n lo (f >>= g) P := fun s hs => h _ (hf s hs).2 _ (hf s hs).1

/-- One step whose answer does not matter. -/
theorem Places.then (hf : Places n lo f fun _ => True) (h : ∀ a, Places n lo (g a) P) :
    Places n lo (f >>= g) P := hf.bind fun a _ => h a

theorem Places.map {h : α → β} (hf : Places n lo f fun a => P (h a)) : Places n lo (h <$> f) P := hf

theorem places_get : Places n lo (get : ParseM State) fun s => s.Placed n lo :=
  fun _ hs => ⟨hs, hs⟩

theorem places_kind : Places n lo kind fun _ => True := fun _ hs => ⟨hs, trivial⟩

theorem places_span : Places n lo span fun at_ => lo ≤ at_.start ∧ at_.Within n :=
  fun _ hs => ⟨hs, hs.token⟩

/-- From a token on, all tokens stand where it does or behind. -/
theorem Places.span_bind {g : Span → ParseM β}
    (h : ∀ at_, at_.Within n → Places n at_.start (g at_) P) : Places n lo (span >>= g) P := by
  intro s hs
  obtain ⟨hplaced, hP⟩ := h _ hs.token.2 s hs.here
  exact ⟨hplaced.mono hs.token.1, hP⟩

theorem places_advance : Places n lo advance fun _ => True := by
  intro s hs
  refine ⟨?_, trivial⟩
  cases hrest : s.rest with
  | nil =>
    rw [advance_of_nil hrest]
    exact hs
  | cons t ts =>
    have htokens : s.tokens = s.token :: t :: ts := congrArg (s.token :: ·) hrest
    rw [advance_of_cons hrest]
    exact ⟨fun u hu => hs.tokens u (htokens ▸ List.mem_cons_of_mem _ hu),
      (List.pairwise_cons.1 (htokens ▸ hs.ascending)).2, hs.problems⟩

theorem places_reportAt {at_ : Span} (h : at_.Within n) (m : Message) (args : List String) :
    Places n lo (reportAt at_ m args) fun _ => True :=
  fun _ hs => ⟨⟨hs.tokens, hs.ascending, List.forall_mem_cons.2 ⟨⟨at_, rfl, h⟩, hs.problems⟩⟩,
    trivial⟩

theorem places_report (m : Message) (args : List String) :
    Places n lo (report m args) fun _ => True :=
  places_span.bind fun _ h => places_reportAt h.2 m args

theorem places_freshId : Places n lo freshId fun _ => True :=
  fun _ hs => ⟨⟨hs.tokens, hs.ascending, hs.problems⟩, trivial⟩

theorem places_intern (text : String) : Places n lo (intern text) fun _ => True :=
  fun _ hs => ⟨⟨hs.tokens, hs.ascending, hs.problems⟩, trivial⟩

theorem places_accept (k : Kind) : Places n lo (accept k) fun _ => True := by
  refine places_kind.then fun k' => ?_
  split
  · exact places_advance.then fun _ => .pure trivial
  · exact .pure trivial

theorem places_expect (p : Punctuator) : Places n lo (expect p) fun _ => True := by
  refine (places_accept _).then fun c => ?_
  split
  · exact .pure trivial
  · exact (places_report _ _).then fun _ => .pure trivial

theorem places_endStatement : Places n lo endStatement fun _ => True := by
  refine (places_accept _).then fun c => ?_
  split
  · exact .pure trivial
  · refine places_get.bind fun s _ => ?_
    extract_lets t
    split
    · exact .pure trivial
    · exact places_report _ _

theorem places_identifier : Places n lo identifier fun i => i.span.Within n := by
  refine places_span.bind fun at_ hat => places_kind.then fun k => ?_
  extract_lets rest
  have hrest : ∀ name, Places n lo (rest name) fun i => i.span.Within n := fun name =>
    places_freshId.then fun id => .pure hat.2
  split
  · exact (places_intern _).then fun m => places_advance.then fun _ =>
      (Places.pure trivial).then hrest
  · exact (places_report _ _).then fun _ => (places_intern _).then hrest

theorem places_checkBinding (strict : Bool) {i : Identifier} (h : i.span.Within n) :
    Places n lo (checkBinding strict i) fun _ => True := by
  unfold checkBinding
  split
  · exact places_get.bind fun _ _ => places_reportAt h _ _
  · exact .pure trivial

theorem places_checkParams (strict : Bool) (earlier : List Name) {ps : List Identifier}
    (h : ∀ p ∈ ps, p.span.Within n) :
    Places n lo (checkParams strict earlier ps) fun _ => True := by
  induction ps generalizing earlier with
  | nil => exact .pure trivial
  | cons p ps ih =>
    obtain ⟨hp, hps⟩ := List.forall_mem_cons.1 h
    refine (places_checkBinding strict hp).then fun _ => ?_
    split
    · exact (places_get.bind fun _ _ => places_reportAt hp _ _).then fun _ => ih _ hps
    · exact ih _ hps

theorem places_spanFrom {start : Nat} (h : start ≤ n) :
    Places n lo (spanFrom start) fun at_ => at_.Within n :=
  places_span.bind fun _ hat => .pure
    ⟨Nat.le_max_right _ _, Nat.max_le.2 ⟨hat.2.start_le_length, h⟩⟩

theorem Places.nested {m : Message} {a : α} (ha : Q a) (hf : Places n lo f Q) :
    Places n lo (nested m a f) Q := by
  intro s hs
  rw [nested_run]
  split
  · exact ⟨((places_report m []) s hs).1, ha⟩
  · obtain ⟨hplaced, hQ⟩ := hf { s with depth := s.depth + 1 }
      ⟨hs.tokens, hs.ascending, hs.problems⟩
    exact ⟨⟨hplaced.tokens, hplaced.ascending, hplaced.problems⟩, hQ⟩

theorem Places.inFunction (hf : Places n lo f Q) : Places n lo (inFunction f) Q := by
  intro s hs
  obtain ⟨hplaced, hQ⟩ := hf { s with functionDepth := s.functionDepth + 1 }
    ⟨hs.tokens, hs.ascending, hs.problems⟩
  exact ⟨⟨hplaced.tokens, hplaced.ascending, hplaced.problems⟩, hQ⟩

theorem places_params (fuel : Nat) :
    Places n lo (params fuel) fun ps => ∀ p ∈ ps, p.span.Within n := by
  induction fuel with
  | zero => exact .pure (List.forall_mem_nil _)
  | succ fuel ih =>
    refine places_identifier.bind fun p hp => (places_accept _).then fun c => ?_
    split
    · exact ih.bind fun ps hps => .pure (List.forall_mem_cons.2 ⟨hp, hps⟩)
    · exact .pure (List.forall_mem_cons.2 ⟨hp, List.forall_mem_nil _⟩)

end Rules

open ScopeChain.Span (AllWithin allWithin_nil)

/-- What each reader answers lies in the text. -/
structure AllPlace (n fuel : Nat) : Prop where
  statement : ∀ {lo} strict, Places n lo (statement fuel strict) (AllWithin n ·.spans)
  condition : ∀ {lo} strict, Places n lo (condition fuel strict) (AllWithin n ·.spans)
  declarators : ∀ {lo} strict,
    Places n lo (declarators fuel strict) (AllWithin n <| Declarator.allSpans ·)
  statements : ∀ {lo} ends strict,
    Places n lo (statements fuel ends strict) (AllWithin n <| Stmt.allSpans ·)
  block : ∀ {lo} strict, Places n lo (block fuel strict) (AllWithin n <| Stmt.allSpans ·)
  catchRest : ∀ {lo} strict,
    Places n lo (catchRest fuel strict) (AllWithin n <| Stmt.handlerSpans <| some ·)
  directives : ∀ {lo} strict,
    Places n lo (directives fuel strict) (AllWithin n <| Stmt.allSpans ·.1)
  functionRest : ∀ {lo} strict declaration,
    Places n lo (functionRest fuel strict declaration) (AllWithin n ·.spans)
  expression : ∀ {lo} strict, Places n lo (expression fuel strict) (AllWithin n ·.spans)
  binary : ∀ {lo} strict least, Places n lo (binary fuel strict least) (AllWithin n ·.spans)
  binaryRest : ∀ {lo} strict least left, AllWithin n left.spans →
    Places n lo (binaryRest fuel strict least left) (AllWithin n ·.spans)
  unary : ∀ {lo} strict, Places n lo (unary fuel strict) (AllWithin n ·.spans)
  callRest : ∀ {lo} strict start callee, start ≤ lo → AllWithin n callee.spans →
    Places n lo (callRest fuel strict start callee) (AllWithin n ·.spans)
  arguments : ∀ {lo} strict, Places n lo (arguments fuel strict) (AllWithin n <| Expr.allSpans ·)
  primary : ∀ {lo} strict, Places n lo (primary fuel strict) (AllWithin n ·.spans)

section Readers

variable {fuel : Nat}

theorem places_condition (ih : AllPlace n fuel) (strict : Bool) :
    Places n lo (condition (fuel + 1) strict) (AllWithin n ·.spans) :=
  (places_expect _).then fun _ => (ih.expression strict).bind fun _ he =>
    (places_expect _).then fun _ => .pure he

theorem places_block (ih : AllPlace n fuel) (strict : Bool) :
    Places n lo (block (fuel + 1) strict) (AllWithin n <| Stmt.allSpans ·) := by
  refine (places_expect _).then fun opened => ?_
  split
  · exact (ih.statements _ strict).bind fun ss hss => (places_expect _).then fun _ => .pure hss
  · exact .pure allWithin_nil

theorem places_statements (ih : AllPlace n fuel) (ends : Kind → Bool) (strict : Bool) :
    Places n lo (statements (fuel + 1) ends strict) (AllWithin n <| Stmt.allSpans ·) := by
  refine places_kind.then fun k => ?_
  split
  · exact .pure allWithin_nil
  · refine places_span.bind fun at_ _ => ?_
    extract_lets start
    refine (ih.statement strict).bind fun s hs => places_span.bind fun at_ _ =>
      places_kind.then fun k => ?_
    extract_lets rest
    have hrest : ∀ u, Places n lo (rest u) (AllWithin n <| Stmt.allSpans ·) := fun _ =>
      (ih.statements ends strict).bind fun ss hss =>
        .pure (List.forall_mem_append.2 ⟨hs, hss⟩)
    split
    · exact places_advance.then hrest
    · exact hrest ()

theorem places_catchRest (ih : AllPlace n fuel) (strict : Bool) :
    Places n lo (catchRest (fuel + 1) strict) (AllWithin n <| Stmt.handlerSpans <| some ·) :=
  places_freshId.then fun _ => (places_expect _).then fun _ => places_identifier.bind fun _ hp =>
    (places_checkBinding strict hp).then fun _ => (places_expect _).then fun _ =>
      (ih.block strict).bind fun _ hb => .pure (List.forall_mem_cons.2 ⟨hp, hb⟩)

theorem places_directives (ih : AllPlace n fuel) (strict : Bool) :
    Places n lo (directives (fuel + 1) strict) (AllWithin n <| Stmt.allSpans ·.1) := by
  refine places_kind.then fun k => ?_
  split
  · refine (ih.statement strict).bind fun s hs => ?_
    split
    · exact (ih.directives _).bind fun r hr => .pure (List.forall_mem_append.2 ⟨hs, hr⟩)
    · exact .pure (List.forall_mem_append.2 ⟨hs, allWithin_nil⟩)
  · exact .pure allWithin_nil

/-- A declarator lies in the text if its parts do. -/
theorem allWithin_declarator {target : Identifier} {value : Option Expr} {ds : List Declarator}
    (htarget : target.span.Within n) (hvalue : ∀ e ∈ value, AllWithin n e.spans)
    (hds : AllWithin n (Declarator.allSpans ds)) :
    AllWithin n (Declarator.allSpans (⟨target, value⟩ :: ds)) := by
  cases value with
  | none => exact List.forall_mem_cons.2 ⟨htarget, hds⟩
  | some e =>
    exact List.forall_mem_cons.2 ⟨htarget, List.forall_mem_append.2 ⟨hvalue e rfl, hds⟩⟩

/-- What is read for a place that may stay empty. -/
theorem places_none {P : α → Prop} :
    Places n lo (pure (none : Option α)) fun v => ∀ a ∈ v, P a :=
  .pure fun _ ha => (Option.not_mem_none _ ha).elim

theorem Places.some {f : ParseM α} {P : α → Prop} (h : Places n lo f P) :
    Places n lo (some <$> f) fun v => ∀ a ∈ v, P a :=
  fun s hs => ⟨(h s hs).1, fun _ ha => Option.some.inj ha ▸ (h s hs).2⟩

theorem places_declarators (ih : AllPlace n fuel) (strict : Bool) :
    Places n lo (declarators (fuel + 1) strict) (AllWithin n <| Declarator.allSpans ·) := by
  refine places_identifier.bind fun target htarget =>
    (places_checkBinding strict htarget).then fun _ => (places_accept _).then fun assigned => ?_
  extract_lets rest
  have hrest : ∀ value : Option Expr, (∀ e ∈ value, AllWithin n e.spans) →
      Places n lo (rest value) (AllWithin n <| Declarator.allSpans ·) := by
    intro value hvalue
    refine (places_accept _).then fun more => ?_
    split
    · exact (ih.declarators strict).bind fun ds hds =>
        .pure (allWithin_declarator htarget hvalue hds)
    · exact .pure (allWithin_declarator htarget hvalue allWithin_nil)
  split
  · exact (ih.expression strict).some.bind hrest
  · exact places_none.bind hrest

/-- The body of a function, up to its closing brace. -/
theorem places_functionBody (ih : AllPlace n fuel) (outer : Bool) :
    Places n lo (do
      if ← expect .openBrace then
        let (ds, strict) ← directives fuel outer
        let ss ← statements fuel atBlockEnd strict
        let _ ← expect .closeBrace
        return (ds ++ ss, strict)
      return ([], outer)) (AllWithin n <| Stmt.allSpans ·.1) := by
  refine (places_expect _).then fun opened => ?_
  split
  · refine (ih.directives outer).bind fun r hr => (ih.statements _ r.2).bind fun ss hss =>
      (places_expect _).then fun _ => .pure ?_
    rw [Stmt.allSpans_append]
    exact List.forall_mem_append.2 ⟨hr, hss⟩
  · exact .pure allWithin_nil

theorem places_functionRest (ih : AllPlace n fuel) (outer declaration : Bool) :
    Places n lo (functionRest (fuel + 1) outer declaration) (AllWithin n ·.spans) := by
  refine places_span.bind fun at_ hat => places_freshId.then fun id => places_kind.then fun k => ?_
  extract_lets named afterSelf
  have hself : ∀ self : Option Identifier, (∀ i ∈ self, i.span.Within n) →
      Places n lo (afterSelf self) (AllWithin n ·.spans) := by
    intro self hname
    refine (places_expect _).then fun _ => places_kind.then fun k => ?_
    extract_lets afterParams
    have hparams : ∀ ps : List Identifier, (∀ p ∈ ps, p.span.Within n) →
        Places n lo (afterParams ps) (AllWithin n ·.spans) := by
      intro ps hps
      refine (places_expect _).then fun _ =>
        (places_functionBody ih outer).inFunction.bind fun r hr => ?_
      have hend : Places n lo (do
          checkParams r.2 [] ps
          return (⟨id, self, ps, r.1, r.2, ← spanFrom at_.start⟩ : FunctionDef))
          (AllWithin n ·.spans) := by
        refine (places_checkParams r.2 [] hps).then fun _ =>
          (places_spanFrom hat.2.start_le_length).bind fun sp hsp =>
            .pure (List.forall_mem_cons.2 ⟨hsp, List.forall_mem_append.2 ⟨?_, hr⟩⟩)
        intro sp' hsp'
        obtain ⟨i, hi, rfl⟩ := List.mem_map.1 hsp'
        rcases List.mem_append.1 hi with hi | hi
        · exact hname i (Option.mem_toList.1 hi)
        · exact hps i hi
      cases self with
      | none => exact hend
      | some i => exact (places_checkBinding r.2 (hname i rfl)).then fun _ => hend
    split
    · exact Places.bind (.pure (List.forall_mem_nil _)) hparams
    · exact (places_params fuel).bind hparams
  split
  · exact places_identifier.some.bind hself
  · exact places_none.bind hself

theorem places_expression (ih : AllPlace n fuel) (strict : Bool) :
    Places n lo (expression (fuel + 1) strict) (AllWithin n ·.spans) := by
  rw [Parser.expression]
  refine Places.nested allWithin_nil (places_span.bind fun at_ hat => (ih.binary strict 0).bind
    fun left hleft => (places_accept _).then fun assigned => ?_)
  split
  · refine (ih.expression strict).bind fun value hvalue => ?_
    split
    · next target ht =>
      have htarget : target.span.Within n := by
        cases left with
        | identifier i =>
          obtain rfl := Option.some.inj ht
          exact hleft _ List.mem_cons_self
        | _ => cases ht
      exact (places_checkBinding strict htarget).then fun _ =>
        .pure (List.forall_mem_cons.2 ⟨htarget, hvalue⟩)
    · exact (places_reportAt hat.2 _ _).then fun _ => .pure hvalue
  · exact .pure hleft

theorem places_binary (ih : AllPlace n fuel) (strict : Bool) (least : Nat) :
    Places n lo (binary (fuel + 1) strict least) (AllWithin n ·.spans) :=
  (ih.unary strict).bind fun e he => ih.binaryRest strict least e he

theorem places_binaryRest (ih : AllPlace n fuel) (strict : Bool) (least : Nat) (left : Expr)
    (hleft : AllWithin n left.spans) :
    Places n lo (binaryRest (fuel + 1) strict least left) (AllWithin n ·.spans) := by
  refine places_kind.then fun k => ?_
  split
  · split
    · exact .pure hleft
    · exact places_advance.then fun _ => (ih.binary strict _).bind fun right hright =>
        ih.binaryRest strict least _ (List.forall_mem_append.2 ⟨hleft, hright⟩)
  · exact .pure hleft

theorem places_unary (ih : AllPlace n fuel) (strict : Bool) :
    Places n lo (unary (fuel + 1) strict) (AllWithin n ·.spans) := by
  rw [Parser.unary]
  refine Places.nested allWithin_nil (Places.span_bind fun at_ hat => places_kind.then fun k => ?_)
  split
  · exact places_advance.then fun _ => (ih.unary strict).bind fun e he => .pure he
  · refine places_advance.then fun _ => (ih.unary strict).bind fun e he => ?_
    extract_lets rest
    have hrest : ∀ u, Places n at_.start (rest u) (AllWithin n ·.spans) := fun _ =>
      (places_spanFrom hat.start_le_length).bind fun sp hsp =>
        .pure (List.forall_mem_cons.2 ⟨hsp, he⟩)
    split
    · exact (places_reportAt hat _ _).then hrest
    · exact hrest ()
  · split
    · exact places_advance.then fun _ => (ih.unary strict).bind fun e he => .pure he
    · exact (ih.primary strict).bind fun e he =>
        ih.callRest strict _ e (Nat.le_refl _) he

theorem places_callRest (ih : AllPlace n fuel) (strict : Bool) (start : Nat) (callee : Expr)
    (hstart : start ≤ lo) (hcallee : AllWithin n callee.spans) :
    Places n lo (callRest (fuel + 1) strict start callee) (AllWithin n ·.spans) := by
  refine (places_accept _).then fun opened => ?_
  split
  · refine places_kind.then fun k => ?_
    extract_lets rest
    have hrest : ∀ args, AllWithin n (Expr.allSpans args) →
        Places n lo (rest args) (AllWithin n ·.spans) := by
      intro args hargs
      refine places_span.bind fun at_ ⟨hlo, hat⟩ => (places_expect _).then fun _ => ?_
      have hspan : (⟨start, at_.stop⟩ : Span).Within n :=
        ⟨Nat.le_trans hstart (Nat.le_trans hlo hat.start_le), hat.stop_le⟩
      exact ih.callRest strict start _ hstart
        (List.forall_mem_cons.2 ⟨hspan, List.forall_mem_append.2 ⟨hcallee, hargs⟩⟩)
    split
    · refine Places.bind (.pure ?_) hrest
      exact allWithin_nil
    · exact (ih.arguments strict).bind hrest
  · exact .pure hcallee

theorem places_arguments (ih : AllPlace n fuel) (strict : Bool) :
    Places n lo (arguments (fuel + 1) strict) (AllWithin n <| Expr.allSpans ·) := by
  refine (ih.expression strict).bind fun e he => (places_accept _).then fun more => ?_
  split
  · exact (ih.arguments strict).bind fun es hes => .pure (List.forall_mem_append.2 ⟨he, hes⟩)
  · exact .pure (List.forall_mem_append.2 ⟨he, allWithin_nil⟩)

theorem places_primary (ih : AllPlace n fuel) (strict : Bool) :
    Places n lo (primary (fuel + 1) strict) (AllWithin n ·.spans) := by
  rw [Parser.primary]
  refine places_span.bind fun at_ hat => places_kind.then fun k => ?_
  split
  case h_6 =>
    exact places_advance.then fun _ => places_freshId.then fun _ =>
      .pure (List.forall_mem_cons.2 ⟨hat.2, allWithin_nil⟩)
  case h_7 =>
    exact places_identifier.bind fun i hi => .pure (List.forall_mem_cons.2 ⟨hi, allWithin_nil⟩)
  case h_8 =>
    exact places_advance.then fun _ => (ih.functionRest strict false).bind fun f hf => .pure hf
  case h_9 =>
    exact places_advance.then fun _ => (ih.expression strict).bind fun e he =>
      (places_expect _).then fun _ => .pure he
  case h_10 => exact (places_report _ _).then fun _ => .pure allWithin_nil
  all_goals exact places_advance.then fun _ => .pure allWithin_nil

theorem places_statement (ih : AllPlace n fuel) (strict : Bool) :
    Places n lo (statement (fuel + 1) strict) (AllWithin n ·.spans) := by
  rw [Parser.statement]
  refine Places.nested allWithin_nil (places_kind.then fun k => ?_)
  split
  · exact places_advance.then fun _ => (ih.declarators strict).bind fun ds hds =>
      places_endStatement.then fun _ => .pure hds
  · exact places_advance.then fun _ => (ih.functionRest strict true).bind fun f hf => .pure hf
  · refine places_span.bind fun at_ hat => places_get.bind fun s _ => ?_
    extract_lets ending reading
    have hending : ∀ argument : Option Expr, (∀ e ∈ argument, AllWithin n e.spans) →
        Places n lo (ending argument) (AllWithin n ·.spans) := by
      intro argument h
      refine places_endStatement.then fun _ => .pure ?_
      cases argument with
      | none => exact List.forall_mem_cons.2 ⟨hat.2, allWithin_nil⟩
      | some e => exact List.forall_mem_cons.2 ⟨hat.2, h e rfl⟩
    have hreading : ∀ u, Places n lo (reading u) (AllWithin n ·.spans) := by
      intro u
      refine places_advance.then fun _ => places_get.bind fun s _ => ?_
      extract_lets t
      split
      · exact places_none.bind hending
      · exact (ih.expression strict).some.bind hending
    split
    · exact (places_report _ _).then hreading
    · exact hreading ()
  · refine places_advance.then fun _ => (ih.condition strict).bind fun t ht =>
      (ih.statement strict).bind fun c hc => (places_accept _).then fun more => ?_
    split
    · exact (ih.statement strict).bind fun a ha =>
        .pure (List.forall_mem_append.2 ⟨ht, List.forall_mem_append.2 ⟨hc, ha⟩⟩)
    · exact .pure (List.forall_mem_append.2 ⟨ht, hc⟩)
  · exact places_advance.then fun _ => (ih.condition strict).bind fun t ht =>
      (ih.statement strict).bind fun b hb => .pure (List.forall_mem_append.2 ⟨ht, hb⟩)
  · exact (ih.block strict).bind fun b hb => .pure hb
  · refine places_advance.then fun _ => (ih.block strict).bind fun b hb =>
      (places_accept _).then fun c => ?_
    extract_lets afterHandler
    have hhandler : ∀ h : Option CatchClause, (∀ c ∈ h, AllWithin n (Stmt.handlerSpans (some c))) →
        Places n lo (afterHandler h) (AllWithin n ·.spans) := by
      intro h hh
      refine (places_accept _).then fun c => ?_
      extract_lets afterFinalizer
      have hfinalizer : ∀ f : Option (List Stmt), (∀ body ∈ f, AllWithin n (Stmt.allSpans body)) →
          Places n lo (afterFinalizer f) (AllWithin n ·.spans) := by
        intro f hf
        have htry : AllWithin n (Stmt.try b h f).spans := by
          refine List.forall_mem_append.2 ⟨hb, List.forall_mem_append.2 ⟨?_, ?_⟩⟩
          · cases h with
            | none => exact allWithin_nil
            | some c => exact hh c rfl
          · cases f with
            | none => exact allWithin_nil
            | some body => exact hf body rfl
        simp only [afterFinalizer]
        split
        · exact (places_report _ _).then fun _ => .pure htry
        · exact .pure htry
      split
      · exact (ih.block strict).some.bind hfinalizer
      · exact places_none.bind hfinalizer
    split
    · exact (ih.catchRest strict).some.bind hhandler
    · exact places_none.bind hhandler
  · exact places_advance.then fun _ => (ih.expression strict).bind fun e he =>
      places_endStatement.then fun _ => .pure he
  · exact places_advance.then fun _ => .pure allWithin_nil
  · exact (places_report _ _).then fun _ => .pure allWithin_nil
  · exact (places_report _ _).then fun _ => .pure allWithin_nil
  · exact (ih.expression strict).bind fun e he => places_endStatement.then fun _ => .pure he

theorem allPlace_zero : AllPlace n 0 where
  statement _ := .pure allWithin_nil
  condition _ := .pure allWithin_nil
  declarators _ := .pure allWithin_nil
  statements _ _ := .pure allWithin_nil
  block _ := .pure allWithin_nil
  catchRest _ := places_freshId.then fun _ => places_freshId.then fun _ =>
    .pure (List.forall_mem_cons.2 ⟨Span.within_default n, allWithin_nil⟩)
  directives _ := .pure allWithin_nil
  functionRest _ _ := places_freshId.then fun _ =>
    .pure (List.forall_mem_cons.2 ⟨Span.within_default n, allWithin_nil⟩)
  expression _ := .pure allWithin_nil
  binary _ _ := .pure allWithin_nil
  binaryRest _ _ _ hleft := .pure hleft
  unary _ := .pure allWithin_nil
  callRest _ _ _ _ hcallee := .pure hcallee
  arguments _ := .pure allWithin_nil
  primary _ := .pure allWithin_nil

theorem allPlace (fuel : Nat) : AllPlace n fuel := by
  induction fuel with
  | zero => exact allPlace_zero
  | succ fuel ih =>
    exact {
      statement := places_statement ih
      condition := places_condition ih
      declarators := places_declarators ih
      statements := places_statements ih
      block := places_block ih
      catchRest := places_catchRest ih
      directives := places_directives ih
      functionRest := places_functionRest ih
      expression := places_expression ih
      binary := places_binary ih
      binaryRest := places_binaryRest ih
      unary := places_unary ih
      callRest := places_callRest ih
      arguments := places_arguments ih
      primary := places_primary ih }

end Readers

theorem places_program (fuel : Nat) (file : String) (strict : Bool) :
    Places n lo (program fuel file strict) (AllWithin n ·.spans) := by
  refine places_freshId.then fun id => ((allPlace fuel).directives strict).bind fun r hr =>
    ((allPlace fuel).statements _ r.2).bind fun ss hss => places_span.bind fun at_ hat => .pure ?_
  rw [Program.spans, Stmt.allSpans_append]
  exact List.forall_mem_cons.2 ⟨⟨Nat.zero_le _, hat.2.stop_le⟩, List.forall_mem_append.2 ⟨hr, hss⟩⟩

theorem within_tokens (text : String) :
    ∀ t ∈ (Lexer.read text).tokens, t.span.Within text.length := by
  have hwithin := (Lexer.tiles_read text).within
  rwa [Nat.zero_add, String.length_toList] at hwithin

/-- The tokens of a text stand in order in it. -/
theorem placed_start (text : String) (names : Interner) :
    (State.start (Lexer.read text).tokens names).Placed text.length 0 := by
  have htokens := tokens_start_read text names
  refine ⟨fun t ht => ⟨Nat.zero_le _, within_tokens text t (htokens ▸ ht)⟩, ?_, nofun⟩
  rw [htokens]
  exact Lexer.ascending_read text

theorem within_diagnostics (file text : String) (strict : Bool) (names : Interner) :
    ∀ d ∈ (parse file text strict names).diagnostics, d.Within text.length := by
  have hend := (places_program (fuelFor (Lexer.read text).tokens) file strict _
    (placed_start text names)).1
  intro d hd
  obtain ⟨d', hd', rfl⟩ := List.mem_map.1 (List.mem_mergeSort.1 hd)
  have hwithin : d'.Within text.length := by
    rcases List.mem_append.1 hd' with hd' | hd'
    · have hlexer := Lexer.within_problems_readFrom text.length 0 text.toList d' hd'
      rwa [Nat.zero_add, String.length_toList] at hlexer
    · exact hend.problems d' (List.mem_reverse.1 hd')
  unfold Diagnostic.attributeTo
  split
  · exact hwithin
  · exact hwithin

/-- As many statements that are nothing but `this` have as many nodes. -/
theorem length_nodes_of_this {names : Interner} {n : Nat} {ss : List Stmt}
    (h : Stmt.sources names ss = List.replicate n (.expr .this)) :
    (Stmt.allNodes ss).length = n := by
  induction ss generalizing n with
  | nil => exact (List.length_replicate ▸ congrArg List.length h :)
  | cons s ss ih =>
    cases n with
    | zero => cases h
    | succ n =>
      obtain ⟨hs, hss⟩ := List.cons_eq_cons.1 h
      have hnodes : s.nodes.length = 1 := by
        cases s with
        | expr e =>
          cases e with
          | this i => rfl
          | _ => cases Source.Stmt.expr.inj hs
        | «return» argument at_ => cases argument <;> cases hs
        | «if» test consequent alternate => cases alternate <;> cases hs
        | _ => cases hs
      rw [Stmt.allNodes, List.length_append, hnodes, ih hss, Nat.add_comm]

theorem exists_nodes (n : Nat) : ∃ text : String,
    (parse "" text false .wellKnown).program.nodes.length = n + 1 := by
  have hbody : Source.Stmt.AllGrammatical false false (List.replicate n (.expr .this)) ∧
      Source.Stmt.listNesting false (List.replicate n (.expr .this)) ≤ maxDepth := by
    induction n with
    | zero => exact ⟨trivial, Nat.zero_le _⟩
    | succ n ih => exact ⟨⟨trivial, ih.1⟩, Nat.max_le.2 ⟨by decide, ih.2⟩⟩
  have hp : Source.Program.Grammatical false ⟨List.replicate n (.expr .this), false⟩ :=
    ⟨nofun, nofun, hbody.1⟩
  obtain ⟨-, hsource⟩ :=
    (parse_text (σ := .standard) (Interner.laws.le_refl .wellKnown) hp "").1 hbody.2
  exact ⟨_, congrArg Nat.succ (length_nodes_of_this (congrArg Source.Program.body hsource))⟩

/-- With more nodes than stored numbers, two of them come to have the same. -/
theorem node_numbers_clash_beyond_positions : ∃ text : String,
    ¬ ((parse "" text false .wellKnown).program.nodes.map NodeId.stored).Nodup := by
  obtain ⟨text, hlength⟩ := exists_nodes UInt32.size
  refine ⟨text, fun hnodup => ?_⟩
  have hcard := (hnodup.map fun _ _ h => UInt32.toFin_inj.1 h).length_le_card
  rw [List.length_map, List.length_map, hlength, Fintype.card_fin] at hcard
  exact Nat.not_succ_le_self _ hcard

end Parser

namespace Lexer

theorem gap_replicate (lb : Bool) (pos n : Nat) (cs : List Char) :
    gap .outside lb pos (List.replicate n ' ' ++ cs) = gap .outside lb (pos + n) cs := by
  induction n generalizing pos with
  | zero => rfl
  | succ n ih =>
    rw [List.replicate_succ, List.cons_append, gap, if_neg (by decide), if_pos (by decide), ih,
      Nat.add_right_comm, Nat.add_assoc]
    · rintro cs ⟨⟩
    · rintro cs ⟨⟩

/-- A character no token starts with is reported behind any number of blanks. -/
theorem reports_behind_blanks (n : Nat) : ∃ text : String, text.length = n + 1 ∧
    Diagnostic.located "" ⟨n, n + 1⟩ .invalidCharacter [] ∈ (read text).problems := by
  have hgap : gap .outside false 0 (List.replicate n ' ' ++ ['@']) = ⟨n, ['@'], false, none⟩ := by
    rw [gap_replicate, Nat.zero_add]
    rfl
  have hlexeme : lexeme ['@'] = ⟨.unknown, 1, [], some .invalidCharacter⟩ := by decide +kernel
  have hstep : step ⟨0, List.replicate n ' ' ++ ['@']⟩ =
      ⟨⟨.unknown, ⟨n, n + 1⟩, false⟩, ⟨n + 1, []⟩,
        [Diagnostic.located "" ⟨n, n + 1⟩ .invalidCharacter []]⟩ := by
    rw [step, hgap, hlexeme]
    rfl
  have hlength : (String.ofList (List.replicate n ' ' ++ ['@'])).length = n + 1 := by
    rw [String.length_ofList, List.length_append, List.length_replicate, List.length_singleton]
  refine ⟨_, hlength, ?_⟩
  rw [read, hlength, String.toList_ofList, readFrom, hstep]
  exact List.mem_append_left _ List.mem_cons_self

/-- Behind the last position a bound is cut off, and comes to lie before the other. -/
theorem spans_are_cut_beyond_positions : ∃ text : String, text.length = UInt32.size ∧
    ∃ d ∈ (Parser.parse "" text false .wellKnown).diagnostics, ∃ s, d.span = some s ∧
      UInt32.ofNat s.stop < UInt32.ofNat s.start := by
  obtain ⟨text, hlength, hproblem⟩ := reports_behind_blanks (UInt32.size - 1)
  refine ⟨text, hlength, .located "" ⟨UInt32.size - 1, UInt32.size⟩ .invalidCharacter [],
    ?_, ⟨UInt32.size - 1, UInt32.size⟩, rfl, by decide⟩
  exact List.mem_mergeSort.2 (List.mem_map.2 ⟨_, List.mem_append_left _ hproblem, rfl⟩)

end Lexer

end ScopeChain
