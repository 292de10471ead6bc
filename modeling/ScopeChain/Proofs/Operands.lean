import ScopeChain.Proofs.Recovery

/-! Expressions that are written out are read back. An operand is read together with whatever comes
behind it, since only the token there tells that it is complete. -/
namespace ScopeChain.Parser

open Token (Kind)

/-- Whether an operand of a call may begin with a token. -/
def opensPrimary : Kind → Bool
  | .number _ | .string _ | .identifier _ => true
  | .keyword .trueKw | .keyword .falseKw | .keyword .nullKw | .keyword .thisKw
  | .keyword .functionKw | .punctuator .openParen => true
  | _ => false

/-- Whether an expression may begin with a token. -/
def opensExpr : Kind → Bool
  | .keyword .typeofKw | .keyword .deleteKw
  | .punctuator .bang | .punctuator .minus | .punctuator .plus => true
  | k => opensPrimary k

/-- A token behind which no operator continues that binds at least as tightly as `least`. -/
structure Stops (least : Nat) (k : Kind) : Prop where
  call : k ≠ .punctuator .openParen
  operator : ∀ op m, binaryOp? k = some (op, m) → m < least

/-- A token that is no part of the expression before it. -/
structure EndsExpr (k : Kind) : Prop where
  stops : Stops 0 k
  assign : k ≠ .punctuator .assign

theorem Stops.mono {m n : Nat} {k : Kind} (h : Stops m k) (hmn : m ≤ n) : Stops n k :=
  ⟨h.call, fun op l hop => Nat.lt_of_lt_of_le (h.operator op l hop) hmn⟩

theorem stops_assign : Stops 0 (.punctuator .assign) := ⟨nofun, nofun⟩

theorem endsExpr_closeParen : EndsExpr (.punctuator .closeParen) := ⟨⟨nofun, nofun⟩, nofun⟩

theorem endsExpr_comma : EndsExpr (.punctuator .comma) := ⟨⟨nofun, nofun⟩, nofun⟩

theorem endsExpr_semicolon : EndsExpr (.punctuator .semicolon) := ⟨⟨nofun, nofun⟩, nofun⟩

theorem binaryOp?_punctuator (op : BinaryOp) :
    binaryOp? (.punctuator op.punctuator) = some (op, op.strength) := by cases op <;> rfl

theorem stops_punctuator {op : BinaryOp} {n : Nat} (h : op.strength < n) :
    Stops n (.punctuator op.punctuator) where
  call := by cases op <;> nofun
  operator op' m hop := by
    rw [binaryOp?_punctuator] at hop
    cases hop
    exact h

theorem strength_pos (op : BinaryOp) : 1 ≤ op.strength := by cases op <;> decide

theorem strength_lt (op : BinaryOp) : op.strength < 7 := by cases op <;> decide

theorem parens_append (ks ls : List Kind) : Source.parens ks ++ ls =
    .punctuator .openParen :: (ks ++ .punctuator .closeParen :: ls) := by simp [Source.parens]

section Expressions

variable {t : Interner} {strict : Bool} {ks : List Kind} {n level : Nat} {e : Source.Expr}

/-- Some tokens are read as an operand of a call, whatever is read behind them. -/
structure ReadsCallee (t : Interner) (strict : Bool) (ks : List Kind) (n : Nat) (e : Source.Expr) :
    Prop where
  opens : ∃ k ls, ks = k :: ls ∧ opensPrimary k = true
  reads : ∀ {inside : Bool} {fuel : Nat} {φ : Prop} {n' : Nat} {ks' : List Kind} {G : Kind → Prop}
    {Q : Expr → Prop} {start : Nat},
    (∀ fuel' a, Recovers t inside fuel' 16 (a.source t = e ∧ φ) n' ks' G
      (callRest fuel' strict start a) Q) →
    Recovers t inside fuel 1 φ (max n n') (ks ++ ks') G
      (primary fuel strict >>= fun a => callRest fuel strict start a) Q

/-- Some tokens are read as an operand of a unary operator. -/
structure ReadsUnary (t : Interner) (strict : Bool) (ks : List Kind) (n : Nat) (e : Source.Expr) :
    Prop where
  opens : ∃ k ls, ks = k :: ls ∧ opensExpr k = true
  reads : ∀ {inside : Bool} {fuel : Nat} {φ : Prop}, Recovers t inside fuel 2 φ n ks
    (· ≠ .punctuator .openParen) (unary fuel strict) fun a => a.source t = e

/-- Some tokens are read as an operand of any binary operator that is not tighter than `level`,
whatever is read behind them. -/
structure ReadsOperand (t : Interner) (strict : Bool) (level : Nat) (ks : List Kind) (n : Nat)
    (e : Source.Expr) : Prop where
  opens : ∃ k ls, ks = k :: ls ∧ opensExpr k = true
  reads : ∀ {inside : Bool} {fuel : Nat} {φ : Prop} {n' : Nat} {ks' : List Kind} {G : Kind → Prop}
    {Q : Expr → Prop} {least : Nat}, least ≤ level → (∀ k, G k → Stops (level + 1) (ks'.headD k)) →
    (∀ fuel' a, Recovers t inside fuel' 16 (a.source t = e ∧ φ) n' ks' G
      (binaryRest fuel' strict least a) Q) →
    Recovers t inside fuel 2 φ (max n n') (ks ++ ks') G
      (unary fuel strict >>= fun a => binaryRest fuel strict least a) Q

/-- Some tokens are read as an expression. -/
structure ReadsWhole (t : Interner) (strict : Bool) (ks : List Kind) (n : Nat) (e : Source.Expr) :
    Prop where
  opens : ∃ k ls, ks = k :: ls ∧ opensExpr k = true
  reads : ∀ {inside : Bool} {fuel : Nat} {φ : Prop}, Recovers t inside fuel 4 φ n ks EndsExpr
    (expression fuel strict) fun a => a.source t = e

theorem opensExpr_of_opensPrimary {k : Kind} (h : opensPrimary k = true) : opensExpr k = true := by
  unfold opensExpr
  split <;> first | rfl | exact h

theorem unaryOp?_eq_none {k : Kind} (h : opensPrimary k = true) : unaryOp? k = none := by
  unfold unaryOp?
  split <;> first | rfl | cases h

theorem ne_nil_of_opens {p : Kind → Bool} (h : ∃ k ls, ks = k :: ls ∧ p k = true) : ks ≠ [] := by
  obtain ⟨k, ls, rfl, -⟩ := h
  exact List.cons_ne_nil _ _

section Rest

variable {inside : Bool} {fuel start least : Nat} {φ : Prop} {Q : Expr → Prop} {a : Expr}

theorem recovers_callRest_stop (h : φ → Q a) : Recovers t inside fuel 16 φ 0 []
    (· ≠ .punctuator .openParen) (callRest fuel strict start a) Q :=
  recovers_reader (fun fuel => (allGoOn fuel).callRest strict start a) fun fuel =>
    Recovers.rereads (recovers_accept_other_bind (by
      have := (allGoOn fuel).arguments
      have := (allGoOn fuel).callRest
      grind) (fun _ h => h) (recovers_pure h))

theorem recovers_binaryRest_stop (h : φ → Q a) : Recovers t inside fuel 16 φ 0 [] (Stops least)
    (binaryRest fuel strict least a) Q := by
  refine recovers_reader (fun fuel => (allGoOn fuel).binaryRest strict least a) fun fuel =>
    Rereads.kind_bind_next fun k hk => ?_
  split
  · next op m hop =>
    rw [if_pos (hk.operator op m hop)]
    exact (recovers_pure h).rereads
  · exact (recovers_pure h).rereads

end Rest

theorem ReadsCallee.of_primary {k : Kind} (hk : opensPrimary k = true)
    (h : ∀ {inside : Bool} {fuel : Nat} {φ : Prop}, Rereads t inside fuel 0 φ n (k :: ks)
      (fun _ => True) (primary (fuel + 1) strict) fun a => a.source t = e) :
    ReadsCallee t strict (k :: ks) n e where
  opens := ⟨k, ks, rfl, hk⟩
  reads hrest := (recovers_reader (fun fuel => (allGoOn fuel).primary strict) fun _ => h).bind
    (List.cons_ne_nil _ _) (fun _ _ => trivial) fun a => (hrest _ a).more (by decide) id

theorem ReadsCallee.unary (h : ReadsCallee t strict ks n e) : ReadsUnary t strict ks (1 + n) e where
  opens := by
    obtain ⟨k, ls, hks, hk⟩ := h.opens
    exact ⟨k, ls, hks, opensExpr_of_opensPrimary hk⟩
  reads := by
    intro inside fuel φ
    obtain ⟨k, ls, hks, hk⟩ := h.opens
    refine recovers_reader (fun fuel => (allGoOn fuel).unary strict) fun fuel => ?_
    rw [Parser.unary]
    refine Rereads.nested (Rereads.span_bind fun at_ => ?_)
    have hcall : Recovers t inside fuel 1 φ n ks (· ≠ .punctuator .openParen)
        (primary fuel strict >>= fun a => callRest fuel strict at_.start a) fun a => a.source t = e :=
      (h.reads fun _ _ => recovers_callRest_stop And.left).of_eq (Nat.max_zero n).symm
        (List.append_nil ks).symm
    subst hks
    refine Rereads.kind_bind ?_
    split
    · cases hk
    · cases hk
    · split
      · next op hop =>
        rw [unaryOp?_eq_none hk] at hop
        cases hop
      · exact hcall.rereads

theorem ReadsUnary.operand (h : ReadsUnary t strict ks n e) (level : Nat) :
    ReadsOperand t strict level ks n e where
  opens := h.opens
  reads _ hG hrest := h.reads.bind (ne_nil_of_opens h.opens) (fun k hk => (hG k hk).call) fun a =>
    (hrest _ a).more (by decide) id

theorem ReadsOperand.binary {inside : Bool} {fuel least : Nat} {φ : Prop}
    (h : ReadsOperand t strict level ks n e) (hleast : least ≤ level) :
    Recovers t inside fuel 3 φ n ks (Stops least) (binary fuel strict least)
      fun a => a.source t = e :=
  recovers_reader (fun fuel => (allGoOn fuel).binary strict least) fun _ =>
    ((h.reads hleast (fun _ hk => hk.mono (by omega)) fun _ _ => recovers_binaryRest_stop And.left).of_eq
      (Nat.max_zero n).symm (List.append_nil ks).symm).rereads

theorem ReadsOperand.whole (h : ReadsOperand t strict level ks n e) :
    ReadsWhole t strict ks (1 + n) e where
  opens := h.opens
  reads := by
    intro inside fuel φ
    refine recovers_reader (fun fuel => (allGoOn fuel).expression strict) fun fuel => ?_
    rw [Parser.expression]
    refine Rereads.nested (Rereads.span_bind fun at_ => Recovers.rereads ?_)
    refine Recovers.of_eq ?_ (Nat.max_zero n).symm (List.append_nil ks).symm
    refine (h.binary (Nat.zero_le _)).bind (ne_nil_of_opens h.opens) (fun k hk => hk.stops)
      fun left => ?_
    have := (allGoOn fuel).expression
    exact recovers_accept_other_bind (by grind [Message.assignmentTarget])
      (fun k hk => EndsExpr.assign hk) (recovers_pure And.left)

/-- Parentheses make an operand of a call of any expression. -/
theorem ReadsWhole.parens (h : ReadsWhole t strict ks n e) :
    ReadsCallee t strict (Source.parens ks) n e := by
  refine .of_primary rfl ?_
  intro inside fuel φ
  rw [Parser.primary]
  refine Rereads.span_bind fun at_ => Rereads.kind_bind (Recovers.rereads ?_)
  refine recovers_advance_bind (Recovers.of_eq ?_ (Nat.max_zero n).symm rfl)
  refine (h.reads.more (by omega) id).bind (ne_nil_of_opens h.opens)
    (fun _ _ => endsExpr_closeParen) fun a => ?_
  exact recovers_expect_bind (goesOn_pure _) (recovers_pure And.left)

theorem level_le (e : Source.Expr) : e.level ≤ 8 := by
  unfold Source.Expr.level
  split
  · exact Nat.zero_le _
  · exact Nat.le_of_lt (Nat.lt_succ_of_lt (strength_lt _))
  all_goals decide

theorem ReadsOperand.mono {m : Nat} (h : ReadsOperand t strict level ks n e) (hm : m ≤ level) :
    ReadsOperand t strict m ks n e :=
  ⟨h.opens, fun hleast hG hrest => h.reads (Nat.le_trans hleast hm)
    (fun k hk => (hG k hk).mono (Nat.succ_le_succ hm)) hrest⟩

/-- The tokens of an expression are read as this expression wherever it may stand. -/
structure Reread (t : Interner) (σ : Source.Spelling) (strict : Bool) (e : Source.Expr) : Prop where
  callee : e.level = 8 → ReadsCallee t strict (e.tokens σ) e.nesting e
  unary : 7 ≤ e.level → ReadsUnary t strict (e.tokens σ) (1 + e.nesting) e
  operand : 1 ≤ e.level → ReadsOperand t strict e.level (e.tokens σ)
    (if 7 ≤ e.level then 1 + e.nesting else e.nesting) e
  whole : ReadsWhole t strict (e.tokens σ) (Source.wholeNesting e.level e.nesting) e

namespace Reread

variable {σ : Source.Spelling}

theorem of_operand (h : 1 ≤ e.level) (hlevel : e.level < 7)
    (he : ReadsOperand t strict e.level (e.tokens σ) e.nesting e) : Reread t σ strict e where
  callee h8 := by omega
  unary h7 := by omega
  operand _ := by
    rw [if_neg (Nat.not_le.2 hlevel)]
    exact he
  whole := by
    rw [Source.wholeNesting, if_neg (Nat.not_le.2 hlevel)]
    exact he.whole

theorem of_unary (hlevel : e.level = 7)
    (he : ReadsUnary t strict (e.tokens σ) (1 + e.nesting) e) : Reread t σ strict e where
  callee h8 := by omega
  unary _ := he
  operand _ := by
    rw [if_pos (Nat.le_of_eq hlevel.symm)]
    exact he.operand _
  whole := by
    rw [Source.wholeNesting, if_pos (Nat.le_of_eq hlevel.symm)]
    exact (he.operand 0).whole

theorem of_callee (hlevel : e.level = 8)
    (he : ReadsCallee t strict (e.tokens σ) e.nesting e) : Reread t σ strict e where
  callee _ := he
  unary _ := he.unary
  operand _ := by
    rw [if_pos (by omega)]
    exact he.unary.operand _
  whole := by
    rw [Source.wholeNesting, if_pos (by omega)]
    exact (he.unary.operand 0).whole

theorem callee_operand (h : Reread t σ strict e) :
    ReadsCallee t strict (Source.operand 8 e.level (e.tokens σ))
      (Source.calleeNesting e.level e.nesting) e := by
  have := level_le e
  unfold Source.operand Source.calleeNesting
  split
  · exact h.whole.parens
  · exact h.callee (by omega)

theorem unary_operand (h : Reread t σ strict e) :
    ReadsUnary t strict (Source.operand 7 e.level (e.tokens σ))
      (Source.operandNesting 7 e.level e.nesting) e := by
  unfold Source.operand Source.operandNesting
  split
  · exact h.whole.parens.unary
  · rw [if_pos (by omega)]
    exact h.unary (by omega)

theorem binary_operand (h : Reread t σ strict e) {m : Nat} (hm : 1 ≤ m) :
    ReadsOperand t strict m (Source.operand m e.level (e.tokens σ))
      (Source.operandNesting m e.level e.nesting) e := by
  unfold Source.operand Source.operandNesting
  split
  · exact h.whole.parens.unary.operand m
  · exact (h.operand (by omega)).mono (by omega)

end Reread

variable {σ : Source.Spelling} {l r : Source.Expr} {args : List Source.Expr}

theorem reread_number {x : Float} (hx : Source.Denoted x) : Reread t σ strict (.number x) := by
  refine Reread.of_callee rfl (.of_primary rfl ?_)
  intro inside fuel φ
  rw [Parser.primary]
  refine Rereads.span_bind fun at_ => Rereads.kind_bind (Recovers.rereads ?_)
  refine recovers_advance_bind (recovers_pure fun _ => ?_)
  rw [Expr.source, σ.ofLiteral_number x hx]

theorem reread_string (s : String) : Reread t σ strict (.string s) := by
  refine Reread.of_callee rfl (.of_primary rfl ?_)
  intro inside fuel φ
  rw [Parser.primary]
  refine Rereads.span_bind fun at_ => Rereads.kind_bind (Recovers.rereads ?_)
  exact recovers_advance_bind (recovers_pure fun _ => rfl)

theorem reread_bool (b : Bool) : Reread t σ strict (.bool b) := by
  refine Reread.of_callee rfl (.of_primary (by cases b <;> rfl) ?_)
  intro inside fuel φ
  rw [Parser.primary]
  refine Rereads.span_bind fun at_ => Rereads.kind_bind (Recovers.rereads ?_)
  cases b
  · exact recovers_advance_bind (recovers_pure fun _ => rfl)
  · exact recovers_advance_bind (recovers_pure fun _ => rfl)

theorem reread_null : Reread t σ strict .null := by
  refine Reread.of_callee rfl (.of_primary rfl ?_)
  intro inside fuel φ
  rw [Parser.primary]
  refine Rereads.span_bind fun at_ => Rereads.kind_bind (Recovers.rereads ?_)
  exact recovers_advance_bind (recovers_pure fun _ => rfl)

theorem reread_this : Reread t σ strict .this := by
  refine Reread.of_callee rfl (.of_primary rfl ?_)
  intro inside fuel φ
  rw [Parser.primary]
  refine Rereads.span_bind fun at_ => Rereads.kind_bind (Recovers.rereads ?_)
  exact recovers_advance_bind (recovers_freshId_bind fun id => recovers_pure fun _ => rfl)

theorem reread_identifier (w : String) : Reread t σ strict (.identifier w) := by
  refine Reread.of_callee rfl (.of_primary rfl ?_)
  intro inside fuel φ
  rw [Parser.primary]
  refine Rereads.span_bind fun at_ => Rereads.kind_bind (Recovers.rereads ?_)
  exact recovers_identifier_bind fun i => recovers_pure fun h => congrArg _ h.1

theorem recovers_arguments (hargs : ∀ e ∈ args, Reread t σ strict e) (hne : args ≠ [])
    {inside : Bool} {fuel : Nat} {φ : Prop} :
    Recovers t inside fuel 5 φ (Source.Expr.listNesting args) (Source.Expr.listTokens σ args)
      (· = .punctuator .closeParen) (arguments fuel strict) fun as => Expr.sources t as = args := by
  induction args generalizing fuel φ with
  | nil => exact (hne rfl).elim
  | cons e es ih =>
    have he := (hargs e List.mem_cons_self).whole
    refine recovers_reader (fun fuel => (allGoOn fuel).arguments strict) fun fuel =>
      Recovers.rereads ?_
    have hgo := (allGoOn fuel).arguments strict
    cases es with
    | nil =>
      refine Recovers.of_eq ?_ rfl (List.append_nil _).symm
      refine he.reads.bind (ne_nil_of_opens he.opens) ?_ fun a =>
        recovers_accept_other_bind (by grind) ?_ (recovers_pure fun h => ?_)
      · rintro _ rfl
        exact endsExpr_closeParen
      · rintro _ rfl
        nofun
      · rw [Expr.sources, h.1, Expr.sources]
    | cons e' es =>
      refine he.reads.bind (ne_nil_of_opens he.opens) (fun _ _ => endsExpr_comma)
        fun a => recovers_accept_bind (goesOn_pure _) ?_
      refine Recovers.last (Recovers.more (ih (fun e he => hargs e (List.mem_cons_of_mem _ he))
        (List.cons_ne_nil _ _)) (by decide) id) fun h as has => ?_
      rw [Expr.sources, h.1, has]

theorem opens_listTokens {es : List Source.Expr} (he : Reread t σ strict e) :
    ∃ k ls, Source.Expr.listTokens σ (e :: es) = k :: ls ∧ opensExpr k = true := by
  obtain ⟨k, ls, hks, hk⟩ := he.whole.opens
  cases es with
  | nil => exact ⟨k, ls, hks, hk⟩
  | cons e' es => exact ⟨k, _, by rw [Source.Expr.listTokens, hks, List.cons_append], hk⟩

/-- The list of arguments behind a callee, and what is read behind it. -/
theorem reread_call (hl : Reread t σ strict l) (hargs : ∀ e ∈ args, Reread t σ strict e) :
    Reread t σ strict (.call l args) := by
  have hcallee := hl.callee_operand
  refine Reread.of_callee rfl ⟨?_, ?_⟩
  · obtain ⟨k, ls, hks, hk⟩ := hcallee.opens
    exact ⟨k, _, by rw [Source.Expr.tokens, hks, List.cons_append], hk⟩
  intro inside fuel φ n' ks' G Q start hrest
  rw [Source.Expr.nesting, Nat.max_assoc, Source.Expr.tokens, List.append_assoc, parens_append]
  refine hcallee.reads fun fuel a => ?_
  refine recovers_reader (fun fuel => (allGoOn fuel).callRest strict start a) fun fuel =>
    Recovers.rereads ?_
  have hgoArguments := (allGoOn fuel).arguments strict
  have hgoRest := (allGoOn fuel).callRest strict start
  have hdone (as : List Expr) (stop : Nat) : Recovers t inside fuel (15 + 16 + 16)
      (Expr.sources t as = args ∧ a.source t = l ∧ φ) n' ks' G
      (callRest fuel strict start (.call a as ⟨start, stop⟩)) Q :=
    (hrest fuel _).more (by decide) fun h => ⟨by rw [Expr.source, h.1, h.2.1], h.2.2⟩
  refine recovers_accept_bind (by grind) ?_
  cases args with
  | nil =>
    refine Recovers.of_eq (Recovers.kind_bind (by grind) ?_) (Nat.zero_max n') rfl
    refine Recovers.pure_bind (Recovers.span_bind fun at_ => recovers_expect_bind (hgoRest _) ?_)
    exact (hdone [] _).more (Nat.le_refl _) fun h => ⟨rfl, h⟩
  | cons e es =>
    obtain ⟨k, ls, hks, hk⟩ :
        ∃ k ls, Source.Expr.listTokens σ (e :: es) = k :: ls ∧ opensExpr k = true :=
      opens_listTokens (hargs e List.mem_cons_self)
    have hread {φ : Prop} : Recovers t inside fuel (15 + 16) φ _ _ _ (arguments fuel strict) _ :=
      (recovers_arguments hargs (List.cons_ne_nil _ _)).more (by decide) id
    rw [hks, List.cons_append]
    refine Recovers.kind_bind (by grind) ?_
    rw [if_neg (by rintro rfl; cases hk), ← List.cons_append, ← hks]
    refine hread.bind (by rw [hks]; exact List.cons_ne_nil _ _) (fun _ _ => rfl) fun as => ?_
    exact Recovers.span_bind fun at_ =>
      recovers_expect_bind (hgoRest _) ((hdone as _).more (by decide) id)

theorem reread_unary (op : UnaryOp) (h : Reread t σ strict e) : Reread t σ strict (.unary op e) := by
  have ho := h.unary_operand
  refine Reread.of_unary rfl ⟨⟨_, _, rfl, by cases op <;> rfl⟩, ?_⟩
  intro inside fuel φ
  refine recovers_reader (fun fuel => (allGoOn fuel).unary strict) fun fuel => ?_
  rw [Parser.unary]
  refine Rereads.nested (Rereads.span_bind fun at_ => Rereads.kind_bind (Recovers.rereads ?_))
  have hread {φ : Prop} : Recovers t inside fuel (1 + 16) φ _ _ _ (unary fuel strict) _ :=
    ho.reads.more (by decide) id
  cases op
  all_goals exact recovers_advance_bind (hread.last fun _ a h => congrArg _ h)

theorem reread_typeof (h : Reread t σ strict e) : Reread t σ strict (.typeof e) := by
  have ho := h.unary_operand
  refine Reread.of_unary rfl ⟨⟨_, _, rfl, rfl⟩, ?_⟩
  intro inside fuel φ
  refine recovers_reader (fun fuel => (allGoOn fuel).unary strict) fun fuel => ?_
  rw [Parser.unary]
  refine Rereads.nested (Rereads.span_bind fun at_ => Rereads.kind_bind (Recovers.rereads ?_))
  have hread {φ : Prop} : Recovers t inside fuel (1 + 16) φ _ _ _ (unary fuel strict) _ :=
    ho.reads.more (by decide) id
  exact recovers_advance_bind (hread.last fun _ a h => congrArg _ h)

theorem reread_delete (h : Reread t σ strict e) (hname : strict = true → e.isIdentifier = false) :
    Reread t σ strict (.delete e) := by
  have ho := h.unary_operand
  refine Reread.of_unary rfl ⟨⟨_, _, rfl, rfl⟩, ?_⟩
  intro inside fuel φ
  refine recovers_reader (fun fuel => (allGoOn fuel).unary strict) fun fuel => ?_
  rw [Parser.unary]
  refine Rereads.nested (Rereads.span_bind fun at_ => Rereads.kind_bind (Recovers.rereads ?_))
  have hread {φ : Prop} : Recovers t inside fuel (1 + 16) φ _ _ _ (unary fuel strict) _ :=
    ho.reads.more (by decide) id
  refine recovers_advance_bind (Recovers.of_eq ?_ (Nat.max_zero _).symm (List.append_nil _).symm)
  refine hread.bind (ne_nil_of_opens ho.opens) (fun _ h => h) fun a => ?_
  refine .assume (by grind [Message.strictDelete]) fun ha => ?_
  have hdelete : (strict && a.identifier?.isSome) = false := by
    rw [← isIdentifier_source, ha.1]
    cases hs : strict with
    | false => rfl
    | true => exact hname hs
  rw [hdelete]
  exact (recovers_spanFrom at_.start).silent fun _ => recovers_pure fun _ => congrArg _ ha.1

theorem identifier?_of_source {a : Expr} {w : String} (h : a.source t = .identifier w) :
    ∃ i, a.identifier? = some i ∧ t.text i.name = w := by
  cases a with
  | identifier i => exact ⟨i, rfl, Source.Expr.identifier.inj h⟩
  | _ => cases h

theorem reread_assign (ht : .wellKnown ≤ t) {w : String} (hw : Source.Bindable strict w)
    (h : Reread t σ strict e) : Reread t σ strict (.assign w e) := by
  have hname : ReadsUnary t strict [.identifier w] 1 (.identifier w) :=
    (reread_identifier w : Reread t σ strict _).unary (Nat.le_succ 7)
  refine ⟨nofun, nofun, nofun, ⟨⟨_, _, rfl, rfl⟩, ?_⟩⟩
  intro inside fuel φ
  refine recovers_reader (fun fuel => (allGoOn fuel).expression strict) fun fuel => ?_
  rw [Parser.expression]
  refine Rereads.nested (Rereads.span_bind fun at_ => Recovers.rereads ?_)
  refine ((hname.operand 0).binary (Nat.le_refl _)).bind (List.cons_ne_nil _ _)
    (fun _ _ => stops_assign) fun left => ?_
  have := (allGoOn fuel).expression
  refine recovers_accept_bind (by grind)
    (Recovers.of_eq ?_ (Nat.max_zero _).symm (List.append_nil _).symm)
  refine (h.whole.reads.more (by decide) id).bind (ne_nil_of_opens h.whole.opens) (fun _ h => h)
    fun value => ?_
  refine .assume (by split <;> grind [Message.assignmentTarget]) fun hread => ?_
  obtain ⟨i, hi, hname⟩ := identifier?_of_source hread.2.1
  rw [hi]
  exact recovers_checkBinding_bind ht (fun _ => hname ▸ hw) (recovers_pure fun _ => by
    rw [Expr.source, hname, hread.1])

theorem reread_binary (op : BinaryOp) (hl : Reread t σ strict l) (hr : Reread t σ strict r) :
    Reread t σ strict (.binary op l r) := by
  have hleft := hl.binary_operand (strength_pos op)
  have hright := hr.binary_operand (Nat.le_add_left 1 op.strength)
  have hlevel : (Source.Expr.binary op l r).level = op.strength := rfl
  refine Reread.of_operand (hlevel ▸ strength_pos op) (hlevel ▸ strength_lt op) ⟨?_, ?_⟩
  · obtain ⟨k, ls, hks, hk⟩ := hleft.opens
    exact ⟨k, _, by rw [Source.Expr.tokens, hks, List.cons_append], hk⟩
  intro inside fuel φ n' ks' G Q least hleast hG hrest
  rw [hlevel] at hleast hG
  rw [Source.Expr.nesting, Nat.max_assoc, Source.Expr.tokens, List.append_assoc, List.cons_append]
  refine hleft.reads hleast (fun _ _ => stops_punctuator (Nat.lt_succ_self _)) fun fuel a => ?_
  refine recovers_reader (fun fuel => (allGoOn fuel).binaryRest strict least a) fun fuel =>
    Rereads.kind_bind (Recovers.rereads ?_)
  rw [binaryOp?_punctuator]
  dsimp only
  rw [if_neg (Nat.not_lt.2 hleast)]
  have hread {φ : Prop} : Recovers t inside fuel (15 + 16) φ _ _ _ (binary fuel strict _) _ :=
    (hright.binary (Nat.le_refl _)).more (by decide) id
  refine recovers_advance_bind (hread.bind (ne_nil_of_opens hright.opens) hG fun b => ?_)
  refine (hrest fuel (.binary op a b)).more (by omega) fun h => ⟨?_, h.2.2⟩
  rw [Expr.source, h.1, h.2.1]

/-- The tokens of a function behind its keyword are read as this function. -/
def ReadsFunction (t : Interner) (σ : Source.Spelling) (strict : Bool) (f : Source.Function) :
    Prop :=
  ∀ {inside : Bool} {fuel : Nat} {φ : Prop} {declaration : Bool},
    (declaration = true → f.self.isSome = true) →
    Recovers t inside fuel 1 φ f.nesting (f.tokens σ) (fun _ => True)
      (functionRest fuel strict declaration) fun d => d.source t = f

theorem reread_function {f : Source.Function} (h : ReadsFunction t σ strict f) :
    Reread t σ strict (.function f) := by
  refine Reread.of_callee rfl (.of_primary rfl ?_)
  intro inside fuel φ
  rw [Parser.primary]
  refine Rereads.span_bind fun at_ => Rereads.kind_bind (Recovers.rereads ?_)
  refine recovers_advance_bind (Recovers.last (Recovers.more (h ?_) (by decide) id) fun _ d hd => ?_)
  · exact Bool.noConfusion
  · exact congrArg Source.Expr.function hd

theorem head?_operand_append {least m : Nat} {k : Kind} {ks ls : List Kind}
    (hk : k ≠ .punctuator .openParen) (hks : least ≤ m → ks.head? ≠ some k)
    (hls : ls.head? ≠ some k) : (Source.operand least m ks ++ ls).head? ≠ some k := by
  unfold Source.operand
  split
  · exact fun h => hk (Option.some.inj h).symm
  · next hm =>
    rw [List.head?_append]
    cases hhead : ks.head? with
    | none => exact hls
    | some k' =>
      rw [Option.some_or, ← hhead]
      exact hks (Nat.not_lt.1 hm)

theorem head?_tokens_ne_function : (e : Source.Expr) → e.opensFunction = false →
    (e.tokens σ).head? ≠ some (.keyword .functionKw)
  | .binary op l r, h => by
    refine head?_operand_append nofun (fun hlevel => head?_tokens_ne_function l ?_) nofun
    rwa [Source.Expr.opensFunction, decide_eq_true hlevel, Bool.true_and] at h
  | .call f args, h => by
    have := level_le f
    refine head?_operand_append nofun (fun hlevel => head?_tokens_ne_function f ?_) nofun
    rwa [Source.Expr.opensFunction, decide_eq_true (by omega), Bool.true_and] at h
  | .bool b, _ => by cases b <;> nofun
  | .number _, _ | .string _, _ | .null, _ | .this, _ | .identifier _, _
  | .assign .., _ | .unary .., _ | .typeof _, _ | .delete _, _ => nofun
  | .function _, h => nomatch h

end Expressions

end ScopeChain.Parser
