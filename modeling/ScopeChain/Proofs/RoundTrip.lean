import ScopeChain.Proofs.Operands

/-! Programs that are written out are read back. -/
namespace ScopeChain.Parser

open Token (Kind)

/-- Whether a statement may begin with a token. -/
def opensStmt : Kind → Bool
  | .keyword .elseKw | .keyword .finallyKw | .punctuator .closeBrace | .endOfFile => false
  | _ => true

/-- A token that is no part of a statement before it, which may be one that an alternate could
belong to. -/
structure Follows (isOpen : Bool) (k : Kind) : Prop where
  notElse : isOpen = true → k ≠ .keyword .elseKw
  notFinally : k ≠ .keyword .finallyKw

/-- The tokens of a statement are read as this statement. -/
structure ReadsStmt (t : Interner) (σ : Source.Spelling) (strict inside : Bool) (s : Source.Stmt) :
    Prop where
  opens : ∃ k ls, s.tokens σ strict = k :: ls ∧ opensStmt k = true
  reads : ∀ {fuel : Nat} {φ : Prop}, Recovers t inside fuel 5 φ (s.nesting strict)
    (s.tokens σ strict) (Follows s.endsOpen) (statement fuel strict) fun a => a.source t = s

section Statements

variable {t : Interner} {σ : Source.Spelling} {strict inside : Bool}

theorem opensStmt_of_opensExpr {k : Kind} (h : opensExpr k = true) : opensStmt k = true := by
  unfold opensStmt
  split <;> first | rfl | cases h

section Expressions

variable {ks : List Kind} {n fuel : Nat} {φ : Prop} {e : Source.Expr}

theorem recovers_statement_expr (h : ReadsWhole t strict ks n e)
    (hks : ks.head? ≠ some (.keyword .functionKw)) :
    Recovers t inside fuel 5 φ (1 + n) (ks ++ [.punctuator .semicolon]) (fun _ => True)
      (statement fuel strict) fun a => a.source t = .expr e := by
  refine recovers_reader (fun fuel => (allGoOn fuel).statement strict) fun fuel => ?_
  rw [Parser.statement]
  obtain ⟨k, ls, hk, hopens⟩ := h.opens
  have hread : Recovers t inside fuel 4 φ n (k :: (ls ++ [.punctuator .semicolon])) (fun _ => True)
      (do
        let e ← expression fuel strict
        endStatement
        return Stmt.expr e)
      fun a => a.source t = .expr e := by
    rw [← List.cons_append, ← hk]
    refine Recovers.of_eq ?_ (Nat.max_zero _).symm rfl
    refine h.reads.bind (ne_nil_of_opens h.opens) (fun _ _ => endsExpr_semicolon) fun a => ?_
    exact recovers_endStatement_bind (recovers_pure fun ha => congrArg _ ha.1)
  subst hk
  refine Rereads.nested (Rereads.kind_bind ?_)
  split
  all_goals first
    | exact hread.rereads
    | cases hopens
  exact (hks rfl).elim

/-- An expression between parentheses is never mistaken for something else. -/
theorem readsWhole_shielded (h : Reread t σ strict e) (readable : Bool) :
    ReadsWhole t strict (if readable then Source.parens (e.tokens σ) else e.tokens σ)
      (let m := Source.wholeNesting e.level e.nesting
        if readable then Source.wholeNesting 8 m else m) e := by
  cases readable
  · exact h.whole
  · exact (h.whole.parens.unary.operand 0).whole

theorem readsStmt_expr (h : Reread t σ strict e) : ReadsStmt t σ strict inside (.expr e) := by
  have hwhole := readsWhole_shielded h (e.misleads strict)
  refine ⟨?_, ?_⟩
  · obtain ⟨k, ls, hks, hk⟩ := hwhole.opens
    exact ⟨k, _, by rw [Source.Stmt.tokens, hks, List.cons_append], opensStmt_of_opensExpr hk⟩
  intro fuel φ
  refine (recovers_statement_expr hwhole ?_).guard fun _ _ => trivial
  split
  · nofun
  · next hm =>
    cases e with
    | string s => nofun
    | _ => exact head?_tokens_ne_function _ (Bool.eq_false_iff.2 hm)

end Expressions

section Lists

variable {ss : List Source.Stmt} {fuel : Nat} {φ : Prop}

/-- A token at which statements end, and never a statement begins. -/
structure Closes (ends : Kind → Bool) : Prop where
  opens : ∀ k, opensStmt k = true → ends k = false
  notElse : ends (.keyword .elseKw) = false
  notFinally : ends (.keyword .finallyKw) = false

theorem closes_endOfFile : Closes (· = .endOfFile) :=
  ⟨fun k hk => decide_eq_false (by rintro rfl; cases hk), rfl, rfl⟩

theorem closes_atBlockEnd : Closes atBlockEnd := by
  refine ⟨fun k hk => ?_, rfl, rfl⟩
  rw [atBlockEnd, closes_endOfFile.opens k hk, Bool.or_false, decide_eq_false_iff_not]
  rintro rfl
  cases hk

theorem follows_of_opensStmt {k : Kind} (h : opensStmt k = true) (isOpen : Bool) :
    Follows isOpen k where
  notElse _ heq := by
    rw [heq] at h
    cases h
  notFinally heq := by
    rw [heq] at h
    cases h

theorem Closes.follows {ends : Kind → Bool} (h : Closes ends) {k : Kind} (hk : ends k = true)
    (isOpen : Bool) : Follows isOpen k where
  notElse _ heq := by
    rw [heq, h.notElse] at hk
    cases hk
  notFinally heq := by
    rw [heq, h.notFinally] at hk
    cases hk

/-- Behind a statement come others or the end. -/
theorem follows_listTokens {ends : Kind → Bool} (hends : Closes ends)
    (hss : ∀ s ∈ ss, ReadsStmt t σ strict inside s) {next : Kind} (hnext : ends next = true)
    (isOpen : Bool) : Follows isOpen ((Source.Stmt.listTokens σ strict ss).headD next) := by
  cases ss with
  | nil => exact hends.follows hnext _
  | cons s ss =>
    obtain ⟨k, ls, hk, hopens⟩ := (hss s List.mem_cons_self).opens
    rw [Source.Stmt.listTokens, hk, List.cons_append, List.headD_cons]
    exact follows_of_opensStmt hopens _

theorem recovers_statements {ends : Kind → Bool} (hends : Closes ends)
    (hss : ∀ s ∈ ss, ReadsStmt t σ strict inside s) :
    Recovers t inside fuel 6 φ (Source.Stmt.listNesting strict ss)
      (Source.Stmt.listTokens σ strict ss) (ends · = true) (statements fuel ends strict)
      fun as => Stmt.sources t as = ss := by
  induction ss generalizing fuel φ with
  | nil =>
    refine recovers_reader (fun fuel => (allGoOn fuel).statements ends strict) fun fuel =>
      Rereads.kind_bind_next fun k hk => ?_
    rw [if_pos hk]
    exact Recovers.rereads (recovers_pure fun _ => rfl)
  | cons s ss ih =>
    have hs := hss s List.mem_cons_self
    obtain ⟨k, ls, hk, hopens⟩ := hs.opens
    have hne : s.tokens σ strict ≠ [] := ne_nil_of_opens hs.opens
    refine recovers_reader (fun fuel => (allGoOn fuel).statements ends strict) fun fuel => ?_
    have hgo := (allGoOn fuel).statements ends strict
    have hread : Recovers t inside fuel 5 φ (Source.Stmt.listNesting strict (s :: ss))
        (Source.Stmt.listTokens σ strict (s :: ss)) (ends · = true) (do
          let start := (← span).start
          let s ← statement fuel strict
          if (← span).start = start && (← kind) ≠ .endOfFile then advance
          return s :: (← statements fuel ends strict)) fun as => Stmt.sources t as = s :: ss := by
      refine Recovers.elsewhere_bind hs.reads hne ?_ fun start a stop => ?_
      · exact fun next hnext => follows_listTokens hends
          (fun s hs => hss s (List.mem_cons_of_mem _ hs)) hnext _
      · refine .kind_bind_any fun k' => .assume (by grind) fun h => ?_
        dsimp only
        rw [decide_eq_false h.2.1.1, Bool.false_and]
        refine Recovers.last (Recovers.more (ih fun s hs => hss s (List.mem_cons_of_mem _ hs))
          (by decide) id) fun h as has => ?_
        rw [Stmt.sources, h.2.1.2, has]
    rw [Source.Stmt.listTokens, hk, List.cons_append] at hread ⊢
    refine Rereads.kind_bind ?_
    rw [if_neg (by rw [hends.opens k hopens]; exact Bool.false_ne_true)]
    exact hread.rereads

theorem recovers_block (hss : ∀ s ∈ ss, ReadsStmt t σ strict inside s) :
    Recovers t inside fuel 1 φ (Source.Stmt.listNesting strict ss)
      (Source.braces (Source.Stmt.listTokens σ strict ss)) (fun _ => True) (block fuel strict)
      fun as => Stmt.sources t as = ss := by
  refine recovers_reader (fun fuel => (allGoOn fuel).block strict) fun fuel => Recovers.rereads ?_
  refine recovers_expect_bind (goesOn_pure _) (Recovers.of_eq ?_ (Nat.max_zero _).symm rfl)
  refine ((recovers_statements closes_atBlockEnd hss).more (by decide) id).bind_of_le
    (Nat.le_add_right _ _) (fun as => ?_) fun _ _ => rfl
  exact recovers_expect_bind (goesOn_pure _) (recovers_pure And.left)

theorem recovers_catchRest (ht : .wellKnown ≤ t) {w : String} (hw : Source.Bindable strict w)
    (hss : ∀ s ∈ ss, ReadsStmt t σ strict inside s) :
    Recovers t inside fuel 1 φ (Source.Stmt.listNesting strict ss)
      (Source.parens [.identifier w] ++ Source.braces (Source.Stmt.listTokens σ strict ss))
      (fun _ => True) (catchRest fuel strict)
      fun c => Stmt.handlerSource t (some c) = some ⟨w, ss⟩ := by
  refine recovers_reader (fun fuel => (allGoOn fuel).catchRest strict) fun fuel =>
    Recovers.rereads ?_
  have hgo := (allGoOn fuel).block strict
  rw [parens_append, List.singleton_append]
  refine recovers_freshId_bind fun _ => recovers_expect_bind (by grind) ?_
  refine recovers_identifier_bind fun param => recovers_checkBinding_bind ht (fun h => h.1 ▸ hw) ?_
  refine recovers_expect_bind (by grind) (((recovers_block hss).more (by decide) id).last ?_)
  intro h as has
  rw [Stmt.handlerSource, h.1, has]

end Lists

section Declarators

variable {ds : List Source.Declarator} {fuel : Nat} {φ : Prop}

/-- The tokens behind a declarator. -/
def moreTokens (σ : Source.Spelling) : List Source.Declarator → List Kind
  | [] => []
  | d :: ds => .punctuator .comma :: Source.Declarator.listTokens σ (d :: ds)

theorem listTokens_none (w : String) (ds : List Source.Declarator) :
    Source.Declarator.listTokens σ (⟨w, none⟩ :: ds) = .identifier w :: moreTokens σ ds := by
  cases ds <;> rfl

theorem listTokens_some (w : String) (e : Source.Expr) (ds : List Source.Declarator) :
    Source.Declarator.listTokens σ (⟨w, some e⟩ :: ds) =
      .identifier w :: .punctuator .assign :: (e.tokens σ ++ moreTokens σ ds) := by
  cases ds with
  | nil => rw [moreTokens, List.append_nil, Source.Declarator.listTokens]
  | cons d ds => rw [moreTokens, Source.Declarator.listTokens]

theorem endsExpr_moreTokens (ds : List Source.Declarator) (next : Kind)
    (h : next = .punctuator .semicolon) : EndsExpr ((moreTokens σ ds).headD next) := by
  subst h
  cases ds
  · exact endsExpr_semicolon
  · exact endsExpr_comma

theorem recovers_declarators (ht : .wellKnown ≤ t) (hne : ds ≠ [])
    (hds : ∀ d ∈ ds, Source.Bindable strict d.target ∧ ∀ e ∈ d.value, Reread t σ strict e) :
    Recovers t inside fuel 1 φ (Source.Declarator.listNesting ds)
      (Source.Declarator.listTokens σ ds) (· = .punctuator .semicolon) (declarators fuel strict)
      fun as => Declarator.sources t as = ds := by
  induction ds generalizing fuel φ with
  | nil => exact (hne rfl).elim
  | cons d ds ih =>
    obtain ⟨w, value⟩ := d
    obtain ⟨hw, hvalue⟩ := hds _ List.mem_cons_self
    refine recovers_reader (fun fuel => (allGoOn fuel).declarators strict) fun fuel =>
      Recovers.rereads ?_
    have hgoExpression := (allGoOn fuel).expression strict
    have hgo := (allGoOn fuel).declarators strict
    have hrest (i : Identifier) (v : Option Expr) : Recovers t inside fuel 16
        (v.map (Expr.source t) = value ∧ t.text i.name = w) (Source.Declarator.listNesting ds)
        (moreTokens σ ds) (· = .punctuator .semicolon) (do
          if ← accept (.punctuator .comma) then return ⟨i, v⟩ :: (← declarators fuel strict)
          return [⟨i, v⟩]) fun as => Declarator.sources t as = ⟨w, value⟩ :: ds := by
      have hsource (as : List Declarator) (h : v.map (Expr.source t) = value ∧ t.text i.name = w) :
          Declarator.sources t (⟨i, v⟩ :: as) = ⟨w, value⟩ :: Declarator.sources t as := by
        obtain ⟨rfl, rfl⟩ := h
        cases v <;> rfl
      cases ds with
      | nil =>
        refine recovers_accept_other_bind (by grind) (by rintro _ rfl; nofun)
          (recovers_pure fun h => ?_)
        rw [hsource _ h, Declarator.sources]
      | cons d ds =>
        refine recovers_accept_bind (by grind) (Recovers.last (Recovers.more
          (ih (List.cons_ne_nil _ _) fun d hd => hds d (List.mem_cons_of_mem _ hd)) (by decide) id)
          fun h as has => ?_)
        rw [hsource _ h, has]
    have hgoRest (i : Identifier) (v : Option Expr) := (hrest i v).goesOn
    cases value with
    | none =>
      rw [listTokens_none]
      refine recovers_identifier_bind fun i => recovers_checkBinding_bind ht (fun h => h.1 ▸ hw) ?_
      refine recovers_absent hgoExpression (hgoRest i)
        (fun next h => (endsExpr_moreTokens ds next h).assign) ?_
      exact (hrest i none).more (by decide) fun h => ⟨rfl, h.1⟩
    | some e =>
      rw [listTokens_some]
      have he := hvalue e rfl
      refine recovers_identifier_bind fun i => recovers_checkBinding_bind ht (fun h => h.1 ▸ hw) ?_
      refine recovers_present (he.whole.reads.more (by decide) id) (hgoRest i)
        (endsExpr_moreTokens ds) fun a => ?_
      exact (hrest i (some a)).more (by decide) fun h => ⟨congrArg some h.1, h.2.1⟩

end Declarators

section Directives

variable {ss : List Source.Stmt}

theorem recovers_directives_none {outer : Bool} {fuel : Nat} {φ : Prop} :
    Recovers t inside fuel 6 φ 0 [] (∀ w, · ≠ .string w) (directives fuel outer)
      fun r => Stmt.sources t r.1 = [] ∧ r.2 = outer := by
  refine recovers_reader (fun fuel => (allGoOn fuel).directives outer) fun fuel =>
    Rereads.kind_bind_next fun k hk => ?_
  split
  · next w => exact (hk w rfl).elim
  · exact Recovers.rereads (recovers_pure fun _ => ⟨rfl, rfl⟩)

theorem source_of_isDirective {a : Stmt} (h : isDirective a = true) :
    ∃ v, a.source t = .expr (.string v) := by
  unfold isDirective at h
  split at h
  · exact ⟨_, rfl⟩
  · cases h

theorem isDirective_of_source {a : Stmt} {v : String} (h : a.source t = .expr (.string v)) :
    isDirective a = true := by
  obtain ⟨e, rfl, he⟩ : ∃ e, a = .expr e ∧ e.source t = .string v := by
    cases a with
    | expr e => exact ⟨e, rfl, Source.Stmt.expr.inj h⟩
    | «return» e => cases e <;> cases h
    | «if» t c a => cases a <;> cases h
    | _ => cases h
  cases e with
  | string w => rfl
  | _ => cases he

theorem prologue_eq_nil {s : Source.Stmt} (h : ∀ v, s ≠ .expr (.string v))
    (ss : List Source.Stmt) : Source.prologue (s :: ss) = [] := by
  unfold Source.prologue
  split
  · next heq => exact (h _ (List.cons.inj heq).1).elim
  · rfl

theorem eq_of_prologue_eq_nil {outer : Bool} (hup : outer = true → strict = true)
    (hdown : strict = true → outer = true ∨ "use strict" ∈ Source.prologue ss)
    (h : Source.prologue ss = []) : outer = strict := by
  rw [h] at hdown
  exact Bool.eq_iff_iff.2 ⟨hup, fun hs => (hdown hs).resolve_right List.not_mem_nil⟩

/-- A statement that is no bare string ends the directives, whether it begins with a string or
not. -/
theorem recovers_directives_other {s : Source.Stmt} (hs : ReadsStmt t σ strict inside s)
    (hother : ∀ v, s ≠ .expr (.string v)) (hss : ∀ s ∈ ss, ReadsStmt t σ strict inside s)
    {ends : Kind → Bool} (hends : Closes ends) {c : Kind} (hc : ends c = true) :
    ∃ front back, s :: ss = front ++ back ∧
      ∀ {fuel φ}, Recovers t inside fuel 6 φ (Source.Stmt.listNesting strict front)
        (Source.Stmt.listTokens σ strict front)
        (· = (Source.Stmt.listTokens σ strict back).headD c) (directives fuel strict)
        fun r => Stmt.sources t r.1 = front ∧ r.2 = strict := by
  obtain ⟨k, ls, hk, -⟩ := hs.opens
  by_cases hstring : ∃ w, k = .string w
  · obtain ⟨w, rfl⟩ := hstring
    obtain ⟨e, rfl⟩ : ∃ e, s = .expr e := by
      cases s with
      | expr e => exact ⟨e, rfl⟩
      | «return» a => cases a <;> cases hk
      | «if» t c a => cases a <;> cases hk
      | _ => cases hk
    refine ⟨[.expr e], ss, rfl, ?_⟩
    intro fuel φ
    refine recovers_reader (fun fuel => (allGoOn fuel).directives strict) fun fuel => ?_
    have hgo := (allGoOn fuel).directives (strict || w = "use strict")
    have hread : Recovers t inside fuel 5 φ (Source.Stmt.listNesting strict [.expr e])
        (Source.Stmt.listTokens σ strict [.expr e])
        (· = (Source.Stmt.listTokens σ strict ss).headD c) (do
          let s ← statement fuel strict
          if isDirective s then
            let r ← directives fuel (strict || w = "use strict")
            return (s :: r.1, r.2)
          return ([s], strict)) fun r => Stmt.sources t r.1 = [.expr e] ∧ r.2 = strict := by
      refine hs.reads.bind (ne_nil_of_opens hs.opens)
        (fun _ hk => hk ▸ follows_listTokens hends hss hc _) fun a => ?_
      refine .assume (by grind) fun ha => ?_
      rw [if_neg fun hd => ?_]
      · exact recovers_pure fun _ => ⟨by rw [Stmt.sources, ha.1, Stmt.sources], rfl⟩
      · obtain ⟨v, hv⟩ := source_of_isDirective hd
        exact hother v (ha.1.symm.trans hv)
    rw [Source.Stmt.listTokens, hk] at hread ⊢
    exact Rereads.kind_bind hread.rereads
  · refine ⟨[], s :: ss, rfl, ?_⟩
    intro fuel φ
    refine recovers_directives_none.guard ?_
    rintro _ rfl w heq
    rw [Source.Stmt.listTokens, hk] at heq
    exact hstring ⟨w, heq⟩

/-- How the directives at the head of a body are told from the statements behind them, so that
the whole is as strict as it was. -/
theorem recovers_directives {outer : Bool} (hss : ∀ s ∈ ss, ReadsStmt t σ strict inside s)
    (hup : outer = true → strict = true)
    (hdown : strict = true → outer = true ∨ "use strict" ∈ Source.prologue ss)
    {ends : Kind → Bool} (hends : Closes ends) {c : Kind} (hc : ends c = true) :
    ∃ front back, ss = front ++ back ∧
      ∀ {fuel φ}, Recovers t inside fuel 6 φ (Source.Stmt.listNesting strict front)
        (Source.Stmt.listTokens σ strict front)
        (· = (Source.Stmt.listTokens σ strict back).headD c) (directives fuel outer)
        fun r => Stmt.sources t r.1 = front ∧ r.2 = strict := by
  induction ss generalizing outer with
  | nil =>
    refine ⟨[], [], rfl, ?_⟩
    intro fuel φ
    rw [eq_of_prologue_eq_nil hup hdown rfl]
    refine recovers_directives_none.guard ?_
    rintro _ rfl w rfl
    exact Bool.noConfusion ((hends.opens _ rfl).symm.trans hc)
  | cons s ss ih =>
    by_cases hother : ∀ v, s ≠ .expr (.string v)
    · rw [eq_of_prologue_eq_nil hup hdown (prologue_eq_nil hother ss)]
      exact recovers_directives_other (hss s List.mem_cons_self) hother
        (fun s hs => hss s (List.mem_cons_of_mem _ hs)) hends hc
    · obtain ⟨v, rfl⟩ : ∃ v, s = .expr (.string v) := by simpa using hother
      cases strict with
      | false =>
        obtain rfl : outer = false := Bool.eq_false_iff.2 fun h => Bool.noConfusion (hup h)
        refine ⟨[], _, rfl, ?_⟩
        intro fuel φ
        refine recovers_directives_none.guard ?_
        rintro _ rfl w heq
        cases heq
      | true =>
        have hmore : true = true → (outer || v = "use strict") = true ∨
            "use strict" ∈ Source.prologue ss := by
          intro hs
          rw [Bool.or_eq_true, decide_eq_true_eq]
          obtain h | h := hdown hs
          · exact .inl (.inl h)
          · exact (List.mem_cons.1 h).imp (fun h => .inr h.symm) id
        obtain ⟨front, back, rfl, hfront⟩ :=
          ih (fun s hs => hss s (List.mem_cons_of_mem _ hs)) (fun _ => rfl) hmore
        refine ⟨.expr (.string v) :: front, back, rfl, ?_⟩
        intro fuel φ
        refine recovers_reader (fun fuel => (allGoOn fuel).directives outer) fun fuel => ?_
        have hgo := (allGoOn fuel).directives (outer || v = "use strict")
        have hstring : ReadsWhole t outer [.string v] 2 (.string v) :=
          (reread_string v : Reread t σ outer _).whole
        have hdirective : Recovers t inside fuel _ φ _ [.string v, .punctuator .semicolon] _
            (statement fuel outer) _ := recovers_statement_expr hstring nofun
        refine Rereads.kind_bind (Recovers.rereads (hdirective.bind (List.cons_ne_nil _ _)
          (fun _ _ => trivial) fun a => ?_))
        refine .assume (by grind) fun ha => ?_
        rw [if_pos (isDirective_of_source ha.1)]
        refine (hfront.more (by decide) id).last fun _ r hr => ⟨?_, hr.2⟩
        rw [Stmt.sources, ha.1, hr.1]

theorem listTokens_append (ss ts : List Source.Stmt) : Source.Stmt.listTokens σ strict (ss ++ ts) =
    Source.Stmt.listTokens σ strict ss ++ Source.Stmt.listTokens σ strict ts := by
  induction ss with
  | nil => rfl
  | cons s ss ih =>
    rw [List.cons_append, Source.Stmt.listTokens, ih, Source.Stmt.listTokens, List.append_assoc]

theorem listNesting_append (ss ts : List Source.Stmt) : Source.Stmt.listNesting strict (ss ++ ts) =
    max (Source.Stmt.listNesting strict ss) (Source.Stmt.listNesting strict ts) := by
  induction ss with
  | nil => rw [List.nil_append, Source.Stmt.listNesting, Nat.zero_max]
  | cons s ss ih =>
    rw [List.cons_append, Source.Stmt.listNesting, ih, Source.Stmt.listNesting, Nat.max_assoc]

/-- The statements of a body, its directives first. -/
theorem recovers_body {outer : Bool} {ends : Kind → Bool} {c : Kind} {fuel : Nat} {φ : Prop}
    (hss : ∀ s ∈ ss, ReadsStmt t σ strict inside s) (hup : outer = true → strict = true)
    (hdown : strict = true → outer = true ∨ "use strict" ∈ Source.prologue ss)
    (hends : Closes ends) (hc : ends c = true) :
    Recovers t inside fuel 6 φ (Source.Stmt.listNesting strict ss)
      (Source.Stmt.listTokens σ strict ss) (· = c) (do
        let (ds, strict) ← directives fuel outer
        let ss ← statements fuel ends strict
        return (ds ++ ss, strict))
      fun r => Stmt.sources t r.1 = ss ∧ r.2 = strict := by
  obtain ⟨front, back, rfl, hfront⟩ := recovers_directives hss hup hdown hends hc
  rw [listNesting_append, listTokens_append]
  have hgo := (allGoOn fuel).statements ends
  refine hfront.bind_of_le (Nat.le_add_right _ _) (fun r => .assume (by grind) fun hr => ?_) ?_
  · obtain ⟨ds, flag⟩ := r
    obtain rfl : flag = strict := hr.1.2
    refine Recovers.last (Recovers.guard (recovers_statements hends fun s hs =>
      hss s (List.mem_append_right _ hs)) fun k hk => hk ▸ hc) fun _ ss hback => ⟨?_, rfl⟩
    rw [Stmt.sources_append, hr.1.1, hback]
  · rintro _ rfl
    rfl

/-- What is checked of a function behind its body. -/
theorem recovers_checks (ht : .wellKnown ≤ t) {fuel b : Nat} {φ : Prop} {f : Source.Function}
    {outer : Bool} (hf : f.Grammatical outer) {id : NodeId} {start : Nat} {self : Option Identifier}
    {ps : List Identifier} {body : List Stmt} (hself : self.map (fun i => t.text i.name) = f.self)
    (hps : ps.map (fun i => t.text i.name) = f.params) (hbody : Stmt.sources t body = f.body) :
    Recovers t inside fuel b φ 0 [] (fun _ => True) (do
      if let some i := self then checkBinding f.strict i
      checkParams f.strict [] ps
      return ⟨id, self, ps, body, f.strict, ← spanFrom start⟩)
      fun d : FunctionDef => d.source t = f := by
  obtain ⟨w, ws, ss, strict⟩ := f
  obtain ⟨-, -, hbindable, hparams, hnodup, -⟩ := hf
  dsimp only at hself hps hbody ⊢
  subst hself hps hbody
  have hrest : Recovers t inside fuel b φ 0 [] (fun _ => True) (do
      checkParams strict [] ps
      return ⟨id, self, ps, body, strict, ← spanFrom start⟩)
      fun d : FunctionDef => d.source t = ⟨self.map fun i => t.text i.name,
        ps.map fun i => t.text i.name, Stmt.sources t body, strict⟩ := by
    refine (recovers_checkParams ht (fun p hp => hparams _ (List.mem_map_of_mem hp)) (fun hs => ?_)
      fun _ _ _ => List.not_mem_nil).silent fun _ =>
        (recovers_spanFrom start).silent fun _ => recovers_pure fun _ => rfl
    have hdistinct := hnodup hs
    rw [List.Nodup, List.pairwise_map] at hdistinct ⊢
    exact hdistinct.imp fun hne heq => hne (congrArg t.text heq)
  cases self with
  | none => exact hrest
  | some i => exact recovers_checkBinding_bind ht (fun _ => hbindable _ rfl) hrest

theorem recovers_functionBody {fuel : Nat} {φ : Prop} {outer : Bool}
    (hss : ∀ s ∈ ss, ReadsStmt t σ strict true s) (hup : outer = true → strict = true)
    (hdown : strict = true → outer = true ∨ "use strict" ∈ Source.prologue ss) :
    Recovers t inside fuel 6 φ (Source.Stmt.listNesting strict ss)
      (Source.braces (Source.Stmt.listTokens σ strict ss)) (fun _ => True) (inFunction do
        if ← expect .openBrace then
          let (ds, strict) ← directives fuel outer
          let ss ← statements fuel atBlockEnd strict
          let _ ← expect .closeBrace
          return (ds ++ ss, strict)
        return ([], outer))
      fun r => Stmt.sources t r.1 = ss ∧ r.2 = strict := by
  refine Recovers.inFunction (recovers_expect_bind (goesOn_pure _) ?_)
  refine Recovers.of_eq ?_ (Nat.max_zero _).symm rfl
  have hbody : Recovers t true fuel 6 φ _ _ (· = .punctuator .closeBrace) _ _ :=
    recovers_body hss hup hdown closes_atBlockEnd rfl
  have hread : Recovers t true fuel (6 + 16) φ _ _ (fun _ => True)
      (_ >>= fun r : List Stmt × Bool => expect .closeBrace >>= fun _ => pure r)
      fun r => Stmt.sources t r.1 = ss ∧ r.2 = strict :=
    (hbody.more (Nat.le_add_right 6 16) id).bind_of_le (Nat.le_add_right _ _)
      (fun r => recovers_expect_bind (goesOn_pure r) (recovers_pure And.left)) fun _ _ => rfl
  exact ⟨hread.goesOn, hread.rereads⟩

theorem exists_nameTokens_cons (w : String) (ws : List String) :
    ∃ ls, Source.nameTokens (w :: ws) = .identifier w :: ls := by
  cases ws with
  | nil => exact ⟨_, rfl⟩
  | cons w' ws => exact ⟨_, rfl⟩

theorem recovers_functionRest (ht : .wellKnown ≤ t) {f : Source.Function} {outer : Bool}
    (hf : f.Grammatical outer) (hbody : ∀ s ∈ f.body, ReadsStmt t σ f.strict true s) :
    ReadsFunction t σ outer f := by
  intro inside fuel φ declaration hdeclaration
  obtain ⟨w, ws, ss, strict⟩ := f
  refine recovers_reader (fun fuel => (allGoOn fuel).functionRest outer declaration) fun fuel =>
    Recovers.rereads (Recovers.span_bind fun at_ => recovers_freshId_bind fun _ =>
      Recovers.kind_bind_any fun k => ?_)
  extract_lets named afterSelf
  have hself (self : Option Identifier) : Recovers t inside fuel 0
      (self.map (fun i => t.text i.name) = w) (Source.Stmt.listNesting strict ss)
      (Source.parens (Source.nameTokens ws) ++
        Source.braces (Source.Stmt.listTokens σ strict ss)) (fun _ => True) (afterSelf self)
        fun d : FunctionDef => d.source t = ⟨w, ws, ss, strict⟩ := by
    rw [parens_append]
    refine recovers_expect_then (Recovers.kind_bind_any fun k => ?_)
    extract_lets afterParams
    have hparams (ps : List Identifier) : Recovers t inside fuel 16
        (ps.map (fun i => t.text i.name) = ws ∧ self.map (fun i => t.text i.name) = w)
        (Source.Stmt.listNesting strict ss) (.punctuator .closeParen ::
          Source.braces (Source.Stmt.listTokens σ strict ss)) (fun _ => True) (afterParams ps)
        fun d : FunctionDef => d.source t = ⟨w, ws, ss, strict⟩ := by
      refine recovers_expect_then (Recovers.of_eq ?_ (Nat.max_zero _).symm (List.append_nil _).symm)
      refine ((recovers_functionBody hbody hf.1 hf.2.1).more (by decide) (fun h => h)).bind_of_le
        (Nat.le_add_right _ _) (fun r => ?_) fun _ _ => trivial
      obtain ⟨body, flag⟩ := r
      refine .assume ?_ fun h => ?_
      · dsimp -zeta only
        cases self <;> grind
      · obtain rfl : flag = strict := h.1.2
        exact recovers_checks ht hf h.2.2 h.2.1 h.1.1
    cases ws with
    | nil =>
      split
      · exact Recovers.pure_bind ((hparams []).more (Nat.le_refl _) fun h => ⟨rfl, h.2⟩)
      · next hk =>
        exact .absurd ((goesOn_params fuel).bind fun ps => (hparams ps).goesOn) fun h => hk h.1.symm
    | cons p ps =>
      obtain ⟨ls, hls⟩ := exists_nameTokens_cons p ps
      split
      · next hk =>
        refine .absurd ((goesOn_pure _).bind fun ps => (hparams ps).goesOn) fun h => ?_
        rw [hls, hk] at h
        cases h.1
      · refine Recovers.of_eq (Recovers.bind recovers_params ?_ ?_ fun qs => ?_)
          (Nat.zero_max _).symm rfl
        · exact hls ▸ List.cons_ne_nil _ _
        · exact fun _ _ => nofun
        · exact (hparams qs).more (by decide) fun h => ⟨h.1, h.2.2⟩
  cases w with
  | none =>
    split
    · next hnamed =>
      refine .absurd (goesOn_identifier.map.bind fun i => (hself i).goesOn) fun h => ?_
      obtain rfl : .punctuator .openParen = k := h.1
      cases hdeclaration hnamed
    · exact Recovers.pure_bind ((hself none).more (Nat.le_refl _) fun _ => rfl)
  | some w =>
    split
    · exact .map_bind (recovers_identifier_bind fun i =>
        (hself (some i)).more (Nat.zero_le _) fun h => congrArg some h.1)
    · next hnamed =>
      refine .absurd ((goesOn_pure _).bind fun i => (hself i).goesOn) fun h => hnamed ?_
      obtain rfl : .identifier w = k := h.1
      rfl

end Directives

section Cases

variable {e : Source.Expr} {c a body : Source.Stmt} {ss : List Source.Stmt}

theorem recovers_condition (h : Reread t σ strict e) {fuel : Nat} {φ : Prop} :
    Recovers t inside fuel 1 φ (Source.wholeNesting e.level e.nesting)
      (Source.parens (e.tokens σ)) (fun _ => True) (condition fuel strict)
      fun a => a.source t = e := by
  refine recovers_reader (fun fuel => (allGoOn fuel).condition strict) fun fuel =>
    Recovers.rereads (recovers_expect_bind ?_ ?_)
  · exact ((allGoOn fuel).expression strict).bind fun _ => (goesOn_expect _).bind fun _ => goesOn_pure _
  · refine Recovers.of_eq ?_ (Nat.max_zero _).symm rfl
    refine (h.whole.reads.more (by decide) id).bind (ne_nil_of_opens h.whole.opens)
      (fun _ _ => endsExpr_closeParen) fun a => ?_
    exact recovers_expect_then (recovers_pure And.left)

theorem readsStmt_var (ht : .wellKnown ≤ t) {ds : List Source.Declarator} (hne : ds ≠ [])
    (hds : ∀ d ∈ ds, Source.Bindable strict d.target ∧ ∀ e ∈ d.value, Reread t σ strict e) :
    ReadsStmt t σ strict inside (.var ds) := by
  refine ⟨⟨_, _, rfl, rfl⟩, ?_⟩
  intro fuel φ
  refine recovers_reader (fun fuel => (allGoOn fuel).statement strict) fun fuel => ?_
  rw [Parser.statement]
  refine Rereads.nested (Rereads.kind_bind (Recovers.rereads (recovers_advance_bind ?_)))
  refine Recovers.of_eq ?_ (Nat.max_zero _).symm rfl
  refine ((recovers_declarators ht hne hds).more (by decide) id).bind_of_le (Nat.le_add_right _ _)
    (fun as => ?_) fun _ _ => rfl
  exact recovers_endStatement_bind (recovers_pure fun h => congrArg _ h.1)

theorem readsStmt_function {f : Source.Function} (hself : f.self.isSome = true)
    (hf : ReadsFunction t σ strict f) : ReadsStmt t σ strict inside (.function f) := by
  refine ⟨⟨_, _, rfl, rfl⟩, ?_⟩
  intro fuel φ
  refine recovers_reader (fun fuel => (allGoOn fuel).statement strict) fun fuel => ?_
  rw [Parser.statement]
  refine Rereads.nested (Rereads.kind_bind (Recovers.rereads (recovers_advance_bind ?_)))
  refine Recovers.last (Recovers.guard (Recovers.more (hf fun _ => hself) (by decide) id)
    fun _ _ => trivial) fun _ d hd => congrArg _ hd

theorem readsStmt_throw (h : Reread t σ strict e) : ReadsStmt t σ strict inside (.throw e) := by
  refine ⟨⟨_, _, rfl, rfl⟩, ?_⟩
  intro fuel φ
  refine recovers_reader (fun fuel => (allGoOn fuel).statement strict) fun fuel => ?_
  rw [Parser.statement]
  refine Rereads.nested (Rereads.kind_bind (Recovers.rereads (recovers_advance_bind ?_)))
  refine Recovers.of_eq ?_ (Nat.max_zero _).symm rfl
  refine (h.whole.reads.more (by decide) id).bind (ne_nil_of_opens h.whole.opens)
    (fun _ _ => endsExpr_semicolon) fun a => ?_
  exact recovers_endStatement_bind (recovers_pure fun h => congrArg _ h.1)

theorem readsStmt_empty : ReadsStmt t σ strict inside .empty := by
  refine ⟨⟨_, _, rfl, rfl⟩, ?_⟩
  intro fuel φ
  refine recovers_reader (fun fuel => (allGoOn fuel).statement strict) fun fuel => ?_
  show Rereads t inside fuel 4 φ (1 + 0) [.punctuator .semicolon] _ _ _
  rw [Parser.statement]
  refine Rereads.nested (Rereads.kind_bind (Recovers.rereads ?_))
  exact recovers_advance_bind (recovers_pure fun _ => rfl)

theorem readsStmt_block (hss : ∀ s ∈ ss, ReadsStmt t σ strict inside s) :
    ReadsStmt t σ strict inside (.block ss) := by
  refine ⟨⟨_, _, rfl, rfl⟩, ?_⟩
  intro fuel φ
  refine recovers_reader (fun fuel => (allGoOn fuel).statement strict) fun fuel => ?_
  rw [Parser.statement]
  refine Rereads.nested (Rereads.kind_bind (Recovers.rereads ?_))
  exact (((recovers_block hss).more (by decide) id).guard fun _ _ => trivial).last
    fun _ as has => congrArg _ has

theorem readsStmt_while (h : Reread t σ strict e) (hbody : ReadsStmt t σ strict inside body) :
    ReadsStmt t σ strict inside (.while e body) := by
  refine ⟨⟨_, _, rfl, rfl⟩, ?_⟩
  intro fuel φ
  refine recovers_reader (fun fuel => (allGoOn fuel).statement strict) fun fuel => ?_
  rw [Parser.statement]
  refine Rereads.nested (Rereads.kind_bind (Recovers.rereads (recovers_advance_bind ?_)))
  refine ((recovers_condition h).more (by decide) id).bind (List.cons_ne_nil _ _)
    (fun _ _ => trivial) fun a => ?_
  refine (hbody.reads.more (by decide) id).last fun ha s hs => ?_
  rw [Stmt.source, ha.1, hs]

theorem readsStmt_if (h : Reread t σ strict e) (hc : ReadsStmt t σ strict inside c) :
    ReadsStmt t σ strict inside (.if e c none) := by
  refine ⟨⟨_, _, rfl, rfl⟩, ?_⟩
  intro fuel φ
  refine recovers_reader (fun fuel => (allGoOn fuel).statement strict) fun fuel => ?_
  have hgo := (allGoOn fuel).statement strict
  rw [Parser.statement]
  refine Rereads.nested (Rereads.kind_bind (Recovers.rereads (recovers_advance_bind ?_)))
  refine ((recovers_condition h).more (by decide) id).bind (List.cons_ne_nil _ _)
    (fun _ _ => trivial) fun a => ?_
  refine Recovers.of_eq ?_ (Nat.max_zero _).symm (List.append_nil _).symm
  refine (hc.reads.more (by decide) id).bind (ne_nil_of_opens hc.opens)
    (fun _ hk => ⟨fun _ => hk.notElse rfl, hk.notFinally⟩) fun s => ?_
  refine recovers_accept_other_bind (by grind) (fun _ hk => hk.notElse rfl) (recovers_pure fun hs => ?_)
  rw [Stmt.source, hs.1, hs.2.1]

theorem readsStmt_ifElse (h : Reread t σ strict e) (hc : ReadsStmt t σ strict inside c)
    (hopen : c.endsOpen = false) (ha : ReadsStmt t σ strict inside a) :
    ReadsStmt t σ strict inside (.if e c (some a)) := by
  refine ⟨⟨_, _, rfl, rfl⟩, ?_⟩
  intro fuel φ
  refine recovers_reader (fun fuel => (allGoOn fuel).statement strict) fun fuel => ?_
  have hgo := (allGoOn fuel).statement strict
  rw [Parser.statement]
  refine Rereads.nested (Rereads.kind_bind (Recovers.rereads (recovers_advance_bind ?_)))
  refine ((recovers_condition h).more (by decide) id).bind (List.cons_ne_nil _ _)
    (fun _ _ => trivial) fun test => ?_
  refine (hc.reads.more (by decide) id).bind (ne_nil_of_opens hc.opens)
    (fun _ _ => ⟨fun hs => Bool.noConfusion (hopen.symm.trans hs), by simp⟩) fun s => ?_
  refine recovers_accept_bind (by grind) ((ha.reads.more (by decide) id).last fun hs s' hs' => ?_)
  rw [Stmt.source, hs.1, hs.2.1, hs']

/-- A return statement, once it is known how what stands behind the keyword is read. -/
theorem rereads_return {k : Kind} {ks : List Kind} {n fuel : Nat} {φ : Prop} {G : Kind → Prop}
    {Q : Stmt → Prop}
    (h : ∀ (at_ : Span) (tok : Token), tok.kind = k → tok.afterLineBreak = false →
      Recovers t true fuel 20 φ n (k :: ks) G (do
        let argument ←
          if tok.kind = .punctuator .semicolon || atBlockEnd tok.kind || tok.afterLineBreak then
            pure none
          else some <$> expression fuel strict
        endStatement
        return Stmt.return argument at_) Q) :
    Rereads t true fuel 4 φ (1 + n) (.keyword .returnKw :: k :: ks) G (statement (fuel + 1) strict)
      Q := by
  have hgo := (allGoOn fuel).expression strict
  rw [Parser.statement]
  refine Rereads.nested (Rereads.kind_bind ?_)
  refine Rereads.span_bind fun at_ => Rereads.get_bind fun s _ hs => ?_
  rw [if_neg (hs.functionDepth rfl)]
  refine Recovers.rereads (recovers_advance_bind (Recovers.get_bind (by grind) fun s' _ hs' => ?_))
  exact h at_ s'.token hs'.kind_eq (hs'.unbroken _ List.mem_cons_self)

theorem readsStmt_return : ReadsStmt t σ strict true (.return none) := by
  refine ⟨⟨_, _, rfl, rfl⟩, ?_⟩
  intro fuel φ
  refine recovers_reader (fun fuel => (allGoOn fuel).statement strict) fun fuel => ?_
  refine rereads_return (n := 0) fun at_ tok hkind _ => ?_
  rw [if_pos (by simp [hkind])]
  exact Recovers.pure_bind (recovers_endStatement_bind (recovers_pure fun _ => rfl))

theorem readsStmt_returnValue (h : Reread t σ strict e) :
    ReadsStmt t σ strict true (.return (some e)) := by
  refine ⟨⟨_, _, rfl, rfl⟩, ?_⟩
  intro fuel φ
  refine recovers_reader (fun fuel => (allGoOn fuel).statement strict) fun fuel => ?_
  have hread (at_ : Span) : Recovers t true fuel 20 φ (Source.wholeNesting e.level e.nesting)
      (e.tokens σ ++ [.punctuator .semicolon]) (fun _ => True) (do
        let argument ← some <$> expression fuel strict
        endStatement
        return Stmt.return argument at_) fun a => a.source t = .return (some e) := by
    refine Recovers.map_bind (Recovers.of_eq ?_ (Nat.max_zero _).symm rfl)
    refine (h.whole.reads.more (by decide) id).bind (ne_nil_of_opens h.whole.opens)
      (fun _ _ => endsExpr_semicolon) fun a => ?_
    refine recovers_endStatement_bind (recovers_pure fun h => ?_)
    rw [Stmt.source, h.1]
  obtain ⟨k, ls, hks, hk⟩ := h.whole.opens
  rw [Source.Stmt.tokens, hks, List.cons_append]
  rw [hks, List.cons_append] at hread
  refine rereads_return fun at_ tok hkind hbreak => ?_
  have hne : k ≠ .punctuator .semicolon := by
    rintro rfl
    cases hk
  have hend : atBlockEnd k = false := closes_atBlockEnd.opens k (opensStmt_of_opensExpr hk)
  rw [if_neg (by simp [hkind, hbreak, hne, hend])]
  exact (hread at_).guard fun _ _ => trivial

theorem readsStmt_try {h : Option Source.CatchClause} {f : Option (List Source.Stmt)}
    (ht : .wellKnown ≤ t) (hsome : (h.isSome || f.isSome) = true)
    (hss : ∀ s ∈ ss, ReadsStmt t σ strict inside s)
    (hh : ∀ c ∈ h, Source.Bindable strict c.param ∧ ∀ s ∈ c.body, ReadsStmt t σ strict inside s)
    (hf : ∀ b ∈ f, ∀ s ∈ b, ReadsStmt t σ strict inside s) :
    ReadsStmt t σ strict inside (.try ss h f) := by
  refine ⟨⟨_, _, rfl, rfl⟩, ?_⟩
  intro fuel φ
  refine recovers_reader (fun fuel => (allGoOn fuel).statement strict) fun fuel => ?_
  have hgoBlock := (allGoOn fuel).block strict
  have hgoCatch := (allGoOn fuel).catchRest strict
  have hdone (body : List Stmt) (handler : Option CatchClause) (finalizer : Option (List Stmt)) :
      Recovers t inside fuel 16 ((Stmt.finalizerSource t finalizer = f ∧
        Stmt.handlerSource t handler = h) ∧ Stmt.sources t body = ss) 0 [] (Follows false)
      (do
        if handler.isNone && finalizer.isNone then report .catchOrFinallyExpected []
        return Stmt.try body handler finalizer) fun a => a.source t = .try ss h f := by
    refine .assume (by grind [Message.catchOrFinallyExpected]) fun hread => ?_
    obtain ⟨⟨rfl, rfl⟩, rfl⟩ := hread
    rw [isSome_handlerSource, isSome_finalizerSource] at hsome
    rw [if_neg (by cases handler <;> cases finalizer <;> simp_all)]
    exact recovers_pure fun _ => rfl
  have hfinal (body : List Stmt) (handler : Option CatchClause) : Recovers t inside fuel 16
      (Stmt.handlerSource t handler = h ∧ Stmt.sources t body = ss)
      (Source.Stmt.finalizerNesting strict f) (Source.Stmt.finalizerTokens σ strict f)
      (Follows false) (do
        let finalizer ←
          if ← accept (.keyword .finallyKw) then some <$> block fuel strict else pure none
        if handler.isNone && finalizer.isNone then report .catchOrFinallyExpected []
        return Stmt.try body handler finalizer) fun a => a.source t = .try ss h f := by
    have hgo (finalizer) := (hdone body handler finalizer).goesOn
    cases f with
    | none =>
      refine recovers_absent hgoBlock hgo (fun _ hk => hk.notFinally) ?_
      exact (hdone body handler none).more (Nat.le_refl _) fun h => ⟨⟨rfl, h.1⟩, h.2⟩
    | some b =>
      refine Recovers.of_eq (recovers_present ((recovers_block (hf b rfl)).more (by decide) id) hgo
        (fun _ _ => trivial) fun bs => ?_) (Nat.max_zero _).symm (by rw [List.append_nil]; rfl)
      exact (hdone body handler (some bs)).more (by decide) fun h => ⟨⟨congrArg some h.1, h.2.1⟩, h.2.2⟩
  rw [Parser.statement]
  refine Rereads.nested (Rereads.kind_bind (Recovers.rereads (recovers_advance_bind ?_)))
  refine ((recovers_block hss).more (by decide) id).bind (List.cons_ne_nil _ _)
    (fun _ _ => trivial) fun body => ?_
  have hgo (handler) := (hfinal body handler).goesOn
  cases h with
  | none =>
    refine recovers_absent hgoCatch hgo ?_ ?_
    · cases f with
      | none => cases hsome
      | some b => exact fun _ _ => by simp [Source.Stmt.handlerTokens, Source.Stmt.finalizerTokens]
    · exact (hfinal body none).more (by decide) fun h => ⟨rfl, h.1⟩
  | some c =>
    obtain ⟨w, b⟩ := c
    refine recovers_present ((recovers_catchRest ht (hh _ rfl).1 (hh _ rfl).2).more (by decide) id)
      hgo (fun _ _ => trivial) fun c => ?_
    exact (hfinal body (some c)).more (by decide) fun h => ⟨h.1, h.2.1⟩

end Cases

section Trees

mutual

theorem reread (ht : .wellKnown ≤ t) : (e : Source.Expr) → {strict : Bool} →
    e.Grammatical strict → Reread t σ strict e
  | .number _, _, h => reread_number h
  | .string s, _, _ => reread_string s
  | .bool b, _, _ => reread_bool b
  | .null, _, _ => reread_null
  | .this, _, _ => reread_this
  | .identifier w, _, _ => reread_identifier w
  | .assign _ e, _, h => reread_assign ht h.1 (reread ht e h.2)
  | .binary op l r, _, h => reread_binary op (reread ht l h.1) (reread ht r h.2)
  | .unary op e, _, h => reread_unary op (reread ht e h)
  | .typeof e, _, h => reread_typeof (reread ht e h)
  | .delete e, _, h => reread_delete (reread ht e h.1) h.2
  | .call f args, _, h => reread_call (reread ht f h.1) (rereadAll ht args h.2)
  | .function f, _, h => reread_function (readsFunction ht f h)

theorem rereadAll (ht : .wellKnown ≤ t) : (es : List Source.Expr) → {strict : Bool} →
    Source.Expr.AllGrammatical strict es → ∀ e ∈ es, Reread t σ strict e
  | [], _, _ => nofun
  | e :: es, _, h => List.forall_mem_cons.2 ⟨reread ht e h.1, rereadAll ht es h.2⟩

theorem readsStmt (ht : .wellKnown ≤ t) : (s : Source.Stmt) → {strict inside : Bool} →
    s.Grammatical strict inside → ReadsStmt t σ strict inside s
  | .var ds, _, _, h => readsStmt_var ht h.1 (rereadDeclarators ht ds h.2)
  | .function f, _, _, h => readsStmt_function h.1 (readsFunction ht f h.2)
  | .expr e, _, _, h => readsStmt_expr (reread ht e h)
  | .return none, _, _, h => by
    obtain rfl := h
    exact readsStmt_return
  | .return (some e), _, _, h => by
    obtain rfl := h.1
    exact readsStmt_returnValue (reread ht e h.2)
  | .if e c none, _, _, h => readsStmt_if (reread ht e h.1) (readsStmt ht c h.2)
  | .if e c (some a), _, _, h =>
    readsStmt_ifElse (reread ht e h.1) (readsStmt ht c h.2.1) h.2.2.1 (readsStmt ht a h.2.2.2)
  | .while e body, _, _, h => readsStmt_while (reread ht e h.1) (readsStmt ht body h.2)
  | .block ss, _, _, h => readsStmt_block (readsStmts ht ss h)
  | .try ss c f, _, _, h => readsStmt_try ht h.1 (readsStmts ht ss h.2.1)
      (readsHandler ht c h.2.2.1) (readsFinalizer ht f h.2.2.2)
  | .throw e, _, _, h => readsStmt_throw (reread ht e h)
  | .empty, _, _, _ => readsStmt_empty

theorem readsStmts (ht : .wellKnown ≤ t) : (ss : List Source.Stmt) → {strict inside : Bool} →
    Source.Stmt.AllGrammatical strict inside ss → ∀ s ∈ ss, ReadsStmt t σ strict inside s
  | [], _, _, _ => nofun
  | s :: ss, _, _, h => List.forall_mem_cons.2 ⟨readsStmt ht s h.1, readsStmts ht ss h.2⟩

theorem rereadDeclarators (ht : .wellKnown ≤ t) : (ds : List Source.Declarator) → {strict : Bool} →
    Source.Declarator.AllGrammatical strict ds → ∀ d ∈ ds,
      Source.Bindable strict d.target ∧ ∀ e ∈ d.value, Reread t σ strict e
  | [], _, _ => nofun
  | ⟨_, none⟩ :: ds, _, h => List.forall_mem_cons.2 ⟨⟨h.1, nofun⟩, rereadDeclarators ht ds h.2⟩
  | ⟨_, some e⟩ :: ds, _, h => List.forall_mem_cons.2
    ⟨⟨h.1, fun _ he => Option.some.inj he ▸ reread ht e h.2.1⟩, rereadDeclarators ht ds h.2.2⟩

theorem readsHandler (ht : .wellKnown ≤ t) : (c : Option Source.CatchClause) → {strict inside : Bool} →
    Source.Stmt.HandlerGrammatical strict inside c → ∀ d ∈ c,
      Source.Bindable strict d.param ∧ ∀ s ∈ d.body, ReadsStmt t σ strict inside s
  | none, _, _, _ => nofun
  | some ⟨_, body⟩, _, _, h => fun _ hd => Option.some.inj hd ▸ ⟨h.1, readsStmts ht body h.2⟩

theorem readsFinalizer (ht : .wellKnown ≤ t) : (f : Option (List Source.Stmt)) → {strict inside : Bool} →
    Source.Stmt.FinalizerGrammatical strict inside f → ∀ b ∈ f, ∀ s ∈ b,
      ReadsStmt t σ strict inside s
  | none, _, _, _ => nofun
  | some body, _, _, h => fun _ hb => Option.some.inj hb ▸ readsStmts ht body h

theorem readsFunction (ht : .wellKnown ≤ t) : (f : Source.Function) → {strict : Bool} →
    f.Grammatical strict → ReadsFunction t σ strict f
  | ⟨_, _, body, _⟩, _, h => recovers_functionRest ht h (readsStmts ht body h.2.2.2.2.2)

end

end Trees

end Statements

section Programs

variable {t : Interner} {p : Source.Program} {strict : Bool}

theorem recovers_program (ht : .wellKnown ≤ t) (σ : Source.Spelling) (hp : p.Grammatical strict)
    (fuel : Nat) (file : String) : Recovers t false fuel 6 True p.nesting
      (Source.Stmt.listTokens σ p.strict p.body) (· = .endOfFile) (program fuel file strict)
      fun q => q.source t = p := by
  have hbody : Recovers t false fuel 6 True _ _ (· = .endOfFile) _ _ :=
    recovers_body (σ := σ) (readsStmts ht p.body hp.body) hp.inherits hp.directive closes_endOfFile
      (decide_eq_true rfl)
  have hread : Recovers t false fuel 6 True _ _ (· = .endOfFile)
      (freshId >>= fun id => _ >>= fun r : List Stmt × Bool => span >>= fun at_ =>
        pure (⟨id, file, r.1, r.2, ⟨0, at_.stop⟩⟩ : Program)) fun q => q.source t = p :=
    recovers_freshId_bind fun id => hbody.bind_of_le (Nat.le_add_right _ _) (fun r =>
      Recovers.span_bind fun at_ => recovers_pure fun h => by
        rw [Program.source, h.1.1, h.1.2]) fun _ h => h
  have hgo := goesOn_program fuel file strict
  exact ⟨hgo, (hread.of_eq (Nat.max_zero _).symm (List.append_nil _).symm).rereads⟩

theorem facing_start {σ : Source.Spelling} {ks : List Kind} {names : Interner}
    (h : Source.Written σ ks) :
    (State.start (Lexer.read (String.ofList (σ.chars ks))).tokens names).Facing false
      (ks ++ [.endOfFile]) := by
  have hread := Lexer.restored_read h
  have hne : (Lexer.read (String.ofList (σ.chars ks))).tokens ≠ [] := by
    intro hnil
    have hkinds := hread.kinds
    rw [hnil] at hkinds
    exact List.append_ne_nil_of_right_ne_nil _ (List.cons_ne_nil _ _) hkinds.symm
  have hstart := tokens_start hne names
  refine ⟨?_, ?_, ?_, Nat.zero_le _, nofun⟩
  · rw [hstart]
    exact hread.kinds
  · rw [hstart]
    exact hread.ascending
  · rw [hstart]
    exact hread.unbroken

/-- A grammatical program that is written out is read back, unless it is nested too deeply. -/
theorem parse_text {σ : Source.Spelling} {names : Interner} (hnames : .wellKnown ≤ names)
    (hp : p.Grammatical strict) (file : String) :
    (p.nesting ≤ maxDepth →
      (parse file (p.text σ) strict names).diagnostics = [] ∧
      (parse file (p.text σ) strict names).program.source
        (parse file (p.text σ) strict names).names = p) ∧
    (maxDepth < p.nesting →
      (parse file (p.text σ) strict names).diagnostics.hasErrors = true) := by
  have hwritten : Source.Written σ (Source.Stmt.listTokens σ p.strict p.body) :=
    Source.Stmt.written_listTokens p.body hp.body
  have hlexed : Lexer.Restored 0 _ (Lexer.read (p.text σ)) := Lexer.restored_read hwritten
  have hface : (State.start (Lexer.read (p.text σ)).tokens names).Facing false _ :=
    facing_start hwritten
  have hspare : 16 * ((Source.Stmt.listTokens σ p.strict p.body).length + 0 + 1) + 6 ≤
      fuelFor (Lexer.read (p.text σ)).tokens := by
    have hlength := congrArg List.length hlexed.kinds
    rw [List.length_map, List.length_append, List.length_singleton] at hlength
    rw [fuelFor, hlength]
    omega
  have hgo : Onward (.start (Lexer.read (p.text σ)).tokens names)
      (reading file (p.text σ) strict names).2 := goesOn_program _ file strict _
  have hnames' := Interner.laws.le_trans hnames hgo.names
  have hread : Outcome false p.nesting [.endOfFile]
      ((reading file (p.text σ) strict names).1.source
        (reading file (p.text σ) strict names).2.names = p)
      (.start (Lexer.read (p.text σ)).tokens names) (reading file (p.text σ) strict names).2 := by
    rw [reading] at hnames' ⊢
    exact (recovers_program hnames' σ hp _ file).rereads trivial _ .endOfFile [] hface hspare rfl
      (Interner.laws.le_refl _)
  refine ⟨fun h => ?_, fun h => hasErrors_parse (hread.tooDeep ?_)⟩
  · obtain ⟨-, hproblems, hsource⟩ := hread.done ((Nat.zero_add _).symm ▸ h)
    constructor
    · rw [diagnostics_parse, hlexed.problems, hproblems]
      exact List.mergeSort_nil
    · rw [program_parse, names_parse]
      exact hsource
  · exact (Nat.zero_add _).symm ▸ h

/-- What was read without an error from a text and is written out is read back the same, unless it
is nested too deeply, whatever else the interner holds. -/
theorem parse_print {file file' text : String} {names names' : Interner}
    (hnames : .wellKnown ≤ names) (hnames' : .wellKnown ≤ names')
    (h : (parse file text strict names).diagnostics.hasErrors = false) (σ : Source.Spelling) :
    let first := parse file text strict names
    let p := first.program.source first.names
    let second := parse file' (p.text σ) strict names'
    (p.nesting ≤ maxDepth →
      second.diagnostics = [] ∧ second.program.source second.names = p) ∧
    (maxDepth < p.nesting → second.diagnostics.hasErrors = true) :=
  parse_text hnames' (grammatical_parse hnames h) file'

theorem parse_print_call :
    let first := parse "a.js" "f(x, (y = z) + a * -g);" false .wellKnown
    let p := first.program.source first.names
    let second := parse "b.js" (p.text .standard) false .wellKnown
    first.diagnostics.hasErrors = false ∧ p.nesting ≤ maxDepth ∧
      second.diagnostics = [] ∧ second.program.source second.names = p := by
  have h : (parse "a.js" "f(x, (y = z) + a * -g);" false .wellKnown).diagnostics.hasErrors =
      false := by decide +kernel
  have hnesting : ((parse "a.js" "f(x, (y = z) + a * -g);" false .wellKnown).program.source
      (parse "a.js" "f(x, (y = z) + a * -g);" false .wellKnown).names).nesting ≤ maxDepth := by
    decide +kernel
  have hnames := Interner.laws.le_refl .wellKnown
  exact ⟨h, hnesting, (parse_print hnames (Interner.laws.le_refl _) h _).1 hnesting⟩

end Programs

end ScopeChain.Parser
