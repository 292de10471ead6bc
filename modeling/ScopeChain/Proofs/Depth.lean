import ScopeChain.Proofs.RoundTrip

/-! How deep programs nest. The limit on reading one thing inside another bounds the depth of what
is read, the steps along chains of operators and of calls apart: these are read one after the other
and make trees of any depth. -/
namespace ScopeChain

section Depths

variable (link : Nat)

mutual

/-- How many steps lead from an expression down to its deepest part. A step along a chain, to the
left operand of an operator or to the callee of a call, counts `link`. -/
def Expr.depth : Expr → Nat
  | .number _ | .string _ | .bool _ | .null | .this _ | .identifier _ => 0
  | .assign _ e | .unary _ e | .typeof e | .delete e _ => e.depth + 1
  | .binary _ l r => max (l.depth + link) (r.depth + 1)
  | .call f args _ => max (f.depth + link) (Expr.listDepth args)
  | .function f => f.depth

/-- How many steps lead from what holds some expressions to the deepest part of them. -/
def Expr.listDepth : List Expr → Nat
  | [] => 0
  | e :: es => max (e.depth + 1) (Expr.listDepth es)

def Declarator.listDepth : List Declarator → Nat
  | [] => 0
  | ⟨_, none⟩ :: ds => Declarator.listDepth ds
  | ⟨_, some e⟩ :: ds => max (e.depth + 1) (Declarator.listDepth ds)

def Stmt.depth : Stmt → Nat
  | .var ds => Declarator.listDepth ds
  | .function f => f.depth
  | .expr e | .throw e | .return (some e) _ => e.depth + 1
  | .return none _ | .empty => 0
  | .if t c none => max (t.depth + 1) (c.depth + 1)
  | .if t c (some a) => max (max (t.depth + 1) (c.depth + 1)) (a.depth + 1)
  | .while t b => max (t.depth + 1) (b.depth + 1)
  | .block b => Stmt.listDepth b
  | .try b h f => max (Stmt.listDepth b) (max (Stmt.handlerDepth h) (Stmt.finalizerDepth f))

def Stmt.listDepth : List Stmt → Nat
  | [] => 0
  | s :: ss => max (s.depth + 1) (Stmt.listDepth ss)

def Stmt.handlerDepth : Option CatchClause → Nat
  | none => 0
  | some ⟨_, _, body⟩ => Stmt.listDepth body

def Stmt.finalizerDepth : Option (List Stmt) → Nat
  | none => 0
  | some body => Stmt.listDepth body

def FunctionDef.depth : FunctionDef → Nat
  | ⟨_, _, _, body, _, _⟩ => Stmt.listDepth body

end

/-- How deep the statements of a program nest. -/
def Program.depth (p : Program) : Nat := Stmt.listDepth link p.body

theorem Stmt.listDepth_append (ss ts : List Stmt) :
    Stmt.listDepth link (ss ++ ts) = max (Stmt.listDepth link ss) (Stmt.listDepth link ts) := by
  induction ss with
  | nil => simp [Stmt.listDepth]
  | cons s ss ih => rw [List.cons_append, Stmt.listDepth, Stmt.listDepth, ih, Nat.max_assoc]

end Depths

namespace Parser

variable {α β : Type} {d : Nat}

/-- Read `d` levels deep, what is answered has a property. -/
def Yields (d : Nat) (f : ParseM α) (P : α → Prop) : Prop := ∀ s, s.depth = d → P (f s).1

theorem Yields.pure {P : α → Prop} {a : α} (h : P a) : Yields d (pure a) P := fun _ _ => h

theorem Yields.bind {P : β → Prop} {Q : α → Prop} {f : ParseM α} {g : α → ParseM β}
    (hf : Yields d f Q) (hgo : GoesOn f) (h : ∀ a, Q a → Yields d (g a) P) :
    Yields d (f >>= g) P :=
  fun s hs => h _ (hf s hs) _ ((hgo s).depth.trans hs)

/-- One step whose answer does not matter. -/
theorem GoesOn.then {P : β → Prop} {f : ParseM α} {g : α → ParseM β} (hgo : GoesOn f)
    (h : ∀ a, Yields d (g a) P) : Yields d (f >>= g) P :=
  fun s hs => h _ _ ((hgo s).depth.trans hs)

theorem Yields.map {P : β → Prop} {f : ParseM α} {h : α → β} (hf : Yields d f fun a => P (h a)) :
    Yields d (h <$> f) P := hf

theorem Yields.inFunction {P : α → Prop} {f : ParseM α} (h : Yields d f P) :
    Yields d (inFunction f) P :=
  fun s hs => h { s with functionDepth := s.functionDepth + 1 } hs

/-- A level further down there are fewer left. -/
theorem Yields.nested {P : α → Prop} {f : ParseM α} {m : Message} {a : α} (ha : P a)
    (h : d < maxDepth → Yields (d + 1) f P) : Yields d (nested m a f) P := by
  intro s hs
  rw [nested_run]
  split
  · exact ha
  · next hdepth => exact h (by omega) { s with depth := s.depth + 1 } (congrArg (· + 1) hs)

/-- How deep a unary expression can nest that is read `d` levels deep: up to four steps lead from
one level to the next. -/
def roomAt (d : Nat) : Nat := 4 * (maxDepth - d)

theorem roomAt_succ (h : d < maxDepth) : roomAt d = roomAt (d + 1) + 4 := by
  unfold roomAt
  omega

/-- How deep the answers of each reader nest. Binary operators of rising strength nest on the right
without a level of their own. -/
structure AllYield (fuel : Nat) : Prop where
  statement : ∀ {d} strict, Yields d (statement fuel strict) (·.depth 0 ≤ roomAt d)
  condition : ∀ {d} strict, Yields d (condition fuel strict) (·.depth 0 ≤ roomAt d + 3)
  declarators : ∀ {d} strict,
    Yields d (declarators fuel strict) (Declarator.listDepth 0 · ≤ roomAt d + 4)
  statements : ∀ {d} ends strict,
    Yields d (statements fuel ends strict) (Stmt.listDepth 0 · ≤ roomAt d + 1)
  block : ∀ {d} strict, Yields d (block fuel strict) (Stmt.listDepth 0 · ≤ roomAt d + 1)
  catchRest : ∀ {d} strict,
    Yields d (catchRest fuel strict) fun c => Stmt.handlerDepth 0 (some c) ≤ roomAt d + 1
  directives : ∀ {d} strict,
    Yields d (directives fuel strict) fun r => Stmt.listDepth 0 r.1 ≤ roomAt d + 1
  functionRest : ∀ {d} strict declaration,
    Yields d (functionRest fuel strict declaration) (·.depth 0 ≤ roomAt d + 1)
  expression : ∀ {d} strict, Yields d (expression fuel strict) (·.depth 0 ≤ roomAt d + 3)
  binary : ∀ {d} strict least, least ≤ 7 →
    Yields d (binary fuel strict least) (·.depth 0 ≤ roomAt d + (7 - least))
  binaryRest : ∀ {d} strict least left, least ≤ 7 → left.depth 0 ≤ roomAt d + (7 - least) →
    Yields d (binaryRest fuel strict least left) (·.depth 0 ≤ roomAt d + (7 - least))
  unary : ∀ {d} strict, Yields d (unary fuel strict) (·.depth 0 ≤ roomAt d)
  callRest : ∀ {d} strict start callee, callee.depth 0 ≤ roomAt d + 4 →
    Yields d (callRest fuel strict start callee) (·.depth 0 ≤ roomAt d + 4)
  arguments : ∀ {d} strict,
    Yields d (arguments fuel strict) (Expr.listDepth 0 · ≤ roomAt d + 4)
  primary : ∀ {d} strict, Yields d (primary fuel strict) (·.depth 0 ≤ roomAt d + 4)

section Readers

variable {fuel : Nat}

theorem allYield_zero : AllYield 0 := by
  constructor <;> intros
  all_goals first
    | exact .pure (Nat.zero_le _)
    | exact .pure ‹_›

theorem yields_condition (ih : AllYield fuel) (strict : Bool) :
    Yields d (condition (fuel + 1) strict) (·.depth 0 ≤ roomAt d + 3) :=
  (goesOn_expect _).then fun _ => (ih.expression strict).bind ((allGoOn fuel).expression strict)
    fun _ he => (goesOn_expect _).then fun _ => .pure he

theorem yields_declarators (ih : AllYield fuel) (strict : Bool) :
    Yields d (declarators (fuel + 1) strict) (Declarator.listDepth 0 · ≤ roomAt d + 4) := by
  refine goesOn_identifier.then fun target => (goesOn_checkBinding _ _).then fun _ =>
    (goesOn_accept _).then fun c => ?_
  extract_lets rest
  have hrest : ∀ value : Option Expr, (∀ e ∈ value, e.depth 0 ≤ roomAt d + 3) →
      Yields d (rest value) (Declarator.listDepth 0 · ≤ roomAt d + 4) := by
    intro value hvalue
    have hlist (ds : List Declarator) (hds : Declarator.listDepth 0 ds ≤ roomAt d + 4) :
        Declarator.listDepth 0 (⟨target, value⟩ :: ds) ≤ roomAt d + 4 := by
      cases value with
      | none => exact hds
      | some e => exact Nat.max_le.2 ⟨Nat.succ_le_succ (hvalue e rfl), hds⟩
    refine (goesOn_accept _).then fun more => ?_
    split
    · exact (ih.declarators strict).bind ((allGoOn fuel).declarators strict) fun ds hds =>
        .pure (hlist ds hds)
    · exact .pure (hlist [] (Nat.zero_le _))
  split
  · refine Yields.bind (Q := fun value => ∀ e ∈ value, e.depth 0 ≤ roomAt d + 3)
      (Yields.map fun s hs => ?_) ((allGoOn fuel).expression strict).map hrest
    rintro _ ⟨⟩
    exact ih.expression strict s hs
  · exact (Yields.pure nofun).bind (goesOn_pure none) hrest

theorem yields_statements (ih : AllYield fuel) (ends : Token.Kind → Bool) (strict : Bool) :
    Yields d (statements (fuel + 1) ends strict) (Stmt.listDepth 0 · ≤ roomAt d + 1) := by
  refine goesOn_kind.then fun k => ?_
  split
  · exact .pure (Nat.zero_le _)
  · refine goesOn_span.then fun at_ => ?_
    extract_lets start
    refine (ih.statement strict).bind ((allGoOn fuel).statement strict) fun st hst =>
      goesOn_span.then fun at_ => goesOn_kind.then fun k => ?_
    extract_lets rest
    have hrest : ∀ u, Yields d (rest u) (Stmt.listDepth 0 · ≤ roomAt d + 1) := fun _ =>
      (ih.statements ends strict).bind ((allGoOn fuel).statements ends strict) fun ss hss =>
        .pure (Nat.max_le.2 ⟨Nat.succ_le_succ hst, hss⟩)
    split
    · exact goesOn_advance.then hrest
    · exact hrest ()

theorem yields_block (ih : AllYield fuel) (strict : Bool) :
    Yields d (block (fuel + 1) strict) (Stmt.listDepth 0 · ≤ roomAt d + 1) := by
  refine (goesOn_expect _).then fun opened => ?_
  split
  · exact (ih.statements _ strict).bind ((allGoOn fuel).statements _ strict) fun ss hss =>
      (goesOn_expect _).then fun _ => .pure hss
  · exact .pure (Nat.zero_le _)

theorem yields_catchRest (ih : AllYield fuel) (strict : Bool) :
    Yields d (catchRest (fuel + 1) strict) fun c =>
      Stmt.handlerDepth 0 (some c) ≤ roomAt d + 1 :=
  goesOn_freshId.then fun _ => (goesOn_expect _).then fun _ => goesOn_identifier.then fun _ =>
    (goesOn_checkBinding _ _).then fun _ => (goesOn_expect _).then fun _ =>
      (ih.block strict).bind ((allGoOn fuel).block strict) fun _ hbody => .pure hbody

theorem yields_directives (ih : AllYield fuel) (strict : Bool) :
    Yields d (directives (fuel + 1) strict) fun r => Stmt.listDepth 0 r.1 ≤ roomAt d + 1 := by
  refine goesOn_kind.then fun k => ?_
  split
  · refine (ih.statement strict).bind ((allGoOn fuel).statement strict) fun st hst => ?_
    split
    · exact (ih.directives _).bind ((allGoOn fuel).directives _) fun r hr =>
        .pure (Nat.max_le.2 ⟨Nat.succ_le_succ hst, hr⟩)
    · exact .pure (Nat.max_le.2 ⟨Nat.succ_le_succ hst, Nat.zero_le _⟩)
  · exact .pure (Nat.zero_le _)

/-- The body of a function, up to its closing brace. -/
theorem yields_functionBody (ih : AllYield fuel) (outer : Bool) :
    Yields d (do
      if ← expect .openBrace then
        let (ds, strict) ← directives fuel outer
        let ss ← statements fuel atBlockEnd strict
        let _ ← expect .closeBrace
        return (ds ++ ss, strict)
      return ([], outer)) fun r => Stmt.listDepth 0 r.1 ≤ roomAt d + 1 := by
  refine (goesOn_expect _).then fun opened => ?_
  split
  · refine (ih.directives outer).bind ((allGoOn fuel).directives outer) fun r hr =>
      (ih.statements _ r.2).bind ((allGoOn fuel).statements _ r.2) fun ss hss =>
        (goesOn_expect _).then fun _ => .pure ?_
    rw [Stmt.listDepth_append]
    exact Nat.max_le.2 ⟨hr, hss⟩
  · exact .pure (Nat.zero_le _)

theorem yields_functionRest (ih : AllYield fuel) (outer declaration : Bool) :
    Yields d (functionRest (fuel + 1) outer declaration) (·.depth 0 ≤ roomAt d + 1) := by
  refine goesOn_span.then fun at_ => goesOn_freshId.then fun id => goesOn_kind.then fun k => ?_
  extract_lets named afterSelf
  have hself : ∀ self, Yields d (afterSelf self) (·.depth 0 ≤ roomAt d + 1) := by
    intro self
    refine (goesOn_expect _).then fun _ => goesOn_kind.then fun k => ?_
    extract_lets afterParams
    have hparams : ∀ ps, Yields d (afterParams ps) (·.depth 0 ≤ roomAt d + 1) := fun ps =>
      (goesOn_expect _).then fun _ => (yields_functionBody ih outer).inFunction.bind
        (goesOn_functionBody_succ (allGoOn fuel) outer).inFunction fun r hr => by
          have hend : Yields d (do
              checkParams r.2 [] ps
              return (⟨id, self, ps, r.1, r.2, ← spanFrom at_.start⟩ : FunctionDef))
              (·.depth 0 ≤ roomAt d + 1) :=
            (goesOn_checkParams _ _ _).then fun _ => (goesOn_spanFrom _).then fun _ => .pure hr
          cases self with
          | none => exact hend
          | some i => exact (goesOn_checkBinding _ _).then fun _ => hend
    split
    · exact (goesOn_pure _).then hparams
    · exact (goesOn_params fuel).then hparams
  split
  · exact goesOn_identifier.map.then hself
  · exact (goesOn_pure _).then hself

theorem yields_expression (ih : AllYield fuel) (strict : Bool) :
    Yields d (expression (fuel + 1) strict) (·.depth 0 ≤ roomAt d + 3) := by
  rw [Parser.expression]
  refine Yields.nested (Nat.zero_le _) fun hd => goesOn_span.then fun at_ => ?_
  rw [roomAt_succ hd]
  refine (ih.binary strict 0 (by decide)).bind ((allGoOn fuel).binary strict 0) fun left hleft =>
    (goesOn_accept _).then fun c => ?_
  split
  · refine (ih.expression strict).bind ((allGoOn fuel).expression strict) fun value hvalue => ?_
    split
    · exact (goesOn_checkBinding _ _).then fun _ => .pure (by rw [Expr.depth]; omega)
    · exact (goesOn_reportAt _ rfl _).then fun _ => .pure (by omega)
  · exact .pure hleft

theorem yields_binary (ih : AllYield fuel) (strict : Bool) (least : Nat) (h : least ≤ 7) :
    Yields d (binary (fuel + 1) strict least) (·.depth 0 ≤ roomAt d + (7 - least)) :=
  (ih.unary strict).bind ((allGoOn fuel).unary strict) fun e he =>
    ih.binaryRest strict least e h (Nat.le_trans he (Nat.le_add_right _ _))

theorem strength_le {k : Token.Kind} {op : BinaryOp} {strength : Nat}
    (h : binaryOp? k = some (op, strength)) : strength ≤ 6 := by
  unfold binaryOp? at h
  split at h <;> cases h <;> decide

theorem yields_binaryRest (ih : AllYield fuel) (strict : Bool) (least : Nat) (left : Expr)
    (hl : least ≤ 7) (hleft : left.depth 0 ≤ roomAt d + (7 - least)) :
    Yields d (binaryRest (fuel + 1) strict least left) (·.depth 0 ≤ roomAt d + (7 - least)) := by
  refine goesOn_kind.then fun k => ?_
  split
  · next op strength hop =>
    have hstrength := strength_le hop
    split
    · exact .pure hleft
    · refine goesOn_advance.then fun _ => (ih.binary strict _ (by omega)).bind
        ((allGoOn fuel).binary strict _) fun right hright => ih.binaryRest strict least _ hl ?_
      rw [Expr.depth]
      omega
  · exact .pure hleft

theorem yields_unary (ih : AllYield fuel) (strict : Bool) :
    Yields d (unary (fuel + 1) strict) (·.depth 0 ≤ roomAt d) := by
  rw [Parser.unary]
  refine Yields.nested (Nat.zero_le _) fun hd => goesOn_span.then fun at_ =>
    goesOn_kind.then fun k => ?_
  rw [roomAt_succ hd]
  split
  · exact goesOn_advance.then fun _ => (ih.unary strict).bind ((allGoOn fuel).unary strict)
      fun e he => .pure (by rw [Expr.depth]; omega)
  · refine goesOn_advance.then fun _ => (ih.unary strict).bind ((allGoOn fuel).unary strict)
      fun e he => ?_
    extract_lets rest
    have hrest : ∀ u, Yields (d + 1) (rest u) (·.depth 0 ≤ roomAt (d + 1) + 4) := fun _ =>
      (goesOn_spanFrom _).then fun _ => .pure (by rw [Expr.depth]; omega)
    split
    · exact (goesOn_reportAt _ rfl _).then hrest
    · exact hrest ()
  · split
    · exact goesOn_advance.then fun _ => (ih.unary strict).bind ((allGoOn fuel).unary strict)
        fun e he => .pure (by rw [Expr.depth]; omega)
    · exact (ih.primary strict).bind ((allGoOn fuel).primary strict) fun e he =>
        ih.callRest strict _ e he

theorem yields_callRest (ih : AllYield fuel) (strict : Bool) (start : Nat) (callee : Expr)
    (hcallee : callee.depth 0 ≤ roomAt d + 4) :
    Yields d (callRest (fuel + 1) strict start callee) (·.depth 0 ≤ roomAt d + 4) := by
  refine (goesOn_accept _).then fun c => ?_
  split
  · refine goesOn_kind.then fun k => ?_
    extract_lets rest
    have hrest : ∀ args, Expr.listDepth 0 args ≤ roomAt d + 4 →
        Yields d (rest args) (·.depth 0 ≤ roomAt d + 4) := fun args hargs =>
      goesOn_span.then fun at_ => (goesOn_expect _).then fun _ => by
        exact ih.callRest strict start _ (Nat.max_le.2 ⟨hcallee, hargs⟩)
    split
    · exact Yields.bind (.pure (Nat.zero_le _)) (goesOn_pure _) hrest
    · exact (ih.arguments strict).bind ((allGoOn fuel).arguments strict) hrest
  · exact .pure hcallee

theorem yields_arguments (ih : AllYield fuel) (strict : Bool) :
    Yields d (arguments (fuel + 1) strict) (Expr.listDepth 0 · ≤ roomAt d + 4) := by
  refine (ih.expression strict).bind ((allGoOn fuel).expression strict) fun e he =>
    (goesOn_accept _).then fun more => ?_
  split
  · exact (ih.arguments strict).bind ((allGoOn fuel).arguments strict) fun es hes =>
      .pure (Nat.max_le.2 ⟨Nat.succ_le_succ he, hes⟩)
  · exact .pure (Nat.max_le.2 ⟨Nat.succ_le_succ he, Nat.zero_le _⟩)

theorem yields_primary (ih : AllYield fuel) (strict : Bool) :
    Yields d (primary (fuel + 1) strict) (·.depth 0 ≤ roomAt d + 4) := by
  rw [Parser.primary]
  refine goesOn_span.then fun at_ => goesOn_kind.then fun k => ?_
  have hleaf (e : Expr) (he : e.depth 0 = 0) : e.depth 0 ≤ roomAt d + 4 := 
    Nat.le_trans (Nat.le_of_eq he) (Nat.zero_le _)
  split
  case h_6 => exact goesOn_advance.then fun _ => goesOn_freshId.then fun _ => .pure (hleaf _ rfl)
  case h_7 => exact goesOn_identifier.then fun _ => .pure (hleaf _ rfl)
  case h_8 =>
    exact goesOn_advance.then fun _ => (ih.functionRest strict false).bind
      ((allGoOn fuel).functionRest strict false) fun f hf => .pure (by rw [Expr.depth]; omega)
  case h_9 =>
    exact goesOn_advance.then fun _ => (ih.expression strict).bind
      ((allGoOn fuel).expression strict) fun e he => (goesOn_expect _).then fun _ =>
        .pure (by omega)
  case h_10 => exact (goesOn_report rfl _).then fun _ => .pure (hleaf _ rfl)
  all_goals exact goesOn_advance.then fun _ => .pure (hleaf _ rfl)

theorem yields_statement (ih : AllYield fuel) (strict : Bool) :
    Yields d (statement (fuel + 1) strict) (·.depth 0 ≤ roomAt d) := by
  rw [Parser.statement]
  refine Yields.nested (Nat.zero_le _) fun hd => goesOn_kind.then fun k => ?_
  rw [roomAt_succ hd]
  have hexpr : Yields (d + 1) (expression fuel strict)
      fun e => e.depth 0 + 1 ≤ roomAt (d + 1) + 4 :=
    fun s hs => Nat.succ_le_succ (ih.expression strict s hs)
  split
  · exact goesOn_advance.then fun _ => (ih.declarators strict).bind
      ((allGoOn fuel).declarators strict) fun ds hds => goesOn_endStatement.then fun _ => .pure hds
  · exact goesOn_advance.then fun _ => (ih.functionRest strict true).bind
      ((allGoOn fuel).functionRest strict true) fun f hf => .pure (by rw [Stmt.depth]; omega)
  · refine goesOn_span.then fun at_ => goesOn_get.then fun s₀ => ?_
    extract_lets ending reading
    have hending : ∀ argument : Option Expr,
        (∀ e ∈ argument, e.depth 0 + 1 ≤ roomAt (d + 1) + 4) →
        Yields (d + 1) (ending argument) (·.depth 0 ≤ roomAt (d + 1) + 4) := by
      intro argument h
      refine goesOn_endStatement.then fun _ => .pure ?_
      cases argument with
      | none => exact Nat.zero_le _
      | some e => exact h e rfl
    have hreading : ∀ u, Yields (d + 1) (reading u) (·.depth 0 ≤ roomAt (d + 1) + 4) := by
      intro u
      refine goesOn_advance.then fun _ => goesOn_get.then fun s₁ => ?_
      extract_lets t
      split
      · exact (Yields.pure (by simp)).bind (goesOn_pure none) hending
      · refine Yields.bind (Q := fun v => ∀ e ∈ v, e.depth 0 + 1 ≤ roomAt (d + 1) + 4)
          (Yields.map fun s hs => ?_) ((allGoOn fuel).expression strict).map hending
        rintro _ ⟨⟩
        exact hexpr s hs
    split
    · exact (goesOn_report rfl _).then hreading
    · exact hreading ()
  · refine goesOn_advance.then fun _ => (ih.condition strict).bind
      ((allGoOn fuel).condition strict) fun e he => (ih.statement strict).bind
        ((allGoOn fuel).statement strict) fun c hc => (goesOn_accept _).then fun more => ?_
    split
    · exact (ih.statement strict).bind ((allGoOn fuel).statement strict) fun a ha =>
        .pure (by rw [Stmt.depth]; omega)
    · exact .pure (by rw [Stmt.depth]; omega)
  · exact goesOn_advance.then fun _ => (ih.condition strict).bind
      ((allGoOn fuel).condition strict) fun e he => (ih.statement strict).bind
        ((allGoOn fuel).statement strict) fun b hb => .pure (by rw [Stmt.depth]; omega)
  · exact (ih.block strict).bind ((allGoOn fuel).block strict) fun b hb =>
      .pure (by rw [Stmt.depth]; omega)
  · refine goesOn_advance.then fun _ => (ih.block strict).bind ((allGoOn fuel).block strict)
      fun body hbody => (goesOn_accept _).then fun c => ?_
    extract_lets afterHandler
    have hhandler : ∀ h, Stmt.handlerDepth 0 h ≤ roomAt (d + 1) + 1 →
        Yields (d + 1) (afterHandler h) (·.depth 0 ≤ roomAt (d + 1) + 4) := by
      intro h hh
      refine (goesOn_accept _).then fun c => ?_
      extract_lets afterFinalizer
      have hfinalizer : ∀ f, Stmt.finalizerDepth 0 f ≤ roomAt (d + 1) + 1 →
          Yields (d + 1) (afterFinalizer f) (·.depth 0 ≤ roomAt (d + 1) + 4) := by
        intro f hf
        have htry : (Stmt.try body h f).depth 0 ≤ roomAt (d + 1) + 4 := by
          rw [Stmt.depth]
          omega
        simp only [afterFinalizer]
        split
        · exact (goesOn_report rfl _).then fun _ => .pure htry
        · exact .pure htry
      split
      · exact Yields.bind (Yields.map (ih.block strict)) ((allGoOn fuel).block strict).map
          hfinalizer
      · exact Yields.bind (.pure (Nat.zero_le _)) (goesOn_pure none) hfinalizer
    split
    · exact Yields.bind (Yields.map (ih.catchRest strict)) ((allGoOn fuel).catchRest strict).map
        hhandler
    · exact Yields.bind (.pure (Nat.zero_le _)) (goesOn_pure none) hhandler
  · exact goesOn_advance.then fun _ => hexpr.bind ((allGoOn fuel).expression strict) fun e he =>
      goesOn_endStatement.then fun _ => .pure he
  · exact goesOn_advance.then fun _ => .pure (Nat.zero_le _)
  · exact (goesOn_report rfl _).then fun _ => .pure (Nat.zero_le _)
  · exact (goesOn_report rfl _).then fun _ => .pure (Nat.zero_le _)
  · exact hexpr.bind ((allGoOn fuel).expression strict) fun e he =>
      goesOn_endStatement.then fun _ => .pure he

theorem allYield (fuel : Nat) : AllYield fuel := by
  induction fuel with
  | zero => exact allYield_zero
  | succ fuel ih =>
    exact {
      statement := yields_statement ih
      condition := yields_condition ih
      declarators := yields_declarators ih
      statements := yields_statements ih
      block := yields_block ih
      catchRest := yields_catchRest ih
      directives := yields_directives ih
      functionRest := yields_functionRest ih
      expression := yields_expression ih
      binary := yields_binary ih
      binaryRest := yields_binaryRest ih
      unary := yields_unary ih
      callRest := yields_callRest ih
      arguments := yields_arguments ih
      primary := yields_primary ih }

theorem yields_program (fuel : Nat) (file : String) (strict : Bool) :
    Yields 0 (program fuel file strict) (·.depth 0 ≤ 4 * maxDepth + 1) := by
  refine goesOn_freshId.then fun id => ((allYield fuel).directives strict).bind
    ((allGoOn fuel).directives strict) fun r hr => ((allYield fuel).statements _ r.2).bind
      ((allGoOn fuel).statements _ r.2) fun ss hss => goesOn_span.then fun at_ => .pure ?_
  rw [Program.depth, Stmt.listDepth_append]
  exact Nat.max_le.2 ⟨hr, hss⟩

end Readers

/-- Steps along chains apart, no program that is read nests deeper than the limit allows, whatever
its text. -/
theorem depth_parse_le (file text : String) (strict : Bool) (names : Interner) :
    (parse file text strict names).program.depth 0 ≤ 4 * maxDepth + 1 :=
  yields_program (fuelFor (Lexer.read text).tokens) file strict _ rfl

end Parser

namespace Source

/-- A chain of operators: `true`, and so many times one more `true` added to it. -/
def chain : Nat → Expr
  | 0 => .bool true
  | n + 1 => .binary .add (chain n) (.bool true)

def chainProgram (n : Nat) : Program := ⟨[.expr (chain n)], false⟩

theorem grammatical_chain (n : Nat) : (chain n).Grammatical false := by
  induction n with
  | zero => trivial
  | succ n ih => exact ⟨ih, trivial⟩

/-- The operands of a chain are read one after the other. -/
theorem nesting_chain (n : Nat) : (chain n).nesting ≤ 1 := by
  induction n with
  | zero => exact Nat.zero_le _
  | succ n ih =>
    have hleft : operandNesting BinaryOp.add.strength (chain n).level (chain n).nesting ≤ 1 := by
      cases n with
      | zero => decide
      | succ n => exact ih
    exact Nat.max_le.2 ⟨hleft, by decide⟩

theorem grammatical_chainProgram (n : Nat) : (chainProgram n).Grammatical false :=
  ⟨nofun, nofun, grammatical_chain n, trivial⟩

/-- The text of a chain begins with a literal. -/
theorem opensFunction_chain (n : Nat) : (chain n).opensFunction = false := by
  induction n with
  | zero => rfl
  | succ n ih => exact Bool.and_eq_false_iff.2 (.inr ih)

theorem nesting_chainProgram (n : Nat) : (chainProgram (n + 1)).nesting ≤ Parser.maxDepth := by
  have hmisleads : (chain (n + 1)).misleads false = false := opensFunction_chain (n + 1)
  have hlevel : (chain (n + 1)).level = BinaryOp.add.strength := rfl
  have h : (chainProgram (n + 1)).nesting = 2 + (chain (n + 1)).nesting := by
    simp only [chainProgram, Program.nesting, Stmt.listNesting, Stmt.nesting, hmisleads, hlevel,
      wholeNesting, BinaryOp.strength, Bool.false_eq_true, if_false, if_neg (by decide : ¬7 ≤ 5)]
    omega
  rw [h]
  exact Nat.le_trans (Nat.add_le_add_left (nesting_chain _) 2) (by decide)

theorem le_depth_of_source {t : Interner} (n : Nat) {e : ScopeChain.Expr}
    (h : e.source t = chain n) : n ≤ e.depth 1 := by
  induction n generalizing e with
  | zero => exact Nat.zero_le _
  | succ n ih =>
    cases e with
    | binary op l r =>
      obtain ⟨-, hl, -⟩ := Expr.binary.inj h
      have := ih hl
      rw [ScopeChain.Expr.depth]
      omega
    | _ => cases h

theorem le_depth_of_source_chainProgram {t : Interner} (n : Nat) {p : ScopeChain.Program}
    (h : p.source t = chainProgram n) : n ≤ p.depth 1 := by
  have hbody : ScopeChain.Stmt.sources t p.body = [.expr (chain n)] := congrArg Program.body h
  rw [ScopeChain.Program.depth]
  cases hp : p.body with
  | nil =>
    rw [hp] at hbody
    cases hbody
  | cons s ss =>
    rw [hp] at hbody
    obtain ⟨hs, -⟩ := List.cons.inj hbody
    have hle : n ≤ s.depth 1 := by
      cases s with
      | expr e => exact Nat.le_succ_of_le (le_depth_of_source n (Stmt.expr.inj hs))
      | «return» a => cases a <;> cases hs
      | «if» t c a => cases a <;> cases hs
      | _ => cases hs
    rw [ScopeChain.Stmt.listDepth]
    omega

end Source

namespace Parser

/-- There is no bound on how deep programs nest. -/
theorem depth_parse_unbounded : ¬ ∃ bound, ∀ file text strict names,
    (parse file text strict names).program.depth 1 ≤ bound := by
  rintro ⟨bound, h⟩
  have hread := (parse_text (σ := .standard) (Interner.laws.le_refl .wellKnown)
    (Source.grammatical_chainProgram (bound + 1)) "a.js").1 (Source.nesting_chainProgram bound)
  have hdeep := Source.le_depth_of_source_chainProgram (bound + 1) hread.2
  exact Nat.lt_irrefl _ (Nat.lt_of_lt_of_le hdeep (h _ _ _ _))

end Parser

end ScopeChain
