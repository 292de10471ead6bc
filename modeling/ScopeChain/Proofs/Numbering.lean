import Mathlib.Data.List.Nodup
import ScopeChain.Program.Parser

/-! The nodes of a program that is read have numbers of their own, in the order of the text. -/
namespace ScopeChain

mutual

/-- The numbers of an expression's nodes in the order of the text. -/
def Expr.nodes : Expr → List NodeId
  | .number _ | .string _ | .bool _ | .null => []
  | .this i | .identifier i => [i.id]
  | .assign i e => i.id :: e.nodes
  | .binary _ l r => l.nodes ++ r.nodes
  | .unary _ e | .typeof e | .delete e _ => e.nodes
  | .call f args _ => f.nodes ++ Expr.allNodes args
  | .function f => f.nodes

def Expr.allNodes : List Expr → List NodeId
  | [] => []
  | e :: es => e.nodes ++ Expr.allNodes es

def Declarator.allNodes : List Declarator → List NodeId
  | [] => []
  | ⟨i, none⟩ :: ds => i.id :: Declarator.allNodes ds
  | ⟨i, some e⟩ :: ds => i.id :: e.nodes ++ Declarator.allNodes ds

def Stmt.nodes : Stmt → List NodeId
  | .var ds => Declarator.allNodes ds
  | .function f => f.nodes
  | .expr e | .throw e | .return (some e) _ => e.nodes
  | .return none _ | .empty => []
  | .if t c none => t.nodes ++ c.nodes
  | .if t c (some a) => t.nodes ++ c.nodes ++ a.nodes
  | .while t b => t.nodes ++ b.nodes
  | .block b => Stmt.allNodes b
  | .try b h f => Stmt.allNodes b ++ Stmt.handlerNodes h ++ Stmt.finalizerNodes f

def Stmt.allNodes : List Stmt → List NodeId
  | [] => []
  | s :: ss => s.nodes ++ Stmt.allNodes ss

def Stmt.handlerNodes : Option CatchClause → List NodeId
  | none => []
  | some ⟨id, param, body⟩ => id :: param.id :: Stmt.allNodes body

def Stmt.finalizerNodes : Option (List Stmt) → List NodeId
  | none => []
  | some body => Stmt.allNodes body

def FunctionDef.nodes : FunctionDef → List NodeId
  | ⟨id, self, params, body, _, _⟩ =>
    id :: (self.toList ++ params).map Identifier.id ++ Stmt.allNodes body

end

def Program.nodes (p : Program) : List NodeId := p.id :: Stmt.allNodes p.body

theorem Stmt.allNodes_append (ss ts : List Stmt) :
    Stmt.allNodes (ss ++ ts) = Stmt.allNodes ss ++ Stmt.allNodes ts := by
  induction ss with
  | nil => rfl
  | cons s ss ih => simp [Stmt.allNodes, ih]

namespace Parser

variable {α β : Type} {lo mid hi : Nat} {xs ys : List Nat}

/-- Numbers in ascending order, all of them between two bounds. -/
structure Between (lo hi : Nat) (xs : List Nat) : Prop where
  le : lo ≤ hi
  ascending : xs.Pairwise (· < ·)
  bounds : ∀ x ∈ xs, lo ≤ x ∧ x < hi

theorem Between.append (hx : Between lo mid xs) (hy : Between mid hi ys) :
    Between lo hi (xs ++ ys) := by
  refine ⟨Nat.le_trans hx.le hy.le, ?_, fun z hz => ?_⟩
  · rw [List.pairwise_append]
    refine ⟨hx.ascending, hy.ascending, fun x hxm y hym => ?_⟩
    exact Nat.lt_of_lt_of_le (hx.bounds x hxm).2 (hy.bounds y hym).1
  · have := hx.le
    have := hy.le
    rcases List.mem_append.mp hz with hz | hz
    · have := hx.bounds z hz
      omega
    · have := hy.bounds z hz
      omega

theorem Between.sublist (h : Between lo hi xs) (hs : ys.Sublist xs) : Between lo hi ys :=
  ⟨h.le, h.ascending.sublist hs, fun y hy => h.bounds y (hs.subset hy)⟩

theorem Between.nodup (h : Between lo hi xs) : xs.Nodup :=
  h.ascending.imp fun hlt => Nat.ne_of_lt hlt

/-- Nodes that are already numbered, and those read next, come out with numbers in order. -/
def Reads (held : List NodeId) (f : ParseM α) (out : α → List NodeId) : Prop :=
  ∀ lo s, Between lo s.nextId held → Between lo (f s).2.nextId (out (f s).1)

/-- Reading gives out no numbers. -/
def Quiet (f : ParseM α) : Prop := ∀ s, (f s).2.nextId = s.nextId

section Rules

variable {held : List NodeId} {f : ParseM α} {g : α → ParseM β} {out : β → List NodeId}
  {inner : α → List NodeId}

theorem Reads.bind (hf : Reads held f inner) (hg : ∀ a, Reads (inner a) (g a) out) :
    Reads held (f >>= g) out := fun lo s h => hg _ lo _ (hf lo s h)

theorem Reads.pure {b : β} (h : (out b).Sublist held) : Reads held (pure b) out :=
  fun _ _ hb => hb.sublist h

/-- What is held stays in front of what is read. -/
theorem Reads.behind (hf : Reads [] f inner) : Reads held f fun a => held ++ inner a :=
  fun _ s h => h.append (hf s.nextId s ⟨Nat.le_refl _, .nil, by simp⟩)

theorem Quiet.reads (hf : Quiet f) : Reads held f fun _ => held := fun lo s h => by
  rw [hf s]
  exact h

theorem Quiet.pure {a : α} : Quiet (pure a : ParseM α) := fun _ => rfl

theorem Quiet.bind (hf : Quiet f) (hg : ∀ a, Quiet (g a)) : Quiet (f >>= g) :=
  fun s => (hg _ _).trans (hf s)

theorem Reads.map {h : α → β} (hf : Reads held f fun a => out (h a)) :
    Reads held (h <$> f) out := hf

/-- One step after another, where the first gives out no numbers. -/
theorem Quiet.then (hf : Quiet f) (hg : ∀ a, Reads held (g a) out) : Reads held (f >>= g) out :=
  hf.reads.bind hg

end Rules

section Leaves

variable {held : List Nat}

theorem quiet_get : Quiet (get : ParseM State) := fun _ => rfl

theorem quiet_modify {g : State → State} (h : ∀ s, (g s).nextId = s.nextId) : Quiet (modify g) := h

theorem quiet_kind : Quiet kind := quiet_get.bind fun _ => .pure

theorem quiet_span : Quiet span := quiet_get.bind fun _ => .pure

theorem quiet_advance : Quiet advance := quiet_modify fun s => by split <;> rfl

theorem quiet_reportAt (at_ : Span) (m : Message) (args : List String) :
    Quiet (reportAt at_ m args) := quiet_modify fun _ => rfl

theorem quiet_report (m : Message) (args : List String) : Quiet (report m args) :=
  quiet_span.bind fun _ => quiet_reportAt _ m args

theorem quiet_intern (text : String) : Quiet (intern text) := fun _ => rfl

theorem quiet_accept (k : Token.Kind) : Quiet (accept k) := by
  refine quiet_kind.bind ?_
  intro _
  split
  · exact quiet_advance.bind fun _ => .pure
  · exact .pure

theorem quiet_expect (p : Punctuator) : Quiet (expect p) := by
  refine (quiet_accept _).bind ?_
  intro _
  split
  · exact .pure
  · exact (quiet_report _ _).bind fun _ => .pure

theorem quiet_endStatement : Quiet endStatement := by
  refine (quiet_accept _).bind ?_
  intro _
  split
  · exact .pure
  · refine quiet_get.bind ?_
    intro s
    extract_lets t
    split
    · exact .pure
    · exact quiet_report _ _

theorem quiet_checkBinding (strict : Bool) (i : Identifier) : Quiet (checkBinding strict i) := by
  unfold checkBinding
  split
  · exact quiet_get.bind fun _ => quiet_reportAt _ _ _
  · exact .pure

theorem quiet_checkParams (strict : Bool) (earlier : List Name) (ps : List Identifier) :
    Quiet (checkParams strict earlier ps) := by
  induction ps generalizing earlier with
  | nil => exact .pure
  | cons p ps ih =>
    refine (quiet_checkBinding strict p).bind ?_
    intro _
    split
    · exact (quiet_get.bind fun _ => quiet_reportAt _ _ _).bind fun _ => ih _
    · exact ih _

theorem quiet_spanFrom (start : Nat) : Quiet (spanFrom start) := quiet_span.bind fun _ => .pure

theorem reads_freshId : Reads held freshId fun id => held ++ [id] := by
  refine Reads.behind ?_
  intro lo s h
  refine ⟨Nat.le_succ_of_le h.le, List.pairwise_singleton _ _, fun x hx => ?_⟩
  rw [List.mem_singleton.mp hx]
  exact ⟨h.le, Nat.lt_succ_self _⟩

theorem reads_identifier : Reads held identifier fun i => held ++ [i.id] := by
  refine quiet_span.then fun at_ => quiet_kind.then ?_
  intro k
  extract_lets rest
  have hrest : ∀ name, Reads held (rest name) fun i => held ++ [i.id] := fun name =>
    reads_freshId.bind fun id => .pure (List.Sublist.refl _)
  split
  · exact (quiet_intern _).then fun n => quiet_advance.then fun _ => Quiet.pure.then hrest
  · exact (quiet_report _ _).then fun _ => (quiet_intern _).then hrest

theorem Reads.nested {α : Type} {m : Message} {instead : α} {inner : ParseM α}
    {out : α → List NodeId} (hi : Reads held inner out) (hn : (out instead).Sublist held) :
    Reads held (nested m instead inner) out := by
  refine quiet_get.then ?_
  intro s
  split
  · exact (quiet_report m []).then fun _ => .pure hn
  · refine Quiet.then (quiet_modify ?_) fun _ => hi.bind fun a => Quiet.then (quiet_modify ?_) fun _ =>
      .pure (List.Sublist.refl _)
    · exact fun _ => rfl
    · exact fun _ => rfl

theorem Reads.inFunction {α : Type} {body : ParseM α} {out : α → List NodeId}
    (hb : Reads held body out) : Reads held (inFunction body) out := by
  refine Quiet.then (quiet_modify ?_) fun _ => hb.bind fun a => Quiet.then (quiet_modify ?_) fun _ =>
    .pure (List.Sublist.refl _)
  · exact fun _ => rfl
  · exact fun _ => rfl

theorem reads_params (fuel : Nat) :
    Reads held (params fuel) fun ps => held ++ ps.map Identifier.id := by
  induction fuel generalizing held with
  | zero => exact .pure (by simp)
  | succ fuel ih =>
    refine reads_identifier.bind fun p => (quiet_accept _).then ?_
    intro more
    split
    · exact ih.bind fun ps => .pure (by simp)
    · exact .pure (by simp)

end Leaves

/-- What every reader does with the numbers of nodes. -/
structure Ordered (fuel : Nat) : Prop where
  statement : ∀ strict, Reads [] (statement fuel strict) Stmt.nodes
  condition : ∀ strict, Reads [] (condition fuel strict) Expr.nodes
  declarators : ∀ strict, Reads [] (declarators fuel strict) Declarator.allNodes
  statements : ∀ ends strict, Reads [] (statements fuel ends strict) Stmt.allNodes
  block : ∀ strict, Reads [] (block fuel strict) Stmt.allNodes
  catchRest : ∀ strict, Reads [] (catchRest fuel strict) fun c => Stmt.handlerNodes (some c)
  directives : ∀ strict, Reads [] (directives fuel strict) fun r => Stmt.allNodes r.1
  functionRest : ∀ strict declaration, Reads [] (functionRest fuel strict declaration)
    FunctionDef.nodes
  expression : ∀ strict, Reads [] (expression fuel strict) Expr.nodes
  binary : ∀ strict least, Reads [] (binary fuel strict least) Expr.nodes
  binaryRest : ∀ strict least left, Reads left.nodes (binaryRest fuel strict least left) Expr.nodes
  unary : ∀ strict, Reads [] (unary fuel strict) Expr.nodes
  callRest : ∀ strict start callee,
    Reads callee.nodes (callRest fuel strict start callee) Expr.nodes
  arguments : ∀ strict, Reads [] (arguments fuel strict) Expr.allNodes
  primary : ∀ strict, Reads [] (primary fuel strict) Expr.nodes

theorem ordered_zero : Ordered 0 where
  statement _ := .pure (List.Sublist.refl _)
  condition _ := .pure (List.Sublist.refl _)
  declarators _ := .pure (List.Sublist.refl _)
  statements _ _ := .pure (List.Sublist.refl _)
  block _ := .pure (List.Sublist.refl _)
  catchRest _ := reads_freshId.bind fun _ => reads_freshId.bind fun _ =>
    .pure (by simp [Stmt.handlerNodes, Stmt.allNodes])
  directives _ := .pure (List.Sublist.refl _)
  functionRest _ _ := reads_freshId.bind fun _ => .pure (by simp [FunctionDef.nodes, Stmt.allNodes])
  expression _ := .pure (List.Sublist.refl _)
  binary _ _ := .pure (List.Sublist.refl _)
  binaryRest _ _ _ := .pure (List.Sublist.refl _)
  unary _ := .pure (List.Sublist.refl _)
  callRest _ _ _ := .pure (List.Sublist.refl _)
  arguments _ := .pure (List.Sublist.refl _)
  primary _ := .pure (List.Sublist.refl _)

/-- The nodes of what may stand in a place or not. -/
def optionNodes {α : Type} (nodes : α → List NodeId) (o : Option α) : List NodeId :=
  (o.map nodes).getD []

section Readers

variable {fuel : Nat}

theorem reads_statement (ih : Ordered fuel) (strict : Bool) :
    Reads [] (statement (fuel + 1) strict) Stmt.nodes := by
  rw [Parser.statement]
  refine Reads.nested (quiet_kind.then fun k => ?_) (List.Sublist.refl _)
  split
  · exact quiet_advance.then fun _ => (ih.declarators strict).bind fun ds =>
      quiet_endStatement.then fun _ => .pure (by simp [Stmt.nodes])
  · exact quiet_advance.then fun _ => (ih.functionRest strict true).bind fun f =>
      .pure (by simp [Stmt.nodes])
  · refine quiet_span.then fun at_ => quiet_get.then ?_
    intro s
    extract_lets ending reading
    have hending : ∀ argument,
        Reads (optionNodes Expr.nodes argument) (ending argument) Stmt.nodes := by
      intro argument
      refine quiet_endStatement.then fun _ => .pure ?_
      cases argument <;> simp [Stmt.nodes, optionNodes]
    have hreading : Reads [] (reading ()) Stmt.nodes := by
      refine quiet_advance.then fun _ => quiet_get.then ?_
      intro t
      extract_lets t
      split
      · exact Reads.bind (.pure (List.Sublist.refl _)) hending
      · have hsome : Reads [] (some <$> expression fuel strict) (optionNodes Expr.nodes) :=
          Reads.map (ih.expression strict)
        exact hsome.bind hending
    split
    · exact (quiet_report _ _).then fun _ => hreading
    · exact hreading
  · refine quiet_advance.then fun _ => (ih.condition strict).bind fun t =>
      (ih.statement strict).behind.bind fun c => (quiet_accept _).then fun more => ?_
    split
    · exact (ih.statement strict).behind.bind fun a => .pure (by simp [Stmt.nodes])
    · exact .pure (by simp [Stmt.nodes])
  · exact quiet_advance.then fun _ => (ih.condition strict).bind fun t =>
      (ih.statement strict).behind.bind fun b => .pure (by simp [Stmt.nodes])
  · exact (ih.block strict).bind fun b => .pure (by simp [Stmt.nodes])
  · refine quiet_advance.then fun _ => (ih.block strict).bind fun b => (quiet_accept _).then ?_
    intro c
    extract_lets afterHandler
    have hhandler : ∀ h,
        Reads (Stmt.allNodes b ++ Stmt.handlerNodes h) (afterHandler h) Stmt.nodes := by
      intro h
      refine (quiet_accept _).then ?_
      intro more
      extract_lets afterFinalizer
      have hfinalizer : ∀ f, Reads (Stmt.allNodes b ++ Stmt.handlerNodes h ++ Stmt.finalizerNodes f)
          (afterFinalizer f) Stmt.nodes := by
        intro f
        have hend : Reads (Stmt.allNodes b ++ Stmt.handlerNodes h ++ Stmt.finalizerNodes f)
            (pure (.try b h f)) Stmt.nodes := .pure (by simp [Stmt.nodes])
        simp only [afterFinalizer]
        split
        · exact (quiet_report _ _).then fun _ => hend
        · exact hend
      split
      · have hsome : Reads [] (some <$> block fuel strict) Stmt.finalizerNodes :=
          Reads.map (ih.block strict)
        exact hsome.behind.bind hfinalizer
      · exact Reads.bind (.pure (by simp [Stmt.finalizerNodes])) hfinalizer
    split
    · have hsome : Reads [] (some <$> catchRest fuel strict) Stmt.handlerNodes :=
        Reads.map (ih.catchRest strict)
      exact hsome.behind.bind hhandler
    · exact Reads.bind (.pure (by simp [Stmt.handlerNodes])) hhandler
  · exact quiet_advance.then fun _ => (ih.expression strict).bind fun e =>
      quiet_endStatement.then fun _ => .pure (by simp [Stmt.nodes])
  · exact quiet_advance.then fun _ => .pure (by simp [Stmt.nodes])
  · exact (quiet_report _ _).then fun _ => .pure (by simp [Stmt.nodes])
  · exact (quiet_report _ _).then fun _ => .pure (by simp [Stmt.nodes])
  · exact (ih.expression strict).bind fun e => quiet_endStatement.then fun _ =>
      .pure (by simp [Stmt.nodes])

theorem reads_condition (ih : Ordered fuel) (strict : Bool) :
    Reads [] (condition (fuel + 1) strict) Expr.nodes :=
  (quiet_expect _).then fun _ => (ih.expression strict).bind fun _ => (quiet_expect _).then fun _ =>
    .pure (List.Sublist.refl _)

theorem reads_declarators (ih : Ordered fuel) (strict : Bool) :
    Reads [] (declarators (fuel + 1) strict) Declarator.allNodes := by
  refine reads_identifier.bind fun target => (quiet_checkBinding _ _).then fun _ =>
    (quiet_accept _).then fun assigned => ?_
  extract_lets rest
  have hrest : ∀ v, Reads (target.id :: optionNodes Expr.nodes v) (rest v) Declarator.allNodes := by
    intro v
    refine (quiet_accept _).then ?_
    intro more
    split
    · refine (ih.declarators strict).behind.bind fun ds => .pure ?_
      cases v <;> simp [Declarator.allNodes, optionNodes]
    · refine .pure ?_
      cases v <;> simp [Declarator.allNodes, optionNodes]
  split
  · have hsome : Reads [] (some <$> expression fuel strict) (optionNodes Expr.nodes) :=
      Reads.map (ih.expression strict)
    exact hsome.behind.bind hrest
  · exact Reads.bind (.pure (by simp [optionNodes])) hrest

theorem reads_statements (ih : Ordered fuel) (ends : Token.Kind → Bool) (strict : Bool) :
    Reads [] (statements (fuel + 1) ends strict) Stmt.allNodes := by
  refine quiet_kind.then ?_
  intro k
  split
  · exact .pure (List.Sublist.refl _)
  · refine quiet_span.then ?_
    intro at_
    extract_lets start
    refine (ih.statement strict).bind fun s => quiet_span.then fun at_ => quiet_kind.then ?_
    intro k
    extract_lets rest
    have hrest : ∀ u, Reads s.nodes (rest u) Stmt.allNodes := fun _ =>
      (ih.statements ends strict).behind.bind fun ss => .pure (by simp [Stmt.allNodes])
    split
    · exact quiet_advance.then hrest
    · exact hrest ()

theorem reads_block (ih : Ordered fuel) (strict : Bool) :
    Reads [] (block (fuel + 1) strict) Stmt.allNodes := by
  refine (quiet_expect _).then ?_
  intro opened
  split
  · exact (ih.statements _ strict).bind fun ss => (quiet_expect _).then fun _ =>
      .pure (List.Sublist.refl _)
  · exact .pure (List.Sublist.refl _)

theorem reads_catchRest (ih : Ordered fuel) (strict : Bool) :
    Reads [] (catchRest (fuel + 1) strict) fun c => Stmt.handlerNodes (some c) :=
  reads_freshId.bind fun id => (quiet_expect _).then fun _ => reads_identifier.bind fun param =>
    (quiet_checkBinding _ _).then fun _ => (quiet_expect _).then fun _ =>
      (ih.block strict).behind.bind fun body => .pure (by simp [Stmt.handlerNodes])

theorem reads_directives (ih : Ordered fuel) (strict : Bool) :
    Reads [] (directives (fuel + 1) strict) fun r => Stmt.allNodes r.1 := by
  refine quiet_kind.then ?_
  intro k
  split
  · refine (ih.statement strict).bind ?_
    intro s
    split
    · refine (ih.directives _).behind.bind ?_
      intro r
      exact .pure (by simp [Stmt.allNodes])
    · exact .pure (by simp [Stmt.allNodes])
  · exact .pure (List.Sublist.refl _)

theorem reads_expression (ih : Ordered fuel) (strict : Bool) :
    Reads [] (expression (fuel + 1) strict) Expr.nodes := by
  rw [Parser.expression]
  refine Reads.nested (quiet_span.then fun at_ => (ih.binary strict 0).bind fun left =>
    (quiet_accept _).then fun assigned => ?_) (List.Sublist.refl _)
  split
  · refine (ih.expression strict).behind.bind ?_
    intro value
    split
    · next target ht =>
      have hleft : left = .identifier target := by
        cases left <;> simp_all [Expr.identifier?]
      exact (quiet_checkBinding _ _).then fun _ => .pure (by simp [Expr.nodes, hleft])
    · exact (quiet_reportAt _ _ _).then fun _ => .pure (List.sublist_append_right _ _)
  · exact .pure (List.Sublist.refl _)

theorem reads_binary (ih : Ordered fuel) (strict : Bool) (least : Nat) :
    Reads [] (binary (fuel + 1) strict least) Expr.nodes :=
  (ih.unary strict).bind fun e => ih.binaryRest strict least e

theorem reads_binaryRest (ih : Ordered fuel) (strict : Bool) (least : Nat) (left : Expr) :
    Reads left.nodes (binaryRest (fuel + 1) strict least left) Expr.nodes := by
  refine quiet_kind.then ?_
  intro k
  split
  · split
    · exact .pure (List.Sublist.refl _)
    · next op strength _ _ =>
      refine quiet_advance.then fun _ => (ih.binary strict _).behind.bind ?_
      intro right
      have := ih.binaryRest strict least (.binary op left right)
      rwa [Expr.nodes] at this
  · exact .pure (List.Sublist.refl _)

theorem reads_unary (ih : Ordered fuel) (strict : Bool) :
    Reads [] (unary (fuel + 1) strict) Expr.nodes := by
  rw [Parser.unary]
  refine Reads.nested (quiet_span.then fun at_ => quiet_kind.then fun k => ?_) (List.Sublist.refl _)
  split
  · exact quiet_advance.then fun _ => (ih.unary strict).bind fun e => .pure (by simp [Expr.nodes])
  · refine quiet_advance.then fun _ => (ih.unary strict).bind ?_
    intro e
    extract_lets rest
    have hrest : ∀ u, Reads e.nodes (rest u) Expr.nodes := fun _ =>
      (quiet_spanFrom _).then fun _ => .pure (by simp [Expr.nodes])
    split
    · exact (quiet_reportAt _ _ _).then hrest
    · exact hrest ()
  · split
    · exact quiet_advance.then fun _ => (ih.unary strict).bind fun e => .pure (by simp [Expr.nodes])
    · exact (ih.primary strict).bind fun e => ih.callRest strict _ e

/-- The body of a function, up to its closing brace. -/
theorem reads_functionBody (ih : Ordered fuel) (outer : Bool) :
    Reads [] (do
      if ← expect .openBrace then
        let (ds, strict) ← directives fuel outer
        let ss ← statements fuel atBlockEnd strict
        let _ ← expect .closeBrace
        return (ds ++ ss, strict)
      return ([], outer)) fun r => Stmt.allNodes r.1 := by
  refine (quiet_expect _).then ?_
  intro opened
  split
  · refine (ih.directives outer).bind fun r => (ih.statements _ _).behind.bind ?_
    intro ss
    exact (quiet_expect _).then fun _ => .pure (by simp [Stmt.allNodes_append])
  · exact .pure (List.Sublist.refl _)

theorem reads_functionRest (ih : Ordered fuel) (outer declaration : Bool) :
    Reads [] (functionRest (fuel + 1) outer declaration) FunctionDef.nodes := by
  refine quiet_span.then ?_
  intro at_
  extract_lets start
  refine reads_freshId.bind fun id => quiet_kind.then ?_
  intro k
  extract_lets named afterSelf
  have hself : ∀ self : Option Identifier,
      Reads (id :: self.toList.map Identifier.id) (afterSelf self) FunctionDef.nodes := by
    intro self
    refine (quiet_expect _).then fun _ => quiet_kind.then ?_
    intro k
    extract_lets afterParams
    have hparams : ∀ ps, Reads (id :: (self.toList ++ ps).map Identifier.id) (afterParams ps)
        FunctionDef.nodes := by
      intro ps
      refine (quiet_expect _).then ?_
      intro _
      refine Reads.bind (Reads.inFunction (reads_functionBody ih outer)).behind ?_
      rintro ⟨body, strict⟩
      dsimp -zeta only
      extract_lets rest
      have hrest : ∀ u, Reads (id :: (self.toList ++ ps).map Identifier.id ++ Stmt.allNodes body)
          (rest u) FunctionDef.nodes := fun _ =>
        (quiet_checkParams _ _ _).then fun _ => (quiet_spanFrom _).then fun _ =>
          .pure (by simp [FunctionDef.nodes])
      cases self with
      | none => exact hrest ()
      | some i => exact (quiet_checkBinding _ _).then hrest
    split
    · exact Reads.bind (.pure (by simp)) hparams
    · refine Reads.bind (reads_params fuel) ?_
      intro ps
      simpa using hparams ps
  split
  · have hsome : Reads [] (some <$> identifier) fun self : Option Identifier =>
        self.toList.map Identifier.id := Reads.map reads_identifier
    exact hsome.behind.bind hself
  · exact Reads.bind (.pure (by simp)) hself

theorem reads_callRest (ih : Ordered fuel) (strict : Bool) (start : Nat) (callee : Expr) :
    Reads callee.nodes (callRest (fuel + 1) strict start callee) Expr.nodes := by
  refine (quiet_accept _).then ?_
  intro opened
  split
  · refine quiet_kind.then ?_
    intro k
    extract_lets rest
    have hrest : ∀ args, Reads (callee.nodes ++ Expr.allNodes args) (rest args) Expr.nodes := by
      intro args
      refine quiet_span.then ?_
      intro at_
      extract_lets stop
      refine (quiet_expect _).then ?_
      intro _
      have := ih.callRest strict start (.call callee args ⟨start, stop⟩)
      rwa [Expr.nodes] at this
    split
    · exact Reads.bind (.pure (by simp [Expr.allNodes])) hrest
    · exact (ih.arguments strict).behind.bind hrest
  · exact .pure (List.Sublist.refl _)

theorem reads_arguments (ih : Ordered fuel) (strict : Bool) :
    Reads [] (arguments (fuel + 1) strict) Expr.allNodes := by
  refine (ih.expression strict).bind fun e => (quiet_accept _).then ?_
  intro more
  split
  · exact (ih.arguments strict).behind.bind fun es => .pure (by simp [Expr.allNodes])
  · exact .pure (by simp [Expr.allNodes])

theorem reads_primary (ih : Ordered fuel) (strict : Bool) :
    Reads [] (primary (fuel + 1) strict) Expr.nodes := by
  refine quiet_span.then fun at_ => quiet_kind.then ?_
  intro k
  split
  · exact quiet_advance.then fun _ => .pure (by simp [Expr.nodes])
  · exact quiet_advance.then fun _ => .pure (by simp [Expr.nodes])
  · exact quiet_advance.then fun _ => .pure (by simp [Expr.nodes])
  · exact quiet_advance.then fun _ => .pure (by simp [Expr.nodes])
  · exact quiet_advance.then fun _ => .pure (by simp [Expr.nodes])
  · exact quiet_advance.then fun _ => reads_freshId.bind fun id => .pure (by simp [Expr.nodes])
  · exact reads_identifier.bind fun i => .pure (by simp [Expr.nodes])
  · exact quiet_advance.then fun _ => (ih.functionRest strict false).bind fun f =>
      .pure (by simp [Expr.nodes])
  · exact quiet_advance.then fun _ => (ih.expression strict).bind fun e =>
      (quiet_expect _).then fun _ => .pure (List.Sublist.refl _)
  · exact (quiet_report _ _).then fun _ => .pure (by simp [Expr.nodes])

theorem ordered (fuel : Nat) : Ordered fuel := by
  induction fuel with
  | zero => exact ordered_zero
  | succ fuel ih =>
    exact {
      statement := reads_statement ih
      condition := reads_condition ih
      declarators := reads_declarators ih
      statements := reads_statements ih
      block := reads_block ih
      catchRest := reads_catchRest ih
      directives := reads_directives ih
      functionRest := reads_functionRest ih
      expression := reads_expression ih
      binary := reads_binary ih
      binaryRest := reads_binaryRest ih
      unary := reads_unary ih
      callRest := reads_callRest ih
      arguments := reads_arguments ih
      primary := reads_primary ih }

end Readers

theorem reads_program (fuel : Nat) (file : String) (strict : Bool) :
    Reads [] (program fuel file strict) Program.nodes := by
  refine reads_freshId.bind fun id => ((ordered fuel).directives strict).behind.bind ?_
  intro r
  refine ((ordered fuel).statements _ _).behind.bind fun ss => quiet_span.then fun _ => .pure ?_
  simp [Program.nodes, Stmt.allNodes_append]

/-- No two nodes of a program that is read have one number. -/
theorem nodup_nodes_parse (file text : String) (strict : Bool) (names : Interner) :
    (parse file text strict names).program.nodes.Nodup :=
  let tokens := (Lexer.read text).tokens
  (reads_program (fuelFor tokens) file strict 0 (.start tokens names)
    ⟨Nat.le_refl _, .nil, by simp⟩).nodup

/-- Reading answers something with a property, whatever there is to read. -/
def Answers (f : ParseM α) (P : α → Prop) : Prop := ∀ s, P (f s).1

theorem Answers.pure {P : α → Prop} {a : α} (h : P a) : Answers (pure a) P := fun _ => h

theorem Answers.bind {P : β → Prop} {f : ParseM α} {g : α → ParseM β} (h : ∀ a, Answers (g a) P) :
    Answers (f >>= g) P := fun _ => h _ _

theorem Answers.bind_of {P : β → Prop} {Q : α → Prop} {f : ParseM α} {g : α → ParseM β}
    (hf : Answers f Q) (h : ∀ a, Q a → Answers (g a) P) : Answers (f >>= g) P :=
  fun s => h _ (hf s) _

/-- A body inside strict code is strict whatever its directives say. -/
theorem directives_strict (fuel : Nat) : Answers (directives fuel true) (·.2 = true) := by
  induction fuel with
  | zero => exact .pure rfl
  | succ fuel ih =>
    refine .bind ?_
    intro k
    split
    · refine .bind ?_
      intro s
      split
      · exact .bind_of (by simpa using ih) fun r hr => .pure hr
      · exact .pure rfl
    · exact .pure rfl

theorem program_strict (fuel : Nat) (file : String) :
    Answers (program fuel file true) (·.strict = true) :=
  .bind fun _ => .bind_of (directives_strict fuel) fun _ hr => .bind fun _ => .bind fun _ => .pure hr

/-- Read as strict code, a program is strict. -/
theorem strict_parse (file text : String) (names : Interner) :
    (parse file text true names).program.strict = true :=
  let tokens := (Lexer.read text).tokens
  program_strict (fuelFor tokens) file (.start tokens names)

end Parser

end ScopeChain
