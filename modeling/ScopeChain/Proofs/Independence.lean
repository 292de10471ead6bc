import ScopeChain.Proofs.Logs

/-! The addresses of names, read off a program alone. What surrounds a function sees nothing of its
body, so that the names there have the same addresses whatever the body is. -/
namespace ScopeChain

variable {b c : Binding} {F : NodeId} {Γ : List Frame}

/-- An occurrence of a name with no regard to where it stands in the text. -/
def Identifier.unplaced (i : Identifier) : Identifier := { i with span := default }

/-- What is known of the scope of a function. -/
def FunctionDef.frame (f : FunctionDef) : Frame where
  names := (Table.ofNames (f.ownNames ++ (Stmt.allDeclarations f.body).map Prod.fst)).names
  isCatch := false
  isOpen := !f.strict && Stmt.anyCallsEval f.body

mutual

/-- The occurrences of names in an expression, each with its address from within some frames. -/
def Expr.addresses (Γ : List Frame) : Expr → List (Identifier × Address)
  | .number _ | .string _ | .bool _ | .null => []
  | .this i | .identifier i => [(i.unplaced, Frame.address i.name Γ)]
  | .assign i e => (i.unplaced, Frame.address i.name Γ) :: e.addresses Γ
  | .binary _ l r => l.addresses Γ ++ r.addresses Γ
  | .unary _ e | .typeof e | .delete e _ => e.addresses Γ
  | .call f args _ => f.addresses Γ ++ Expr.allAddresses Γ args
  | .function f => f.addresses Γ

def Expr.allAddresses (Γ : List Frame) : List Expr → List (Identifier × Address)
  | [] => []
  | e :: es => e.addresses Γ ++ Expr.allAddresses Γ es

def Declarator.allAddresses (Γ : List Frame) : List Declarator → List (Identifier × Address)
  | [] => []
  | ⟨i, none⟩ :: ds => (i.unplaced, Frame.address i.name Γ) :: Declarator.allAddresses Γ ds
  | ⟨i, some e⟩ :: ds =>
    (i.unplaced, Frame.address i.name Γ) :: (e.addresses Γ ++ Declarator.allAddresses Γ ds)

/-- A function that is declared lies within the frame in which its declaration lands. -/
def Stmt.addresses (Γ : List Frame) : Stmt → List (Identifier × Address)
  | .var ds => Declarator.allAddresses Γ ds
  | .function f => f.addresses (Frame.target Γ)
  | .expr e | .throw e | .return (some e) _ => e.addresses Γ
  | .return none _ | .empty => []
  | .if t c none => t.addresses Γ ++ c.addresses Γ
  | .if t c (some a) => t.addresses Γ ++ (c.addresses Γ ++ a.addresses Γ)
  | .while t b => t.addresses Γ ++ b.addresses Γ
  | .block b => Stmt.allAddresses Γ b
  | .try b h f =>
    Stmt.allAddresses Γ b ++ (Stmt.handlerAddresses Γ h ++ Stmt.finalizerAddresses Γ f)

def Stmt.allAddresses (Γ : List Frame) : List Stmt → List (Identifier × Address)
  | [] => []
  | s :: ss => s.addresses Γ ++ Stmt.allAddresses Γ ss

def Stmt.handlerAddresses (Γ : List Frame) : Option CatchClause → List (Identifier × Address)
  | none => []
  | some ⟨_, param, body⟩ =>
    (param.unplaced, Frame.address param.name (⟨[param.name], true, false⟩ :: Γ)) ::
      Stmt.allAddresses (⟨[param.name], true, false⟩ :: Γ) body

def Stmt.finalizerAddresses (Γ : List Frame) : Option (List Stmt) → List (Identifier × Address)
  | none => []
  | some body => Stmt.allAddresses Γ body

def FunctionDef.addresses (Γ : List Frame) : FunctionDef → List (Identifier × Address)
  | ⟨id, self, params, body, strict, span⟩ =>
    Stmt.allAddresses (FunctionDef.frame ⟨id, self, params, body, strict, span⟩ :: Γ) body

end

def Program.addresses (p : Program) : List (Identifier × Address) := Stmt.allAddresses [] p.body

namespace Table

variable {t u : Table}

theorem Compact.names_declareEach (ht : t.Compact) (hu : u.Compact) (h : t.names = u.names)
    (ds : List (Name × Option FunctionDef)) :
    (t.declareEach ds).names = (u.declareAll (ds.map Prod.fst)).names := by
  induction ds generalizing t u with
  | nil => exact h
  | cons d ds ih =>
    have hd : (t.declareHoisted d.1 (d.2.map FunctionDef.id)).2.names =
        (u.declareHoisted d.1 none).2.names := by
      rw [ht.names_declareHoisted, hu.names_declareHoisted, h]
    exact ih ht.declareHoisted hu.declareHoisted hd

/-- What a table is extended by comes after the names that it was made from. -/
theorem names_declareEach_ofNames (ns : List Name) (ds : List (Name × Option FunctionDef)) :
    ((ofNames ns).declareEach ds).names = (ofNames (ns ++ ds.map Prod.fst)).names := by
  rw [(compact_ofNames ns).names_declareEach (compact_ofNames ns) rfl ds, ofNames, ofNames,
    declareAll, declareAll, declareAll, List.foldl_append]

end Table

namespace Binding

theorem FunctionScope.frame_eq {f : FunctionDef} {s : Scope Unit} (h : FunctionScope f s) :
    s.frame = f.frame := by
  rw [Scope.frame, FunctionDef.frame, h.table, h.kind, h.directEval,
    Table.names_declareEach_ofNames]
  rfl

/-- A binding has some addresses. -/
def Gives (b : Binding) (as : List (Identifier × Address)) : Prop :=
  ∀ x ∈ as, b.references[x.1.id]? = some x.2

theorem gives_nil : b.Gives [] := nofun

theorem gives_cons {i : Identifier} {as : List (Identifier × Address)} (hi : b.Resolved Γ i)
    (h : b.Gives as) : b.Gives ((i.unplaced, Frame.address i.name Γ) :: as) :=
  List.forall_mem_cons.mpr ⟨hi.1, h⟩

theorem gives_append {as as' : List (Identifier × Address)} (h : b.Gives as) (h' : b.Gives as') :
    b.Gives (as ++ as') := List.forall_mem_append.mpr ⟨h, h'⟩

mutual

theorem gives_of_bound : (e : Expr) → (Γ : List Frame) → b.Bound Γ e → b.Gives (e.addresses Γ)
  | .number _, _, _ | .string _, _, _ | .bool _, _, _ | .null, _, _ => gives_nil
  | .this _, _, h | .identifier _, _, h => gives_cons h gives_nil
  | .assign _ e, Γ, ⟨hi, he⟩ => gives_cons hi (gives_of_bound e Γ he)
  | .binary _ l r, Γ, ⟨hl, hr⟩ => gives_append (gives_of_bound l Γ hl) (gives_of_bound r Γ hr)
  | .unary _ e, Γ, h | .typeof e, Γ, h | .delete e _, Γ, h => gives_of_bound e Γ h
  | .call f args _, Γ, ⟨hf, ha⟩ =>
    gives_append (gives_of_bound f Γ hf) (gives_of_allBound args Γ ha)
  | .function f, Γ, h => gives_of_functionBound f Γ h

theorem gives_of_allBound : (es : List Expr) → (Γ : List Frame) → b.AllBound Γ es →
    b.Gives (Expr.allAddresses Γ es)
  | [], _, _ => gives_nil
  | e :: es, Γ, ⟨he, hes⟩ => gives_append (gives_of_bound e Γ he) (gives_of_allBound es Γ hes)

theorem gives_of_declaratorsBound : (ds : List Declarator) → (Γ : List Frame) →
    b.DeclaratorsBound Γ ds → b.Gives (Declarator.allAddresses Γ ds)
  | [], _, _ => gives_nil
  | ⟨_, none⟩ :: ds, Γ, ⟨hi, hds⟩ => gives_cons hi (gives_of_declaratorsBound ds Γ hds)
  | ⟨_, some e⟩ :: ds, Γ, ⟨hi, he, hds⟩ =>
    gives_cons hi (gives_append (gives_of_bound e Γ he) (gives_of_declaratorsBound ds Γ hds))

theorem gives_of_stmtBound : (s : Stmt) → (Γ : List Frame) → b.StmtBound Γ s →
    b.Gives (s.addresses Γ)
  | .var ds, Γ, h => gives_of_declaratorsBound ds Γ h
  | .function f, Γ, h => gives_of_functionBound f (Frame.target Γ) h
  | .expr e, Γ, h | .throw e, Γ, h | .return (some e) _, Γ, h => gives_of_bound e Γ h
  | .return none _, _, _ | .empty, _, _ => gives_nil
  | .if t s none, Γ, ⟨ht, hs⟩ => gives_append (gives_of_bound t Γ ht) (gives_of_stmtBound s Γ hs)
  | .if t s (some a), Γ, ⟨ht, hs, ha⟩ => gives_append (gives_of_bound t Γ ht)
    (gives_append (gives_of_stmtBound s Γ hs) (gives_of_stmtBound a Γ ha))
  | .while t s, Γ, ⟨ht, hs⟩ => gives_append (gives_of_bound t Γ ht) (gives_of_stmtBound s Γ hs)
  | .block ss, Γ, h => gives_of_stmtsBound ss Γ h
  | .try ss h f, Γ, ⟨hs, hh, hf⟩ => gives_append (gives_of_stmtsBound ss Γ hs)
    (gives_append (gives_of_handlerBound h Γ hh) (gives_of_finalizerBound f Γ hf))

theorem gives_of_stmtsBound : (ss : List Stmt) → (Γ : List Frame) → b.StmtsBound Γ ss →
    b.Gives (Stmt.allAddresses Γ ss)
  | [], _, _ => gives_nil
  | s :: ss, Γ, ⟨hs, hss⟩ => gives_append (gives_of_stmtBound s Γ hs) (gives_of_stmtsBound ss Γ hss)

theorem gives_of_handlerBound : (h : Option CatchClause) → (Γ : List Frame) → b.HandlerBound Γ h →
    b.Gives (Stmt.handlerAddresses Γ h)
  | none, _, _ => gives_nil
  | some ⟨_, param, body⟩, Γ, ⟨_, _, _, _, hparam, hbody⟩ =>
    gives_cons hparam (gives_of_stmtsBound body (⟨[param.name], true, false⟩ :: Γ) hbody)

theorem gives_of_finalizerBound : (f : Option (List Stmt)) → (Γ : List Frame) →
    b.FinalizerBound Γ f → b.Gives (Stmt.finalizerAddresses Γ f)
  | none, _, _ => gives_nil
  | some body, Γ, h => gives_of_stmtsBound body Γ h

theorem gives_of_functionBound : (f : FunctionDef) → (Γ : List Frame) → b.FunctionBound Γ f →
    b.Gives (f.addresses Γ)
  | ⟨_, _, _, body, _, _⟩, Γ, ⟨_, s, _, _, hs, hbody⟩ => by
    rw [hs.frame_eq] at hbody
    exact gives_of_stmtsBound body _ hbody

end

/-- A program's occurrences of names have the addresses that can be read off the program. -/
theorem gives_ofProgram {p : Program} {eval : Bool} {limits : Limits} {names : Interner}
    (hn : p.nodes.Nodup) (hb : ofProgram p eval limits names = .ok b) : b.Gives p.addresses := by
  obtain ⟨b', hb', hbound, -⟩ | ⟨limit, he, -⟩ := ofProgram_spec hn eval limits names
  · cases hb.symm.trans hb'
    exact gives_of_stmtsBound p.body [] hbound.body
  · cases hb.symm.trans he

end Binding

mutual

/-- What is left of an expression without the body of the function with a number, with no regard to
whether the function is strict and to where anything stands in the text. -/
def Expr.outside (F : NodeId) : Expr → Expr
  | .number x => .number x
  | .string s => .string s
  | .bool b => .bool b
  | .null => .null
  | .this i => .this i.unplaced
  | .identifier i => .identifier i.unplaced
  | .assign i e => .assign i.unplaced (e.outside F)
  | .binary op l r => .binary op (l.outside F) (r.outside F)
  | .unary op e => .unary op (e.outside F)
  | .typeof e => .typeof (e.outside F)
  | .delete e _ => .delete (e.outside F) default
  | .call f args _ => .call (f.outside F) (Expr.allOutside F args) default
  | .function f => .function (f.outside F)

def Expr.allOutside (F : NodeId) : List Expr → List Expr
  | [] => []
  | e :: es => e.outside F :: Expr.allOutside F es

def Declarator.allOutside (F : NodeId) : List Declarator → List Declarator
  | [] => []
  | ⟨i, none⟩ :: ds => ⟨i.unplaced, none⟩ :: Declarator.allOutside F ds
  | ⟨i, some e⟩ :: ds => ⟨i.unplaced, some (e.outside F)⟩ :: Declarator.allOutside F ds

def Stmt.outside (F : NodeId) : Stmt → Stmt
  | .var ds => .var (Declarator.allOutside F ds)
  | .function f => .function (f.outside F)
  | .expr e => .expr (e.outside F)
  | .throw e => .throw (e.outside F)
  | .return none _ => .return none default
  | .return (some e) _ => .return (some (e.outside F)) default
  | .if t c none => .if (t.outside F) (c.outside F) none
  | .if t c (some a) => .if (t.outside F) (c.outside F) (some (a.outside F))
  | .while t b => .while (t.outside F) (b.outside F)
  | .block b => .block (Stmt.allOutside F b)
  | .try b h f => .try (Stmt.allOutside F b) (Stmt.handlerOutside F h) (Stmt.finalizerOutside F f)
  | .empty => .empty

def Stmt.allOutside (F : NodeId) : List Stmt → List Stmt
  | [] => []
  | s :: ss => s.outside F :: Stmt.allOutside F ss

def Stmt.handlerOutside (F : NodeId) : Option CatchClause → Option CatchClause
  | none => none
  | some ⟨id, param, body⟩ => some ⟨id, param.unplaced, Stmt.allOutside F body⟩

def Stmt.finalizerOutside (F : NodeId) : Option (List Stmt) → Option (List Stmt)
  | none => none
  | some body => some (Stmt.allOutside F body)

def FunctionDef.outside (F : NodeId) : FunctionDef → FunctionDef
  | ⟨id, self, params, body, strict, _⟩ =>
    ⟨id, self.map Identifier.unplaced, params.map Identifier.unplaced,
      if id = F then [] else Stmt.allOutside F body, strict && id ≠ F, default⟩

end

def Program.outside (F : NodeId) (p : Program) : Program :=
  { p with body := Stmt.allOutside F p.body, span := default }

section Outside

variable (F : NodeId)

theorem FunctionDef.ownNames_outside (f : FunctionDef) : (f.outside F).ownNames = f.ownNames := by
  obtain ⟨id, self, params, body, strict, span⟩ := f
  simp only [FunctionDef.outside, FunctionDef.ownNames, Option.map_map, List.map_map]
  rfl

theorem Declarator.names_allOutside (ds : List Declarator) :
    (Declarator.allOutside F ds).map (·.target.name) = ds.map (·.target.name) := by
  induction ds with
  | nil => rfl
  | cons d ds ih =>
    obtain ⟨i, value⟩ := d
    cases value <;> exact congrArg (i.name :: ·) ih

mutual

theorem Stmt.declarations_outside : (s : Stmt) →
    (s.outside F).declarations.map Prod.fst = s.declarations.map Prod.fst
  | .var ds => by
    simp only [Stmt.outside, Stmt.declarations, List.map_map]
    exact Declarator.names_allOutside F ds
  | .function ⟨_, none, _, _, _, _⟩ | .function ⟨_, some _, _, _, _, _⟩ => rfl
  | .expr _ | .throw _ | .return none _ | .return (some _) _ | .empty => rfl
  | .if _ c none => Stmt.declarations_outside c
  | .if _ c (some a) => by
    simp only [Stmt.outside, Stmt.declarations, List.map_append, Stmt.declarations_outside c,
      Stmt.declarations_outside a]
  | .while _ b => Stmt.declarations_outside b
  | .block b => Stmt.allDeclarations_outside b
  | .try b h f => by
    simp only [Stmt.outside, Stmt.declarations, List.map_append, Stmt.allDeclarations_outside b,
      Stmt.handlerDeclarations_outside h, Stmt.finalizerDeclarations_outside f]

theorem Stmt.allDeclarations_outside : (ss : List Stmt) →
    (Stmt.allDeclarations (Stmt.allOutside F ss)).map Prod.fst =
      (Stmt.allDeclarations ss).map Prod.fst
  | [] => rfl
  | s :: ss => by
    simp only [Stmt.allOutside, Stmt.allDeclarations, List.map_append,
      Stmt.declarations_outside s, Stmt.allDeclarations_outside ss]

theorem Stmt.handlerDeclarations_outside : (h : Option CatchClause) →
    (Stmt.handlerDeclarations (Stmt.handlerOutside F h)).map Prod.fst =
      (Stmt.handlerDeclarations h).map Prod.fst
  | none => rfl
  | some ⟨_, _, body⟩ => Stmt.allDeclarations_outside body

theorem Stmt.finalizerDeclarations_outside : (f : Option (List Stmt)) →
    (Stmt.finalizerDeclarations (Stmt.finalizerOutside F f)).map Prod.fst =
      (Stmt.finalizerDeclarations f).map Prod.fst
  | none => rfl
  | some body => Stmt.allDeclarations_outside body

end

theorem Expr.isEval_outside (e : Expr) : (e.outside F).isEval = e.isEval := by cases e <;> rfl

mutual

theorem Expr.callsEval_outside : (e : Expr) → (e.outside F).callsEval = e.callsEval
  | .number _ | .string _ | .bool _ | .null | .this _ | .identifier _ | .function _ => rfl
  | .assign _ e | .unary _ e | .typeof e | .delete e _ => Expr.callsEval_outside e
  | .binary _ l r => by
    simp only [Expr.outside, Expr.callsEval, Expr.callsEval_outside l, Expr.callsEval_outside r]
  | .call f args _ => by
    simp only [Expr.outside, Expr.callsEval, Expr.isEval_outside, Expr.callsEval_outside f,
      Expr.anyCallsEval_outside args]

theorem Expr.anyCallsEval_outside : (es : List Expr) →
    Expr.anyCallsEval (Expr.allOutside F es) = Expr.anyCallsEval es
  | [] => rfl
  | e :: es => by
    simp only [Expr.allOutside, Expr.anyCallsEval, Expr.callsEval_outside e,
      Expr.anyCallsEval_outside es]

end

theorem Declarator.callsEval_outside (ds : List Declarator) :
    (Declarator.allOutside F ds).any Declarator.callsEval = ds.any Declarator.callsEval := by
  induction ds with
  | nil => rfl
  | cons d ds ih =>
    obtain ⟨i, value⟩ := d
    cases value with
    | none => simp only [Declarator.allOutside, List.any_cons, Declarator.callsEval, ih]
    | some e =>
      simp only [Declarator.allOutside, List.any_cons, Declarator.callsEval,
        Expr.callsEval_outside F e, ih]

mutual

theorem Stmt.callsEval_outside : (s : Stmt) → (s.outside F).callsEval = s.callsEval
  | .var ds => Declarator.callsEval_outside F ds
  | .function _ | .return none _ | .empty => rfl
  | .expr e | .throw e | .return (some e) _ => Expr.callsEval_outside F e
  | .if t c none => by
    simp only [Stmt.outside, Stmt.callsEval, Expr.callsEval_outside F t, Stmt.callsEval_outside c]
  | .if t c (some a) => by
    simp only [Stmt.outside, Stmt.callsEval, Expr.callsEval_outside F t, Stmt.callsEval_outside c,
      Stmt.callsEval_outside a]
  | .while t b => by
    simp only [Stmt.outside, Stmt.callsEval, Expr.callsEval_outside F t, Stmt.callsEval_outside b]
  | .block b => Stmt.anyCallsEval_outside b
  | .try b h f => by
    simp only [Stmt.outside, Stmt.callsEval, Stmt.anyCallsEval_outside b,
      Stmt.handlerCallsEval_outside h, Stmt.finalizerCallsEval_outside f]

theorem Stmt.anyCallsEval_outside : (ss : List Stmt) →
    Stmt.anyCallsEval (Stmt.allOutside F ss) = Stmt.anyCallsEval ss
  | [] => rfl
  | s :: ss => by
    simp only [Stmt.allOutside, Stmt.anyCallsEval, Stmt.callsEval_outside s,
      Stmt.anyCallsEval_outside ss]

theorem Stmt.handlerCallsEval_outside : (h : Option CatchClause) →
    Stmt.handlerCallsEval (Stmt.handlerOutside F h) = Stmt.handlerCallsEval h
  | none => rfl
  | some ⟨_, _, body⟩ => Stmt.anyCallsEval_outside body

theorem Stmt.finalizerCallsEval_outside : (f : Option (List Stmt)) →
    Stmt.finalizerCallsEval (Stmt.finalizerOutside F f) = Stmt.finalizerCallsEval f
  | none => rfl
  | some body => Stmt.anyCallsEval_outside body

end

/-- The scope of another function stays as it is. -/
theorem FunctionDef.frame_outside {f : FunctionDef} (h : f.id ≠ F) :
    (f.outside F).frame = f.frame := by
  have hnames := f.ownNames_outside F
  obtain ⟨id, self, params, body, strict, span⟩ := f
  rw [FunctionDef.frame, FunctionDef.frame, hnames]
  simp only [FunctionDef.outside, if_neg h, Stmt.allDeclarations_outside, Stmt.anyCallsEval_outside]
  simp [h]

mutual

theorem Expr.addresses_outside : (e : Expr) → (Γ : List Frame) →
    ((e.outside F).addresses Γ).Sublist (e.addresses Γ)
  | .number _, _ | .string _, _ | .bool _, _ | .null, _ => .slnil
  | .this _, _ | .identifier _, _ => .refl _
  | .assign _ e, Γ => (Expr.addresses_outside e Γ).cons_cons _
  | .binary _ l r, Γ => (Expr.addresses_outside l Γ).append (Expr.addresses_outside r Γ)
  | .unary _ e, Γ | .typeof e, Γ | .delete e _, Γ => Expr.addresses_outside e Γ
  | .call f args _, Γ => (Expr.addresses_outside f Γ).append (Expr.allAddresses_outside args Γ)
  | .function f, Γ => FunctionDef.addresses_outside f Γ

theorem Expr.allAddresses_outside : (es : List Expr) → (Γ : List Frame) →
    (Expr.allAddresses Γ (Expr.allOutside F es)).Sublist (Expr.allAddresses Γ es)
  | [], _ => .slnil
  | e :: es, Γ => (Expr.addresses_outside e Γ).append (Expr.allAddresses_outside es Γ)

theorem Declarator.allAddresses_outside : (ds : List Declarator) → (Γ : List Frame) →
    (Declarator.allAddresses Γ (Declarator.allOutside F ds)).Sublist (Declarator.allAddresses Γ ds)
  | [], _ => .slnil
  | ⟨_, none⟩ :: ds, Γ => (Declarator.allAddresses_outside ds Γ).cons_cons _
  | ⟨_, some e⟩ :: ds, Γ =>
    ((Expr.addresses_outside e Γ).append (Declarator.allAddresses_outside ds Γ)).cons_cons _

theorem Stmt.addresses_outside : (s : Stmt) → (Γ : List Frame) →
    ((s.outside F).addresses Γ).Sublist (s.addresses Γ)
  | .var ds, Γ => Declarator.allAddresses_outside ds Γ
  | .function f, Γ => FunctionDef.addresses_outside f (Frame.target Γ)
  | .expr e, Γ | .throw e, Γ | .return (some e) _, Γ => Expr.addresses_outside e Γ
  | .return none _, _ | .empty, _ => .slnil
  | .if t c none, Γ => (Expr.addresses_outside t Γ).append (Stmt.addresses_outside c Γ)
  | .if t c (some a), Γ => (Expr.addresses_outside t Γ).append
    ((Stmt.addresses_outside c Γ).append (Stmt.addresses_outside a Γ))
  | .while t b, Γ => (Expr.addresses_outside t Γ).append (Stmt.addresses_outside b Γ)
  | .block b, Γ => Stmt.allAddresses_outside b Γ
  | .try b h f, Γ => (Stmt.allAddresses_outside b Γ).append
    ((Stmt.handlerAddresses_outside h Γ).append (Stmt.finalizerAddresses_outside f Γ))

theorem Stmt.allAddresses_outside : (ss : List Stmt) → (Γ : List Frame) →
    (Stmt.allAddresses Γ (Stmt.allOutside F ss)).Sublist (Stmt.allAddresses Γ ss)
  | [], _ => .slnil
  | s :: ss, Γ => (Stmt.addresses_outside s Γ).append (Stmt.allAddresses_outside ss Γ)

theorem Stmt.handlerAddresses_outside : (h : Option CatchClause) → (Γ : List Frame) →
    (Stmt.handlerAddresses Γ (Stmt.handlerOutside F h)).Sublist (Stmt.handlerAddresses Γ h)
  | none, _ => .slnil
  | some ⟨_, param, body⟩, Γ =>
    (Stmt.allAddresses_outside body (⟨[param.name], true, false⟩ :: Γ)).cons_cons _

theorem Stmt.finalizerAddresses_outside : (f : Option (List Stmt)) → (Γ : List Frame) →
    (Stmt.finalizerAddresses Γ (Stmt.finalizerOutside F f)).Sublist (Stmt.finalizerAddresses Γ f)
  | none, _ => .slnil
  | some body, Γ => Stmt.allAddresses_outside body Γ

theorem FunctionDef.addresses_outside : (f : FunctionDef) → (Γ : List Frame) →
    ((f.outside F).addresses Γ).Sublist (f.addresses Γ)
  | ⟨id, self, params, body, strict, span⟩, Γ => by
    by_cases hid : id = F
    · simp only [FunctionDef.outside, if_pos hid, FunctionDef.addresses, Stmt.allAddresses]
      exact List.nil_sublist _
    · have hframe := FunctionDef.frame_outside F (f := ⟨id, self, params, body, strict, span⟩) hid
      rw [FunctionDef.addresses, ← hframe]
      simp only [FunctionDef.outside, if_neg hid, FunctionDef.addresses]
      exact Stmt.allAddresses_outside body _

end

end Outside

mutual

theorem Expr.map_addresses : (e : Expr) → (Γ : List Frame) →
    (e.addresses Γ).map Prod.fst = e.occurrences.map Identifier.unplaced
  | .number _, _ | .string _, _ | .bool _, _ | .null, _ | .this _, _ | .identifier _, _ => rfl
  | .assign i e, Γ => congrArg (i.unplaced :: ·) (Expr.map_addresses e Γ)
  | .binary _ l r, Γ => by
    simp only [Expr.addresses, Expr.occurrences, List.map_append, Expr.map_addresses l Γ,
      Expr.map_addresses r Γ]
  | .unary _ e, Γ | .typeof e, Γ | .delete e _, Γ => Expr.map_addresses e Γ
  | .call f args _, Γ => by
    simp only [Expr.addresses, Expr.occurrences, List.map_append, Expr.map_addresses f Γ,
      Expr.map_allAddresses args Γ]
  | .function f, Γ => FunctionDef.map_addresses f Γ

theorem Expr.map_allAddresses : (es : List Expr) → (Γ : List Frame) →
    (Expr.allAddresses Γ es).map Prod.fst = (Expr.allOccurrences es).map Identifier.unplaced
  | [], _ => rfl
  | e :: es, Γ => by
    simp only [Expr.allAddresses, Expr.allOccurrences, List.map_append, Expr.map_addresses e Γ,
      Expr.map_allAddresses es Γ]

theorem Declarator.map_allAddresses : (ds : List Declarator) → (Γ : List Frame) →
    (Declarator.allAddresses Γ ds).map Prod.fst =
      (Declarator.allOccurrences ds).map Identifier.unplaced
  | [], _ => rfl
  | ⟨i, none⟩ :: ds, Γ => congrArg (i.unplaced :: ·) (Declarator.map_allAddresses ds Γ)
  | ⟨i, some e⟩ :: ds, Γ => by
    simp only [Declarator.allAddresses, Declarator.allOccurrences, List.map_cons, List.map_append,
      Expr.map_addresses e Γ, Declarator.map_allAddresses ds Γ]

theorem Stmt.map_addresses : (s : Stmt) → (Γ : List Frame) →
    (s.addresses Γ).map Prod.fst = s.occurrences.map Identifier.unplaced
  | .var ds, Γ => Declarator.map_allAddresses ds Γ
  | .function f, Γ => FunctionDef.map_addresses f (Frame.target Γ)
  | .expr e, Γ | .throw e, Γ | .return (some e) _, Γ => Expr.map_addresses e Γ
  | .return none _, _ | .empty, _ => rfl
  | .if t c none, Γ => by
    simp only [Stmt.addresses, Stmt.occurrences, List.map_append, Expr.map_addresses t Γ,
      Stmt.map_addresses c Γ]
  | .if t c (some a), Γ => by
    simp only [Stmt.addresses, Stmt.occurrences, List.map_append, Expr.map_addresses t Γ,
      Stmt.map_addresses c Γ, Stmt.map_addresses a Γ]
  | .while t b, Γ => by
    simp only [Stmt.addresses, Stmt.occurrences, List.map_append, Expr.map_addresses t Γ,
      Stmt.map_addresses b Γ]
  | .block b, Γ => Stmt.map_allAddresses b Γ
  | .try b h f, Γ => by
    simp only [Stmt.addresses, Stmt.occurrences, List.map_append, Stmt.map_allAddresses b Γ,
      Stmt.map_handlerAddresses h Γ, Stmt.map_finalizerAddresses f Γ]

theorem Stmt.map_allAddresses : (ss : List Stmt) → (Γ : List Frame) →
    (Stmt.allAddresses Γ ss).map Prod.fst = (Stmt.allOccurrences ss).map Identifier.unplaced
  | [], _ => rfl
  | s :: ss, Γ => by
    simp only [Stmt.allAddresses, Stmt.allOccurrences, List.map_append, Stmt.map_addresses s Γ,
      Stmt.map_allAddresses ss Γ]

theorem Stmt.map_handlerAddresses : (h : Option CatchClause) → (Γ : List Frame) →
    (Stmt.handlerAddresses Γ h).map Prod.fst =
      (Stmt.handlerOccurrences h).map Identifier.unplaced
  | none, _ => rfl
  | some ⟨_, param, body⟩, Γ => congrArg (param.unplaced :: ·)
    (Stmt.map_allAddresses body (⟨[param.name], true, false⟩ :: Γ))

theorem Stmt.map_finalizerAddresses : (f : Option (List Stmt)) → (Γ : List Frame) →
    (Stmt.finalizerAddresses Γ f).map Prod.fst =
      (Stmt.finalizerOccurrences f).map Identifier.unplaced
  | none, _ => rfl
  | some body, Γ => Stmt.map_allAddresses body Γ

theorem FunctionDef.map_addresses : (f : FunctionDef) → (Γ : List Frame) →
    (f.addresses Γ).map Prod.fst = f.occurrences.map Identifier.unplaced
  | ⟨_, _, _, body, _, _⟩, _ => Stmt.map_allAddresses body _

end

namespace Binding

/-- A binding gives an occurrence of a name an address in its table, and it is the address under
which the finished scopes find the name from where it is used. -/
def Addresses (b : Binding) (i : Identifier) (a : Address) : Prop :=
  b.references[i.id]? = some a ∧ ∃ r ∈ b.log, r.node = i.id ∧ r.name = i.name ∧ r.address = a ∧
    b.scopes.resolve r.scope i.name = .ok a

/-- An address that can be read off a program is the one that its binding gives. -/
theorem addresses_ofProgram {p : Program} {eval : Bool} {limits : Limits} {names : Interner}
    {i : Identifier} {a : Address} (hn : p.nodes.Nodup)
    (hb : ofProgram p eval limits names = .ok b) (hi : (i.unplaced, a) ∈ p.addresses) :
    b.Addresses i a := by
  have hgives : b.references[i.id]? = some a := gives_ofProgram hn hb _ hi
  have hcomplete := complete_ofProgram hn hb
  have hmem : i.unplaced ∈ p.occurrences.map Identifier.unplaced := by
    rw [Program.occurrences, ← Stmt.map_allAddresses p.body []]
    exact List.mem_map.mpr ⟨_, hi, rfl⟩
  rw [← hcomplete.occurrences, List.map_map] at hmem
  obtain ⟨r, hr, heq⟩ := List.mem_map.mp hmem
  obtain ⟨hnode, hname, -⟩ := Identifier.mk.inj heq
  have hr := Array.mem_toList_iff.mp hr
  have haddress : r.address = a := by
    have hentry := (hcomplete.table r.node r.address).mpr ⟨r, hr, rfl, rfl⟩
    rw [show r.node = i.id from hnode, hgives] at hentry
    exact (Option.some.inj hentry).symm
  refine ⟨hgives, r, hr, hnode, hname, haddress, ?_⟩
  rw [← haddress, ← show r.name = i.name from hname]
  exact hcomplete.right r hr

/-- What a function's body is has no part in the addresses of names outside of it. Let two programs
differ at most in the body of the function with a number, in whether the function is strict and in
where things stand in the text, and let each have numbers of their own for its nodes. If both are
bound, then each occurrence of a name outside of the body has the same address in both. -/
theorem addresses_outside_body (p q : Program) (F : NodeId) (eval : Bool) (limits : Limits)
    (names names' : Interner) (b c : Binding) (hp : p.nodes.Nodup) (hq : q.nodes.Nodup)
    (hpq : p.outside F = q.outside F) (hb : ofProgram p eval limits names = .ok b)
    (hc : ofProgram q eval limits names' = .ok c) :
    ∀ i ∈ (p.outside F).occurrences, ∃ a, b.Addresses i a ∧ c.Addresses i a := by
  intro i hi
  have hmem : i.unplaced ∈ (p.outside F).addresses.map Prod.fst := by
    rw [Program.addresses, Stmt.map_allAddresses]
    exact List.mem_map_of_mem hi
  obtain ⟨⟨j, a⟩, ha, rfl⟩ := List.mem_map.mp hmem
  refine ⟨a, addresses_ofProgram hp hb ?_, addresses_ofProgram hq hc ?_⟩
  · exact (Stmt.allAddresses_outside F p.body []).subset ha
  · rw [hpq] at ha
    exact (Stmt.allAddresses_outside F q.body []).subset ha

/-- A function whose body comes to call `eval` directly, and a use of a name beside it. -/
theorem addresses_outside_body_with_eval :
    let program (body : List Stmt) : Program :=
      ⟨0, "", [.function ⟨1, some ⟨2, ⟨10⟩, default⟩, [], [.var [⟨⟨3, ⟨11⟩, default⟩, none⟩],
        .function ⟨4, some ⟨5, ⟨12⟩, default⟩, [], body, false, default⟩,
        .expr (.identifier ⟨6, ⟨11⟩, default⟩)], false, default⟩], false, default⟩
    let p := program []
    let q := program [.expr (.call (.identifier ⟨7, .eval, default⟩) [] default)]
    ∃ b c, p.nodes.Nodup ∧ q.nodes.Nodup ∧ p.outside 4 = q.outside 4 ∧
      ofProgram p false .standard .wellKnown = .ok b ∧
      ofProgram q false .standard .wellKnown = .ok c ∧
      b.Addresses ⟨6, ⟨11⟩, default⟩ (.static 0 3) ∧
      c.Addresses ⟨6, ⟨11⟩, default⟩ (.static 0 3) := by
  intro program p q
  have hp : p.nodes.Nodup := by decide
  have hq : q.nodes.Nodup := by decide
  have hpq : p.outside 4 = q.outside 4 := rfl
  have hbound (p : Program) (hok : (ofProgram p false .standard .wellKnown).isOk = true) :
      ∃ b, ofProgram p false .standard .wellKnown = .ok b := by
    cases h : ofProgram p false .standard .wellKnown with
    | ok b => exact ⟨b, rfl⟩
    | error e => rw [h] at hok; cases hok
  obtain ⟨b, hb⟩ := hbound p (by decide +kernel)
  obtain ⟨c, hc⟩ := hbound q (by decide +kernel)
  have hi : ⟨6, ⟨11⟩, default⟩ ∈ (p.outside 4).occurrences := by decide
  obtain ⟨a, hab, hac⟩ :=
    addresses_outside_body p q 4 false .standard .wellKnown .wellKnown b c hp hq hpq hb hc _ hi
  have ha : a = .static 0 3 := by
    have hgives := gives_ofProgram hp hb (⟨6, ⟨11⟩, default⟩, .static 0 3) (by decide +kernel)
    exact Option.some.inj (hab.1.symm.trans hgives)
  rw [ha] at hab hac
  exact ⟨b, c, hp, hq, hpq, hb, hc, hab, hac⟩

end Binding

end ScopeChain
