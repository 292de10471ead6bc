import ScopeChain.Proofs.Resolutions

/-! The scopes of a bound program. Every function and every catch clause has one, which declares what
it should, and a name in it holds from the start the function that is declared last under it. -/
namespace ScopeChain.Binding

variable {b : Binding} {Γ : List Frame} {xs ys : List Item}

/-- The scope that was made for a node. -/
def scope? (b : Binding) (node : NodeId) : Option (Scope Unit) :=
  b.nodeScopes[node]?.bind b.scopes.find?

theorem scope?_of_find? {node : NodeId} {id : ScopeId} {s : Scope Unit}
    (hn : b.nodeScopes[node]? = some id) (hs : b.scopes.find? id = some s) :
    b.scope? node = some s := by
  rw [scope?, hn, Option.bind_some, hs]

/-- A function or a catch clause has a scope of its own. That of a catch clause declares just the name
that the clause binds. -/
def Scoped (b : Binding) : Item → Prop
  | .function f => ∃ s, b.scope? f.id = some s ∧ FunctionScope f s
  | .clause h => ∃ s, b.scope? h.id = some s ∧ s.table = .ofNames [h.param.name]
  | .name _ => True

/-- So have all of some items. -/
def AllScoped (b : Binding) (xs : List Item) : Prop := ∀ x ∈ xs, b.Scoped x

theorem AllScoped.nil : b.AllScoped [] := nofun

theorem AllScoped.append (h : b.AllScoped xs) (h' : b.AllScoped ys) : b.AllScoped (xs ++ ys) :=
  List.forall_mem_append.mpr ⟨h, h'⟩

theorem AllScoped.cons {x : Item} (hx : b.Scoped x) (h : b.AllScoped xs) : b.AllScoped (x :: xs) :=
  List.forall_mem_cons.mpr ⟨hx, h⟩

theorem AllScoped.name (i : Identifier) (h : b.AllScoped xs) : b.AllScoped (.name i :: xs) :=
  .cons trivial h

mutual

theorem Bound.allScoped : (e : Expr) → (Γ : List Frame) → b.Bound Γ e → b.AllScoped e.items
  | .number _, _, _ | .string _, _, _ | .bool _, _, _ | .null, _, _ => .nil
  | .this i, _, _ | .identifier i, _, _ => .name i .nil
  | .assign i e, Γ, h => .name i (Bound.allScoped e Γ h.2)
  | .binary _ l r, Γ, h => (Bound.allScoped l Γ h.1).append (Bound.allScoped r Γ h.2)
  | .unary _ e, Γ, h | .typeof e, Γ, h | .delete e _, Γ, h => Bound.allScoped e Γ h
  | .call f args _, Γ, h => (Bound.allScoped f Γ h.1).append (AllBound.allScoped args Γ h.2)
  | .function f, Γ, h => FunctionBound.allScoped f Γ h

theorem AllBound.allScoped : (es : List Expr) → (Γ : List Frame) → b.AllBound Γ es →
    b.AllScoped (Expr.allItems es)
  | [], _, _ => .nil
  | e :: es, Γ, h => (Bound.allScoped e Γ h.1).append (AllBound.allScoped es Γ h.2)

theorem DeclaratorsBound.allScoped : (ds : List Declarator) → (Γ : List Frame) →
    b.DeclaratorsBound Γ ds → b.AllScoped (Declarator.allItems ds)
  | [], _, _ => .nil
  | ⟨i, none⟩ :: ds, Γ, h => .name i (DeclaratorsBound.allScoped ds Γ h.2)
  | ⟨i, some e⟩ :: ds, Γ, h =>
    .name i ((Bound.allScoped e Γ h.2.1).append (DeclaratorsBound.allScoped ds Γ h.2.2))

theorem StmtBound.allScoped : (s : Stmt) → (Γ : List Frame) → b.StmtBound Γ s → b.AllScoped s.items
  | .var ds, Γ, h => DeclaratorsBound.allScoped ds Γ h
  | .function f, Γ, h => FunctionBound.allScoped f (Frame.target Γ) h
  | .expr e, Γ, h | .throw e, Γ, h | .return (some e) _, Γ, h => Bound.allScoped e Γ h
  | .return none _, _, _ | .empty, _, _ => .nil
  | .if t s none, Γ, h => (Bound.allScoped t Γ h.1).append (StmtBound.allScoped s Γ h.2)
  | .if t s (some a), Γ, h => (Bound.allScoped t Γ h.1).append
      ((StmtBound.allScoped s Γ h.2.1).append (StmtBound.allScoped a Γ h.2.2))
  | .while t s, Γ, h => (Bound.allScoped t Γ h.1).append (StmtBound.allScoped s Γ h.2)
  | .block ss, Γ, h => StmtsBound.allScoped ss Γ h
  | .try ss c f, Γ, h => (StmtsBound.allScoped ss Γ h.1).append
      ((HandlerBound.allScoped c Γ h.2.1).append (FinalizerBound.allScoped f Γ h.2.2))

theorem StmtsBound.allScoped : (ss : List Stmt) → (Γ : List Frame) → b.StmtsBound Γ ss →
    b.AllScoped (Stmt.allItems ss)
  | [], _, _ => .nil
  | s :: ss, Γ, h => (StmtBound.allScoped s Γ h.1).append (StmtsBound.allScoped ss Γ h.2)

theorem HandlerBound.allScoped : (c : Option CatchClause) → (Γ : List Frame) →
    b.HandlerBound Γ c → b.AllScoped (Stmt.handlerItems c)
  | none, _, _ => .nil
  | some ⟨id, param, body⟩, Γ, h => by
    obtain ⟨inner, parent, hnode, hs, -, hbody⟩ := h
    exact .cons ⟨_, scope?_of_find? hnode hs, rfl⟩
      (.name param (StmtsBound.allScoped body (⟨[param.name], true, false⟩ :: Γ) hbody))

theorem FinalizerBound.allScoped : (f : Option (List Stmt)) → (Γ : List Frame) →
    b.FinalizerBound Γ f → b.AllScoped (Stmt.finalizerItems f)
  | none, _, _ => .nil
  | some body, Γ, h => StmtsBound.allScoped body Γ h

theorem FunctionBound.allScoped : (f : FunctionDef) → (Γ : List Frame) → b.FunctionBound Γ f →
    b.AllScoped f.items
  | ⟨_, _, _, body, _, _⟩, Γ, h => by
    obtain ⟨scope, s, hnode, hs, hscope, hbody⟩ := h
    exact .cons ⟨s, scope?_of_find? hnode hs, hscope⟩ (StmtsBound.allScoped body (s.frame :: Γ) hbody)

end

end ScopeChain.Binding
