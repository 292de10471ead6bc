import ScopeChain.Code
import ScopeChain.Proofs.Numbering

/-! Programs and code taken apart: what binding records something for in a program, and the parts of
code with the entries around them. -/
namespace ScopeChain

/-- What binding records something for: a function or catch clause, which has a scope of its own, or
an occurrence of a name, which has an address. -/
inductive Item where
  | function (f : FunctionDef)
  | clause (h : CatchClause)
  | name (i : Identifier)

def Item.id : Item → NodeId
  | function f => f.id
  | clause h => h.id
  | name i => i.id

mutual

/-- What binding records something for in an expression, in the order of the text. -/
def Expr.items : Expr → List Item
  | .number _ | .string _ | .bool _ | .null => []
  | .this i | .identifier i => [.name i]
  | .assign i e => .name i :: e.items
  | .binary _ l r => l.items ++ r.items
  | .unary _ e | .typeof e | .delete e _ => e.items
  | .call f args _ => f.items ++ Expr.allItems args
  | .function f => f.items

def Expr.allItems : List Expr → List Item
  | [] => []
  | e :: es => e.items ++ Expr.allItems es

def Declarator.allItems : List Declarator → List Item
  | [] => []
  | ⟨i, none⟩ :: ds => .name i :: Declarator.allItems ds
  | ⟨i, some e⟩ :: ds => .name i :: (e.items ++ Declarator.allItems ds)

def Stmt.items : Stmt → List Item
  | .var ds => Declarator.allItems ds
  | .function f => f.items
  | .expr e | .throw e | .return (some e) _ => e.items
  | .return none _ | .empty => []
  | .if t c none => t.items ++ c.items
  | .if t c (some a) => t.items ++ (c.items ++ a.items)
  | .while t b => t.items ++ b.items
  | .block b => Stmt.allItems b
  | .try b h f =>
    Stmt.allItems b ++ (Stmt.handlerItems h ++ Stmt.finalizerItems f)

def Stmt.allItems : List Stmt → List Item
  | [] => []
  | s :: ss => s.items ++ Stmt.allItems ss

def Stmt.handlerItems : Option CatchClause → List Item
  | none => []
  | some ⟨id, param, body⟩ => .clause ⟨id, param, body⟩ :: .name param :: Stmt.allItems body

def Stmt.finalizerItems : Option (List Stmt) → List Item
  | none => []
  | some body => Stmt.allItems body

def FunctionDef.items : FunctionDef → List Item
  | ⟨id, self, params, body, strict, span⟩ =>
    .function ⟨id, self, params, body, strict, span⟩ :: Stmt.allItems body

end

def Program.items (p : Program) : List Item := Stmt.allItems p.body

mutual

theorem Expr.items_sublist : (e : Expr) → (e.items.map Item.id).Sublist e.nodes
  | .number _ | .string _ | .bool _ | .null => .slnil
  | .this _ | .identifier _ => .refl _
  | .assign _ e => (Expr.items_sublist e).cons_cons _
  | .unary _ e | .typeof e | .delete e _ => Expr.items_sublist e
  | .binary _ l r => by
    simp only [Expr.items, Expr.nodes, List.map_append]
    exact (Expr.items_sublist l).append (Expr.items_sublist r)
  | .call f args _ => by
    simp only [Expr.items, Expr.nodes, List.map_append]
    exact (Expr.items_sublist f).append (Expr.allItems_sublist args)
  | .function f => FunctionDef.items_sublist f

theorem Expr.allItems_sublist : (es : List Expr) →
    ((Expr.allItems es).map Item.id).Sublist (Expr.allNodes es)
  | [] => .slnil
  | e :: es => by
    simp only [Expr.allItems, Expr.allNodes, List.map_append]
    exact (Expr.items_sublist e).append (Expr.allItems_sublist es)

theorem Declarator.allItems_sublist : (ds : List Declarator) →
    ((Declarator.allItems ds).map Item.id).Sublist (Declarator.allNodes ds)
  | [] => .slnil
  | ⟨_, none⟩ :: ds => (Declarator.allItems_sublist ds).cons_cons _
  | ⟨_, some e⟩ :: ds => by
    simp only [Declarator.allItems, Declarator.allNodes, List.map_cons, List.map_append,
      List.cons_append]
    exact ((Expr.items_sublist e).append (Declarator.allItems_sublist ds)).cons_cons _

theorem Stmt.items_sublist : (s : Stmt) → (s.items.map Item.id).Sublist s.nodes
  | .var ds => Declarator.allItems_sublist ds
  | .function f => FunctionDef.items_sublist f
  | .expr e | .throw e | .return (some e) _ => Expr.items_sublist e
  | .return none _ | .empty => .slnil
  | .if t c none => by
    simp only [Stmt.items, Stmt.nodes, List.map_append]
    exact (Expr.items_sublist t).append (Stmt.items_sublist c)
  | .if t c (some a) => by
    simp only [Stmt.items, Stmt.nodes, List.map_append, List.append_assoc]
    exact (Expr.items_sublist t).append
      ((Stmt.items_sublist c).append (Stmt.items_sublist a))
  | .while t b => by
    simp only [Stmt.items, Stmt.nodes, List.map_append]
    exact (Expr.items_sublist t).append (Stmt.items_sublist b)
  | .block b => Stmt.allItems_sublist b
  | .try b h f => by
    simp only [Stmt.items, Stmt.nodes, List.map_append, List.append_assoc]
    exact (Stmt.allItems_sublist b).append
      ((Stmt.handlerItems_sublist h).append (Stmt.finalizerItems_sublist f))

theorem Stmt.allItems_sublist : (ss : List Stmt) →
    ((Stmt.allItems ss).map Item.id).Sublist (Stmt.allNodes ss)
  | [] => .slnil
  | s :: ss => by
    simp only [Stmt.allItems, Stmt.allNodes, List.map_append]
    exact (Stmt.items_sublist s).append (Stmt.allItems_sublist ss)

theorem Stmt.handlerItems_sublist : (h : Option CatchClause) →
    ((Stmt.handlerItems h).map Item.id).Sublist (Stmt.handlerNodes h)
  | none => .slnil
  | some ⟨_, _, body⟩ => ((Stmt.allItems_sublist body).cons_cons _).cons_cons _

theorem Stmt.finalizerItems_sublist : (f : Option (List Stmt)) →
    ((Stmt.finalizerItems f).map Item.id).Sublist (Stmt.finalizerNodes f)
  | none => .slnil
  | some body => Stmt.allItems_sublist body

theorem FunctionDef.items_sublist : (f : FunctionDef) →
    (f.items.map Item.id).Sublist f.nodes
  | ⟨_, _, _, body, _, _⟩ =>
    ((Stmt.allItems_sublist body).trans (List.sublist_append_right _ _)).cons_cons _

end

theorem Program.items_nodup {p : Program} (h : p.nodes.Nodup) :
    (p.items.map Item.id).Nodup :=
  (List.nodup_cons.mp h).2.sublist (Stmt.allItems_sublist p.body)

namespace Code

/-- A piece of code of any sort. -/
inductive Part where
  | function (c : FunctionCode)
  | catch (c : CatchCode)
  | stmt (s : Stmt)
  | expr (e : Expr)
  | use (u : Use)

namespace Part

/-- What a part is immediately made of. The functions whose closures names hold from the start are
parts of the body whose entry lists them, wherever they were written. -/
def parts : Part → List Part
  | .function c => c.body.map .stmt ++ c.entry.hoisted.map (.function ·.code)
  | .catch c => c.body.map .stmt ++ c.entry.hoisted.map (.function ·.code)
  | .stmt (.expr e) | .stmt (.init e) | .stmt (.throw e) => [.expr e]
  | .stmt (.return e) => e.toList.map .expr
  | .stmt (.if t s a) => .expr t :: .stmt s :: a.toList.map .stmt
  | .stmt (.while t s) => [.expr t, .stmt s]
  | .stmt (.block ss) => ss.map .stmt
  | .stmt (.try ss h f) => ss.map .stmt ++ (h.toList.map .catch ++ (f.getD []).map .stmt)
  | .expr (.number _) | .expr (.string _) | .expr (.bool _) | .expr .null | .use _ => []
  | .expr (.load u) | .expr (.typeofName u) | .expr (.deleteName u) => [.use u]
  | .expr (.store u e) => [.use u, .expr e]
  | .expr (.binary _ l r) => [.expr l, .expr r]
  | .expr (.unary _ e) | .expr (.typeof e) | .expr (.deleteValue e) => [.expr e]
  | .expr (.call f args) => .expr f :: args.map .expr
  | .expr (.directEval args) => args.map .expr
  | .expr (.function c) => [.function c]

/-- The entry that a part puts around what it is made of. -/
def entry? : Part → Option Entry
  | .function c => some c.entry
  | .catch c => some c.entry
  | .stmt _ | .expr _ | .use _ => none

theorem forall_mem_getD {α : Type} {P : α → Prop} {o : Option (List α)}
    (h : ∀ as ∈ o, ∀ a ∈ as, P a) : ∀ a ∈ o.getD [], P a := by
  cases o with
  | none => exact nofun
  | some as => exact h as rfl

/-- Something holds of a part and of all that is within it. -/
inductive Throughout (P : Part → Prop) : Part → Prop where
  | intro {x : Part} : P x → (∀ y ∈ x.parts, Throughout P y) → Throughout P x

end Part

/-- A part of some code, and the entries around it from the innermost to that of the code itself. -/
inductive Encloses (root : FunctionCode) : List Entry → Part → Prop where
  | root : Encloses root [] (.function root)
  | inner {Γ : List Entry} {x y : Part} :
    Encloses root Γ x → y ∈ x.parts → Encloses root (x.entry?.toList ++ Γ) y

end Code

end ScopeChain
