import ScopeChain.Proofs.Numbering

/-! The occurrences of names in a program that binding looks for. -/
namespace ScopeChain

mutual

/-- The occurrences of names in an expression that are looked for, in the order of the text. -/
def Expr.occurrences : Expr → List Identifier
  | .number _ | .string _ | .bool _ | .null => []
  | .this i | .identifier i => [i]
  | .assign i e => i :: e.occurrences
  | .binary _ l r => l.occurrences ++ r.occurrences
  | .unary _ e | .typeof e | .delete e _ => e.occurrences
  | .call f args _ => f.occurrences ++ Expr.allOccurrences args
  | .function f => f.occurrences

def Expr.allOccurrences : List Expr → List Identifier
  | [] => []
  | e :: es => e.occurrences ++ Expr.allOccurrences es

def Declarator.allOccurrences : List Declarator → List Identifier
  | [] => []
  | ⟨i, none⟩ :: ds => i :: Declarator.allOccurrences ds
  | ⟨i, some e⟩ :: ds => i :: (e.occurrences ++ Declarator.allOccurrences ds)

def Stmt.occurrences : Stmt → List Identifier
  | .var ds => Declarator.allOccurrences ds
  | .function f => f.occurrences
  | .expr e | .throw e | .return (some e) _ => e.occurrences
  | .return none _ | .empty => []
  | .if t c none => t.occurrences ++ c.occurrences
  | .if t c (some a) => t.occurrences ++ (c.occurrences ++ a.occurrences)
  | .while t b => t.occurrences ++ b.occurrences
  | .block b => Stmt.allOccurrences b
  | .try b h f =>
    Stmt.allOccurrences b ++ (Stmt.handlerOccurrences h ++ Stmt.finalizerOccurrences f)

def Stmt.allOccurrences : List Stmt → List Identifier
  | [] => []
  | s :: ss => s.occurrences ++ Stmt.allOccurrences ss

def Stmt.handlerOccurrences : Option CatchClause → List Identifier
  | none => []
  | some ⟨_, param, body⟩ => param :: Stmt.allOccurrences body

def Stmt.finalizerOccurrences : Option (List Stmt) → List Identifier
  | none => []
  | some body => Stmt.allOccurrences body

/-- A function's own name and its parameters are bound, not looked for. -/
def FunctionDef.occurrences : FunctionDef → List Identifier
  | ⟨_, _, _, body, _, _⟩ => Stmt.allOccurrences body

end

def Program.occurrences (p : Program) : List Identifier := Stmt.allOccurrences p.body

mutual

theorem Expr.sublist_nodes : (e : Expr) → (e.occurrences.map Identifier.id).Sublist e.nodes
  | .number _ | .string _ | .bool _ | .null => .slnil
  | .this _ | .identifier _ => .refl _
  | .assign _ e => (Expr.sublist_nodes e).cons_cons _
  | .binary _ l r => by
    simp only [Expr.occurrences, Expr.nodes, List.map_append]
    exact (Expr.sublist_nodes l).append (Expr.sublist_nodes r)
  | .unary _ e | .typeof e | .delete e _ => Expr.sublist_nodes e
  | .call f args _ => by
    simp only [Expr.occurrences, Expr.nodes, List.map_append]
    exact (Expr.sublist_nodes f).append (Expr.sublist_allNodes args)
  | .function f => FunctionDef.sublist_nodes f

theorem Expr.sublist_allNodes : (es : List Expr) →
    ((Expr.allOccurrences es).map Identifier.id).Sublist (Expr.allNodes es)
  | [] => .slnil
  | e :: es => by
    simp only [Expr.allOccurrences, Expr.allNodes, List.map_append]
    exact (Expr.sublist_nodes e).append (Expr.sublist_allNodes es)

theorem Declarator.sublist_allNodes : (ds : List Declarator) →
    ((Declarator.allOccurrences ds).map Identifier.id).Sublist (Declarator.allNodes ds)
  | [] => .slnil
  | ⟨_, none⟩ :: ds => (Declarator.sublist_allNodes ds).cons_cons _
  | ⟨_, some e⟩ :: ds => by
    simp only [Declarator.allOccurrences, Declarator.allNodes, List.map_cons, List.map_append]
    exact ((Expr.sublist_nodes e).append (Declarator.sublist_allNodes ds)).cons_cons _

theorem Stmt.sublist_nodes : (s : Stmt) → (s.occurrences.map Identifier.id).Sublist s.nodes
  | .var ds => Declarator.sublist_allNodes ds
  | .function f => FunctionDef.sublist_nodes f
  | .expr e | .throw e | .return (some e) _ => Expr.sublist_nodes e
  | .return none _ | .empty => .slnil
  | .if t c none => by
    simp only [Stmt.occurrences, Stmt.nodes, List.map_append]
    exact (Expr.sublist_nodes t).append (Stmt.sublist_nodes c)
  | .if t c (some a) => by
    simp only [Stmt.occurrences, Stmt.nodes, List.map_append, List.append_assoc]
    exact (Expr.sublist_nodes t).append ((Stmt.sublist_nodes c).append (Stmt.sublist_nodes a))
  | .while t b => by
    simp only [Stmt.occurrences, Stmt.nodes, List.map_append]
    exact (Expr.sublist_nodes t).append (Stmt.sublist_nodes b)
  | .block b => Stmt.sublist_allNodes b
  | .try b h f => by
    simp only [Stmt.occurrences, Stmt.nodes, List.map_append, List.append_assoc]
    exact (Stmt.sublist_allNodes b).append
      ((Stmt.sublist_handlerNodes h).append (Stmt.sublist_finalizerNodes f))

theorem Stmt.sublist_allNodes : (ss : List Stmt) →
    ((Stmt.allOccurrences ss).map Identifier.id).Sublist (Stmt.allNodes ss)
  | [] => .slnil
  | s :: ss => by
    simp only [Stmt.allOccurrences, Stmt.allNodes, List.map_append]
    exact (Stmt.sublist_nodes s).append (Stmt.sublist_allNodes ss)

theorem Stmt.sublist_handlerNodes : (h : Option CatchClause) →
    ((Stmt.handlerOccurrences h).map Identifier.id).Sublist (Stmt.handlerNodes h)
  | none => .slnil
  | some ⟨_, _, body⟩ => ((Stmt.sublist_allNodes body).cons_cons _).cons _

theorem Stmt.sublist_finalizerNodes : (f : Option (List Stmt)) →
    ((Stmt.finalizerOccurrences f).map Identifier.id).Sublist (Stmt.finalizerNodes f)
  | none => .slnil
  | some body => Stmt.sublist_allNodes body

theorem FunctionDef.sublist_nodes : (f : FunctionDef) →
    (f.occurrences.map Identifier.id).Sublist f.nodes
  | ⟨_, _, _, body, _, _⟩ => (List.Sublist.append (List.nil_sublist _)
      (Stmt.sublist_allNodes body)).cons _

end

/-- In a program whose nodes have numbers of their own, so have the occurrences of names. -/
theorem Program.nodup_occurrences {p : Program} (h : p.nodes.Nodup) :
    (p.occurrences.map Identifier.id).Nodup :=
  (List.nodup_cons.mp h).2.sublist (Stmt.sublist_allNodes p.body)

end ScopeChain
