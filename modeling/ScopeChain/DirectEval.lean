import ScopeChain.Program

/-! Whether code calls `eval` by its bare name, calls inside nested functions left out. -/
namespace ScopeChain

mutual

def Expr.callsEval : Expr → Bool
  | .number _ | .string _ | .bool _ | .null | .this _ | .identifier _ | .function _ => false
  | .assign _ e | .unary _ e | .typeof e | .delete e _ => e.callsEval
  | .binary _ l r => l.callsEval || r.callsEval
  | .call f args _ => f.isEval || f.callsEval || Expr.anyCallsEval args

def Expr.anyCallsEval : List Expr → Bool
  | [] => false
  | e :: es => e.callsEval || Expr.anyCallsEval es

end

def Declarator.callsEval : Declarator → Bool
  | ⟨_, none⟩ => false
  | ⟨_, some e⟩ => e.callsEval

mutual

def Stmt.callsEval : Stmt → Bool
  | .var ds => ds.any Declarator.callsEval
  | .function _ | .return none _ | .empty => false
  | .expr e | .throw e | .return (some e) _ => e.callsEval
  | .if t c none => t.callsEval || c.callsEval
  | .if t c (some a) => t.callsEval || c.callsEval || a.callsEval
  | .while t b => t.callsEval || b.callsEval
  | .block b => Stmt.anyCallsEval b
  | .try b h f => Stmt.anyCallsEval b || Stmt.handlerCallsEval h || Stmt.finalizerCallsEval f

def Stmt.anyCallsEval : List Stmt → Bool
  | [] => false
  | s :: ss => s.callsEval || Stmt.anyCallsEval ss

def Stmt.handlerCallsEval : Option CatchClause → Bool
  | none => false
  | some ⟨_, _, body⟩ => Stmt.anyCallsEval body

def Stmt.finalizerCallsEval : Option (List Stmt) → Bool
  | none => false
  | some body => Stmt.anyCallsEval body

end

end ScopeChain
