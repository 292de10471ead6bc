import Std.Data.HashMap
import ScopeChain.Diagnostic
import ScopeChain.DirectEval
import ScopeChain.Scope.Construction

/-! Binding a program: its scopes with what they declare, and an address for every occurrence of a
name. A body is walked twice, first for its declarations and then for its names; the functions in
it are bound on the second walk, when all that is declared around them is known. -/
namespace ScopeChain

/-- An occurrence of a name and how it was resolved. -/
structure Reference where
  node : NodeId
  name : Name
  span : Span
  /-- The scope from which the name was looked for. -/
  scope : ScopeId
  address : Address
deriving DecidableEq, Repr

structure Binding where
  scopes : Pool Unit
  /-- The scope of the program itself. -/
  root : ScopeId
  /-- The scope of each program, function and catch clause. -/
  nodeScopes : Std.HashMap NodeId ScopeId
  /-- The address of each occurrence of a name. -/
  references : Std.HashMap NodeId Address
  /-- The same addresses in the order of the source. -/
  log : Array Reference
  /-- The scopes whose code calls `eval` directly. -/
  evalScopes : Array ScopeId
  reports : Array Diagnostic

/-- Binding is work on a binding that may fail. -/
abbrev BindM := StateT Binding (Except ScopeError)

namespace Binding

/-- The code whose names are being resolved. -/
inductive Owner where
  | script
  | anonymous
  | named (name : Name)
deriving DecidableEq, Repr

def Owner.ofSelf : Option Identifier → Owner
  | none => anonymous
  | some i => named i.name

def Owner.title (names : Interner) : Owner → String
  | script => "<script>"
  | anonymous => "<anonymous>"
  | named n => names.text n

/-- What stays the same while one body is bound. -/
structure Context where
  names : Interner
  file : String
  owner : Owner
  strict : Bool

def onScopes {α : Type} (work : PoolM Unit α) : BindM α := fun b =>
  match work.run b.scopes with
  | (.ok a, scopes) => .ok (a, { b with scopes })
  | (.error e, _) => .error e

def report (cx : Context) (span : Span) (m : Message) (arg : String) : BindM Unit :=
  modify fun b => { b with reports := b.reports.push (.located cx.file span m [arg]) }

def recordScope (node : NodeId) (id : ScopeId) : BindM Unit :=
  modify fun b => { b with nodeScopes := b.nodeScopes.insert node id }

/-- The scope of a catch clause, made the first time it is asked for. -/
def catchScope (parent : ScopeId) (node : NodeId) (param : Identifier) : BindM ScopeId := do
  match (← get).nodeScopes[node]? with
  | some id => return id
  | none =>
    let id ← onScopes (.newCatch (some parent) param.name)
    recordScope node id
    return id

mutual

def declareStmt (scope : ScopeId) : Stmt → BindM Unit
  | .var ds => ds.forM fun d => do let _ ← onScopes (.declare scope d.target.name)
  | .function ⟨id, self, _, _, _, _⟩ =>
    match self with
    | none => return
    | some i => do let _ ← onScopes (.declareHoisted scope i.name (some id))
  | .if _ c none => declareStmt scope c
  | .if _ c (some a) => do
    declareStmt scope c
    declareStmt scope a
  | .while _ b => declareStmt scope b
  | .block b => declareStmts scope b
  | .try b h f => do
    declareStmts scope b
    declareHandler scope h
    declareFinalizer scope f
  | .expr _ | .return _ _ | .throw _ | .empty => return

def declareStmts (scope : ScopeId) : List Stmt → BindM Unit
  | [] => return
  | s :: ss => do
    declareStmt scope s
    declareStmts scope ss

def declareHandler (scope : ScopeId) : Option CatchClause → BindM Unit
  | none => return
  | some ⟨id, param, body⟩ => do declareStmts (← catchScope scope id param) body

def declareFinalizer (scope : ScopeId) : Option (List Stmt) → BindM Unit
  | none => return
  | some body => declareStmts scope body

end

/-- Resolves an occurrence of a name. Inside a function a dynamic address is worth a message. -/
def resolve (cx : Context) (scope : ScopeId) (i : Identifier) : BindM Unit := do
  let address ← onScopes (.query (·.resolve scope i.name))
  if !address.isStatic && cx.owner ≠ .script then
    report cx i.span .dynamicReference (cx.names.text i.name)
  modify fun b =>
    { b with
      references := b.references.insert i.id address
      log := b.log.push ⟨i.id, i.name, i.span, scope, address⟩ }

def noteDirectEval (cx : Context) (scope : ScopeId) (span : Span) : BindM Unit := do
  modify fun b =>
    if b.evalScopes.contains scope then b else { b with evalScopes := b.evalScopes.push scope }
  report cx span (if cx.strict then .strictEval else .sloppyEval) (cx.owner.title cx.names)

mutual

def bindExpr (cx : Context) (scope : ScopeId) : Expr → BindM Unit
  | .number _ | .string _ | .bool _ | .null => return
  | .this i | .identifier i => resolve cx scope i
  | .assign i e => do
    resolve cx scope i
    bindExpr cx scope e
  | .binary _ l r => do
    bindExpr cx scope l
    bindExpr cx scope r
  | .unary _ e | .typeof e | .delete e _ => bindExpr cx scope e
  | .call f args span => do
    if f.isEval then noteDirectEval cx scope span
    bindExpr cx scope f
    bindExprs cx scope args
  | .function f => bindFunction cx scope f

def bindExprs (cx : Context) (scope : ScopeId) : List Expr → BindM Unit
  | [] => return
  | e :: es => do
    bindExpr cx scope e
    bindExprs cx scope es

def bindDeclarators (cx : Context) (scope : ScopeId) : List Declarator → BindM Unit
  | [] => return
  | ⟨i, none⟩ :: ds => do
    resolve cx scope i
    bindDeclarators cx scope ds
  | ⟨i, some e⟩ :: ds => do
    resolve cx scope i
    bindExpr cx scope e
    bindDeclarators cx scope ds

def bindStmt (cx : Context) (scope : ScopeId) : Stmt → BindM Unit
  | .var ds => bindDeclarators cx scope ds
  | .function f => do
    -- The closure is made where the declaration was hoisted to, so a catch binding around the
    -- declaration is not in its sight.
    let parent ← onScopes (.query (·.declarationTarget scope))
    bindFunction cx parent f
  | .expr e | .throw e | .return (some e) _ => bindExpr cx scope e
  | .return none _ | .empty => return
  | .if t c none => do
    bindExpr cx scope t
    bindStmt cx scope c
  | .if t c (some a) => do
    bindExpr cx scope t
    bindStmt cx scope c
    bindStmt cx scope a
  | .while t b => do
    bindExpr cx scope t
    bindStmt cx scope b
  | .block b => bindStmts cx scope b
  | .try b h f => do
    bindStmts cx scope b
    bindHandler cx scope h
    bindFinalizer cx scope f

def bindStmts (cx : Context) (scope : ScopeId) : List Stmt → BindM Unit
  | [] => return
  | s :: ss => do
    bindStmt cx scope s
    bindStmts cx scope ss

def bindHandler (cx : Context) (scope : ScopeId) : Option CatchClause → BindM Unit
  | none => return
  | some ⟨id, param, body⟩ => do
    let inner ← catchScope scope id param
    resolve cx inner param
    bindStmts cx inner body

def bindFinalizer (cx : Context) (scope : ScopeId) : Option (List Stmt) → BindM Unit
  | none => return
  | some body => bindStmts cx scope body

/-- Binds a function inside `parent`. In a sloppy function that calls `eval` directly no name may
be resolved past the function, since the call may declare it there. -/
def bindFunction (cx : Context) (parent : ScopeId) : FunctionDef → BindM Unit
  | ⟨id, self, params, body, strict, _⟩ => do
    let scope ← onScopes
      (.newFunction (some parent) (self.map Identifier.name) (params.map Identifier.name))
    recordScope id scope
    declareStmts scope body
    if !strict && Stmt.anyCallsEval body then onScopes (.markDirectEval scope)
    bindStmts { cx with owner := .ofSelf self, strict } scope body

end

/-- A binding of nothing but the scope of a program. -/
def start (scopes : Pool Unit) (root : ScopeId) (program : NodeId) : Binding where
  scopes := scopes
  root := root
  nodeScopes := ({} : Std.HashMap NodeId ScopeId).insert program root
  references := {}
  log := #[]
  evalScopes := #[]
  reports := #[]

/-- The scope of a program that is a script, or else code for `eval`, whose scope has no parent
known before the program runs. -/
def newRoot (eval : Bool) : PoolM Unit ScopeId := if eval then .newEval none else .newGlobal

/-- Binds a program. -/
def ofProgram (p : Program) (eval : Bool) (limits : Limits) (names : Interner) :
    Except ScopeError Binding := do
  let (root, scopes) := (newRoot eval).run (.empty limits)
  let root ← root
  let cx : Context := ⟨names, p.file, .script, p.strict⟩
  let ((), b) ← (do
    declareStmts root p.body
    bindStmts cx root p.body : BindM Unit).run (start scopes root p.id)
  return b

end Binding

end ScopeChain
