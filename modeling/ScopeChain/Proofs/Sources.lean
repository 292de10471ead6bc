import ScopeChain.Proofs.Spellings
import ScopeChain.Program.Parser

/-! Programs by what they say: trees with names as texts, without the numbers and the places of
nodes. A grammatical one is free of what is an error in code of its strictness. -/
namespace ScopeChain

namespace Source

mutual

inductive Expr where
  | number (value : Float)
  | string (value : String)
  | bool (value : Bool)
  | null
  | this
  | identifier (name : String)
  | assign (target : String) (value : Expr)
  | binary (op : BinaryOp) (left right : Expr)
  | unary (op : UnaryOp) (operand : Expr)
  | typeof (operand : Expr)
  | delete (operand : Expr)
  | call (callee : Expr) (args : List Expr)
  | function (f : Function)

inductive Stmt where
  | var (declarators : List Declarator)
  | function (f : Function)
  | expr (e : Expr)
  | return (argument : Option Expr)
  | if (test : Expr) (consequent : Stmt) (alternate : Option Stmt)
  | while (test : Expr) (body : Stmt)
  | block (body : List Stmt)
  | try (block : List Stmt) (handler : Option CatchClause) (finalizer : Option (List Stmt))
  | throw (argument : Expr)
  | empty

structure Declarator where
  target : String
  value : Option Expr

structure CatchClause where
  param : String
  body : List Stmt

structure Function where
  self : Option String
  params : List String
  body : List Stmt
  strict : Bool

end

structure Program where
  body : List Stmt
  strict : Bool

end Source

section Sources

variable (names : Interner)

mutual

/-- What an expression says, its names read with an interner. -/
def Expr.source : Expr → Source.Expr
  | .number x => .number x
  | .string s => .string s
  | .bool b => .bool b
  | .null => .null
  | .this _ => .this
  | .identifier i => .identifier (names.text i.name)
  | .assign i e => .assign (names.text i.name) e.source
  | .binary op l r => .binary op l.source r.source
  | .unary op e => .unary op e.source
  | .typeof e => .typeof e.source
  | .delete e _ => .delete e.source
  | .call f args _ => .call f.source (Expr.sources args)
  | .function f => .function f.source

def Expr.sources : List Expr → List Source.Expr
  | [] => []
  | e :: es => e.source :: Expr.sources es

def Stmt.source : Stmt → Source.Stmt
  | .var ds => .var (Declarator.sources ds)
  | .function f => .function f.source
  | .expr e => .expr e.source
  | .return none _ => .return none
  | .return (some e) _ => .return (some e.source)
  | .if t c none => .if t.source c.source none
  | .if t c (some a) => .if t.source c.source (some a.source)
  | .while t b => .while t.source b.source
  | .block b => .block (Stmt.sources b)
  | .try b h f => .try (Stmt.sources b) (Stmt.handlerSource h) (Stmt.finalizerSource f)
  | .throw e => .throw e.source
  | .empty => .empty

def Stmt.sources : List Stmt → List Source.Stmt
  | [] => []
  | s :: ss => s.source :: Stmt.sources ss

def Declarator.sources : List Declarator → List Source.Declarator
  | [] => []
  | ⟨i, none⟩ :: ds => ⟨names.text i.name, none⟩ :: Declarator.sources ds
  | ⟨i, some e⟩ :: ds => ⟨names.text i.name, some e.source⟩ :: Declarator.sources ds

def Stmt.handlerSource : Option CatchClause → Option Source.CatchClause
  | none => none
  | some ⟨_, param, body⟩ => some ⟨names.text param.name, Stmt.sources body⟩

def Stmt.finalizerSource : Option (List Stmt) → Option (List Source.Stmt)
  | none => none
  | some body => some (Stmt.sources body)

def FunctionDef.source : FunctionDef → Source.Function
  | ⟨_, self, params, body, strict, _⟩ =>
    ⟨self.map fun i => names.text i.name, params.map fun i => names.text i.name,
      Stmt.sources body, strict⟩

end

/-- What a program says, whatever the numbers and the places of its nodes. -/
def Program.source (p : Program) : Source.Program := ⟨Stmt.sources names p.body, p.strict⟩

theorem Stmt.sources_append (ss ts : List Stmt) :
    Stmt.sources names (ss ++ ts) = Stmt.sources names ss ++ Stmt.sources names ts := by
  induction ss with
  | nil => rfl
  | cons s ss ih => rw [List.cons_append, Stmt.sources, Stmt.sources, ih, List.cons_append]

end Sources

namespace Source

/-- A text that is read as a name. -/
def IsWord (n : String) : Prop := Lexer.Spells n (.identifier n)

/-- A number that some literal stands for. -/
def Denoted (x : Float) : Prop :=
  ∃ w, Lexer.Spells w (.number w) ∧ Numeral.ofLiteral w.toList = x

/-- A name that code may bind and assign. -/
structure Bindable (strict : Bool) (n : String) : Prop where
  word : IsWord n
  unreserved : strict = true → n ≠ "eval" ∧ n ≠ "arguments"

def Expr.isIdentifier : Expr → Bool
  | .identifier _ => true
  | _ => false

/-- Whether a statement ends in one that an alternate could belong to. -/
def Stmt.endsOpen : Stmt → Bool
  | .if _ _ none => true
  | .if _ _ (some a) => a.endsOpen
  | .while _ b => b.endsOpen
  | _ => false

/-- The strings at the head of a body that may be directives. -/
def prologue : List Stmt → List String
  | .expr (.string s) :: ss => s :: prologue ss
  | _ => []

mutual

/-- An expression that may stand in code of some strictness. -/
def Expr.Grammatical (strict : Bool) : Expr → Prop
  | .number x => Denoted x
  | .string _ | .bool _ | .null | .this => True
  | .identifier n => IsWord n
  | .assign n e => Bindable strict n ∧ e.Grammatical strict
  | .binary _ l r => l.Grammatical strict ∧ r.Grammatical strict
  | .unary _ e | .typeof e => e.Grammatical strict
  | .delete e => e.Grammatical strict ∧ (strict = true → e.isIdentifier = false)
  | .call f args => f.Grammatical strict ∧ Expr.AllGrammatical strict args
  | .function f => f.Grammatical strict

def Expr.AllGrammatical (strict : Bool) : List Expr → Prop
  | [] => True
  | e :: es => e.Grammatical strict ∧ Expr.AllGrammatical strict es

/-- A statement that may stand in code of some strictness, inside of a function or not. -/
def Stmt.Grammatical (strict inside : Bool) : Stmt → Prop
  | .var ds => ds ≠ [] ∧ Declarator.AllGrammatical strict ds
  | .function f => f.self.isSome ∧ f.Grammatical strict
  | .expr e | .throw e => e.Grammatical strict
  | .return none => inside = true
  | .return (some e) => inside = true ∧ e.Grammatical strict
  | .if t c none => t.Grammatical strict ∧ c.Grammatical strict inside
  | .if t c (some a) => t.Grammatical strict ∧ c.Grammatical strict inside ∧
    c.endsOpen = false ∧ a.Grammatical strict inside
  | .while t b => t.Grammatical strict ∧ b.Grammatical strict inside
  | .block b => Stmt.AllGrammatical strict inside b
  | .try b h f => (h.isSome || f.isSome) = true ∧ Stmt.AllGrammatical strict inside b ∧
    Stmt.HandlerGrammatical strict inside h ∧ Stmt.FinalizerGrammatical strict inside f
  | .empty => True

def Stmt.AllGrammatical (strict inside : Bool) : List Stmt → Prop
  | [] => True
  | s :: ss => s.Grammatical strict inside ∧ Stmt.AllGrammatical strict inside ss

def Declarator.AllGrammatical (strict : Bool) : List Declarator → Prop
  | [] => True
  | ⟨n, none⟩ :: ds => Bindable strict n ∧ Declarator.AllGrammatical strict ds
  | ⟨n, some e⟩ :: ds =>
    Bindable strict n ∧ e.Grammatical strict ∧ Declarator.AllGrammatical strict ds

def Stmt.HandlerGrammatical (strict inside : Bool) : Option CatchClause → Prop
  | none => True
  | some ⟨param, body⟩ => Bindable strict param ∧ Stmt.AllGrammatical strict inside body

def Stmt.FinalizerGrammatical (strict inside : Bool) : Option (List Stmt) → Prop
  | none => True
  | some body => Stmt.AllGrammatical strict inside body

/-- A function that may stand in code of some strictness. It is strict if that is or if a
directive of its own says so. -/
def Function.Grammatical (outer : Bool) : Function → Prop
  | ⟨self, params, body, strict⟩ =>
    (outer = true → strict = true) ∧
    (strict = true → outer = true ∨ "use strict" ∈ prologue body) ∧
    (∀ n ∈ self, Bindable strict n) ∧ (∀ n ∈ params, Bindable strict n) ∧
    (strict = true → params.Nodup) ∧ Stmt.AllGrammatical strict true body

end

/-- A program that may be read as code of some strictness. -/
structure Program.Grammatical (outer : Bool) (p : Program) : Prop where
  inherits : outer = true → p.strict = true
  directive : p.strict = true → outer = true ∨ "use strict" ∈ prologue p.body
  body : Stmt.AllGrammatical p.strict false p.body

theorem Stmt.allGrammatical_append {strict inside : Bool} {ss ts : List Stmt} :
    Stmt.AllGrammatical strict inside (ss ++ ts) ↔
      Stmt.AllGrammatical strict inside ss ∧ Stmt.AllGrammatical strict inside ts := by
  induction ss with
  | nil => exact ⟨fun h => ⟨trivial, h⟩, And.right⟩
  | cons s ss ih =>
    rw [List.cons_append, Stmt.AllGrammatical, Stmt.AllGrammatical, ih, and_assoc]

theorem mem_prologue_append {s : String} {ss : List Stmt} (h : s ∈ prologue ss)
    (ts : List Stmt) : s ∈ prologue (ss ++ ts) := by
  fun_induction prologue ss with
  | case1 s' ss ih =>
    rw [List.cons_append, prologue]
    exact (List.mem_cons.1 h).elim (· ▸ List.mem_cons_self) fun h => List.mem_cons_of_mem _ (ih h)
  | case2 => cases h

end Source

end ScopeChain
