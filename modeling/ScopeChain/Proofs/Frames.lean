import ScopeChain.Code

/-! What a place in a program may rely on: the scopes known to be around it when it runs. Code fits
its place if it finds every name there that it addresses by a slot. -/
namespace ScopeChain

/-- What is known of a scope before the program runs. -/
structure Frame where
  /-- The names in the first slots, which keep them. -/
  names : List Name
  /-- Whether declarations made in the scope pass on outward. -/
  isCatch : Bool
  /-- Whether the scope may gain names while the program runs. -/
  isOpen : Bool

/-- Following the frames outward, a name is met first `depth` frames away, in a slot, and no open
frame is passed on the way. -/
inductive Finds (n : Name) : List Frame → (depth slot : Nat) → Prop where
  | here {F : Frame} {Γ : List Frame} {slot : Nat} :
    F.names[slot]? = some n → Finds n (F :: Γ) 0 slot
  | outward {F : Frame} {Γ : List Frame} {depth slot : Nat} :
    n ∉ F.names → F.isOpen = false → Finds n Γ depth slot → Finds n (F :: Γ) (depth + 1) slot

/-- An address of a name leads to it from within some frames, over no more than `limit` links. -/
def Address.Fits (limit : Nat) (Γ : List Frame) (n : Name) : Address → Prop
  | .static depth slot => depth ≤ limit ∧ Finds n Γ depth slot
  | .dynamic m => m = n

namespace Frame

/-- The address of a name from within some frames, `depth` links above the start: where it is first
met, or the name if an open frame is met before. -/
def addressFrom (n : Name) : (depth : Nat) → List Frame → Address
  | _, [] => .dynamic n
  | depth, F :: Γ =>
    match F.names.idxOf? n with
    | some slot => .static depth slot
    | none => if F.isOpen then .dynamic n else addressFrom n (depth + 1) Γ

/-- The address of a name from within some frames. -/
def address (n : Name) (Γ : List Frame) : Address := addressFrom n 0 Γ

/-- The frames from the one on in which declarations land. -/
def target (Γ : List Frame) : List Frame := Γ.dropWhile Frame.isCatch

/-- Declarations made within some frames land outside of them or in an open one. -/
def TakesEval : List Frame → Prop
  | [] => True
  | F :: Γ => if F.isCatch then TakesEval Γ else F.isOpen = true

@[simp] theorem target_nil : target [] = [] := rfl

@[simp] theorem takesEval_nil : TakesEval [] := trivial

theorem target_cons_of_catch {F : Frame} (Γ : List Frame) (h : F.isCatch = true) :
    target (F :: Γ) = target Γ := by simp [target, h]

theorem target_cons_of_not_catch {F : Frame} (Γ : List Frame) (h : F.isCatch = false) :
    target (F :: Γ) = F :: Γ := by simp [target, h]

theorem takesEval_cons_of_catch {F : Frame} {Γ : List Frame} (h : F.isCatch = true) :
    TakesEval (F :: Γ) ↔ TakesEval Γ := by simp [TakesEval, h]

theorem takesEval_cons_of_not_catch {F : Frame} {Γ : List Frame} (h : F.isCatch = false) :
    TakesEval (F :: Γ) ↔ F.isOpen = true := by simp [TakesEval, h]

end Frame

namespace Code

/-- A name is addressed so that it is found from within some frames. -/
def Use.Fits (limit : Nat) (Γ : List Frame) (u : Use) : Prop := u.address.Fits limit Γ u.name

mutual

/-- The code of a function whose activation is reached from within some frames. -/
inductive FunctionCode.Fits (limit : Nat) : List Frame → FunctionCode → Prop where
  | intro {Γ : List Frame} {c : FunctionCode} (isOpen : Bool) :
    c.entry.mode = .template →
    c.entry.names.Nodup →
    (∀ k ∈ c.params, k < c.entry.names.length) →
    (∀ k ∈ c.selfSlot, k < c.entry.names.length) →
    (∀ k ∈ c.argumentsSlot, k < c.entry.names.length) →
    (∀ h ∈ c.entry.hoisted, c.entry.names[h.slot]? = some h.name) →
    (∀ h ∈ c.entry.hoisted, h.code.Fits limit (⟨c.entry.names, false, isOpen⟩ :: Γ)) →
    (∀ s ∈ c.body, s.Fits limit (⟨c.entry.names, false, isOpen⟩ :: Γ) c.strict) →
    FunctionCode.Fits limit Γ c

/-- The code of a catch clause. -/
inductive CatchCode.Fits (limit : Nat) : List Frame → Bool → CatchCode → Prop where
  | intro {Γ : List Frame} {strict : Bool} {c : CatchCode} :
    c.entry.mode = .catch →
    c.entry.names.Nodup →
    c.entry.hoisted = [] →
    c.paramSlot < c.entry.names.length →
    (∀ s ∈ c.body, s.Fits limit (⟨c.entry.names, true, false⟩ :: Γ) strict) →
    CatchCode.Fits limit Γ strict c

/-- A statement of strict or sloppy code that is run from within some frames. -/
inductive Stmt.Fits (limit : Nat) : List Frame → Bool → Stmt → Prop where
  | expr {Γ : List Frame} {strict : Bool} {e : Expr} :
    e.Fits limit Γ strict → Stmt.Fits limit Γ strict (.expr e)
  | init {Γ : List Frame} {strict : Bool} {e : Expr} :
    e.Fits limit Γ strict → Stmt.Fits limit Γ strict (.init e)
  | return {Γ : List Frame} {strict : Bool} {argument : Option Expr} :
    (∀ e ∈ argument, e.Fits limit Γ strict) → Stmt.Fits limit Γ strict (.return argument)
  | if {Γ : List Frame} {strict : Bool} {test : Expr} {consequent : Stmt}
      {alternate : Option Stmt} :
    test.Fits limit Γ strict → consequent.Fits limit Γ strict →
    (∀ s ∈ alternate, s.Fits limit Γ strict) →
    Stmt.Fits limit Γ strict (.if test consequent alternate)
  | while {Γ : List Frame} {strict : Bool} {test : Expr} {body : Stmt} :
    test.Fits limit Γ strict → body.Fits limit Γ strict →
    Stmt.Fits limit Γ strict (.while test body)
  | block {Γ : List Frame} {strict : Bool} {body : List Stmt} :
    (∀ s ∈ body, s.Fits limit Γ strict) → Stmt.Fits limit Γ strict (.block body)
  | try {Γ : List Frame} {strict : Bool} {block : List Stmt} {handler : Option CatchCode}
      {finalizer : Option (List Stmt)} :
    (∀ s ∈ block, s.Fits limit Γ strict) →
    (∀ h ∈ handler, h.Fits limit Γ strict) →
    (∀ f ∈ finalizer, ∀ s ∈ f, s.Fits limit Γ strict) →
    Stmt.Fits limit Γ strict (.try block handler finalizer)
  | throw {Γ : List Frame} {strict : Bool} {e : Expr} :
    e.Fits limit Γ strict → Stmt.Fits limit Γ strict (.throw e)

/-- An expression of strict or sloppy code that is evaluated from within some frames. Sloppy code
calls `eval` directly only where its declarations can land. -/
inductive Expr.Fits (limit : Nat) : List Frame → Bool → Expr → Prop where
  | number {Γ : List Frame} {strict : Bool} {x : Float} : Expr.Fits limit Γ strict (.number x)
  | string {Γ : List Frame} {strict : Bool} {s : String} : Expr.Fits limit Γ strict (.string s)
  | bool {Γ : List Frame} {strict b : Bool} : Expr.Fits limit Γ strict (.bool b)
  | null {Γ : List Frame} {strict : Bool} : Expr.Fits limit Γ strict .null
  | load {Γ : List Frame} {strict : Bool} {u : Use} :
    u.Fits limit Γ → Expr.Fits limit Γ strict (.load u)
  | store {Γ : List Frame} {strict : Bool} {u : Use} {e : Expr} :
    u.Fits limit Γ → e.Fits limit Γ strict → Expr.Fits limit Γ strict (.store u e)
  | binary {Γ : List Frame} {strict : Bool} {op : BinaryOp} {l r : Expr} :
    l.Fits limit Γ strict → r.Fits limit Γ strict → Expr.Fits limit Γ strict (.binary op l r)
  | unary {Γ : List Frame} {strict : Bool} {op : UnaryOp} {e : Expr} :
    e.Fits limit Γ strict → Expr.Fits limit Γ strict (.unary op e)
  | typeofName {Γ : List Frame} {strict : Bool} {u : Use} :
    u.Fits limit Γ → Expr.Fits limit Γ strict (.typeofName u)
  | typeof {Γ : List Frame} {strict : Bool} {e : Expr} :
    e.Fits limit Γ strict → Expr.Fits limit Γ strict (.typeof e)
  | deleteName {Γ : List Frame} {strict : Bool} {u : Use} :
    u.Fits limit Γ → Expr.Fits limit Γ strict (.deleteName u)
  | deleteValue {Γ : List Frame} {strict : Bool} {e : Expr} :
    e.Fits limit Γ strict → Expr.Fits limit Γ strict (.deleteValue e)
  | call {Γ : List Frame} {strict : Bool} {f : Expr} {args : List Expr} :
    f.Fits limit Γ strict → (∀ a ∈ args, a.Fits limit Γ strict) →
    Expr.Fits limit Γ strict (.call f args)
  | directEval {Γ : List Frame} {strict : Bool} {args : List Expr} :
    (strict = true ∨ Frame.TakesEval Γ) → (∀ a ∈ args, a.Fits limit Γ strict) →
    Expr.Fits limit Γ strict (.directEval args)
  | function {Γ : List Frame} {strict : Bool} {c : FunctionCode} :
    c.Fits limit Γ → Expr.Fits limit Γ strict (.function c)

end

/-- The code of a program that is run from within no known frames. -/
structure FunctionCode.FitsProgram (limit : Nat) (mode : EntryMode) (c : FunctionCode) : Prop where
  mode_eq : c.entry.mode = mode
  names_nodup : c.entry.names.Nodup
  hoisted_name : ∀ h ∈ c.entry.hoisted, c.entry.names[h.slot]? = some h.name
  hoisted : ∀ h ∈ c.entry.hoisted, h.code.Fits limit []
  body : ∀ s ∈ c.body, s.Fits limit [] c.strict

end Code

end ScopeChain
