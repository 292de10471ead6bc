import Mathlib.Data.List.Forall2
import ScopeChain.Value

/-! Values that differ at most in the handles of the scopes that their functions close over. Scripts
cannot tell them apart. -/
namespace ScopeChain.Value

open Code (FunctionCode)

variable {R R' : FunctionCode → ScopeId → ScopeId → Prop} {v w v' w' : Value}

/-- Two values are alike if they are the same but for scopes, and the scopes of each two functions
are related by `R`. -/
inductive Alike (R : FunctionCode → ScopeId → ScopeId → Prop) : Value → Value → Prop where
  | undefined : Alike R .undefined .undefined
  | null : Alike R .null .null
  | bool (b : Bool) : Alike R (.bool b) (.bool b)
  | number (x : Float) : Alike R (.number x) (.number x)
  | string (s : String) : Alike R (.string s) (.string s)
  | function (object : Nat) {code : FunctionCode} {i j : ScopeId} : R code i j →
    Alike R (.function object code i) (.function object code j)
  | arguments (object : Nat) {vs ws : List Value} : vs.length = ws.length →
    (∀ p ∈ vs.zip ws, Alike R p.1 p.2) → Alike R (.arguments object vs) (.arguments object ws)
  | error (object : Nat) (kind : ErrorKind) (message : String) :
    Alike R (.error object kind message) (.error object kind message)

theorem Alike.items {object : Nat} {vs ws : List Value} (h : List.Forall₂ (Alike R) vs ws) :
    Alike R (.arguments object vs) (.arguments object ws) :=
  .arguments object h.length_eq fun _ hp => List.forall₂_iff_zip.mp h |>.2 hp

theorem Alike.mono (h : Alike R v w) (hr : ∀ c i j, R c i j → R' c i j) : Alike R' v w := by
  induction h with
  | undefined => exact .undefined
  | null => exact .null
  | bool b => exact .bool b
  | number x => exact .number x
  | string s => exact .string s
  | function object hc => exact .function object (hr _ _ _ hc)
  | arguments object hlen _ ih => exact .arguments object hlen ih
  | error object kind message => exact .error object kind message

/-- Values whose scopes are the same are the same. -/
theorem Alike.eq (h : Alike R v w) (hr : ∀ c i j, R c i j → i = j) : v = w := by
  induction h with
  | function object hc => rw [hr _ _ _ hc]
  | @arguments object vs ws hlen _ ih =>
    congr 1
    exact List.forall₂_eq_eq_eq ▸ List.forall₂_iff_zip.mpr ⟨hlen, fun hp => ih _ hp⟩
  | _ => rfl

theorem Alike.typeName_eq (h : Alike R v w) : v.typeName = w.typeName := by cases h <;> rfl

theorem Alike.isTruthy_eq (h : Alike R v w) : v.isTruthy = w.isTruthy := by cases h <;> rfl

theorem Alike.toNumber_eq (h : Alike R v w) : v.toNumber = w.toNumber := by cases h <;> rfl

theorem Alike.isNullish_eq (h : Alike R v w) : v.isNullish = w.isNullish := by cases h <;> rfl

theorem Alike.strictEq_eq (h : Alike R v w) (h' : Alike R v' w') :
    v.strictEq v' = w.strictEq w' := by
  cases h <;> cases h' <;> rfl

theorem Alike.comparesAsNumber_eq (h : Alike R v w) (h' : Alike R v' w') :
    v.comparesAsNumber v' = w.comparesAsNumber w' := by
  cases h <;> cases h' <;> rfl

theorem Alike.looseEq_eq (h : Alike R v w) (h' : Alike R v' w') :
    v.looseEq v' = w.looseEq w' := by
  simp only [looseEq, h.isNullish_eq, h'.isNullish_eq, h.comparesAsNumber_eq h', h.toNumber_eq,
    h'.toNumber_eq, h.strictEq_eq h']

theorem Alike.less_eq (h : Alike R v w) (h' : Alike R v' w') : v.less v' = w.less w' := by
  cases h <;> cases h' <;> rfl

theorem Alike.lessEq_eq (h : Alike R v w) (h' : Alike R v' w') : v.lessEq v' = w.lessEq w' := by
  cases h <;> cases h' <;> rfl

theorem Alike.add (h : Alike R v w) (h' : Alike R v' w') : Alike R (v.add v') (w.add w') := by
  cases h <;> cases h' <;> first | exact .string _ | exact .number _

theorem Alike.unary (op : UnaryOp) (h : Alike R v w) : Alike R (v.unary op) (w.unary op) := by
  cases op with
  | not =>
    simp only [Value.unary, h.isTruthy_eq]
    exact .bool _
  | minus | plus =>
    simp only [Value.unary, h.toNumber_eq]
    exact .number _

/-- No operator tells like values apart. -/
theorem Alike.binary (op : BinaryOp) (h : Alike R v w) (h' : Alike R v' w') :
    Alike R (Value.binary op v v') (Value.binary op w w') := by
  cases op with
  | add => exact h.add h'
  | subtract | multiply | divide | remainder =>
    simp only [Value.binary, h.toNumber_eq, h'.toNumber_eq]
    exact .number _
  | less | greater | lessEq | greaterEq | looseEq | looseNe | strictEq | strictNe =>
    simp only [Value.binary, h.less_eq h', h'.less_eq h, h.lessEq_eq h', h'.lessEq_eq h,
      h.looseEq_eq h', h.strictEq_eq h']
    exact .bool _
  | logicalAnd | logicalOr => exact h'

end ScopeChain.Value
