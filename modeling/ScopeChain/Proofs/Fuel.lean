import ScopeChain.Machine.Evaluation
import ScopeChain.Proofs.Bodies

/-! Fuel. More of it makes no difference to code that had enough, so that code comes to one end,
or to none with any fuel. -/
namespace ScopeChain.Exec

open Code (CatchCode FunctionCode)

variable {α β : Type} {A : Access} {fuel : Nat} {f g h : Exec α} {f' g' : α → Exec β}

theorem run_within (scope : ScopeId) (strict : Bool) (f : Exec α) (m : Machine) :
    (within scope strict f).run m =
      let a := f.run { m with active := scope, strict, saved := m.active :: m.saved }
      (a.1, { a.2 with active := m.active, strict := m.strict, saved := a.2.saved.tail }) := rfl

theorem run_oneDeeper (f : Exec α) (m : Machine) :
    (oneDeeper f).run m =
      let a := f.run { m with callDepth := m.callDepth + 1 }
      (a.1, { a.2 with callDepth := a.2.callDepth - 1 }) := rfl

/-- Code does what other code does, unless it runs out of fuel. -/
def Refines (f g : Exec α) : Prop := ∀ m, (f.run m).1 = .error .outOfFuel ∨ f.run m = g.run m

namespace Refines

theorem refl (f : Exec α) : Refines f f := fun _ => .inr rfl

theorem outOfFuel : Refines (throw .outOfFuel) f := fun _ => .inl rfl

theorem trans (hfg : Refines f g) (hgh : Refines g h) : Refines f h := by
  intro m
  obtain hout | hrun := hfg m
  · exact .inl hout
  · rw [hrun]
    exact hgh m

theorem bind (h : Refines f g) (h' : ∀ a, Refines (f' a) (g' a)) :
    Refines (f >>= f') (g >>= g') := by
  intro m
  rw [run_bind, run_bind]
  obtain hout | hrun := h m
  · rcases hf : f.run m with ⟨r, m'⟩
    rw [hf] at hout
    obtain rfl : r = .error .outOfFuel := hout
    exact .inl rfl
  · rw [hrun]
    rcases g.run m with ⟨r, m'⟩
    cases r with
    | ok a => exact h' a m'
    | error => exact .inr rfl

theorem looking {f' g' : Machine → Exec β} (h : ∀ m, Refines (f' m) (g' m)) :
    Refines (do f' (← get)) (do g' (← get)) :=
  fun m => h m m

theorem within (h : Refines f g) (scope : ScopeId) (strict : Bool) :
    Refines (within scope strict f) (within scope strict g) := by
  intro m
  obtain hout | hrun := h { m with active := scope, strict, saved := m.active :: m.saved }
  · exact .inl hout
  · rw [run_within, run_within, hrun]
    exact .inr rfl

theorem oneDeeper (h : Refines f g) : Refines (oneDeeper f) (oneDeeper g) := by
  intro m
  obtain hout | hrun := h { m with callDepth := m.callDepth + 1 }
  · exact .inl hout
  · rw [run_oneDeeper, run_oneDeeper, hrun]
    exact .inr rfl

/-- A handler does not get to see that there is no fuel. -/
theorem caught {f g : Exec Flow} {h h' : Value → Exec Flow} (hf : Refines f g)
    (hh : ∀ v, Refines (h v) (h' v)) : Refines (caught f h) (caught g h') := by
  intro m
  rw [run_caught, run_caught]
  obtain hout | hrun := hf m
  · rcases hf : f.run m with ⟨r, m'⟩
    rw [hf] at hout
    obtain rfl : r = .error .outOfFuel := hout
    exact .inl rfl
  · rw [hrun]
    rcases g.run m with ⟨r, m'⟩
    cases r with
    | ok => exact .inr rfl
    | error e =>
      cases e with
      | thrown v => exact hh v m'
      | compile | scope | outOfFuel => exact .inr rfl

theorem finalized {f g f' g' : Exec Flow} (hf : Refines f g) (hf' : Refines f' g') :
    Refines (finalized f f') (finalized g g') := by
  intro m
  rw [run_finalized, run_finalized]
  obtain hout | hrun := hf m
  · rw [hout, if_neg (by decide)]
    exact .inl hout
  · rw [hrun]
    split
    · obtain hout | hrun' := hf' (g.run m).2
      · rcases hown : f'.run (g.run m).2 with ⟨r, m'⟩
        rw [hown] at hout
        obtain rfl : r = .error .outOfFuel := hout
        exact .inl rfl
      · rw [hrun']
        exact .inr rfl
    · exact .inr rfl

theorem activate {f g : Exec Flow} (h : Refines f g) (self : Value) (code : FunctionCode)
    (scope : ScopeId) (args : List Value) :
    Refines (activate self code scope args f) (activate self code scope args g) := by
  refine Refines.within ?_ scope code.strict
  refine (refl _).bind fun activation => Refines.within (Refines.oneDeeper ?_) activation code.strict
  exact (refl _).bind fun _ => h.bind fun _ => refl _

theorem handle {f g : Exec Flow} (h : Refines f g) (c : CatchCode) (v : Value) :
    Refines (handle c v f) (handle c v g) :=
  (refl _).bind fun _ => (refl _).bind fun _ => .looking fun m => h.within _ m.strict

theorem evaluate {f g : Exec Flow} (h : Refines f g) (code : FunctionCode) :
    Refines (evaluate code f) (evaluate code g) := by
  unfold Exec.evaluate
  split
  · exact (refl _).bind fun scope => Refines.within ((refl _).bind fun _ => h) scope code.strict
  · exact .looking fun _ => (refl _).bind fun _ => (refl _).bind fun _ => h

end Refines

/-- What is to be shown of each part of the evaluator, with some fuel. -/
structure Burning (A : Access) (fuel : Nat) : Prop where
  eval : ∀ e, Refines (eval A fuel e) (eval A (fuel + 1) e)
  evalAll : ∀ es, Refines (evalAll A fuel es) (evalAll A (fuel + 1) es)
  call : ∀ f args, Refines (call A fuel f args) (call A (fuel + 1) f args)
  directEval : ∀ args, Refines (directEval A fuel args) (directEval A (fuel + 1) args)
  execAll : ∀ v ss, Refines (execAll A fuel v ss) (execAll A (fuel + 1) v ss)
  exec : ∀ s, Refines (exec A fuel s) (exec A (fuel + 1) s)
  loop : ∀ v test body, Refines (loop A fuel v test body) (loop A (fuel + 1) v test body)

theorem burning_zero : Burning A 0 where
  eval _ := .outOfFuel
  evalAll _ := .outOfFuel
  call _ _ := .outOfFuel
  directEval _ := .outOfFuel
  execAll _ _ := .outOfFuel
  exec _ := .outOfFuel
  loop _ _ _ := .outOfFuel

section Step

variable (ih : Burning A fuel)

include ih

theorem refines_eval (e : Code.Expr) :
    Refines (eval A (fuel + 1) e) (eval A (fuel + 2) e) := by
  cases e with
  | number | string | bool | null | load | typeofName | deleteName | function => exact .refl _
  | store u e => exact (ih.eval e).bind fun _ => .refl _
  | binary op l r =>
    refine (ih.eval l).bind fun v => ?_
    have hboth : Refines (do return .binary op v (← Exec.eval A fuel r))
        (do return Value.binary op v (← Exec.eval A (fuel + 1) r)) :=
      (ih.eval r).bind fun _ => .refl _
    cases op with
    | logicalAnd | logicalOr => cases v.isTruthy <;> first | exact hboth | exact .refl _
    | _ => exact hboth
  | unary op e => exact (ih.eval e).bind fun _ => .refl _
  | typeof e => exact (ih.eval e).bind fun _ => .refl _
  | deleteValue e => exact (ih.eval e).bind fun _ => .refl _
  | call f args => exact (ih.eval f).bind fun f => (ih.evalAll args).bind fun vs => ih.call f vs
  | directEval args => exact (ih.evalAll args).bind fun vs => ih.directEval vs

theorem refines_evalAll (es : List Code.Expr) :
    Refines (evalAll A (fuel + 1) es) (evalAll A (fuel + 2) es) := by
  cases es with
  | nil => exact .refl _
  | cons e es => exact (ih.eval e).bind fun _ => (ih.evalAll es).bind fun _ => .refl _

theorem refines_call (f : Value) (args : List Value) :
    Refines (call A (fuel + 1) f args) (call A (fuel + 2) f args) := by
  cases f with
  | function object code scope =>
    have hrun := (ih.execAll none code.body).activate (.function object code scope) code scope args
    refine .looking fun m => ?_
    split
    · exact (Refines.refl _).bind fun _ => hrun
    · exact hrun
  | _ => exact .refl _

theorem refines_directEval (args : List Value) :
    Refines (directEval A (fuel + 1) args) (directEval A (fuel + 2) args) := by
  refine .looking fun m => (Refines.refl _).bind fun found => ?_
  cases found with
  | some found => exact (Refines.refl _).bind fun f => ih.call f args
  | none =>
    cases args with
    | nil => exact .refl _
    | cons v vs =>
      cases v with
      | string text =>
        refine (Refines.refl _).bind fun c => ?_
        exact ((ih.execAll none c.code.body).evaluate c.code).bind fun _ => .refl _
      | _ => exact .refl _

theorem refines_execAll (v : Option Value) (ss : List Code.Stmt) :
    Refines (execAll A (fuel + 1) v ss) (execAll A (fuel + 2) v ss) := by
  cases ss with
  | nil => exact .refl _
  | cons s ss =>
    refine (ih.exec s).bind fun flow => ?_
    cases flow with
    | normal w => exact ih.execAll _ ss
    | «return» => exact .refl _

theorem refines_loop (v : Option Value) (test : Code.Expr) (body : Code.Stmt) :
    Refines (loop A (fuel + 1) v test body) (loop A (fuel + 2) v test body) := by
  refine (ih.eval test).bind fun t => ?_
  split
  · refine (ih.exec body).bind fun flow => ?_
    cases flow with
    | normal w => exact ih.loop _ test body
    | «return» => exact .refl _
  · exact .refl _

theorem refines_handled (block : List Code.Stmt) (c : CatchCode) :
    Refines (caught (execAll A fuel none block) fun v => handle c v (execAll A fuel none c.body))
      (caught (execAll A (fuel + 1) none block) fun v =>
        handle c v (execAll A (fuel + 1) none c.body)) :=
  (ih.execAll none block).caught fun v => (ih.execAll none c.body).handle c v

theorem refines_exec (s : Code.Stmt) :
    Refines (exec A (fuel + 1) s) (exec A (fuel + 2) s) := by
  cases s with
  | expr e => exact (ih.eval e).bind fun _ => .refl _
  | init e => exact (ih.eval e).bind fun _ => .refl _
  | throw e => exact (ih.eval e).bind fun _ => .refl _
  | «return» argument =>
    cases argument with
    | none => exact .refl _
    | some e => exact (ih.eval e).bind fun _ => .refl _
  | «if» test consequent alternate =>
    cases alternate with
    | none =>
      refine (ih.eval test).bind fun t => ?_
      split
      · exact ih.exec consequent
      · exact .refl _
    | some alternate =>
      refine (ih.eval test).bind fun t => ?_
      split
      · exact ih.exec consequent
      · exact ih.exec alternate
  | «while» test body => exact ih.loop none test body
  | block ss => exact ih.execAll none ss
  | «try» block handler finalizer =>
    cases handler with
    | none =>
      cases finalizer with
      | none => exact ih.execAll none block
      | some f => exact (ih.execAll none block).finalized (ih.execAll none f)
    | some c =>
      cases finalizer with
      | none => exact refines_handled ih block c
      | some f => exact (refines_handled ih block c).finalized (ih.execAll none f)

end Step

theorem burning (A : Access) (fuel : Nat) : Burning A fuel := by
  induction fuel with
  | zero => exact burning_zero
  | succ fuel ih =>
    exact {
      eval := refines_eval ih
      evalAll := refines_evalAll ih
      call := refines_call ih
      directEval := refines_directEval ih
      execAll := refines_execAll ih
      exec := refines_exec ih
      loop := refines_loop ih }

end ScopeChain.Exec
