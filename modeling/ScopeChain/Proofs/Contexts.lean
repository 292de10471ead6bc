import ScopeChain.Proofs.Requests

/-! The context of running code: the scope that is active, the strictness, the scopes put aside and
the count of calls. However code ends, it leaves them as they were. -/
namespace ScopeChain

/-- Where the code stands that a machine runs. -/
structure Context where
  global : ScopeId
  active : ScopeId
  strict : Bool
  saved : List ScopeId
  callDepth : Nat
deriving DecidableEq

/-- Nothing runs. -/
def Context.idle (global : ScopeId) : Context where
  global
  active := global
  strict := false
  saved := []
  callDepth := 0

def Machine.context (m : Machine) : Context where
  global := m.global
  active := m.active
  strict := m.strict
  saved := m.saved
  callDepth := m.callDepth

namespace Exec

open Code (CatchCode Entry FunctionCode)

variable {α β : Type} {f : Exec α} {g : α → Exec β} {scope : ScopeId}

/-- However the code ends, the context is as before. -/
def Restores (f : Exec α) : Prop :=
  ∀ m, (f.run m).2.context = m.context

theorem restores_pure (a : α) : Restores (pure a) := fun _ => rfl

theorem restores_throw (e : Abrupt) : Restores (throw e : Exec α) := fun _ => rfl

theorem restores_ask (f : Pool Value → Except ScopeError α) : Restores (ask f) := fun _ => rfl

theorem restores_onScopes (work : PoolM Value α) : Restores (onScopes work) := fun _ => rfl

theorem restores_newObject : Restores newObject := fun _ => rfl

theorem restores_modify {h : Machine → Machine} (hh : ∀ m, (h m).context = m.context) :
    Restores (modify h) := hh

theorem Restores.bind (hf : Restores f) (hg : ∀ a, Restores (g a)) : Restores (f >>= g) := by
  intro m
  have hm := hf m
  rw [run_bind]
  generalize f.run m = outcome at hm
  obtain ⟨r, n⟩ := outcome
  cases r with
  | ok a => exact (hg a n).trans hm
  | error e => exact hm

theorem Restores.looking {g : Machine → Exec β} (hg : ∀ m, Restores (g m)) :
    Restores (do g (← get)) :=
  fun m => hg m m

theorem restores_forM {ι : Type} {h : ι → Exec PUnit} (hh : ∀ i, Restores (h i)) (is : List ι) :
    Restores (is.forM h) := by
  induction is with
  | nil => exact restores_pure _
  | cons i is ih => exact (hh i).bind fun _ => ih

theorem restores_raise (kind : ErrorKind) (message : String) :
    Restores (raise kind message : Exec α) :=
  restores_newObject.bind fun _ => restores_throw _

theorem restores_closure (code : FunctionCode) (scope : ScopeId) : Restores (closure code scope) :=
  restores_newObject.bind fun _ => restores_pure _

theorem Restores.within (hf : Restores f) (scope : ScopeId) (strict : Bool) :
    Restores (within scope strict f) := by
  intro m
  have hm := hf { m with active := scope, strict, saved := m.active :: m.saved }
  simp only [Machine.context, Context.mk.injEq] at hm ⊢
  obtain ⟨hglobal, -, -, hsaved, hdepth⟩ := hm
  exact ⟨hglobal, rfl, rfl, congrArg List.tail hsaved, hdepth⟩

theorem Restores.oneDeeper (hf : Restores f) : Restores (oneDeeper f) := by
  intro m
  have hm := hf { m with callDepth := m.callDepth + 1 }
  simp only [Machine.context, Context.mk.injEq] at hm ⊢
  obtain ⟨hglobal, hactive, hstrict, hsaved, hdepth⟩ := hm
  exact ⟨hglobal, hactive, hstrict, hsaved, congrArg (· - 1) hdepth⟩

theorem Restores.caught {f : Exec Flow} {handler : Value → Exec Flow} (hf : Restores f)
    (hh : ∀ v, Restores (handler v)) : Restores (caught f handler) := by
  intro m
  have hm := hf m
  rw [run_caught]
  split
  · rename_i v n hrun
    rw [hrun] at hm
    exact (hh v n).trans hm
  · exact hm

theorem Restores.finalized {f f' : Exec Flow} (hf : Restores f) (hf' : Restores f') :
    Restores (finalized f f') := by
  intro m
  have hm := (hf' (f.run m).2).trans (hf m)
  rw [run_finalized]
  split
  · split
    · rename_i n hrun
      rwa [hrun] at hm
    · exact hm
  · exact hf m

theorem restores_locate (a : Address) : Restores (locate a) := by
  refine .looking fun m => ?_
  cases a with
  | static depth slot => exact (restores_ask _).bind fun _ => restores_pure _
  | dynamic n => exact restores_ask _

theorem restores_unbound (a : Address) : Restores (unbound a : Exec α) := by
  cases a with
  | static => exact restores_raise _ _
  | dynamic n => exact .looking fun m => restores_raise _ _

theorem restores_load (a : Address) : Restores (load a) := by
  refine (restores_locate a).bind fun found => ?_
  cases found with
  | none => exact restores_unbound a
  | some found => exact restores_ask _

theorem restores_store (a : Address) (v : Value) : Restores (store a v) := by
  refine (restores_locate a).bind fun found => ?_
  cases found with
  | some found => exact restores_onScopes _
  | none =>
    cases a with
    | static =>
      refine .looking fun m => ?_
      split
      · exact restores_unbound _
      · exact restores_pure _
    | dynamic n =>
      have hglobal : Restores (do onScopes (.setValue (← get).global n v)) :=
        .looking fun m => restores_onScopes _
      refine .looking fun m => ?_
      split
      · exact (restores_unbound _).bind fun _ => hglobal
      · exact hglobal

theorem restores_typeOfName (a : Address) : Restores (typeOfName a) := by
  refine (restores_locate a).bind fun found => ?_
  cases found with
  | none => exact restores_pure _
  | some found => exact (restores_ask _).bind fun _ => restores_pure _

theorem restores_deleteName (a : Address) : Restores (deleteName a) := by
  have hrest (deleted : Bool) : Restores (do
      if !deleted && (← get).strict then raise .type "Cannot delete a declared binding"
      return Value.bool deleted) := by
    refine .looking fun m => ?_
    split
    · exact (restores_raise _ _).bind fun _ => restores_pure _
    · exact restores_pure _
  cases a with
  | static => exact .looking fun _ => hrest false
  | dynamic n =>
    refine .looking fun _ => (restores_ask _).bind fun found => ?_
    cases found with
    | none => exact hrest true
    | some found => exact (restores_onScopes _).bind hrest

theorem restores_declareAll (scope : ScopeId) (ns : List Name) : Restores (declareAll scope ns) :=
  restores_forM (fun _ => (restores_onScopes _).bind fun _ => restores_pure _) ns

theorem restores_enter (e : Entry) : Restores (enter e) := by
  refine .looking fun m => ?_
  split
  · exact (restores_declareAll _ _).bind fun _ => restores_pure _
  · exact restores_onScopes _
  · exact restores_onScopes _
  · exact (restores_onScopes _).bind fun _ => (restores_declareAll _ _).bind fun _ =>
      restores_pure _

theorem restores_hoist (e : Entry) (scope : ScopeId) : Restores (hoist e scope) := by
  refine (restores_forM (fun h => ?_) _).bind fun _ => ?_
  · refine (restores_closure _ _).bind fun v => ?_
    split <;> exact restores_onScopes _
  · split
    · exact restores_onScopes _
    · exact restores_pure _

theorem restores_storeOwn {value : Exec Value} (hv : Restores value) (scope : ScopeId)
    (slot : Option Nat) : Restores (storeOwn scope slot value) := by
  cases slot with
  | none => exact restores_pure _
  | some slot => exact hv.bind fun _ => restores_onScopes _

theorem restores_storeParams (scope : ScopeId) (slots : List Nat) (args : List Value) :
    Restores (storeParams scope slots args) := by
  induction slots generalizing args with
  | nil => exact restores_pure _
  | cons slot slots ih => exact (restores_onScopes _).bind fun _ => ih args.tail

theorem restores_fillActivation (self : Value) (code : FunctionCode) (scope : ScopeId)
    (args : List Value) : Restores (fillActivation self code scope args) := by
  refine (restores_storeOwn (restores_pure _) _ _).bind fun _ => ?_
  refine (restores_storeOwn (restores_newObject.bind fun _ => restores_pure _) _ _).bind fun _ => ?_
  exact (restores_storeParams _ _ _).bind fun _ => restores_hoist _ _

/-- A call puts two scopes aside, and counts as one from then on that both are in place. -/
theorem Restores.activate {body : Exec Flow} (hb : Restores body) (self : Value)
    (code : FunctionCode) (scope : ScopeId) (args : List Value) :
    Restores (activate self code scope args body) := by
  refine .within ((restores_enter _).bind fun activation => ?_) _ _
  refine .within (.oneDeeper ((restores_fillActivation _ _ _ _).bind fun _ => hb.bind fun flow => ?_))
    _ _
  cases flow <;> exact restores_pure _

theorem Restores.handle {body : Exec Flow} (hb : Restores body) (h : CatchCode) (v : Value) :
    Restores (handle h v body) := by
  refine (restores_enter _).bind fun scope => (restores_onScopes _).bind fun _ => ?_
  exact .looking fun m => hb.within _ _

theorem Restores.evaluate {body : Exec Flow} (hb : Restores body) (code : FunctionCode) :
    Restores (evaluate code body) := by
  unfold Exec.evaluate
  split
  · exact (restores_enter _).bind fun scope => .within ((restores_hoist _ _).bind fun _ => hb) _ _
  · refine .looking fun m => (restores_declareAll _ _).bind fun _ => ?_
    exact (restores_hoist _ _).bind fun _ => hb

theorem restores_compileEval (text : String) : Restores (compileEval text) := by
  intro m
  rw [run_compileEval]
  dsimp only
  split <;> rfl

/-- Each part of the evaluator, with some fuel, leaves the context as it was. -/
structure Restoring (fuel : Nat) : Prop where
  eval : ∀ e, Restores (eval .byAddress fuel e)
  evalAll : ∀ es, Restores (evalAll .byAddress fuel es)
  call : ∀ f args, Restores (call .byAddress fuel f args)
  directEval : ∀ args, Restores (directEval .byAddress fuel args)
  execAll : ∀ v ss, Restores (execAll .byAddress fuel v ss)
  exec : ∀ s, Restores (exec .byAddress fuel s)
  loop : ∀ v test body, Restores (loop .byAddress fuel v test body)

theorem restoring_zero : Restoring 0 where
  eval _ := restores_throw _
  evalAll _ := restores_throw _
  call _ _ := restores_throw _
  directEval _ := restores_throw _
  execAll _ _ := restores_throw _
  exec _ := restores_throw _
  loop _ _ _ := restores_throw _

section Step

variable {fuel : Nat} (ih : Restoring fuel)

include ih

theorem restores_eval (e : Code.Expr) : Restores (eval .byAddress (fuel + 1) e) := by
  cases e with
  | number | string | bool | null => exact restores_pure _
  | load u => exact restores_load _
  | store u e =>
    exact (ih.eval e).bind fun v => (restores_store _ v).bind fun _ => restores_pure _
  | binary op l r =>
    refine (ih.eval l).bind fun a => ?_
    have hboth : Restores (do return Value.binary op a (← Exec.eval .byAddress fuel r)) :=
      (ih.eval r).bind fun _ => restores_pure _
    cases op with
    | logicalAnd => cases a.isTruthy <;> first | exact restores_pure _ | exact hboth
    | logicalOr => cases a.isTruthy <;> first | exact restores_pure _ | exact hboth
    | _ => exact hboth
  | unary op e => exact (ih.eval e).bind fun _ => restores_pure _
  | typeofName u => exact restores_typeOfName _
  | typeof e => exact (ih.eval e).bind fun _ => restores_pure _
  | deleteName u => exact restores_deleteName _
  | deleteValue e => exact (ih.eval e).bind fun _ => restores_pure _
  | call f args => exact (ih.eval f).bind fun f => (ih.evalAll args).bind fun _ => ih.call f _
  | directEval args => exact (ih.evalAll args).bind fun _ => ih.directEval _
  | function code => exact .looking fun m => restores_closure _ _

theorem restores_evalAll (es : List Code.Expr) :
    Restores (evalAll .byAddress (fuel + 1) es) := by
  cases es with
  | nil => exact restores_pure _
  | cons e es => exact (ih.eval e).bind fun _ => (ih.evalAll es).bind fun _ => restores_pure _

theorem restores_call (f : Value) (args : List Value) :
    Restores (call .byAddress (fuel + 1) f args) := by
  cases f with
  | function object code scope =>
    have hrun : Restores (activate (.function object code scope) code scope args
        (Exec.execAll .byAddress fuel none code.body)) :=
      (ih.execAll _ _).activate _ _ _ _
    refine .looking fun m => ?_
    split
    · exact (restores_raise _ _).bind fun _ => hrun
    · exact hrun
  | _ => exact restores_raise _ _

theorem restores_directEval (args : List Value) :
    Restores (directEval .byAddress (fuel + 1) args) := by
  refine .looking fun m => (restores_ask _).bind fun found => ?_
  cases found with
  | some found => exact (restores_ask _).bind fun f => ih.call f args
  | none =>
    cases args with
    | nil => exact restores_pure _
    | cons v vs =>
      cases v with
      | string text =>
        refine (restores_compileEval text).bind fun c =>
          ((ih.execAll _ _).evaluate _).bind fun flow => ?_
        cases flow <;> exact restores_pure _
      | _ => exact restores_pure _

theorem restores_execAll (v : Option Value) (ss : List Code.Stmt) :
    Restores (execAll .byAddress (fuel + 1) v ss) := by
  cases ss with
  | nil => exact restores_pure _
  | cons s ss =>
    refine (ih.exec s).bind fun flow => ?_
    cases flow with
    | normal => exact ih.execAll _ ss
    | «return» => exact restores_pure _

theorem restores_loop (v : Option Value) (test : Code.Expr) (body : Code.Stmt) :
    Restores (loop .byAddress (fuel + 1) v test body) := by
  refine (ih.eval test).bind fun t => ?_
  split
  · refine (ih.exec body).bind fun flow => ?_
    cases flow with
    | normal => exact ih.loop _ test body
    | «return» => exact restores_pure _
  · exact restores_pure _

/-- The body of a catch clause runs in a scope of its own. -/
theorem Restoring.handle (h : CatchCode) (v : Value) :
    Restores (handle h v (Exec.execAll .byAddress fuel none h.body)) :=
  (ih.execAll _ _).handle h v

theorem restores_exec (s : Code.Stmt) : Restores (exec .byAddress (fuel + 1) s) := by
  cases s with
  | expr e => exact (ih.eval e).bind fun _ => restores_pure _
  | init e => exact (ih.eval e).bind fun _ => restores_pure _
  | «return» argument =>
    cases argument with
    | none => exact restores_pure _
    | some e => exact (ih.eval e).bind fun _ => restores_pure _
  | «if» test consequent alternate =>
    cases alternate with
    | none =>
      refine (ih.eval test).bind fun t => ?_
      split
      · exact ih.exec _
      · exact restores_pure _
    | some alternate =>
      refine (ih.eval test).bind fun t => ?_
      split <;> exact ih.exec _
  | «while» test body => exact ih.loop _ test body
  | block ss => exact ih.execAll _ ss
  | «try» block handler finalizer =>
    have hblock := ih.execAll none block
    cases handler with
    | none =>
      cases finalizer with
      | none => exact hblock
      | some f => exact hblock.finalized (ih.execAll _ f)
    | some h =>
      have hcaught := hblock.caught (ih.handle h)
      cases finalizer with
      | none => exact hcaught
      | some f => exact hcaught.finalized (ih.execAll _ f)
  | throw e => exact (ih.eval e).bind fun _ => restores_throw _

end Step

theorem restoring (fuel : Nat) : Restoring fuel := by
  induction fuel with
  | zero => exact restoring_zero
  | succ fuel ih =>
    exact {
      eval := restores_eval ih
      evalAll := restores_evalAll ih
      call := restores_call ih
      directEval := restores_directEval ih
      execAll := restores_execAll ih
      exec := restores_exec ih
      loop := restores_loop ih }

theorem restores_runStmts (fuel : Nat) (ss : List Code.Stmt) :
    Restores (runStmts .byAddress fuel ss) := by
  induction ss with
  | nil => exact restores_pure _
  | cons s ss ih =>
    have hrest : Restores (do
        modify fun m => if m.heap.collectionDue then m.collectGarbage.2 else m
        runStmts .byAddress fuel ss) := by
      refine (restores_modify fun m => ?_).bind fun _ => ih
      split <;> rfl
    refine ((restoring fuel).exec s).bind fun flow => ?_
    cases flow with
    | «return» => exact hrest
    | normal v =>
      cases v with
      | none => exact hrest
      | some v =>
        refine Restores.bind ?_ fun _ => hrest
        exact restores_modify fun _ => rfl

theorem restores_runProgram (fuel : Nat) (code : FunctionCode) :
    Restores (runProgram .byAddress fuel code) := by
  refine (restores_enter _).bind fun scope => .within ?_ _ _
  exact (restores_hoist _ _).bind fun _ => restores_runStmts fuel _

end Exec

namespace Machine

open Code (CatchCode FunctionCode)
open Exec (execAll handle)

variable {fuel : Nat} {m : Machine}

theorem context_execute (fuel : Nat) (m : Machine) (code : FunctionCode) :
    (m.execute fuel code).2.context = m.context :=
  Exec.restores_runProgram fuel code { m with completion := .undefined }

/-- What is done to a machine from outside. -/
inductive Act where
  | execute (fuel : Nat) (code : FunctionCode)
  | script (fuel : Nat) (file text : String)
  | compileEval (text : String) (strict : Bool)
  | collect

/-- The machine after something is done to it. -/
def after (m : Machine) : Act → Machine
  | .execute fuel code => (m.execute fuel code).2
  | .script fuel file text => (m.runScript fuel file text).2
  | .compileEval text strict => (m.compileEval text strict).2
  | .collect => m.collectGarbage.2

theorem context_after (m : Machine) (a : Act) : (m.after a).context = m.context := by
  cases a with
  | execute fuel code => exact context_execute fuel m code
  | script fuel file text =>
    unfold after runScript
    dsimp only
    split
    · exact context_execute _ _ _
    · rfl
  | compileEval | collect => rfl

theorem context_foldl_after (m : Machine) (acts : List Act) :
    (acts.foldl after m).context = m.context := by
  induction acts generalizing m with
  | nil => rfl
  | cons a acts ih => exact (ih (m.after a)).trans (context_after m a)

/-- However expressions, statements, calls, bodies of catch clauses and programs handed to `eval`
end, the context is then as it was before. So however a program ends that a machine executes, and
whatever was done to the machine before, nothing runs in it then. -/
theorem context_is_restored (o : Options) (acts : List Act) (fuel : Nat) :
    (∀ m : Machine,
      (∀ e, ((Exec.eval .byAddress fuel e).run m).2.context = m.context) ∧
      (∀ s, ((Exec.exec .byAddress fuel s).run m).2.context = m.context) ∧
      (∀ f args, ((Exec.call .byAddress fuel f args).run m).2.context = m.context) ∧
      (∀ (h : CatchCode) (v : Value),
        ((handle h v (execAll .byAddress fuel none h.body)).run m).2.context = m.context) ∧
      ∀ args, ((Exec.directEval .byAddress fuel args).run m).2.context = m.context) ∧
    ∃ m, start o = .ok m ∧ ∀ code,
      ((acts.foldl after m).execute fuel code).2.context = .idle m.global := by
  have hrest := Exec.restoring fuel
  refine ⟨fun m => ⟨fun e => hrest.eval e m, fun s => hrest.exec s m, fun f vs => hrest.call f vs m,
    fun h v => hrest.handle h v m, fun vs => hrest.directEval vs m⟩, ?_⟩
  obtain ⟨global, pool, hrun⟩ := run_newGlobalScope o.limits
  refine ⟨_, start_of_run hrun, fun code => ?_⟩
  rw [context_execute, context_foldl_after]
  rfl

end Machine

end ScopeChain
