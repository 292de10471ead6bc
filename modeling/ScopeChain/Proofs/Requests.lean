import ScopeChain.Proofs.Executions

/-! What can be asked of a machine, and that two machines that agree answer alike. -/
namespace ScopeChain

open Code (FunctionCode)
open Code.Emission (rootMode)
open Exec (Access Ends)

/-- What can be asked of a machine from outside. -/
inductive Request where
  | script (file text : String)
  | eval (text : String) (strict : Bool)
  | collect
deriving DecidableEq, Repr

def Request.isProgram : Request → Bool
  | script .. | eval .. => true
  | collect => false

namespace Machine

/-- Does what is asked for. Only a program has an outcome. -/
def answer (access : Access) (fuel : Nat) (m : Machine) :
    Request → Option (Except Abrupt Value) × Machine
  | .script file text =>
    let (r, m) := m.runScript fuel file text access
    (some r, m)
  | .eval text strict =>
    match m.compileEval text strict with
    | (.ok c, m) =>
      let (r, m) := m.execute fuel c.code access
      (some r, m)
    | (.error e, m) => (some (.error (.compile e)), m)
  | .collect => (none, m.collectGarbage.2)

section Rest

variable {A B : Access} {one : Prop} {limit : Nat} {W : World} {x : Pairing} {fuel : Nat}
  {m n : Machine} {code : FunctionCode} {eval : Bool}

/-- Two machines that run nothing agree. -/
def AtRest (one : Prop) (W : World) (limit : Nat) (x : Pairing) (m n : Machine) : Prop :=
  Twin one W limit ⟨x, x, false, [], 0⟩ m n

/-- Two programs have outcomes alike and leave machines that agree. -/
def Agree (one : Prop) (limit : Nat) (x : Pairing) (a b : Except Abrupt Value × Machine) : Prop :=
  ∃ W, AtRest one W limit x a.2 b.2 ∧ Ends W limit (W.Likens limit) a.1 b.1

theorem execute_eq (access : Access) (m : Machine) :
    m.execute fuel code access =
      let (r, m') := (Exec.runProgram access fuel code).run { m with completion := .undefined }
      (r.map fun _ => m'.completion, m') := rfl

theorem agree_execute (hA : A.Faithful) (hB : B.Faithful) (fuel : Nat)
    (h : AtRest one W limit x m n) (hf : code.FitsProgram limit (rootMode eval)) :
    Agree one limit x (m.execute fuel code A) (n.execute fuel code B) := by
  obtain ⟨parent, hx⟩ := h.global
  have hstart : AtRest one W limit x { m with completion := .undefined }
      { n with completion := .undefined } :=
    { h with
      completion := .undefined
      single := fun ho => by rw [h.single ho] }
  obtain ⟨W', ht, he⟩ := Exec.settles_runProgram hA hB fuel hx hf _ _ hstart
  rw [execute_eq, execute_eq]
  rcases hm : (Exec.runProgram A fuel code).run { m with completion := .undefined } with ⟨r, m'⟩
  rcases hn : (Exec.runProgram B fuel code).run { n with completion := .undefined } with ⟨s, n'⟩
  rw [hm, hn] at ht he
  refine ⟨W', ht, ?_⟩
  cases he with
  | ok => exact .ok ht.completion
  | error h => exact .error h

/-- A text is compiled and, if it is a program, run. -/
def compileAndRun (access : Access) (fuel : Nat) (file text : String) (strict eval : Bool)
    (m : Machine) : Except Abrupt Value × Machine :=
  let (r, names) := Compilation.ofText m.options file text strict eval m.names
  match r with
  | .ok c => { m with names }.execute fuel c.code access
  | .error e => (.error (.compile e), { m with names })

theorem agree_compileAndRun (hA : A.Faithful) (hB : B.Faithful) (fuel : Nat)
    (h : AtRest one W limit x m n) (file text : String) (strict eval : Bool) :
    Agree one limit x (m.compileAndRun A fuel file text strict eval)
      (n.compileAndRun B fuel file text strict eval) := by
  have halike := Compilation.alike_ofText (h.depth_left.trans h.depth_right.symm) file text strict
    eval m.names
  have hnames := Compilation.names_ofText n.options m.options file text strict eval m.names
  have hnamed := h.named (Compilation.ofText m.options file text strict eval m.names).2
  rw [h.depth_left] at halike
  unfold compileAndRun
  rw [h.names]
  dsimp only
  rw [hnames]
  generalize (Compilation.ofText m.options file text strict eval m.names).1 = r at halike
  generalize (Compilation.ofText n.options file text strict eval m.names).1 = s at halike
  cases halike with
  | compiled hcode hfits _ =>
    dsimp only
    rw [← hcode]
    exact agree_execute hA hB fuel hnamed hfits
  | malformed d => exact ⟨W, hnamed, .error (.malformed d)⟩
  | deep d => exact ⟨W, hnamed, .error (.tooNested d)⟩

theorem runScript_eq (access : Access) (m : Machine) (file text : String) :
    m.runScript fuel file text access =
      m.compileAndRun access fuel file text m.options.isStrict false := by
  unfold runScript compileAndRun Compilation.script
  rcases Compilation.ofText m.options file text m.options.isStrict false m.names with
    ⟨e | c, names⟩ <;> rfl

theorem answer_eval (access : Access) (m : Machine) (text : String) (strict : Bool) :
    m.answer access fuel (.eval text strict) =
      let (r, m) := m.compileAndRun access fuel Compilation.evalFile text
        (strict || m.options.isStrict) true
      (some r, m) := by
  simp only [answer, compileEval, compileAndRun, Compilation.evalCode]
  rcases Compilation.ofText m.options Compilation.evalFile text (strict || m.options.isStrict) true
    m.names with ⟨e | c, names⟩ <;> rfl

theorem agree_answer (hA : A.Faithful) (hB : B.Faithful) (fuel : Nat) (h : AtRest one W limit x m n)
    (r : Request) (hr : r.isProgram = true) : ∃ a b, m.answer A fuel r = (some a.1, a.2) ∧
      n.answer B fuel r = (some b.1, b.2) ∧ Agree one limit x a b := by
  cases r with
  | script file text =>
    refine ⟨m.runScript fuel file text A, n.runScript fuel file text B, rfl, rfl, ?_⟩
    rw [runScript_eq, runScript_eq, h.options]
    exact agree_compileAndRun hA hB fuel h file text _ false
  | eval text strict =>
    rw [answer_eval, answer_eval, h.options]
    exact ⟨_, _, rfl, rfl, agree_compileAndRun hA hB fuel h Compilation.evalFile text _ true⟩
  | collect => cases hr

end Rest

section Start

variable {one : Prop} {W : World} {limit : Nat}

/-- A name can be declared in a scope that keeps declarations. -/
theorem run_declare_self {p : Pool Value} {id : ScopeId} {s : Scope Value}
    (hs : p.find? id = some s) (hk : s.kind.extensible = true) (n : Name) :
    ∃ k p' s', (PoolM.declare id n).run p = (.ok (id, k), p') ∧ p'.find? id = some s' ∧
      s'.kind.extensible = true := by
  have htarget : p.declarationTarget id = .ok id := by
    rw [Pool.declarationTarget, Pool.reach, Pool.declarationTargetFrom_succ hs, if_pos hk]
  exact ⟨_, _, _, PoolM.run_declareHoisted n none htarget hs, Pool.find?_update_self hs _, hk⟩

theorem run_newGlobalScope (l : Limits) :
    ∃ id p, newGlobalScope.run (.empty l) = (.ok id, p) := by
  let p : Pool Value := .empty l
  have hglobal : PoolM.newGlobalInstance.run p = (.ok p.next, _) :=
    PoolM.run_materialized (PoolM.run_newDescriptor_none [] rfl p)
  have hfind := p.find?_insert_next (Scope.ofTable .global none (.ofNames [])).materialize
  obtain ⟨k, p₁, s₁, h₁, hs₁, hk₁⟩ := run_declare_self hfind rfl .undefined
  obtain ⟨k', p₂, s₂, h₂, hs₂, -⟩ := run_declare_self hs₁ hk₁ .this
  refine ⟨p.next, p₂.update p.next Scope.freeze, ?_⟩
  rw [newGlobalScope, run_bind_of_ok hglobal, run_bind_of_ok h₁, run_bind_of_ok h₂, PoolM.freeze,
    run_bind_of_ok (PoolM.run_update hs₂ _)]
  rfl

theorem both_newGlobalScope :
    PoolM.Both one W limit (fun W' i j => W'.shape (i, j) = some ⟨none, none⟩) newGlobalScope
      newGlobalScope := by
  refine PoolM.both_newGlobalInstance.bind ?_
  intro W' hw i j hij
  refine (PoolM.both_declare (x := (i, j)) (.root hij) .undefined).bind ?_
  intro W'' hw' _ _ _
  have hij' := hw' _ _ hij
  refine (PoolM.both_declare (x := (i, j)) (.root hij') .this).bind ?_
  intro W₃ hw₃ _ _ _
  have hij₃ := hw₃ _ _ hij'
  exact (PoolM.both_freeze (y := (i, j)) hij₃ rfl).bind fun W₄ hw₄ _ _ _ => .pure (hw₄ _ _ hij₃)

/-- No pairs of scopes. -/
def nowhere : World where
  shape _ := none
  matched := nofun
  around := nofun

theorem start_of_run {o : Options} {i : ScopeId} {p : Pool Value}
    (h : newGlobalScope.run (.empty o.limits) = (.ok i, p)) : start o = .ok {
      names := .wellKnown, options := o, heap := ⟨p, o.threshold, 0⟩, global := i, active := i
      strict := false, saved := [], completion := .undefined, callDepth := 0
      nextObject := 0 } := by
  simp only [start, startHeap, Heap.empty, h]
  rfl

/-- A machine always starts, and one whose memory is claimed and freed otherwise agrees with it. -/
theorem atRest_start (one : Prop) (o o' : Options) (hs : o'.isStrict = o.isStrict)
    (hd : o'.limits.maxDepth = o.limits.maxDepth) (hone : one → o = o') :
    ∃ m n W x, start o = .ok m ∧ start o' = .ok n ∧ AtRest one W o.limits.maxDepth x m n := by
  obtain ⟨i, p, hp⟩ := run_newGlobalScope o.limits
  obtain ⟨j, q, hq⟩ := run_newGlobalScope o'.limits
  have hempty : Pool.Twin one nowhere o.limits.maxDepth (.empty o.limits) (.empty o'.limits) := {
    depth_left := rfl
    depth_right := hd
    live := nofun
    single := fun ho => ⟨by rw [hone ho], nofun⟩ }
  obtain ⟨W, -, htwin, hr⟩ := both_newGlobalScope _ _ hempty
  rw [hp, hq] at htwin hr
  cases hr with
  | ok hij =>
    refine ⟨_, _, W, (i, j), start_of_run hp, start_of_run hq, {
      names := rfl
      options := hs
      depth_left := rfl
      depth_right := hd
      pool := htwin
      global_left := rfl
      global_right := rfl
      global := ⟨none, hij⟩
      active_left := rfl
      active_right := rfl
      active := ⟨_, hij⟩
      strict_left := rfl
      strict_right := rfl
      saved_left := rfl
      saved_right := rfl
      saved := nofun
      completion := .undefined
      callDepth_left := rfl
      callDepth_right := rfl
      nextObject := rfl
      single := fun ho => ?_ }⟩
    have hsame := hone ho
    subst hsame
    rw [hp] at hq
    cases hq
    rfl

end Start

end Machine

end ScopeChain
