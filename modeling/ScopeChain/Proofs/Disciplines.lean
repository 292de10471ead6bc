import ScopeChain.Proofs.Executions
import ScopeChain.Proofs.Parts

/-! What code keeps up by itself. A discipline says something of the machine, of the values that go
around and of the code that runs. It is kept by all code if it is kept by the uses of names and by
the ways into bodies; and two ways to carry out the uses of names that do the same where the
discipline is kept make no difference to the code. -/
namespace ScopeChain

open Code (CatchCode FunctionCode Part)

/-- Something that is to hold for as long as code runs. -/
structure Discipline where
  machine : Machine → Prop
  value : Value → Prop
  part : Part → Prop
  /-- What is asked of a program that is handed to `eval`. -/
  program : FunctionCode → Prop

namespace Discipline

/-- Code ends with a result as it should be, or throws a value as it should be. -/
def Ends {α : Type} (D : Discipline) (Q : α → Prop) : Except Abrupt α → Prop
  | .ok a => Q a
  | .error (.thrown v) => D.value v
  | .error _ => True

/-- The value of a statement, if there is one, is as it should be. -/
def flow (D : Discipline) : Flow → Prop
  | .normal v => ∀ w ∈ v, D.value w
  | .return v => D.value v

theorem value_none (D : Discipline) : ∀ v ∈ (none : Option Value), D.value v := nofun

end Discipline

/-- A value that refers to nothing. -/
def Value.isPlain : Value → Bool
  | undefined | null | bool _ | number _ | string _ => true
  | function .. | arguments .. | error .. => false

theorem Value.isPlain_unary (op : UnaryOp) (v : Value) : (v.unary op).isPlain = true := by
  cases op <;> rfl

theorem Value.isPlain_add (v w : Value) : (v.add w).isPlain = true := by
  unfold Value.add
  split <;> rfl

/-- Only the logical operators answer one of their operands. -/
theorem Value.isPlain_binary (op : BinaryOp) (v w : Value) :
    (Value.binary op v w).isPlain = true ∨ Value.binary op v w = w := by
  cases op with
  | add => exact .inl (isPlain_add v w)
  | logicalAnd | logicalOr => exact .inr rfl
  | _ => exact .inl rfl

namespace Exec

variable {α β : Type} {D : Discipline} {Q : α → Prop} {S : β → Prop} {f g : Exec α}
  {f' g' : α → Exec β}

/-- From a machine on, two pieces of code do the same, and they keep to a discipline. -/
def MindsFrom (D : Discipline) (Q : α → Prop) (m : Machine) (f g : Exec α) : Prop :=
  f.run m = g.run m ∧ D.machine (g.run m).2 ∧ D.Ends Q (g.run m).1

/-- The same from any machine on that is as it should be. -/
def Minds (D : Discipline) (Q : α → Prop) (f g : Exec α) : Prop :=
  ∀ m, D.machine m → MindsFrom D Q m f g

theorem minds_pure {a : α} (h : Q a) : Minds D Q (pure a) (pure a) := fun _ hm => ⟨rfl, hm, h⟩

theorem minds_outOfFuel : Minds D Q (throw .outOfFuel) (throw .outOfFuel) :=
  fun _ hm => ⟨rfl, hm, trivial⟩

theorem minds_thrown {v : Value} (h : D.value v) :
    Minds D Q (throw (.thrown v)) (throw (.thrown v)) :=
  fun _ hm => ⟨rfl, hm, h⟩

theorem Minds.imp {Q' : α → Prop} (h : Minds D Q f g) (hq : ∀ a, Q a → Q' a) :
    Minds D Q' f g := by
  intro m hm
  obtain ⟨hrun, hm', he⟩ := h m hm
  refine ⟨hrun, hm', ?_⟩
  generalize (g.run m).1 = r at he
  cases r with
  | ok a => exact hq a he
  | error e => cases e <;> exact he

theorem MindsFrom.bind {m : Machine} (h : MindsFrom D Q m f g)
    (h' : ∀ a, Q a → Minds D S (f' a) (g' a)) : MindsFrom D S m (f >>= f') (g >>= g') := by
  obtain ⟨hrun, hm', he⟩ := h
  rw [MindsFrom, run_bind, run_bind, hrun]
  rcases hg : g.run m with ⟨r, m'⟩
  rw [hg] at hm' he
  cases r with
  | ok a => exact h' a he m' hm'
  | error e => exact ⟨rfl, hm', by cases e <;> exact he⟩

theorem Minds.bind (h : Minds D Q f g) (h' : ∀ a, Q a → Minds D S (f' a) (g' a)) :
    Minds D S (f >>= f') (g >>= g') :=
  fun m hm => (h m hm).bind h'

/-- A discipline may begin after code that is the same in both. -/
theorem MindsFrom.after {m m' : Machine} {a : α} (hf : f.run m = (.ok a, m'))
    (h : MindsFrom D S m' (f' a) (g' a)) : MindsFrom D S m (f >>= f') (f >>= g') := by
  rw [MindsFrom, run_bind_of_ok hf, run_bind_of_ok hf]
  exact h

/-- Code may look at the machine. -/
theorem Minds.looking {f' g' : Machine → Exec β} (h : ∀ m, D.machine m → Minds D S (f' m) (g' m)) :
    Minds D S (do f' (← get)) (do g' (← get)) :=
  fun m hm => h m hm m hm

/-- A question to the scopes changes nothing. -/
theorem minds_ask {h : Pool Value → Except ScopeError α}
    (hq : ∀ m, D.machine m → ∀ a, h m.heap.pool = .ok a → Q a) : Minds D Q (ask h) (ask h) := by
  intro m hm
  refine ⟨rfl, hm, ?_⟩
  rw [run_ask]
  cases ha : h m.heap.pool with
  | error => trivial
  | ok a => exact hq m hm a ha

theorem Minds.caught {f g : Exec Flow} {h h' : Value → Exec Flow} (hf : Minds D D.flow f g)
    (hh : ∀ v, D.value v → Minds D D.flow (h v) (h' v)) :
    Minds D D.flow (caught f h) (caught g h') := by
  intro m hm
  obtain ⟨hrun, hm', he⟩ := hf m hm
  rw [MindsFrom, run_caught, run_caught, hrun]
  rcases hg : g.run m with ⟨r, m'⟩
  rw [hg] at hm' he
  cases r with
  | ok => exact ⟨rfl, hm', he⟩
  | error e =>
    cases e with
    | thrown v => exact hh v he m' hm'
    | compile | scope | outOfFuel => exact ⟨rfl, hm', he⟩

theorem Minds.finalized {f g f' g' : Exec Flow} (hf : Minds D D.flow f g)
    (hf' : Minds D D.flow f' g') : Minds D D.flow (finalized f f') (finalized g g') := by
  intro m hm
  obtain ⟨hrun, hm', he⟩ := hf m hm
  obtain ⟨hrun', hm'', he'⟩ := hf' _ hm'
  rw [MindsFrom, run_finalized, run_finalized, hrun, hrun']
  refine ⟨rfl, ?_⟩
  split
  · rcases hg : g'.run (g.run m).2 with ⟨r, n⟩
    rw [hg] at hm'' he'
    cases r with
    | error => exact ⟨hm'', he'⟩
    | ok flow =>
      cases flow with
      | normal => exact ⟨hm'', he⟩
      | «return» => exact ⟨hm'', he'⟩
  · exact ⟨hm', he⟩

end Exec

open Exec (Access Minds)

/-- A discipline that is kept by the uses of names, whichever of two ways they are carried out in,
and by the ways into bodies. -/
structure Discipline.Kept (D : Discipline) (A B : Access) : Prop where
  parts : ∀ {x y}, D.part x → y ∈ x.parts → D.part y
  body : ∀ {c}, D.program c → ∀ s ∈ c.body, D.part (.stmt s)
  plain : ∀ {v}, v.isPlain = true → D.value v
  called : ∀ {object c scope}, D.value (.function object c scope) → D.part (.function c)
  closure : ∀ {c} scope, D.part (.function c) →
    Minds D D.value (Exec.closure c scope) (Exec.closure c scope)
  raise : ∀ {α : Type} {Q : α → Prop} kind message,
    Minds D Q (Exec.raise kind message) (Exec.raise kind message)
  loadSlot : ∀ scope slot,
    Minds D D.value (Exec.ask (·.load scope slot)) (Exec.ask (·.load scope slot))
  load : ∀ {u}, D.part (.expr (.load u)) → Minds D D.value (A.load u) (B.load u)
  store : ∀ {u e v}, D.part (.expr (.store u e)) → D.value v →
    Minds D (fun _ => True) (A.store u v) (B.store u v)
  typeOfName : ∀ {u}, D.part (.expr (.typeofName u)) →
    Minds D D.value (A.typeOfName u) (B.typeOfName u)
  deleteName : ∀ {u}, D.part (.expr (.deleteName u)) →
    Minds D D.value (A.deleteName u) (B.deleteName u)
  activate : ∀ {self c args f g} scope, D.value self → D.part (.function c) →
    (∀ v ∈ args, D.value v) → Minds D D.flow f g →
    Minds D D.value (Exec.activate self c scope args f) (Exec.activate self c scope args g)
  handle : ∀ {c v f g}, D.part (.catch c) → D.value v → Minds D D.flow f g →
    Minds D D.flow (Exec.handle c v f) (Exec.handle c v g)
  compileEval : ∀ text,
    Minds D (fun c => D.program c.code) (Exec.compileEval text) (Exec.compileEval text)
  evaluate : ∀ {c f g}, D.program c → Minds D D.flow f g →
    Minds D D.flow (Exec.evaluate c f) (Exec.evaluate c g)

namespace Exec

variable {D : Discipline} {A B : Access} {fuel : Nat}

/-- What is to be shown of each part of the evaluator, with some fuel. -/
structure Minding (D : Discipline) (A B : Access) (fuel : Nat) : Prop where
  eval : ∀ {e}, D.part (.expr e) → Minds D D.value (eval A fuel e) (eval B fuel e)
  evalAll : ∀ {es}, (∀ e ∈ es, D.part (.expr e)) →
    Minds D (fun vs => ∀ v ∈ vs, D.value v) (evalAll A fuel es) (evalAll B fuel es)
  call : ∀ {f args}, D.value f → (∀ v ∈ args, D.value v) →
    Minds D D.value (call A fuel f args) (call B fuel f args)
  directEval : ∀ {args}, (∀ v ∈ args, D.value v) →
    Minds D D.value (directEval A fuel args) (directEval B fuel args)
  execAll : ∀ {v ss}, (∀ s ∈ ss, D.part (.stmt s)) → (∀ w ∈ v, D.value w) →
    Minds D D.flow (execAll A fuel v ss) (execAll B fuel v ss)
  exec : ∀ {s}, D.part (.stmt s) → Minds D D.flow (exec A fuel s) (exec B fuel s)
  loop : ∀ {v test body}, D.part (.expr test) → D.part (.stmt body) → (∀ w ∈ v, D.value w) →
    Minds D D.flow (loop A fuel v test body) (loop B fuel v test body)

theorem minding_zero : Minding D A B 0 where
  eval _ := minds_outOfFuel
  evalAll _ := minds_outOfFuel
  call _ _ := minds_outOfFuel
  directEval _ := minds_outOfFuel
  execAll _ _ := minds_outOfFuel
  exec _ := minds_outOfFuel
  loop _ _ _ := minds_outOfFuel

section Step

variable (ih : Minding D A B fuel)

include ih

theorem minds_evalAll {es : List Code.Expr} (he : ∀ e ∈ es, D.part (.expr e)) :
    Minds D (fun vs => ∀ v ∈ vs, D.value v) (evalAll A (fuel + 1) es)
      (evalAll B (fuel + 1) es) := by
  cases es with
  | nil => exact minds_pure nofun
  | cons e es =>
    refine (ih.eval (he e List.mem_cons_self)).bind fun v hv => ?_
    refine (ih.evalAll fun e hm => he e (List.mem_cons_of_mem _ hm)).bind fun vs hvs => ?_
    exact minds_pure (List.forall_mem_cons.mpr ⟨hv, hvs⟩)

theorem minds_execAll {v : Option Value} {ss : List Code.Stmt}
    (hs : ∀ s ∈ ss, D.part (.stmt s)) (hv : ∀ w ∈ v, D.value w) :
    Minds D D.flow (execAll A (fuel + 1) v ss) (execAll B (fuel + 1) v ss) := by
  cases ss with
  | nil => exact minds_pure hv
  | cons s ss =>
    refine (ih.exec (hs s List.mem_cons_self)).bind fun flow hflow => ?_
    cases flow with
    | normal w =>
      refine ih.execAll (fun s hm => hs s (List.mem_cons_of_mem _ hm)) ?_
      cases w with
      | none => exact hv
      | some w => exact hflow
    | «return» => exact minds_pure hflow

theorem minds_loop {v : Option Value} {test : Code.Expr} {body : Code.Stmt}
    (ht : D.part (.expr test)) (hb : D.part (.stmt body)) (hv : ∀ w ∈ v, D.value w) :
    Minds D D.flow (loop A (fuel + 1) v test body) (loop B (fuel + 1) v test body) := by
  refine (ih.eval ht).bind fun t _ => ?_
  split
  · refine (ih.exec hb).bind fun flow hflow => ?_
    cases flow with
    | normal w =>
      refine ih.loop ht hb ?_
      cases w with
      | none => exact hv
      | some w => exact hflow
    | «return» => exact minds_pure hflow
  · exact minds_pure hv

variable (hD : D.Kept A B)

include hD

theorem minds_eval {e : Code.Expr} (he : D.part (.expr e)) :
    Minds D D.value (eval A (fuel + 1) e) (eval B (fuel + 1) e) := by
  have hpart (e') (h : Part.expr e' ∈ (Part.expr e).parts) := ih.eval (hD.parts he h)
  cases e with
  | number | string | bool | null => exact minds_pure (hD.plain rfl)
  | load => exact hD.load he
  | store u e =>
    exact (hpart _ (by simp [Part.parts])).bind fun v hv => (hD.store he hv).bind fun _ _ =>
      minds_pure hv
  | binary op l r =>
    refine (hpart l (by simp [Part.parts])).bind fun a ha => ?_
    have hboth : Minds D D.value (do return Value.binary op a (← Exec.eval A fuel r))
        (do return Value.binary op a (← Exec.eval B fuel r)) := by
      refine (hpart _ (by simp [Part.parts])).bind fun b hb => minds_pure ?_
      obtain hplain | hsame := Value.isPlain_binary op a b
      · exact hD.plain hplain
      · rwa [hsame]
    cases op with
    | logicalAnd =>
      cases a.isTruthy with
      | false => exact minds_pure ha
      | true => exact hboth
    | logicalOr =>
      cases a.isTruthy with
      | false => exact hboth
      | true => exact minds_pure ha
    | _ => exact hboth
  | unary op e =>
    exact (hpart _ (by simp [Part.parts])).bind fun v _ => minds_pure (hD.plain (v.isPlain_unary op))
  | typeofName => exact hD.typeOfName he
  | typeof e => exact (hpart _ (by simp [Part.parts])).bind fun _ _ => minds_pure (hD.plain rfl)
  | deleteName => exact hD.deleteName he
  | deleteValue e => exact (hpart _ (by simp [Part.parts])).bind fun _ _ => minds_pure (hD.plain rfl)
  | call f args =>
    refine (hpart f (by simp [Part.parts])).bind fun f hf => ?_
    refine (ih.evalAll fun a ha => hD.parts he ?_).bind fun args hargs => ih.call hf hargs
    simp [Part.parts, ha]
  | directEval args =>
    refine (ih.evalAll fun a ha => hD.parts he ?_).bind fun args hargs => ih.directEval hargs
    simp [Part.parts, ha]
  | function c => exact .looking fun m _ => hD.closure _ (hD.parts he (by simp [Part.parts]))

theorem minds_call {f : Value} {args : List Value} (hf : D.value f)
    (ha : ∀ v ∈ args, D.value v) :
    Minds D D.value (call A (fuel + 1) f args) (call B (fuel + 1) f args) := by
  cases f with
  | function object code scope =>
    have hcode := hD.called hf
    have hbody : ∀ s ∈ code.body, D.part (.stmt s) := fun s hs =>
      hD.parts hcode (by simp [Part.parts, hs])
    have hrun := hD.activate scope hf hcode ha (ih.execAll hbody D.value_none)
    refine .looking fun m _ => ?_
    split
    · exact (hD.raise (Q := fun _ => True) _ _).bind fun _ _ => hrun
    · exact hrun
  | _ => exact hD.raise _ _

theorem minds_directEval {args : List Value} (ha : ∀ v ∈ args, D.value v) :
    Minds D D.value (directEval A (fuel + 1) args) (directEval B (fuel + 1) args) := by
  refine .looking fun m _ => (minds_ask fun _ _ _ _ => trivial).bind fun found _ => ?_
  cases found with
  | some found => exact (hD.loadSlot _ _).bind fun f hf => ih.call hf ha
  | none =>
    cases args with
    | nil => exact minds_pure (hD.plain rfl)
    | cons v vs =>
      cases v with
      | string text =>
        refine (hD.compileEval text).bind fun c hc =>
          (hD.evaluate hc (ih.execAll (hD.body hc) D.value_none)).bind fun flow hflow => ?_
        cases flow with
        | normal v =>
          cases v with
          | none => exact minds_pure (hD.plain rfl)
          | some v => exact minds_pure (hflow v rfl)
        | «return» => exact minds_pure hflow
      | _ => exact minds_pure (ha _ List.mem_cons_self)

/-- A block with a catch clause. -/
theorem minds_handled {block : List Code.Stmt} {c : CatchCode}
    (hs : ∀ s ∈ block, D.part (.stmt s)) (hc : D.part (.catch c)) :
    Minds D D.flow
      (caught (Exec.execAll A fuel none block) fun v =>
        handle c v (Exec.execAll A fuel none c.body))
      (caught (Exec.execAll B fuel none block) fun v =>
        handle c v (Exec.execAll B fuel none c.body)) := by
  have hbody : ∀ s ∈ c.body, D.part (.stmt s) := fun s hs => hD.parts hc (by simp [Part.parts, hs])
  exact (ih.execAll hs D.value_none).caught fun v hv =>
    hD.handle hc hv (ih.execAll hbody D.value_none)

theorem minds_exec {s : Code.Stmt} (hs : D.part (.stmt s)) :
    Minds D D.flow (exec A (fuel + 1) s) (exec B (fuel + 1) s) := by
  have hexpr (e) (h : Part.expr e ∈ (Part.stmt s).parts) := ih.eval (hD.parts hs h)
  have hstmt (s') (h : Part.stmt s' ∈ (Part.stmt s).parts) := ih.exec (hD.parts hs h)
  cases s with
  | expr e =>
    exact (hexpr _ (by simp [Part.parts])).bind fun v hv => minds_pure fun w hw =>
      Option.some.inj hw ▸ hv
  | init e => exact (hexpr _ (by simp [Part.parts])).bind fun _ _ => minds_pure D.value_none
  | «return» argument =>
    cases argument with
    | none => exact minds_pure (hD.plain rfl)
    | some e => exact (hexpr _ (by simp [Part.parts])).bind fun _ hv => minds_pure hv
  | «if» test consequent alternate =>
    cases alternate with
    | none =>
      refine (hexpr test (by simp [Part.parts])).bind fun t _ => ?_
      split
      · exact hstmt _ (by simp [Part.parts])
      · exact minds_pure D.value_none
    | some alternate =>
      refine (hexpr test (by simp [Part.parts])).bind fun t _ => ?_
      split
      · exact hstmt _ (by simp [Part.parts])
      · exact hstmt _ (by simp [Part.parts])
  | «while» test body =>
    exact ih.loop (hD.parts hs (by simp [Part.parts])) (hD.parts hs (by simp [Part.parts]))
      D.value_none
  | block ss => exact ih.execAll (fun s h => hD.parts hs (by simp [Part.parts, h])) D.value_none
  | «try» block handler finalizer =>
    have hblock : ∀ s ∈ block, D.part (.stmt s) := fun s h =>
      hD.parts hs (by simp [Part.parts, h])
    have hfinalizer (f) (hf : f ∈ finalizer) : ∀ s ∈ f, D.part (.stmt s) := fun s h =>
      hD.parts hs (by simp [Part.parts, Option.mem_def.mp hf, h])
    cases handler with
    | none =>
      cases finalizer with
      | none => exact ih.execAll hblock D.value_none
      | some f =>
        exact (ih.execAll hblock D.value_none).finalized
          (ih.execAll (hfinalizer f rfl) D.value_none)
    | some c =>
      have hcaught := minds_handled ih hD hblock (c := c) (hD.parts hs (by simp [Part.parts]))
      cases finalizer with
      | none => exact hcaught
      | some f => exact hcaught.finalized (ih.execAll (hfinalizer f rfl) D.value_none)
  | throw e => exact (hexpr _ (by simp [Part.parts])).bind fun _ hv => minds_thrown hv

end Step

/-- A discipline that is kept by the uses of names and by the ways into bodies is kept by all
code. -/
theorem minding (hD : D.Kept A B) (fuel : Nat) : Minding D A B fuel := by
  induction fuel with
  | zero => exact minding_zero
  | succ fuel ih =>
    exact {
      eval := minds_eval ih hD
      evalAll := minds_evalAll ih
      call := minds_call ih hD
      directEval := minds_directEval ih hD
      execAll := minds_execAll ih
      exec := minds_exec ih hD
      loop := minds_loop ih }

end Exec

end ScopeChain
