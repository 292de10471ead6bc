import ScopeChain.Proofs.Edits
import ScopeChain.Proofs.Fuel
import ScopeChain.Proofs.Uses

/-! Calls of the bare name `eval`. Where the name is bound such a call is one like any other, except
that the name is looked up after the arguments were evaluated, and not before. -/
namespace ScopeChain.Exec

variable {α β : Type} {code code' : Nat → Exec α} {after : Nat → α → Exec β} {m m' : Machine}
  {r r' : Except Abrupt α × Machine} {A : Access} {args : List Code.Expr} {f : Value}
  {vs : List Value} {x : Except Abrupt Value × Machine}

/-- More fuel makes no difference to code that had enough. -/
def Grows (code : (fuel : Nat) → Exec α) : Prop := ∀ fuel, Refines (code fuel) (code (fuel + 1))

/-- Code ends so, given fuel enough. -/
def ComesTo (code : (fuel : Nat) → Exec α) (m : Machine) (r : Except Abrupt α × Machine) : Prop :=
  r.1 ≠ .error .outOfFuel ∧ ∃ fuel, (code fuel).run m = r

theorem Grows.run_eq (h : Grows code) {n k : Nat} (hrun : (code n).run m = r)
    (hr : r.1 ≠ .error .outOfFuel) (hle : n ≤ k) : (code k).run m = r := by
  induction hle with
  | refl => exact hrun
  | @step k _ ih =>
    obtain hout | hsame := h k m
    · exact absurd (ih ▸ hout) hr
    · rw [← hsame, ih]

theorem Grows.comesTo_unique (h : Grows code) (hr : ComesTo code m r) (hr' : ComesTo code m r') :
    r = r' := by
  obtain ⟨hfinal, n, hn⟩ := hr
  obtain ⟨hfinal', k, hk⟩ := hr'
  rw [← h.run_eq hn hfinal (Nat.le_max_left n k), h.run_eq hk hfinal' (Nat.le_max_right n k)]

theorem comesTo_congr (h : ∀ fuel, (code fuel).run m = (code' fuel).run m') :
    ComesTo code m r ↔ ComesTo code' m' r := by
  simp only [ComesTo, h]

theorem Grows.comesTo_succ (h : Grows code) :
    ComesTo (fun fuel => code (fuel + 1)) m r ↔ ComesTo code m r := by
  constructor
  · rintro ⟨hfinal, fuel, hrun⟩
    exact ⟨hfinal, fuel + 1, hrun⟩
  · rintro ⟨hfinal, fuel, hrun⟩
    exact ⟨hfinal, fuel, h.run_eq hrun hfinal (Nat.le_succ fuel)⟩

/-- Of two pieces of code the first fails, or the second goes on where the first ended. -/
theorem Grows.comesTo_bind (h : Grows code) (h' : ∀ a, Grows (after · a))
    {x : Except Abrupt β × Machine} :
    ComesTo (fun fuel => code fuel >>= after fuel) m x ↔
      (∃ e, x.1 = .error e ∧ ComesTo code m (.error e, x.2)) ∨
      ∃ a m', ComesTo code m (.ok a, m') ∧ ComesTo (after · a) m' x := by
  constructor
  · rintro ⟨hfinal, fuel, hrun⟩
    rw [run_bind] at hrun
    rcases hcode : (code fuel).run m with ⟨a, m'⟩
    rw [hcode] at hrun
    cases a with
    | error e =>
      cases hrun
      exact .inl ⟨e, rfl, fun hout => hfinal (by cases hout; rfl), fuel, hcode⟩
    | ok a => exact .inr ⟨a, m', ⟨nofun, fuel, hcode⟩, hfinal, fuel, hrun⟩
  · rintro (⟨e, hx, hfinal, fuel, hcode⟩ | ⟨a, m', ⟨hok, n, hcode⟩, hfinal, k, hrun⟩)
    · refine ⟨fun hout => hfinal ?_, fuel, ?_⟩
      · cases hx.symm.trans hout
        rfl
      · rw [run_bind, hcode]
        exact Prod.ext hx.symm rfl
    · refine ⟨hfinal, max n k, ?_⟩
      rw [run_bind, h.run_eq hcode hok (Nat.le_max_left n k)]
      exact (h' a).run_eq hrun hfinal (Nat.le_max_right n k)

/-- Evaluation of an expression comes to this. -/
def Evaluates (A : Access) (e : Code.Expr) (m : Machine) (r : Except Abrupt Value × Machine) :
    Prop :=
  ComesTo (eval A · e) m r

/-- Evaluation of some expressions one after the other comes to this. -/
def EvaluatesAll (A : Access) (es : List Code.Expr) (m : Machine)
    (r : Except Abrupt (List Value) × Machine) : Prop :=
  ComesTo (evalAll A · es) m r

theorem Evaluates.unique {e : Code.Expr} {x x' : Except Abrupt Value × Machine}
    (h : Evaluates A e m x) (h' : Evaluates A e m x') : x = x' :=
  Grows.comesTo_unique (fun fuel => (burning A fuel).eval e) h h'

theorem grows_call (A : Access) (f : Value) (vs : List Value) : Grows (call A · f vs) :=
  fun fuel => (burning A fuel).call f vs

theorem grows_directEval (A : Access) (vs : List Value) : Grows (directEval A · vs) :=
  fun fuel => (burning A fuel).directEval vs

/-- Arguments are evaluated, and then something is done with them. -/
def AfterAll (A : Access) (args : List Code.Expr) (m : Machine)
    (rest : List Value → Machine → Except Abrupt Value × Machine → Prop)
    (x : Except Abrupt Value × Machine) : Prop :=
  (∃ e, x.1 = .error e ∧ EvaluatesAll A args m (.error e, x.2)) ∨
    ∃ vs m', EvaluatesAll A args m (.ok vs, m') ∧ rest vs m' x

theorem evaluates_directEval_iff : Evaluates A (.directEval args) m x ↔
    AfterAll A args m (fun vs m' => ComesTo (directEval A · vs) m') x := by
  rw [Evaluates, ← Grows.comesTo_succ fun fuel => (burning A fuel).eval _]
  exact Grows.comesTo_bind (fun fuel => (burning A fuel).evalAll args) (grows_directEval A)

/-- A callee that has a value at once and leaves everything as it is. -/
theorem evaluates_call_iff {callee : Code.Expr} (hcallee : Evaluates A callee m (.ok f, m)) :
    Evaluates A (.call callee args) m x ↔
      AfterAll A args m (fun vs m' => ComesTo (call A · f vs) m') x := by
  have hcall : ∀ f, Grows fun fuel => evalAll A fuel args >>= call A fuel f := fun f fuel =>
    ((burning A fuel).evalAll args).bind fun vs => grows_call A f vs fuel
  have hargs : ComesTo (fun fuel => evalAll A fuel args >>= call A fuel f) m x ↔
      AfterAll A args m (fun vs m' => ComesTo (call A · f vs) m') x :=
    Grows.comesTo_bind (fun fuel => (burning A fuel).evalAll args) (grows_call A f)
  rw [Evaluates, ← Grows.comesTo_succ fun fuel => (burning A fuel).eval _, ← hargs]
  refine (Grows.comesTo_bind (fun fuel => (burning A fuel).eval callee) hcall).trans ?_
  constructor
  · rintro (⟨e, -, herror⟩ | ⟨g, m', hg, hx⟩)
    · cases Evaluates.unique hcallee herror
    · cases Evaluates.unique hcallee hg
      exact hx
  · exact fun hx => .inr ⟨f, m, hcallee, hx⟩

/-- A name is bound where the code runs, to this value. -/
def Binds (m : Machine) (n : Name) (v : Value) : Prop :=
  ∃ place, m.heap.pool.lookup m.active n = .ok (some place) ∧
    m.heap.pool.load place.1 place.2 = .ok v

theorem Binds.evaluates {u : Code.Use} {n : Name} (hu : u.address = .dynamic n)
    (h : Binds m n f) : Evaluates .byAddress (.load u) m (.ok f, m) := by
  obtain ⟨place, hlookup, hload⟩ := h
  refine ⟨nofun, 1, ?_⟩
  have hlocate : (locate u.address).run m = (.ok (some place), m) := by
    rw [run_locate, hu, whereabouts, hlookup]
    rfl
  change (load u.address).run m = _
  rw [load, run_bind_of_ok hlocate]
  exact run_ask_of_ok hload

theorem Binds.run_directEval (h : Binds m .eval f) (vs : List Value) (fuel : Nat) :
    (directEval A (fuel + 1) vs).run m = (call A fuel f vs).run m := by
  obtain ⟨place, hlookup, hload⟩ := h
  have hfound : (ask (·.lookup m.active .eval)).run m = (.ok (some place), m) :=
    run_ask_of_ok hlookup
  have hcallee : (ask (·.load place.1 place.2)).run m = (.ok f, m) := run_ask_of_ok hload
  rw [directEval, run_bind_of_ok (run_get m), run_bind_of_ok hfound]
  exact run_bind_of_ok hcallee

/-- Where `eval` is bound and the arguments leave it bound to the same value, a call of the bare name
comes to what a call of the value comes to. -/
theorem bound_eval_is_call {u : Code.Use} (hu : u.address = .dynamic .eval)
    (hbound : Binds m .eval f)
    (hkept : ∀ vs m', EvaluatesAll .byAddress args m (.ok vs, m') → Binds m' .eval f)
    (x : Except Abrupt Value × Machine) :
    Evaluates .byAddress (.directEval args) m x ↔ Evaluates .byAddress (.call (.load u) args) m x := by
  rw [evaluates_directEval_iff, evaluates_call_iff (hbound.evaluates hu)]
  refine or_congr Iff.rfl (exists_congr fun vs => exists_congr fun m' => and_congr_right fun hargs => ?_)
  change ComesTo (directEval .byAddress · vs) m' x ↔ ComesTo (call .byAddress · f vs) m' x
  rw [← (grows_directEval _ vs).comesTo_succ]
  exact comesTo_congr ((hkept vs m' hargs).run_directEval vs)

/-- Arguments that are there already. -/
theorem bound_eval_is_call_of_null :
    let pool : Pool Value := (Pool.empty .standard).edited
      [.make .globalInstance, .change ⟨0, 0⟩ (.setValue .eval (.bool true))]
    let m : Machine := {
      names := .wellKnown, options := .unset, heap := ⟨pool, 0, 0⟩, global := ⟨0, 0⟩
      active := ⟨0, 0⟩, strict := false, saved := [], completion := .undefined, callDepth := 0
      nextObject := 0 }
    Binds m .eval (.bool true) ∧ ∀ x, Evaluates .byAddress (.directEval [.null]) m x ↔
      Evaluates .byAddress (.call (.load ⟨.eval, .dynamic .eval⟩) [.null]) m x := by
  intro pool m
  have hbound : Binds m .eval (.bool true) := ⟨(⟨0, 0⟩, 0), by decide +kernel, by with_unfolding_all rfl⟩
  refine ⟨hbound, bound_eval_is_call rfl hbound fun vs m' hargs => ?_⟩
  have hnull : EvaluatesAll .byAddress [.null] m (.ok [.null], m) := ⟨nofun, 2, rfl⟩
  cases Grows.comesTo_unique (fun fuel => (burning .byAddress fuel).evalAll [.null]) hnull hargs
  exact hbound

/-- An argument gives `eval` another value. The call of the bare name comes to a call of this one. -/
theorem eval_argument_replaces_callee :
    let u : Code.Use := ⟨.eval, .dynamic .eval⟩
    let answering (b : Bool) : Code.Expr :=
      .function ⟨none, [], none, none, none, ⟨[], [], .template⟩, [.return (some (.bool b))], false,
        ⟨0, 0⟩⟩
    let args : List Code.Expr := [.store u (answering false)]
    let truth (a : Except Abrupt Value × Machine) : Option Bool :=
      match a.1 with
      | .ok (.bool b) => some b
      | _ => none
    (Machine.start .unset).toOption.map (fun m =>
      let m := ((eval .byAddress 2 (.store u (answering true))).run m).2
      ((m.heap.pool.lookup m.active .eval).toOption.map Option.isSome,
        truth ((eval .byAddress 6 (.directEval args)).run m),
        truth ((eval .byAddress 6 (.call (.load u) args)).run m))) =
      some (some true, some false, some true) := by
  decide +kernel

end ScopeChain.Exec
