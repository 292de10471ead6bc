import ScopeChain.Proofs.Evaluation
import ScopeChain.Proofs.Sweeps

/-! Whole programs in parallel, with garbage collected between their statements as it happens to be
due in each run. -/
namespace ScopeChain.Exec

open Code (FunctionCode)
open Code.Emission (rootMode)

variable {A B : Access} {one : Prop} {limit : Nat} {W : World} {c : Situation} {fuel : Nat}
  {e : Code.Entry} {code : FunctionCode} {eval : Bool}

section Settles

variable {α β : Type} {f g : Exec α} {f' g' : α → Exec β} {R : World → α → α → Prop}
  {S : World → β → β → Prop}

/-- Two pieces of code end in the same way, and in machines that agree. Scopes that were paired may
be gone. -/
def Settles (one : Prop) (W : World) (limit : Nat) (c : Situation) (R : World → α → α → Prop)
    (f g : Exec α) : Prop :=
  ∀ m n, Machine.Twin one W limit c m n → ∃ W',
    Machine.Twin one W' limit c (f.run m).2 (g.run n).2 ∧
    Ends W' limit (R W') (f.run m).1 (g.run n).1

theorem Parallel.settles (h : Parallel one W limit c R f g) : Settles one W limit c R f g := by
  intro m n ht
  obtain ⟨W', -, hrest⟩ := h m n ht
  exact ⟨W', hrest⟩

/-- Code that settles after code that runs in parallel. -/
theorem Parallel.bindSettles (h : Parallel one W limit c R f g)
    (h' : ∀ W', W ≤ W' → ∀ a b, R W' a b → Settles one W' limit c S (f' a) (g' b)) :
    Settles one W limit c S (f >>= f') (g >>= g') := by
  intro m n ht
  obtain ⟨W', hw, ht', he⟩ := h m n ht
  rw [run_bind, run_bind]
  rcases hf : f.run m with ⟨r, m'⟩
  rcases hg : g.run n with ⟨s, n'⟩
  rw [hf, hg] at he ht'
  cases he with
  | ok hab => exact h' W' hw _ _ hab m' n' ht'
  | error h => exact ⟨W', ht', .error h⟩

theorem Settles.within {y : Pairing} {shape : Shape} (strict : Bool)
    (hy : W.shape y = some shape)
    (h : Settles one W limit { c with active := y, strict, saved := c.active :: c.saved } R f g) :
    Settles one W limit c R (within y.1 strict f) (within y.2 strict g) := by
  intro m n ht
  obtain ⟨W', ht', he⟩ := h _ _ (ht.enter hy strict)
  exact ⟨W', ht.leave ht', he⟩

end Settles

/-- What happens after a statement: its value is kept, and garbage may be collected. -/
def afterStatement (a : Flow) (m : Machine) : Machine :=
  let m := match a with
    | .normal (some v) => { m with completion := v }
    | .normal none | .return _ => m
  if m.heap.collectionDue then m.collectGarbage.2 else m

theorem run_runStmts_cons (s : Code.Stmt) (ss : List Code.Stmt) (m : Machine) :
    (runStmts A fuel (s :: ss)).run m =
      (do let a ← exec A fuel s; modify (afterStatement a); runStmts A fuel ss).run m := by
  rw [runStmts, run_bind, run_bind]
  rcases (exec A fuel s).run m with ⟨a | a, m'⟩
  · rfl
  · rcases a with (_ | v) | v <;> rfl

theorem swept_ite (m : Machine) :
    m.Swept (if m.heap.collectionDue then m.collectGarbage.2 else m) := by
  split
  · exact .collected
  · exact .idle

theorem twin_afterStatement {m n : Machine} {a b : Flow} (ht : Machine.Twin one W limit c m n)
    (hab : Flows W limit a b) :
    ∃ W', Machine.Twin one W' limit c (afterStatement a m) (afterStatement b n) ∧
      (W.Opens c.active → W'.Opens c.active) := by
  have hsweep {m n : Machine} (ht : Machine.Twin one W limit c m n) := ht.sweep (swept_ite m)
    (swept_ite n) fun ho => by rw [ht.single ho]
  cases hab with
  | normal h =>
    cases h with
    | none => exact hsweep ht
    | @some v w h =>
      have hkept : Machine.Twin one W limit c { m with completion := v }
          { n with completion := w } :=
        { ht with
          completion := h
          single := fun ho => by rw [ht.single ho, h.eq (ht.pool.single ho).2] }
      exact hsweep hkept
  | «return» => exact hsweep ht

/-- The statements of a program run in pairs of scopes where names may be added. -/
theorem settles_runStmts (hA : A.Faithful) (hB : B.Faithful) (fuel : Nat) (ss : List Code.Stmt)
    (ho : W.Opens c.active) (hf : ∀ s ∈ ss, s.Fits limit [] c.strict) :
    Settles one W limit c (fun _ _ _ => True) (runStmts A fuel ss) (runStmts B fuel ss) := by
  induction ss generalizing W with
  | nil => exact (Parallel.pure trivial).settles
  | cons s ss ih =>
    intro m n ht
    rw [run_runStmts_cons, run_runStmts_cons]
    have hstep : InStep A B one limit fuel := inStep hA hB fuel
    refine (hstep.exec s (.outside ho) (hf s List.mem_cons_self)).bindSettles
      (fun W' hw a b hab m n ht => ?_) m n ht
    obtain ⟨W'', ht', ho'⟩ := twin_afterStatement ht hab
    exact ih (ho' (ho.mono hw)) (fun s hs => hf s (List.mem_cons_of_mem _ hs)) _ _ ht'

/-- The scope of a program was made for no frame. -/
theorem parallel_enter_program {parent : Option Pairing}
    (hx : W.shape c.active = some ⟨parent, none⟩) (hm : e.mode = rootMode eval) :
    Parallel one W limit c (fun W' i j => ∃ parent, W'.shape (i, j) = some ⟨parent, none⟩)
      (enter e) (enter e) := by
  cases eval with
  | true => exact (parallel_enter_eval hx hm).imp fun _ _ _ h => ⟨_, h⟩
  | false => exact (parallel_enter_global hx hm).imp fun _ _ _ h => ⟨_, h⟩

theorem parallel_hoist_program {x : Pairing} {parent : Option Pairing}
    (hx : W.shape x = some ⟨parent, none⟩) (hf : code.FitsProgram limit (rootMode eval)) :
    Parallel one W limit c (fun _ _ _ => True) (hoist code.entry x.1) (hoist code.entry x.2) := by
  have hcode : ∀ h ∈ code.entry.hoisted, W.Captures limit h.code x :=
    fun h hh => ⟨[], .outside (.root hx), hf.hoisted h hh⟩
  cases eval with
  | true => exact parallel_hoist_eval (.root hx) hf.mode_eq hcode
  | false => exact parallel_hoist_global hx hf.mode_eq hcode

theorem settles_runProgram (hA : A.Faithful) (hB : B.Faithful) (fuel : Nat)
    {parent : Option Pairing} (hx : W.shape c.active = some ⟨parent, none⟩)
    (hf : code.FitsProgram limit (rootMode eval)) :
    Settles one W limit c (fun _ _ _ => True) (runProgram A fuel code)
      (runProgram B fuel code) := by
  refine (parallel_enter_program hx hf.mode_eq).bindSettles ?_
  rintro W' hw i j ⟨parent, hij⟩
  refine .within (y := (i, j)) code.strict hij ?_
  refine (parallel_hoist_program hij hf).bindSettles ?_
  intro W'' hw' _ _ _
  exact settles_runStmts hA hB fuel code.body (.root (hw' _ _ hij)) hf.body

end ScopeChain.Exec
