import ScopeChain.Proofs.Edits
import ScopeChain.Proofs.Executions

/-! What running code keeps up. A regime says what is required of the scopes; it is kept by every
edit that running code makes, and so by all of the code. -/
namespace ScopeChain

variable {limit : Nat} {p q : Pool Value} {s : Scope Value} {id : ScopeId} {n : Name} {k : Nat}
  {v w : Value}

/-- The code of every function that a value is or holds fits some place. -/
def Value.Fits (limit : Nat) (v : Value) : Prop :=
  v.Alike (fun code _ _ => ∃ Γ, code.Fits limit Γ) v

/-- The values of a guarded scope fit. -/
structure Scope.Fits (limit : Nat) (s : Scope Value) : Prop extends s.Guarded where
  values : ∀ k, (s.valueAt k).Fits limit

/-- A change that running code makes in a scope. -/
inductive Change.Ordinary (limit : Nat) : Change Value → Prop where
  | declare (n : Name) : Ordinary limit (.declare n none)
  | setValue (n : Name) {v : Value} : v.Fits limit → Ordinary limit (.setValue n v)
  | delete (n : Name) : Ordinary limit (.delete n)
  | store (slot : Nat) {v : Value} : v.Fits limit → Ordinary limit (.store slot v)

/-- An edit that running code makes. It freezes no scope: only the start of a script does. -/
inductive Edit.Ordinary (limit : Nat) : Edit Value → Prop where
  | make (m : Maker) : Ordinary limit (.make m)
  | change (id : ScopeId) {c : Change Value} : c.Ordinary limit → Ordinary limit (.change id c)

namespace Scope

theorem Fits.setSlot (h : s.Fits limit) (hv : v.Fits limit) (k : Nat) :
    (s.setSlot k v).Fits limit := by
  refine ⟨h.toGuarded.setSlot k v, fun j => ?_⟩
  rcases Nat.lt_or_ge k (s.values.getD #[]).size with hk | hk
  · cases hvs : s.values with
    | none => simp [hvs] at hk
    | some vs =>
      rw [hvs, Option.getD_some] at hk
      rw [valueAt_setSlot hvs hk]
      split
      · exact hv
      · exact h.values j
  · rw [setSlot_of_size_le hk]
    exact h.values j

theorem Fits.declareHoisted (h : s.Fits limit) (slack : Nat) (n : Name) (o : Option NodeId) :
    (s.declareHoisted slack n o).2.Fits limit := by
  refine ⟨h.toGuarded.declareHoisted slack n o, fun k => ?_⟩
  rw [valueAt_declareHoisted]
  exact h.values k

theorem Fits.erase (h : s.Fits limit) (hn : s.slot? n = some k) (hk : s.immutableCount ≤ k) :
    (s.erase n).Fits limit := by
  refine ⟨h.toGuarded.erase hn hk, fun j => ?_⟩
  have hvalue : (s.erase n).valueAt j = (s.setSlot k default).valueAt j := by
    rw [erase_of_some hn]
    rfl
  rw [hvalue]
  exact (h.setSlot .undefined k).values j

theorem Fits.freeze (h : s.Fits limit) : s.freeze.Fits limit := ⟨h.toGuarded.freeze, h.values⟩

theorem Fits.apply (h : s.Fits limit) {c : Change Value} (hc : c.Ordinary limit) (slack : Nat) :
    (c.apply slack s).Fits limit := by
  cases hc with
  | declare n => exact h.declareHoisted slack n none
  | setValue n hv => exact (h.declareHoisted slack n none).setSlot hv _
  | store k hv => exact h.setSlot hv k
  | delete n =>
    rw [Change.apply]
    split
    · exact h
    · next hsealed =>
      cases hn : s.slot? n with
      | none => rwa [erase_of_none hn]
      | some k =>
        rw [hn] at hsealed
        exact h.erase hn (Nat.le_of_not_lt fun hk => hsealed (decide_eq_true hk))

end Scope

/-- A new scope holds no values yet. -/
theorem Maker.valueAt_scope (m : Maker) (k : Nat) : (m.scope : Scope Value).valueAt k = default := by
  cases m with
  | template | catchInstance => exact Scope.valueAt_filled k
  | evalInstance | globalInstance => exact Scope.valueAt_materialize k
  | global | function | «catch» | eval => rfl

theorem Maker.fits_scope (m : Maker) : (m.scope : Scope Value).Fits limit := by
  refine ⟨m.guarded_scope, fun k => ?_⟩
  rw [m.valueAt_scope]
  exact .undefined

theorem Edit.Runs.fits {e : Edit Value} {r : Except ScopeError Outcome} (hr : e.Runs p (r, q))
    (he : e.Ordinary limit) (h : p.Each (Scope.Fits limit)) : q.Each (Scope.Fits limit) := by
  cases he with
  | make m =>
    cases hr with
    | unmade => exact h
    | made => exact h.insert m.fits_scope
  | change id hc =>
    cases hr with
    | refused => exact h
    | changed ht hs => exact h.update hs ((h _ _ hs).apply hc _)

theorem Pool.Each.guarded (h : p.Each (Scope.Fits limit)) : p.Each Scope.Guarded :=
  h.imp fun _ hs => hs.toGuarded

/-- What is loaded is in the slot. -/
theorem Pool.exists_of_load (h : p.load id k = .ok v) :
    ∃ s, p.find? id = some s ∧ s.valueAt k = v := by
  rw [Pool.load] at h
  cases hvalues : p.valuesOf id with
  | error e =>
    rw [hvalues] at h
    cases h
  | ok a =>
    obtain ⟨s, vs⟩ := a
    obtain ⟨hs, hvs⟩ := Pool.valuesOf_eq_ok_iff.mp hvalues
    rw [hvalues] at h
    simp only [bind, Except.bind] at h
    split at h
    · next hslot =>
      cases h
      exact ⟨s, hs, by rw [Scope.valueAt_of_values hvs, hslot]; rfl⟩
    · cases h

theorem Pool.Each.fits_load (h : p.Each (Scope.Fits limit)) (hv : p.load id k = .ok v) :
    v.Fits limit := by
  obtain ⟨s, hs, rfl⟩ := exists_of_load hv
  exact (h id s hs).values k

/-- What is required of the scopes of a machine, for as long as code runs. It is kept by what running
code does to the scopes, and by the removal of those that the global scope does not need. -/
structure Regime where
  limit : Nat
  global : ScopeId
  scopes : Pool Value → Prop
  fits : ∀ {p}, scopes p → p.Each (Scope.Fits limit)
  keeps : ∀ {p q e r}, scopes p → Edit.Ordinary limit e → e.Runs p (r, q) → scopes q
  collects : ∀ {h : Heap} {roots}, scopes h.pool → global ∈ roots → scopes (h.collect roots).2.pool

namespace Regime

variable {R : Regime} {m : Machine}

/-- A machine is under a regime. -/
structure Holds (R : Regime) (m : Machine) : Prop where
  depth : m.options.limits.maxDepth = R.limit
  global : m.global = R.global
  scopes : R.scopes m.heap.pool

/-- Code ends with a value as it should be. What it throws fits. -/
def Ends {α : Type} (R : Regime) (Q : α → Prop) : Except Abrupt α → Prop
  | .ok a => Q a
  | .error (.thrown v) => v.Fits R.limit
  | .error _ => True

theorem Holds.onPool (h : R.Holds m) (hp : R.scopes p) :
    R.Holds { m with heap := { m.heap with pool := p } } := ⟨h.depth, h.global, hp⟩

/-- A program is about to run. -/
theorem Holds.started (h : R.Holds m) (names : Interner) :
    R.Holds { m with names, completion := .undefined } := ⟨h.depth, h.global, h.scopes⟩

theorem Holds.collected (h : R.Holds m) : R.Holds m.collectGarbage.2 :=
  ⟨h.depth, h.global, R.collects h.scopes (by simp [← h.global])⟩

theorem Holds.swept (h : R.Holds m) :
    R.Holds (if m.heap.collectionDue then m.collectGarbage.2 else m) := by
  split
  · exact h.collected
  · exact h

theorem Holds.afterStatement (h : R.Holds m) (flow : Flow) :
    R.Holds (Exec.afterStatement flow m) := by
  cases flow with
  | normal v =>
    cases v with
    | none => exact h.swept
    | some v => exact Holds.swept (m := { m with completion := v }) ⟨h.depth, h.global, h.scopes⟩
  | «return» => exact h.swept

end Regime

namespace Exec

open Code (FunctionCode)

variable {α β : Type} {R : Regime} {Q : α → Prop} {S : β → Prop} {f g : Exec α}
  {f' g' : α → Exec β}

/-- From a machine on, two pieces of code do the same. They leave the machine under a regime. -/
def ConcursFrom (R : Regime) (Q : α → Prop) (m : Machine) (f g : Exec α) : Prop :=
  f.run m = g.run m ∧ R.Holds (g.run m).2 ∧ R.Ends Q (g.run m).1

/-- The same from any machine on that is under the regime. -/
def Concurs (R : Regime) (Q : α → Prop) (f g : Exec α) : Prop :=
  ∀ m, R.Holds m → ConcursFrom R Q m f g

theorem concurs_pure {a : α} (h : Q a) : Concurs R Q (pure a) (pure a) :=
  fun _ hm => ⟨rfl, hm, h⟩

theorem concurs_outOfFuel : Concurs R Q (throw .outOfFuel) (throw .outOfFuel) :=
  fun _ hm => ⟨rfl, hm, trivial⟩

theorem concurs_thrown {v : Value} (h : v.Fits R.limit) :
    Concurs R Q (throw (.thrown v)) (throw (.thrown v)) :=
  fun _ hm => ⟨rfl, hm, h⟩

theorem Concurs.imp {Q' : α → Prop} (h : Concurs R Q f g) (hq : ∀ a, Q a → Q' a) :
    Concurs R Q' f g := by
  intro m hm
  obtain ⟨hrun, hm', he⟩ := h m hm
  refine ⟨hrun, hm', ?_⟩
  generalize (g.run m).1 = r at he
  cases r with
  | ok a => exact hq a he
  | error e => cases e <;> exact he

theorem Concurs.bind (h : Concurs R Q f g) (h' : ∀ a, Q a → Concurs R S (f' a) (g' a)) :
    Concurs R S (f >>= f') (g >>= g') := by
  intro m hm
  obtain ⟨hrun, hm', he⟩ := h m hm
  rw [ConcursFrom, run_bind, run_bind, hrun]
  rcases hg : g.run m with ⟨r, m'⟩
  rw [hg] at hm' he
  cases r with
  | ok a => exact h' a he m' hm'
  | error e => exact ⟨rfl, hm', by cases e <;> exact he⟩

/-- A regime may begin after code that is the same in both. -/
theorem ConcursFrom.after {m m' : Machine} {a : α} (hf : f.run m = (.ok a, m'))
    (h : ConcursFrom R S m' (f' a) (g' a)) : ConcursFrom R S m (f >>= f') (f >>= g') := by
  rw [ConcursFrom, run_bind_of_ok hf, run_bind_of_ok hf]
  exact h

/-- Code may look at the machine. -/
theorem Concurs.looking {f' g' : Machine → Exec β}
    (h : ∀ m, R.Holds m → Concurs R S (f' m) (g' m)) :
    Concurs R S (do f' (← get)) (do g' (← get)) :=
  fun m hm => h m hm m hm

theorem concurs_forM {ι : Type} {h h' : ι → Exec PUnit} (is : List ι)
    (hh : ∀ i ∈ is, Concurs R (fun _ => True) (h i) (h' i)) :
    Concurs R (fun _ => True) (is.forM h) (is.forM h') := by
  induction is with
  | nil => exact concurs_pure trivial
  | cons i is ih =>
    refine (hh i List.mem_cons_self).bind fun _ _ => ih fun j hj => hh j ?_
    exact List.mem_cons_of_mem i hj

theorem concurs_newObject : Concurs R (fun _ => True) newObject newObject :=
  fun _ hm => ⟨rfl, ⟨hm.depth, hm.global, hm.scopes⟩, trivial⟩

theorem concurs_raise (kind : ErrorKind) (message : String) :
    Concurs R Q (raise kind message) (raise kind message) :=
  concurs_newObject.bind fun object _ => concurs_thrown (.error object kind message)

theorem concurs_closure {code : FunctionCode} {Γ : List Frame} (h : code.Fits R.limit Γ)
    (scope : ScopeId) : Concurs R (·.Fits R.limit) (closure code scope) (closure code scope) :=
  concurs_newObject.bind fun object _ => concurs_pure (.function object ⟨Γ, h⟩)

/-- The answer may depend on the scopes. -/
theorem concurs_ask {h : Pool Value → Except ScopeError α}
    (hq : ∀ p a, R.scopes p → h p = .ok a → Q a) : Concurs R Q (ask h) (ask h) := by
  intro m hm
  refine ⟨rfl, hm, ?_⟩
  rw [run_ask]
  cases ha : h m.heap.pool with
  | error e => trivial
  | ok a => exact hq _ a hm.scopes ha

/-- Work on scopes that does what an edit does that running code makes. -/
theorem concurs_onScopes {work : PoolM Value α} {e : Edit Value} (he : e.Ordinary R.limit)
    (hw : ∀ p, (work.run p).2 = (e.run.run p).2) :
    Concurs R (fun _ => True) (onScopes work) (onScopes work) := by
  intro m hm
  have hp : R.scopes (work.run m.heap.pool).2 := by
    rw [hw]
    exact R.keeps hm.scopes he (Edit.runs (R.fits hm.scopes).guarded e)
  refine ⟨rfl, hm.onPool hp, ?_⟩
  rw [run_onScopes]
  cases (work.run m.heap.pool).1 <;> trivial

theorem snd_run_return {V : Type} (work : PoolM V α) (h : α → β) (p : Pool V) :
    ((do return h (← work) : PoolM V β).run p).2 = (work.run p).2 := by
  rw [run_bind]
  rcases work.run p with ⟨_ | _, _⟩ <;> rfl

theorem concurs_make (m : Maker) :
    Concurs R (fun _ => True) (onScopes m.run) (onScopes m.run) :=
  concurs_onScopes (.make m) fun p => (snd_run_return m.run Edit.Outcome.made p).symm

theorem concurs_change {c : Change Value} (id : ScopeId) (hc : c.Ordinary R.limit) :
    Concurs R (fun _ => True) (onScopes (c.run id)) (onScopes (c.run id)) :=
  concurs_onScopes (.change id hc) fun p =>
    (snd_run_return (c.run id) (fun _ => Edit.Outcome.changed) p).symm

theorem concurs_declare (id : ScopeId) (n : Name) :
    Concurs R (fun _ => True) (onScopes (.declare id n)) (onScopes (.declare id n)) := by
  refine concurs_onScopes (.change id (.declare n)) fun p => ?_
  rw [← snd_run_return (PoolM.declare id n) fun _ => ()]
  exact (snd_run_return _ (fun _ => Edit.Outcome.changed) p).symm

theorem concurs_delete (id : ScopeId) (n : Name) :
    Concurs R (fun _ => True) (onScopes (.delete id n)) (onScopes (.delete id n)) := by
  refine concurs_onScopes (.change id (.delete n)) fun p => ?_
  rw [← snd_run_return (PoolM.delete id n) fun _ => ()]
  exact (snd_run_return _ (fun _ => Edit.Outcome.changed) p).symm

theorem ConcursFrom.within {m : Machine} {scope : ScopeId} {strict : Bool}
    (h : ConcursFrom R Q { m with active := scope, strict, saved := m.active :: m.saved } f g) :
    ConcursFrom R Q m (within scope strict f) (within scope strict g) := by
  obtain ⟨hrun, hm', he⟩ := h
  refine ⟨?_, ⟨hm'.depth, hm'.global, hm'.scopes⟩, he⟩
  exact congrArg (fun x : Except Abrupt α × Machine =>
    (x.1, { x.2 with active := m.active, strict := m.strict, saved := x.2.saved.tail })) hrun

/-- Code that runs in another scope is under the same regime. -/
theorem Concurs.within (h : Concurs R Q f g) (scope : ScopeId) (strict : Bool) :
    Concurs R Q (within scope strict f) (within scope strict g) :=
  fun m hm => .within (h { m with active := scope, strict, saved := m.active :: m.saved }
    ⟨hm.depth, hm.global, hm.scopes⟩)

theorem Concurs.oneDeeper (h : Concurs R Q f g) : Concurs R Q (oneDeeper f) (oneDeeper g) := by
  intro m hm
  obtain ⟨hrun, hm', he⟩ := h { m with callDepth := m.callDepth + 1 }
    ⟨hm.depth, hm.global, hm.scopes⟩
  refine ⟨?_, ⟨hm'.depth, hm'.global, hm'.scopes⟩, he⟩
  exact congrArg (fun x : Except Abrupt α × Machine =>
    (x.1, { x.2 with callDepth := x.2.callDepth - 1 })) hrun

end Exec

end ScopeChain
