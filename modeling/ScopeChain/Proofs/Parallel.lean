import ScopeChain.Machine
import ScopeChain.Proofs.Compilation
import ScopeChain.Proofs.TwinOperations

/-! Parallel runs: from machines that agree, two pieces of code end in machines that agree and in
the same way, whatever garbage there is and however arrays have grown. The scope that is active, the
strictness, the scopes put aside and the count of calls are as before, however the code ends. -/
namespace ScopeChain

/-- Where the code stands that two machines run. -/
structure Situation where
  global : Pairing
  active : Pairing
  strict : Bool
  saved : List Pairing
  callDepth : Nat

namespace Machine

/-- Two machines in one situation agree, up to the pairing of their scopes. Where the two runs are
one, the machines are one too. -/
structure Twin (one : Prop) (W : World) (limit : Nat) (c : Situation) (m n : Machine) : Prop where
  names : n.names = m.names
  options : n.options.isStrict = m.options.isStrict
  depth_left : m.options.limits.maxDepth = limit
  depth_right : n.options.limits.maxDepth = limit
  pool : Pool.Twin one W limit m.heap.pool n.heap.pool
  global_left : m.global = c.global.1
  global_right : n.global = c.global.2
  global : ∃ parent, W.shape c.global = some ⟨parent, none⟩
  active_left : m.active = c.active.1
  active_right : n.active = c.active.2
  active : ∃ shape, W.shape c.active = some shape
  strict_left : m.strict = c.strict
  strict_right : n.strict = c.strict
  saved_left : m.saved = c.saved.map Prod.fst
  saved_right : n.saved = c.saved.map Prod.snd
  saved : ∀ x ∈ c.saved, ∃ shape, W.shape x = some shape
  completion : W.Likens limit m.completion n.completion
  callDepth_left : m.callDepth = c.callDepth
  callDepth_right : n.callDepth = c.callDepth
  nextObject : n.nextObject = m.nextObject
  single : one → m = n

namespace Twin

variable {one : Prop} {W W' : World} {limit : Nat} {c : Situation} {m n : Machine}

/-- The scopes may change, and more pairs may come. -/
theorem onPools {p q : Pool Value} (h : Twin one W limit c m n) (hw : W ≤ W')
    (hp : Pool.Twin one W' limit p q) :
    Twin one W' limit c { m with heap := { m.heap with pool := p } }
      { n with heap := { n.heap with pool := q } } := by
  obtain ⟨parent, hx⟩ := h.global
  obtain ⟨shape, hs⟩ := h.active
  refine { h with
    pool := hp
    global := ⟨parent, hw _ _ hx⟩
    active := ⟨shape, hw _ _ hs⟩
    saved := fun y hy => ?_
    completion := h.completion.mono hw
    single := fun ho => ?_ }
  · obtain ⟨shape, hs⟩ := h.saved y hy
    exact ⟨shape, hw _ _ hs⟩
  · rw [h.single ho, (hp.single ho).1]

/-- More names may be known. -/
theorem named (h : Twin one W limit c m n) (names : Interner) :
    Twin one W limit c { m with names } { n with names } :=
  { h with
    names := rfl
    single := fun ho => by rw [h.single ho] }

/-- Code starts to run in another pair of scopes, and the one that was active is put aside. -/
theorem enter {y : Pairing} {shape : Shape} (h : Twin one W limit c m n)
    (hy : W.shape y = some shape) (strict : Bool) :
    Twin one W limit { c with active := y, strict, saved := c.active :: c.saved }
      { m with active := y.1, strict, saved := m.active :: m.saved }
      { n with active := y.2, strict, saved := n.active :: n.saved } := by
  refine { h with
    active_left := rfl
    active_right := rfl
    active := ⟨shape, hy⟩
    strict_left := rfl
    strict_right := rfl
    saved_left := by simp [h.active_left, h.saved_left]
    saved_right := by simp [h.active_right, h.saved_right]
    saved := fun z hz => ?_
    single := fun ho => ?_ }
  · rcases List.mem_cons.mp hz with rfl | hz
    · exact h.active
    · exact h.saved z hz
  · rw [h.single ho, (h.pool.single ho).2 y shape hy]

/-- Code in another pair of scopes has ended, and the one put aside is active again. -/
theorem leave {m' n' : Machine} {y : Pairing} {strict : Bool} (h : Twin one W limit c m n)
    (h' : Twin one W' limit { c with active := y, strict, saved := c.active :: c.saved } m' n') :
    Twin one W' limit c
      { m' with active := m.active, strict := m.strict, saved := m'.saved.tail }
      { n' with active := n.active, strict := n.strict, saved := n'.saved.tail } := by
  exact { h' with
    active_left := h.active_left
    active_right := h.active_right
    active := h'.saved c.active List.mem_cons_self
    strict_left := h.strict_left
    strict_right := h.strict_right
    saved_left := by simp [h'.saved_left]
    saved_right := by simp [h'.saved_right]
    saved := fun y hy => h'.saved y (List.mem_cons_of_mem _ hy)
    single := fun ho => by rw [h.single ho, h'.single ho] }

end Twin

end Machine

namespace Exec

variable {α β : Type} {one : Prop} {W W' : World} {limit : Nat} {c : Situation} {m n : Machine}
  {x y : Pairing} {Γ : List Frame}

/-- Two pieces of code stop early for the same reason. Of errors among scopes there is only the one
that too many are nested. -/
inductive Stops (W : World) (limit : Nat) : Abrupt → Abrupt → Prop where
  | thrown {v w : Value} : W.Likens limit v w → Stops W limit (.thrown v) (.thrown w)
  | malformed (d : Diagnostic) :
    Stops W limit (.compile (.malformed d)) (.compile (.malformed d))
  | tooNested (d : Nat) : Stops W limit (.compile (.scope (.depthExceeded d)))
    (.compile (.scope (.depthExceeded d)))
  | deep (d : Nat) : Stops W limit (.scope (.depthExceeded d)) (.scope (.depthExceeded d))
  | outOfFuel : Stops W limit .outOfFuel .outOfFuel

/-- Two pieces of code end in the same way. -/
inductive Ends (W : World) (limit : Nat) (R : α → α → Prop) :
    Except Abrupt α → Except Abrupt α → Prop where
  | ok {a b : α} : R a b → Ends W limit R (.ok a) (.ok b)
  | error {a b : Abrupt} : Stops W limit a b → Ends W limit R (.error a) (.error b)

/-- From any two machines that agree in a situation, two pieces of code end in the same way, and in
machines that agree in that situation. -/
def Parallel (one : Prop) (W : World) (limit : Nat) (c : Situation) (R : World → α → α → Prop)
    (f g : Exec α) : Prop :=
  ∀ m n, Machine.Twin one W limit c m n → ∃ W', W ≤ W' ∧
    Machine.Twin one W' limit c (f.run m).2 (g.run n).2 ∧
    Ends W' limit (R W') (f.run m).1 (g.run n).1

section Rules

variable {f g : Exec α} {f' g' : α → Exec β} {R R' : World → α → α → Prop}
  {S : World → β → β → Prop}

theorem Parallel.pure {a b : α} (h : R W a b) : Parallel one W limit c R (pure a) (pure b) :=
  fun _ _ ht => ⟨W, World.le_refl W, ht, .ok h⟩

theorem Parallel.outOfFuel : Parallel one W limit c R (throw .outOfFuel) (throw .outOfFuel) :=
  fun _ _ ht => ⟨W, World.le_refl W, ht, .error .outOfFuel⟩

theorem Parallel.thrown {v w : Value} (h : W.Likens limit v w) :
    Parallel one W limit c R (throw (.thrown v)) (throw (.thrown w)) :=
  fun _ _ ht => ⟨W, World.le_refl W, ht, .error (.thrown h)⟩

theorem Ends.imp {R R' : α → α → Prop} {r s : Except Abrupt α} (h : Ends W limit R r s)
    (hr : ∀ a b, R a b → R' a b) : Ends W limit R' r s := by
  cases h with
  | ok h => exact .ok (hr _ _ h)
  | error h => exact .error h

theorem Parallel.imp (h : Parallel one W limit c R f g) (hr : ∀ W' a b, R W' a b → R' W' a b) :
    Parallel one W limit c R' f g := by
  intro m n ht
  obtain ⟨W', hw, ht', he⟩ := h m n ht
  exact ⟨W', hw, ht', he.imp (hr W')⟩

/-- One piece of code after another. -/
theorem Parallel.bind (h : Parallel one W limit c R f g)
    (h' : ∀ W', W ≤ W' → ∀ a b, R W' a b → Parallel one W' limit c S (f' a) (g' b)) :
    Parallel one W limit c S (f >>= f') (g >>= g') := by
  intro m n ht
  obtain ⟨W', hw, ht', he⟩ := h m n ht
  rw [run_bind, run_bind]
  rcases hf : f.run m with ⟨r, m'⟩
  rcases hg : g.run n with ⟨s, n'⟩
  rw [hf, hg] at he ht'
  cases he with
  | ok hab =>
    obtain ⟨W'', hw', hrest⟩ := h' W' hw _ _ hab m' n' ht'
    exact ⟨W'', World.le_trans hw hw', hrest⟩
  | error h => exact ⟨W', hw, ht', .error h⟩

/-- Code may look at the machine. -/
theorem Parallel.looking {f' g' : Machine → Exec β}
    (h : ∀ m n, Machine.Twin one W limit c m n → Parallel one W limit c S (f' m) (g' n)) :
    Parallel one W limit c S (do f' (← get)) (do g' (← get)) := by
  intro m n ht
  exact h m n ht m n ht

end Rules

section Steps

variable {R : World → α → α → Prop}

theorem Parallel.onScopes {f g : PoolM Value α} (h : PoolM.Both one W limit R f g) :
    Parallel one W limit c R (onScopes f) (onScopes g) := by
  intro m n ht
  obtain ⟨W', hw, hp, hr⟩ := h m.heap.pool n.heap.pool ht.pool
  refine ⟨W', hw, ht.onPools hw hp, ?_⟩
  change Ends W' limit (R W') ((f.run m.heap.pool).1.mapError .scope)
    ((g.run n.heap.pool).1.mapError .scope)
  generalize (f.run m.heap.pool).1 = r at hr
  generalize (g.run n.heap.pool).1 = s at hr
  cases hr with
  | ok hab => exact .ok hab
  | deep d => exact .error (.deep d)

theorem parallel_newObject :
    Parallel one W limit c (fun _ a b => a = b) newObject newObject := by
  intro m n ht
  refine ⟨W, World.le_refl W, { ht with nextObject := ?_, single := fun ho => ?_ }, .ok ?_⟩
  · exact congrArg (· + 1) ht.nextObject
  · rw [ht.single ho]
  · exact ht.nextObject.symm

theorem parallel_raise (kind : ErrorKind) (message : String) :
    Parallel one W limit c R (raise kind message) (raise kind message) := by
  refine parallel_newObject.bind ?_
  rintro W' hw a _ rfl
  exact .thrown (.error a kind message)

theorem parallel_closure {code : Code.FunctionCode} (h : W.Captures limit code y) :
    Parallel one W limit c (fun W' => W'.Likens limit) (closure code y.1) (closure code y.2) := by
  refine parallel_newObject.bind ?_
  rintro W' hw a _ rfl
  exact .pure (.function a (h.mono hw))

/-- Code runs in another pair of scopes. -/
theorem Parallel.within {f g : Exec α} {shape : Shape} (strict : Bool)
    (hy : W.shape y = some shape)
    (h : Parallel one W limit { c with active := y, strict, saved := c.active :: c.saved } R f g) :
    Parallel one W limit c R (within y.1 strict f) (within y.2 strict g) := by
  intro m n ht
  obtain ⟨W', hw, ht', he⟩ := h _ _ (ht.enter hy strict)
  exact ⟨W', hw, ht.leave ht', he⟩

theorem Parallel.oneDeeper {f g : Exec α}
    (h : Parallel one W limit { c with callDepth := c.callDepth + 1 } R f g) :
    Parallel one W limit c R (oneDeeper f) (oneDeeper g) := by
  intro m n ht
  obtain ⟨W', hw, ht', he⟩ := h { m with callDepth := m.callDepth + 1 }
    { n with callDepth := n.callDepth + 1 } { ht with
      callDepth_left := congrArg (· + 1) ht.callDepth_left
      callDepth_right := congrArg (· + 1) ht.callDepth_right
      single := fun ho => by rw [ht.single ho] }
  refine ⟨W', hw, { ht' with
    callDepth_left := congrArg (· - 1) ht'.callDepth_left
    callDepth_right := congrArg (· - 1) ht'.callDepth_right
    single := fun ho => ?_ }, he⟩
  exact congrArg (fun k : Machine => { k with callDepth := k.callDepth - 1 }) (ht'.single ho)

end Steps

/-- Two statements end in the same way. -/
inductive Flows (W : World) (limit : Nat) : Flow → Flow → Prop where
  | normal {v w : Option Value} : Option.Rel (W.Likens limit) v w →
    Flows W limit (.normal v) (.normal w)
  | return {v w : Value} : W.Likens limit v w → Flows W limit (.return v) (.return w)

theorem Flows.mono {a b : Flow} (h : Flows W limit a b) (hw : W ≤ W') : Flows W' limit a b := by
  cases h with
  | normal h => exact .normal (World.rel_mono h hw)
  | «return» h => exact .return (h.mono hw)

theorem Stops.mono {a b : Abrupt} (h : Stops W limit a b) (hw : W ≤ W') : Stops W' limit a b := by
  cases h with
  | thrown h => exact .thrown (h.mono hw)
  | malformed d => exact .malformed d
  | tooNested d => exact .tooNested d
  | deep d => exact .deep d
  | outOfFuel => exact .outOfFuel

theorem Ends.mono {r s : Except Abrupt Flow} (h : Ends W limit (Flows W limit) r s)
    (hw : W ≤ W') : Ends W' limit (Flows W' limit) r s := by
  cases h with
  | ok h => exact .ok (h.mono hw)
  | error h => exact .error (h.mono hw)

section Statements

variable {f g f' g' : Exec Flow}

theorem run_caught (f : Exec Flow) (h : Value → Exec Flow) (m : Machine) :
    (caught f h).run m = match f.run m with
      | (.error (.thrown v), m) => (h v).run m
      | outcome => outcome := rfl

theorem run_finalized (f f' : Exec Flow) (m : Machine) :
    (finalized f f').run m =
      if isCatchable (f.run m).1 then
        match f'.run (f.run m).2 with
        | (.ok (.normal _), m') => ((f.run m).1, m')
        | own => own
      else f.run m := rfl

/-- Code has a handler for what it throws. -/
theorem Parallel.caught {h h' : Value → Exec Flow}
    (hf : Parallel one W limit c (Flows · limit) f g)
    (hh : ∀ W', W ≤ W' → ∀ v w, W'.Likens limit v w →
      Parallel one W' limit c (Flows · limit) (h v) (h' w)) :
    Parallel one W limit c (Flows · limit) (caught f h) (caught g h') := by
  intro m n ht
  obtain ⟨W', hw, ht', he⟩ := hf m n ht
  rw [run_caught, run_caught]
  rcases hfm : f.run m with ⟨r, m'⟩
  rcases hgn : g.run n with ⟨s, n'⟩
  rw [hfm, hgn] at he ht'
  cases he with
  | ok h => exact ⟨W', hw, ht', .ok h⟩
  | error h =>
    cases h with
    | thrown hv =>
      obtain ⟨W'', hw', hrest⟩ := hh W' hw _ _ hv m' n' ht'
      exact ⟨W'', World.le_trans hw hw', hrest⟩
    | malformed d => exact ⟨W', hw, ht', .error (.malformed d)⟩
    | tooNested d => exact ⟨W', hw, ht', .error (.tooNested d)⟩
    | deep d => exact ⟨W', hw, ht', .error (.deep d)⟩
    | outOfFuel => exact ⟨W', hw, ht', .error .outOfFuel⟩

/-- Code has a finalizer. -/
theorem Parallel.finalized (hf : Parallel one W limit c (Flows · limit) f g)
    (hf' : ∀ W', W ≤ W' → Parallel one W' limit c (Flows · limit) f' g') :
    Parallel one W limit c (Flows · limit) (finalized f f') (finalized g g') := by
  intro m n ht
  obtain ⟨W', hw, ht', he⟩ := hf m n ht
  rw [run_finalized, run_finalized]
  have hcatch : isCatchable (g.run n).1 = isCatchable (f.run m).1 := by
    generalize (f.run m).1 = r at he
    generalize (g.run n).1 = s at he
    cases he with
    | ok => rfl
    | error h => cases h <;> rfl
  rw [hcatch]
  split
  · obtain ⟨W'', hw', ht'', he'⟩ := hf' W' hw _ _ ht'
    refine ⟨W'', World.le_trans hw hw', ?_⟩
    rcases hfm : f'.run (f.run m).2 with ⟨r, m'⟩
    rcases hgn : g'.run (g.run n).2 with ⟨s, n'⟩
    rw [hfm, hgn] at he' ht''
    cases he' with
    | ok h =>
      cases h with
      | normal => exact ⟨ht'', he.mono hw'⟩
      | «return» hv => exact ⟨ht'', .ok (.return hv)⟩
    | error h => exact ⟨ht'', .error h⟩
  · exact ⟨W', hw, ht', he⟩

end Statements

end Exec

end ScopeChain
