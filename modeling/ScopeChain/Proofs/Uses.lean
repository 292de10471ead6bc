import ScopeChain.Proofs.Parallel

/-! Uses of names: carried out by their addresses they come to the same in parallel runs, and
carried out in other ways they come to the same as by their addresses. -/
namespace ScopeChain.Exec

open Code (Use)

variable {one : Prop} {W : World} {limit : Nat} {c : Situation} {m n : Machine} {Γ : List Frame}
  {a : Address} {u : Use} {name : Name}

/-- Where an address leads from a scope. -/
def whereabouts (p : Pool Value) (active : ScopeId) :
    Address → Except ScopeError (Option (ScopeId × Nat))
  | .static depth slot => (p.ancestor active depth).map fun id => some (id, slot)
  | .dynamic n => p.lookup active n

theorem run_ask {α : Type} (f : Pool Value → Except ScopeError α) (m : Machine) :
    (ask f).run m = ((f m.heap.pool).mapError .scope, m) := rfl

theorem run_ask_of_ok {α : Type} {f : Pool Value → Except ScopeError α} {v : α}
    (h : f m.heap.pool = .ok v) : (ask f).run m = (.ok v, m) := by
  rw [run_ask, h]
  rfl

theorem run_onScopes {α : Type} (work : PoolM Value α) (m : Machine) :
    (onScopes work).run m = ((work.run m.heap.pool).1.mapError .scope,
      { m with heap := { m.heap with pool := (work.run m.heap.pool).2 } }) := rfl

theorem run_onScopes_of_ok {α : Type} {work : PoolM Value α} {v : α} {p : Pool Value}
    (h : work.run m.heap.pool = (.ok v, p)) :
    (onScopes work).run m = (.ok v, { m with heap := { m.heap with pool := p } }) := by
  rw [run_onScopes, h]
  rfl

theorem run_locate (a : Address) (m : Machine) :
    (locate a).run m = ((whereabouts m.heap.pool m.active a).mapError .scope, m) := by
  cases a with
  | static depth slot =>
    rw [locate, run_bind_of_ok (run_get m)]
    dsimp only [whereabouts]
    rw [run_bind, run_ask]
    cases m.heap.pool.ancestor m.active depth <;> rfl
  | dynamic n => rfl

/-- An address leads to the same name in both of two machines. -/
def Located (name : Name) (W : World) (a : Address) (m n : Machine) : Prop :=
  Pool.Meets W m.heap.pool name (whereabouts m.heap.pool m.active a)
    (whereabouts n.heap.pool n.active a)

theorem leads_of_fits (h : Machine.Twin one W limit c m n) (hs : W.Sees c.active Γ) {d k : Nat}
    (hu : u.Fits limit Γ) (ha : u.address = .static d k) :
    ∃ y, Pool.Leads W m.heap.pool n.heap.pool c.active u.name d k y := by
  have hf : d ≤ limit ∧ Finds u.name Γ d k := by
    rw [Use.Fits, ha] at hu
    exact hu
  exact h.pool.leads hs hf.2 hf.1

theorem located_of_fits (h : Machine.Twin one W limit c m n) (hs : W.Sees c.active Γ)
    (hu : u.Fits limit Γ) : Located u.name W u.address m n := by
  rw [Located, h.active_left, h.active_right]
  cases ha : u.address with
  | static d k =>
    obtain ⟨y, hy⟩ := leads_of_fits h hs hu ha
    obtain ⟨shape, hshape⟩ := hy.paired
    obtain ⟨s, hfind, hslot, -⟩ := hy.slot_left
    simp only [whereabouts, hy.ancestor_left, hy.ancestor_right]
    exact .found hshape hfind hslot
  | dynamic i =>
    obtain ⟨shape, hshape⟩ := hs.live
    rw [Use.Fits, ha] at hu
    rw [show i = u.name from hu]
    exact h.pool.lookup hshape u.name

theorem parallel_unbound {α : Type} {R : World → α → α → Prop} (a : Address) :
    Parallel one W limit c R (unbound a) (unbound a) := by
  cases a with
  | static => exact parallel_raise _ _
  | dynamic i =>
    refine .looking ?_
    intro m n ht
    rw [ht.names]
    exact parallel_raise _ _

/-- A value is read from a slot of a pair of scopes. -/
theorem load_likens {p q : Pool Value} {y : Pairing} {shape : Shape} (h : Pool.Twin one W limit p q)
    (hy : W.shape y = some shape) {s : Scope Value} (hs : p.find? y.1 = some s) {k : Nat}
    (hk : s.slot? name = some k) :
    ∃ v w, p.load y.1 k = .ok v ∧ q.load y.2 k = .ok w ∧ W.Likens limit v w := by
  obtain ⟨s', t, hs', ht, htwin⟩ := h.live y shape hy
  cases hs.symm.trans hs'
  obtain ⟨vs, ws, hf⟩ := htwin.filled
  have hlt := Table.slot?_lt hk
  have hv := Array.getElem?_eq_getElem (Nat.lt_of_lt_of_le hlt hf.room_left)
  have hw := Array.getElem?_eq_getElem (Nat.lt_of_lt_of_le hlt hf.room_right)
  have hlik := hf.likens k
  rw [hv, hw] at hlik
  exact ⟨_, _, Pool.load_of_find? hs hf.left hv, Pool.load_of_find? ht hf.right hw, hlik⟩

/-- What is done with a name depends only on where it is found. -/
theorem parallel_locate {α : Type} {R : World → α → α → Prop}
    {f g : Option (ScopeId × Nat) → Exec α}
    (h : ∀ m n, Machine.Twin one W limit c m n → Located name W a m n)
    (hnone : Parallel one W limit c R (f none) (g none))
    (hsome : ∀ m n y shape s k, Machine.Twin one W limit c m n → W.shape y = some shape →
      m.heap.pool.find? y.1 = some s → s.slot? name = some k → ∃ W', W ≤ W' ∧
      Machine.Twin one W' limit c ((f (some (y.1, k))).run m).2 ((g (some (y.2, k))).run n).2 ∧
      Ends W' limit (R W') ((f (some (y.1, k))).run m).1 ((g (some (y.2, k))).run n).1) :
    Parallel one W limit c R (do f (← locate a)) (do g (← locate a)) := by
  intro m n ht
  have hl := h m n ht
  rw [run_bind, run_bind, run_locate, run_locate]
  unfold Located at hl
  generalize whereabouts m.heap.pool m.active a = l at hl
  generalize whereabouts n.heap.pool n.active a = r at hl
  cases hl with
  | nowhere => exact hnone m n ht
  | found hy hs hk => exact hsome m n _ _ _ _ ht hy hs hk
  | deep d => exact ⟨W, World.le_refl W, ht, .error (.deep d)⟩

/-- The same for a name that is looked up. -/
theorem parallel_lookup {α : Type} {R : World → α → α → Prop} {shape : Shape}
    {f g : Option (ScopeId × Nat) → Exec α} (hx : W.shape c.active = some shape) (name : Name)
    (hnone : Parallel one W limit c R (f none) (g none))
    (hsome : ∀ m n y shape s k, Machine.Twin one W limit c m n → W.shape y = some shape →
      m.heap.pool.find? y.1 = some s → s.slot? name = some k → ∃ W', W ≤ W' ∧
      Machine.Twin one W' limit c ((f (some (y.1, k))).run m).2 ((g (some (y.2, k))).run n).2 ∧
      Ends W' limit (R W') ((f (some (y.1, k))).run m).1 ((g (some (y.2, k))).run n).1) :
    Parallel one W limit c R
      (do let active := (← get).active; f (← ask (·.lookup active name)))
      (do let active := (← get).active; g (← ask (·.lookup active name))) := by
  have h := parallel_locate (a := .dynamic name) (f := f) (g := g) (fun m n ht => ?_) hnone hsome
  · simpa only [locate, bind_assoc] using h
  · rw [Located, ht.active_left, ht.active_right]
    exact ht.pool.lookup hx name

theorem parallel_load (h : ∀ m n, Machine.Twin one W limit c m n → Located name W a m n) :
    Parallel one W limit c (·.Likens limit) (load a) (load a) := by
  refine parallel_locate h (parallel_unbound a) ?_
  intro m n y shape s k ht hy hs hk
  obtain ⟨v, w, hv, hw, hlik⟩ := load_likens ht.pool hy hs hk
  dsimp only
  rw [run_ask_of_ok hv, run_ask_of_ok hw]
  exact ⟨W, World.le_refl W, ht, .ok hlik⟩

theorem parallel_typeOfName (h : ∀ m n, Machine.Twin one W limit c m n → Located name W a m n) :
    Parallel one W limit c (·.Likens limit) (typeOfName a) (typeOfName a) := by
  refine parallel_locate h (.pure (.string _)) ?_
  intro m n y shape s k ht hy hs hk
  obtain ⟨v, w, hv, hw, hlik⟩ := load_likens ht.pool hy hs hk
  dsimp only
  rw [run_bind_of_ok (run_ask_of_ok hv), run_bind_of_ok (run_ask_of_ok hw)]
  refine ⟨W, World.le_refl W, ht, ?_⟩
  simp only [run_pure, hlik.typeName_eq]
  exact .ok (.string _)

theorem parallel_store {v w : Value}
    (h : ∀ m n, Machine.Twin one W limit c m n → Located name W a m n) (hv : W.Likens limit v w) :
    Parallel one W limit c (fun _ _ _ => True) (store a v) (store a w) := by
  refine parallel_locate h ?_ fun m n y shape s k ht hy hs hk => ?_
  · cases a with
    | static d k =>
      refine .looking ?_
      intro m n ht
      rw [ht.strict_left, ht.strict_right]
      split
      · exact parallel_unbound _
      · exact .pure trivial
    | dynamic i =>
      have hglobal (W' : World) (hw : W ≤ W') : Parallel one W' limit c (fun _ _ _ => True)
          (do onScopes (.setValue (← get).global i v))
          (do onScopes (.setValue (← get).global i w)) := by
        refine .looking ?_
        intro m n ht
        obtain ⟨parent, hx⟩ := ht.global
        rw [ht.global_left, ht.global_right]
        exact .onScopes (PoolM.both_setValue (.root hx) i (hv.mono hw))
      refine .looking ?_
      intro m n ht
      rw [ht.strict_left, ht.strict_right]
      split
      · exact (parallel_unbound (R := fun _ _ _ => True) _).bind fun W' hw _ _ _ => hglobal W' hw
      · exact hglobal W (World.le_refl W)
  · obtain ⟨p', q', hp, hq, htwin⟩ := PoolM.twin_store ht.pool hy hs (Table.slot?_lt hk) hv
    dsimp only
    rw [run_onScopes_of_ok hp, run_onScopes_of_ok hq]
    exact ⟨W, World.le_refl W, ht.onPools (World.le_refl W) htwin, .ok trivial⟩

theorem parallel_deleteName {shape : Shape} (hx : W.shape c.active = some shape) (a : Address) :
    Parallel one W limit c (·.Likens limit) (deleteName a) (deleteName a) := by
  have hrest (W' : World) (deleted : Bool) : Parallel one W' limit c (·.Likens limit)
      (do
        if !deleted && (← get).strict then raise .type "Cannot delete a declared binding"
        return Value.bool deleted)
      (do
        if !deleted && (← get).strict then raise .type "Cannot delete a declared binding"
        return Value.bool deleted) := by
    refine .looking ?_
    intro m n ht
    rw [ht.strict_left, ht.strict_right]
    split
    · exact (parallel_raise (R := fun _ _ _ => True) _ _).bind fun _ _ _ _ _ => .pure (.bool _)
    · exact .pure (.bool _)
  cases a with
  | static d k => exact .looking fun _ _ _ => hrest W false
  | dynamic i =>
    refine parallel_lookup hx i (hrest W true) ?_
    intro m n y shape s k ht hy hs hk
    refine Parallel.bind (.onScopes (PoolM.both_delete hy i)) ?_ m n ht
    rintro W' hw deleted _ rfl
    exact hrest W' deleted

end ScopeChain.Exec
