import ScopeChain.Proofs.TwinPools

/-! Each operation on scopes, carried out on a pair in two pools that agree, answers the same and
leaves the pools in agreement. It fails at most at the limit on nesting. -/
namespace ScopeChain.PoolM

variable {α β : Type} {one : Prop} {W W' : World} {limit : Nat} {p q : Pool Value}
  {x y : Pairing} {n : Name} {shape : Shape}

/-- Two answers are related, or tell of the same limit. -/
inductive Reports (R : α → α → Prop) : Except ScopeError α → Except ScopeError α → Prop where
  | ok {a b : α} : R a b → Reports R (.ok a) (.ok b)
  | deep (d : Nat) : Reports R (.error (.depthExceeded d)) (.error (.depthExceeded d))

/-- Work on two pools that agree leaves them in agreement and gives related answers. -/
def Both (one : Prop) (W : World) (limit : Nat) (R : World → α → α → Prop) (f g : PoolM Value α) :
    Prop :=
  ∀ p q, Pool.Twin one W limit p q → ∃ W', W ≤ W' ∧
    Pool.Twin one W' limit (f.run p).2 (g.run q).2 ∧ Reports (R W') (f.run p).1 (g.run q).1

section Rules

variable {f g : PoolM Value α} {f' g' : α → PoolM Value β} {R : World → α → α → Prop}
  {S : World → β → β → Prop}

theorem Both.of_ok
    (h : ∀ p q, Pool.Twin one W limit p q → ∃ a b p' q' W', f.run p = (.ok a, p') ∧
      g.run q = (.ok b, q') ∧ W ≤ W' ∧ Pool.Twin one W' limit p' q' ∧ R W' a b) :
    Both one W limit R f g := by
  intro p q hpq
  obtain ⟨a, b, p', q', W', hf, hg, hw, ht, hr⟩ := h p q hpq
  rw [hf, hg]
  exact ⟨W', hw, ht, .ok hr⟩

theorem Both.bind (h : Both one W limit R f g)
    (h' : ∀ W', W ≤ W' → ∀ a b, R W' a b → Both one W' limit S (f' a) (g' b)) :
    Both one W limit S (f >>= f') (g >>= g') := by
  intro p q hpq
  obtain ⟨W', hw, ht, hr⟩ := h p q hpq
  rw [run_bind, run_bind]
  rcases hf : f.run p with ⟨a, p'⟩
  rcases hg : g.run q with ⟨b, q'⟩
  rw [hf, hg] at hr ht
  cases hr with
  | ok hab =>
    obtain ⟨W'', hw', hrest⟩ := h' W' hw _ _ hab p' q' ht
    exact ⟨W'', World.le_trans hw hw', hrest⟩
  | deep d => exact ⟨W', hw, ht, .deep d⟩

theorem Both.pure {a b : α} (h : R W a b) : Both one W limit R (pure a) (pure b) :=
  fun _ _ ht => ⟨W, World.le_refl W, ht, .ok h⟩

end Rules

theorem twin_store {s : Scope Value} {k : Nat} {v w : Value} (h : Pool.Twin one W limit p q)
    (hy : W.shape y = some shape) (hs : p.find? y.1 = some s) (hk : k < s.table.slotCount)
    (hv : W.Likens limit v w) :
    ∃ p' q', (store y.1 k v).run p = (.ok ⟨⟩, p') ∧ (store y.2 k w).run q = (.ok ⟨⟩, q') ∧
      Pool.Twin one W limit p' q' := by
  obtain ⟨s', t, hs', ht, htwin⟩ := h.live y shape hy
  cases hs.symm.trans hs'
  obtain ⟨vs, ws, hf⟩ := htwin.filled
  refine ⟨_, _, run_store v hs hf.left (Nat.lt_of_lt_of_le hk hf.room_left),
    run_store w ht hf.right (Nat.lt_of_lt_of_le hk hf.room_right),
    h.update hy hs ht (htwin.store hv hk) fun _ hd he => ?_⟩
  rw [he, hv.eq hd]

/-- A value is put into a slot that the frame of a pair of scopes has. -/
theorem both_store {parent : Option Pairing} {F : Frame} {k : Nat} {v w : Value}
    (hy : W.shape y = some ⟨parent, some F⟩) (hk : k < F.names.length) (hv : W.Likens limit v w) :
    Both one W limit (fun _ _ _ => True) (store y.1 k v) (store y.2 k w) := by
  refine .of_ok ?_
  intro p q h
  obtain ⟨s, t, hs, -, htwin⟩ := h.live y _ hy
  have hslot := (htwin.frame F rfl).slots k F.names[k] (List.getElem?_eq_getElem hk)
  obtain ⟨p', q', hp, hq, h'⟩ := twin_store h hy hs (Table.slot?_lt hslot) hv
  exact ⟨_, _, p', q', W, hp, hq, World.le_refl W, h', trivial⟩

/-- A name declared from a pair of scopes where names may be added gets the same slot in both. -/
theorem twin_declare (h : Pool.Twin one W limit p q) (ho : W.Opens x) (n : Name) :
    (∃ y shape k p' q' s, W.shape y = some shape ∧ (declare x.1 n).run p = (.ok (y.1, k), p') ∧
      (declare x.2 n).run q = (.ok (y.2, k), q') ∧ Pool.Twin one W limit p' q' ∧
      p'.find? y.1 = some s ∧ s.slot? n = some k) ∨
    ∃ d, (declare x.1 n).run p = (.error (.depthExceeded d), p) ∧
      (declare x.2 n).run q = (.error (.depthExceeded d), q) := by
  have hl := h.lands ho
  generalize hp : p.declarationTarget x.1 = l at hl
  generalize hq : q.declarationTarget x.2 = r at hl
  cases hl with
  | @found y shape hy hopen =>
    obtain ⟨s, t, hs, ht, htwin⟩ := h.live y shape hy
    obtain ⟨hslot, htwin'⟩ := htwin.declare p.limits.growthSlack q.limits.growthSlack n hopen
    refine .inl ⟨y, shape, _, _, _, _, hy, run_declareHoisted n none hp hs, ?_,
      h.update (f := fun _ => (s.declareHoisted p.limits.growthSlack n none).2)
        (g := fun _ => (t.declareHoisted q.limits.growthSlack n none).2) hy hs ht htwin'
        fun ho _ he => ?_, Pool.find?_update_self hs _, ?_⟩
    · exact hslot ▸ run_declareHoisted n none hq ht
    · rw [he, (h.single ho).1]
    · exact (htwin.sound.slot?_declareHoisted n n none).trans (if_pos rfl)
  | deep d =>
    exact .inr ⟨d, run_declareHoisted_error n none hp, run_declareHoisted_error n none hq⟩

theorem both_declare (ho : W.Opens x) (n : Name) :
    Both one W limit (fun _ _ _ => True) (declare x.1 n) (declare x.2 n) := by
  intro p q h
  rcases twin_declare h ho n with ⟨_, _, _, p', q', _, _, hp, hq, h', _⟩ | ⟨d, hp, hq⟩
  · rw [hp, hq]
    exact ⟨W, World.le_refl W, h', .ok trivial⟩
  · rw [hp, hq]
    exact ⟨W, World.le_refl W, h, .deep d⟩

/-- A name gets a value in a pair of scopes where names may be added. -/
theorem both_setValue {v w : Value} (ho : W.Opens x) (n : Name) (hv : W.Likens limit v w) :
    Both one W limit (fun _ _ _ => True) (setValue x.1 n v) (setValue x.2 n w) := by
  intro p q h
  obtain ⟨shape, hx⟩ := ho.live
  obtain ⟨s, t, hs, ht, htwin⟩ := h.live x shape hx
  obtain ⟨vs, ws, hf⟩ := htwin.filled
  rw [run_setValue n v hs hf.left, run_setValue n w ht hf.right, htwin.slot?_eq]
  cases hslot : s.slot? n with
  | some k =>
    obtain ⟨p', q', hp, hq, h'⟩ := twin_store h hx hs (Table.slot?_lt hslot) hv
    dsimp only
    rw [hp, hq]
    exact ⟨W, World.le_refl W, h', .ok trivial⟩
  | none =>
    dsimp only
    rcases twin_declare h ho n with
      ⟨y, shape', k, p', q', s', hy, hp, hq, h', hs', hk⟩ | ⟨d, hp, hq⟩
    · obtain ⟨p'', q'', hp', hq', h''⟩ := twin_store h' hy hs' (Table.slot?_lt hk) hv
      rw [run_bind_of_ok hp, run_bind_of_ok hq]
      dsimp only
      rw [hp', hq']
      exact ⟨W, World.le_refl W, h'', .ok trivial⟩
    · rw [run_bind_of_error hp, run_bind_of_error hq]
      exact ⟨W, World.le_refl W, h, .deep d⟩

/-- A name is taken out of a pair of scopes, or stays in both. -/
theorem both_delete (hy : W.shape y = some shape) (n : Name) :
    Both one W limit (fun _ a b => a = b) (delete y.1 n) (delete y.2 n) := by
  intro p q h
  obtain ⟨s, t, hs, ht, htwin⟩ := h.live y shape hy
  obtain ⟨vs, ws, hf⟩ := htwin.filled
  rw [run_delete n hs hf.left, run_delete n ht hf.right, htwin.slot?_eq, htwin.bound]
  cases hslot : s.slot? n with
  | none => exact ⟨W, World.le_refl W, h, .ok rfl⟩
  | some k =>
    dsimp only
    split
    · exact ⟨W, World.le_refl W, h, .ok rfl⟩
    · next hk =>
      refine ⟨W, World.le_refl W, h.update hy hs ht (htwin.erase hslot (Nat.le_of_not_lt hk)) ?_,
        .ok rfl⟩
      exact fun _ _ he => by rw [he]

theorem both_freeze (hy : W.shape y = some shape) (hf : shape.frame = none) :
    Both one W limit (fun _ _ _ => True) (freeze y.1) (freeze y.2) := by
  refine .of_ok ?_
  intro p q h
  obtain ⟨s, t, hs, ht, htwin⟩ := h.live y shape hy
  exact ⟨_, _, _, _, W, run_update hs _, run_update ht _, World.le_refl W,
    h.update hy hs ht (htwin.freeze hf) fun _ _ he => by rw [he], trivial⟩

/-- A pair of new scopes with the names of a frame. -/
theorem both_newInstance {F : Frame} (kind : ScopeKind) (hx : W.shape x = some shape)
    (hk : kind.extensible = !F.isCatch) (hn : F.names.Nodup) :
    Both one W limit (fun W' i j => W'.shape (i, j) = some ⟨some x, some F⟩)
      (newInstance kind (some x.1) F.names) (newInstance kind (some x.2) F.names) := by
  refine .of_ok ?_
  intro p q h
  obtain ⟨s, t, hs, ht, -⟩ := h.live x shape hx
  have htwin : Scope.Twin W limit ⟨some x, some F⟩ (.filled kind (some x.1) F.names)
      (.filled kind (some x.2) F.names) := Scope.twin_filled kind hk hn
  obtain ⟨W', hw, hshape, h'⟩ := h.extend (p.find?_insert_fst _) (q.find?_insert_fst _)
    (p.find?_insert _) (q.find?_insert _) Pool.limits_insert Pool.limits_insert
    (fun y hy => ⟨shape, by cases hy; exact hx⟩) htwin fun _ hd he => by
      rw [he, hd x shape hx]
      exact ⟨rfl, rfl⟩
  exact ⟨_, _, _, _, W', run_newInstance kind F.names hs, run_newInstance kind F.names ht, hw, h',
    hshape⟩

/-- A pair of new scopes without names. -/
theorem both_materialized {f g : PoolM Value ScopeId} {parent : Option Pairing} (kind : ScopeKind)
    (hk : kind.extensible = true)
    (hparent : ∀ y, parent = some y → ∃ shape, W.shape y = some shape)
    (hf : ∀ p q, Pool.Twin one W limit p q →
      f.run p = (insert (.ofTable kind (parent.map Prod.fst) (.ofNames [])) : PoolM _ _).run p ∧
      g.run q = (insert (.ofTable kind (parent.map Prod.snd) (.ofNames [])) : PoolM _ _).run q) :
    Both one W limit (fun W' i j => W'.shape (i, j) = some ⟨parent, none⟩)
      (do let id ← f; materialize id; return id) (do let id ← g; materialize id; return id) := by
  refine .of_ok ?_
  intro p q h
  obtain ⟨hp, hq⟩ := hf p q h
  rw [run_insert, Pool.fst_insert] at hp hq
  have hp' := run_materialized hp
  have hq' := run_materialized hq
  have htwin : Scope.Twin W limit ⟨parent, none⟩ _ _ := Scope.twin_materialize kind hk
  obtain ⟨W', hw, hshape, h'⟩ := h.extend (p.find?_insert_fst _) (q.find?_insert_fst _)
    (p.find?_insert _) (q.find?_insert _) Pool.limits_insert Pool.limits_insert hparent
    htwin fun _ hd he => by
      have hsame : parent.map Prod.snd = parent.map Prod.fst := by
        cases parent with
        | none => rfl
        | some y =>
          obtain ⟨shape, hy⟩ := hparent y rfl
          simp [hd y shape hy]
      rw [he, hsame]
      exact ⟨rfl, rfl⟩
  rw [Pool.fst_insert, Pool.fst_insert] at hshape
  exact ⟨_, _, _, _, W', hp', hq', hw, h', hshape⟩

/-- A pair of new scopes for code handed to `eval`. -/
theorem both_newEvalInstance (hx : W.shape x = some shape) :
    Both one W limit (fun W' i j => W'.shape (i, j) = some ⟨some x, none⟩)
      (newEvalInstance x.1) (newEvalInstance x.2) := by
  refine both_materialized .eval rfl (fun y hy => ⟨shape, by cases hy; exact hx⟩) ?_
  intro p q h
  obtain ⟨s, t, hs, ht, -⟩ := h.live x shape hx
  exact ⟨run_newDescriptor .eval [] hs, run_newDescriptor .eval [] ht⟩

/-- A pair of new global scopes. -/
theorem both_newGlobalInstance :
    Both one W limit (fun W' i j => W'.shape (i, j) = some ⟨none, none⟩)
      newGlobalInstance newGlobalInstance :=
  both_materialized .global rfl nofun fun p q _ =>
    ⟨run_newDescriptor_none [] rfl p, run_newDescriptor_none [] rfl q⟩

end ScopeChain.PoolM
