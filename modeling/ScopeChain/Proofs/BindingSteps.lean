import ScopeChain.Binding
import ScopeChain.Proofs.Descriptors

/-! Steps of binding: how they fail, what they leave as it was, and that the growth of value arrays
has no part in them. -/
namespace ScopeChain.Binding

variable {α β : Type} {b b' c d : Binding}

/-- The binding with another least room to be added when a scope outgrows its values. -/
def withSlack (b : Binding) (k : Nat) : Binding := { b with scopes := b.scopes.withSlack k }

/-- Work on a binding ends as `Q` says, or else fails since too many scopes are nested. The growth
of value arrays makes no difference to it. -/
def Yields (f : BindM α) (b : Binding) (Q : α → Binding → Prop) : Prop :=
  match f.run b with
  | .ok (a, b') => Q a b' ∧ ∀ k, f.run (b.withSlack k) = .ok (a, b'.withSlack k)
  | .error e => (∃ limit, e = .depthExceeded limit) ∧ ∀ k, f.run (b.withSlack k) = .error e

section Rules

variable {f : BindM α} {g : α → BindM β} {Q Q' : α → Binding → Prop} {R : β → Binding → Prop}

theorem Yields.of_ok {a : α} (h : f.run b = .ok (a, b'))
    (hk : ∀ k, f.run (b.withSlack k) = .ok (a, b'.withSlack k)) (hq : Q a b') : Yields f b Q := by
  simp only [Yields, h]
  exact ⟨hq, hk⟩

theorem Yields.of_error {limit : Nat} (h : f.run b = .error (.depthExceeded limit))
    (hk : ∀ k, f.run (b.withSlack k) = .error (.depthExceeded limit)) : Yields f b Q := by
  simp only [Yields, h]
  exact ⟨⟨limit, rfl⟩, hk⟩

theorem Yields.pure {a : α} (h : Q a b) : Yields (pure a) b Q := .of_ok rfl (fun _ => rfl) h

theorem Yields.imp (hf : Yields f b Q) (h : ∀ a b', Q a b' → Q' a b') : Yields f b Q' := by
  unfold Yields at hf ⊢
  split
  · next he =>
    rw [he] at hf
    exact ⟨h _ _ hf.1, hf.2⟩
  · next he => rwa [he] at hf

theorem Yields.bind (hf : Yields f b Q) (hg : ∀ a b', Q a b' → Yields (g a) b' R) :
    Yields (f >>= g) b R := by
  unfold Yields at hf
  split at hf
  · next a b' he =>
    have hstep : (f >>= g).run b = (g a).run b' := by
      rw [StateT.run_bind, he]
      rfl
    have hstep' (k : Nat) : (f >>= g).run (b.withSlack k) = (g a).run (b'.withSlack k) := by
      rw [StateT.run_bind, hf.2 k]
      rfl
    have hga := hg a b' hf.1
    unfold Yields at hga ⊢
    simp only [hstep, hstep']
    exact hga
  · next e he =>
    obtain ⟨⟨limit, rfl⟩, hk⟩ := hf
    have hstep : (f >>= g).run b = .error (.depthExceeded limit) := by
      rw [StateT.run_bind, he]
      rfl
    refine .of_error hstep ?_
    intro k
    rw [StateT.run_bind, hk k]
    rfl

/-- Work may look at the binding for what growth has no part in. -/
theorem Yields.looking {g : Binding → BindM β} (hk : ∀ k, g (b.withSlack k) = g b)
    (h : Yields (g b) b R) : Yields (do g (← get)) b R := by
  have hstep (k : Nat) :
      (do g (← get) : BindM β).run (b.withSlack k) = (g b).run (b.withSlack k) := by
    rw [← hk k]
    rfl
  unfold Yields at h ⊢
  simp only [hstep]
  exact h

end Rules

theorem yields_modify {h : Binding → Binding} {Q : PUnit → Binding → Prop}
    (hk : ∀ k, h (b.withSlack k) = (h b).withSlack k) (hq : Q ⟨⟩ (h b)) :
    Yields (modify h) b Q :=
  .of_ok rfl (fun k => by rw [← hk]; rfl) hq

section OnScopes

variable {work : PoolM Unit α} {Q : α → Binding → Prop} {p : Pool Unit}

theorem yields_onScopes {a : α} (h : work.run b.scopes = (.ok a, p))
    (hk : ∀ k, work.run (b.scopes.withSlack k) = (.ok a, p.withSlack k))
    (hq : Q a { b with scopes := p }) : Yields (onScopes work) b Q := by
  have hrun : (onScopes work).run b = .ok (a, { b with scopes := p }) := by
    simp [onScopes, StateT.run, h]
  refine .of_ok hrun (fun k => ?_) hq
  simp [onScopes, StateT.run, withSlack, hk k]

theorem yields_onScopes_error {limit : Nat}
    (h : work.run b.scopes = (.error (.depthExceeded limit), p))
    (hk : ∀ k, (work.run (b.scopes.withSlack k)).1 = .error (.depthExceeded limit)) :
    Yields (onScopes work) b Q := by
  have hrun : (onScopes work).run b = .error (.depthExceeded limit) := by
    simp [onScopes, StateT.run, h]
  refine .of_error hrun ?_
  intro k
  have hw := hk k
  rcases hr : work.run (b.scopes.withSlack k) with ⟨r, q⟩
  rw [hr] at hw
  simp only at hw
  simp [onScopes, StateT.run, withSlack, hr, hw]

end OnScopes

/-- From one binding to a later one, the scopes in `T` stay as they are, and nothing is recorded for
the nodes in `S`. -/
structure Keeps (T : ScopeId → Prop) (S : NodeId → Prop) (b c : Binding) : Prop where
  limits : c.scopes.limits = b.scopes.limits
  scopes : ∀ id s, T id → b.scopes.find? id = some s → c.scopes.find? id = some s
  nodeScopes : ∀ i, S i → c.nodeScopes[i]? = b.nodeScopes[i]?
  references : ∀ i, S i → c.references[i]? = b.references[i]?

section Keeps

variable {T T' : ScopeId → Prop} {S S' : NodeId → Prop}

theorem Keeps.refl (T : ScopeId → Prop) (S : NodeId → Prop) (b : Binding) : Keeps T S b b :=
  ⟨rfl, fun _ _ _ hs => hs, fun _ _ => rfl, fun _ _ => rfl⟩

theorem Keeps.trans (h : Keeps T S b c) (h' : Keeps T S c d) : Keeps T S b d where
  limits := h'.limits.trans h.limits
  scopes id s ht hs := h'.scopes id s ht (h.scopes id s ht hs)
  nodeScopes i hi := (h'.nodeScopes i hi).trans (h.nodeScopes i hi)
  references i hi := (h'.references i hi).trans (h.references i hi)

theorem Keeps.mono (h : Keeps T S b c) (ht : ∀ id, T' id → T id) (hs : ∀ i, S' i → S i) :
    Keeps T' S' b c where
  limits := h.limits
  scopes id s hid := h.scopes id s (ht id hid)
  nodeScopes i hi := h.nodeScopes i (hs i hi)
  references i hi := h.references i (hs i hi)

theorem Keeps.nodes (h : Keeps T S b c) (hs : ∀ i, S' i → S i) : Keeps T S' b c :=
  h.mono (fun _ ht => ht) hs

end Keeps

/-- No scope is recorded for any of some nodes. -/
def Fresh (b : Binding) (xs : List NodeId) : Prop := ∀ i ∈ xs, b.nodeScopes[i]? = none

section Fresh

variable {T : ScopeId → Prop} {xs ys : List NodeId}

theorem Fresh.keeps (h : Fresh b xs) (hk : Keeps T (· ∈ xs) b c) : Fresh c xs :=
  fun i hi => (hk.nodeScopes i hi).trans (h i hi)

theorem Fresh.subset (h : Fresh b ys) (hs : xs ⊆ ys) : Fresh b xs := fun i hi => h i (hs hi)

end Fresh

end ScopeChain.Binding
