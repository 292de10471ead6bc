import ScopeChain.Proofs.Twins

/-! Pools of two runs whose paired scopes agree: walks from a pair lead to a pair, and changes made
to a pair leave the pools in agreement. -/
namespace ScopeChain.Pool

variable {one : Prop} {W W' : World} {limit : Nat} {p q : Pool Value} {x y : Pairing}
  {Γ : List Frame} {n : Name} {s t : Scope Value} {shape : Shape}

/-- The paired scopes are live, and agree. Where the two runs are one, the pools are one too. -/
structure Twin (one : Prop) (W : World) (limit : Nat) (p q : Pool Value) : Prop where
  depth_left : p.limits.maxDepth = limit
  depth_right : q.limits.maxDepth = limit
  live : ∀ x shape, W.shape x = some shape → ∃ s t, p.find? x.1 = some s ∧ q.find? x.2 = some t ∧
    Scope.Twin W limit shape s t
  single : one → p = q ∧ W.Diagonal

/-- Two walks for a name come to the same: to no scope, to a pair of scopes with the name in one
slot, or to the limit. -/
inductive Meets (W : World) (p : Pool Value) (n : Name) :
    Except ScopeError (Option (ScopeId × Nat)) → Except ScopeError (Option (ScopeId × Nat)) → Prop
    where
  | nowhere : Meets W p n (.ok none) (.ok none)
  | found {y : Pairing} {shape : Shape} {s : Scope Value} {k : Nat} : W.shape y = some shape →
    p.find? y.1 = some s → s.slot? n = some k →
    Meets W p n (.ok (some (y.1, k))) (.ok (some (y.2, k)))
  | deep (d : Nat) : Meets W p n (.error (.depthExceeded d)) (.error (.depthExceeded d))

theorem ancestorFrom_succ {id parent : ScopeId} (h : p.find? id = some s)
    (hp : s.parent = some parent) (e : ScopeError) (steps : Nat) :
    p.ancestorFrom e (steps + 1) id = p.ancestorFrom e steps parent := by
  simp only [ancestorFrom, get_of_find? h, bind, Except.bind, hp]

theorem Twin.reach_eq (h : Twin one W limit p q) : q.reach = p.reach := by
  simp only [reach, h.depth_left, h.depth_right]

theorem Twin.lookup (h : Twin one W limit p q) (hx : W.shape x = some shape) (n : Name) :
    Meets W p n (p.lookup x.1 n) (q.lookup x.2 n) := by
  have walk (reach : Nat) : Meets W p n (p.lookupFrom n reach (some x.1))
      (q.lookupFrom n reach (some x.2)) := by
    induction reach generalizing x shape with
    | zero =>
      simp only [lookupFrom, tooDeep, h.depth_left, h.depth_right]
      exact .deep limit
    | succ reach ih =>
      obtain ⟨s, t, hs, ht, htwin⟩ := h.live x shape hx
      rw [lookupFrom_succ hs, lookupFrom_succ ht, htwin.slot?_eq]
      cases hslot : s.slot? n with
      | some k => exact .found hx hs hslot
      | none =>
        dsimp only
        rw [htwin.parent_left, htwin.parent_right]
        cases hpar : shape.parent with
        | none => cases reach <;> exact .nowhere
        | some y =>
          obtain ⟨shape', hy⟩ := W.around x shape y hx hpar
          exact ih hy
  rw [Pool.lookup, Pool.lookup, h.reach_eq]
  exact walk p.reach

/-- Where an address leads, in a pair of scopes seen from another: to the pair whose scopes have the
name in an undeletable slot and are the nearest to have the name. -/
structure Leads (W : World) (p q : Pool Value) (x : Pairing) (n : Name) (depth k : Nat)
    (y : Pairing) : Prop where
  paired : ∃ shape, W.shape y = some shape
  ancestor_left : p.ancestor x.1 depth = .ok y.1
  ancestor_right : q.ancestor x.2 depth = .ok y.2
  lookup_left : p.lookup x.1 n = .ok (some (y.1, k))
  lookup_right : q.lookup x.2 n = .ok (some (y.2, k))
  slot_left : ∃ s, p.find? y.1 = some s ∧ s.slot? n = some k ∧ k < s.immutableCount
  slot_right : ∃ t, q.find? y.2 = some t ∧ t.slot? n = some k ∧ k < t.immutableCount

/-- Names that code addresses by slots are found by name as well, in the same slots. -/
theorem Twin.leads (h : Twin one W limit p q) {d k : Nat} (hs : W.Sees x Γ) (hf : Finds n Γ d k)
    (hd : d ≤ limit) : ∃ y, Leads W p q x n d k y := by
  have walk : ∃ y shape s t, W.shape y = some shape ∧
      (∀ e, p.ancestorFrom e d x.1 = .ok y.1) ∧ (∀ e, q.ancestorFrom e d x.2 = .ok y.2) ∧
      (∀ reach, d < reach → p.lookupFrom n reach (some x.1) = .ok (some (y.1, k)) ∧
        q.lookupFrom n reach (some x.2) = .ok (some (y.2, k))) ∧
      p.find? y.1 = some s ∧ q.find? y.2 = some t ∧ Scope.Twin W limit shape s t ∧
      s.slot? n = some k ∧ k < s.immutableCount := by
    clear hd
    induction hf generalizing x with
    | @here F Γ k hk =>
      cases hs with
      | @within _ y _ _ hx _ =>
        obtain ⟨s, t, hs, ht, htwin⟩ := h.live x _ hx
        have hd := htwin.frame F rfl
        have hslot := hd.slots k n hk
        refine ⟨x, _, s, t, hx, fun _ => rfl, fun _ => rfl, fun reach hr => ?_, hs, ht, htwin,
          hslot, ?_⟩
        · obtain ⟨r, rfl⟩ : ∃ r, reach = r + 1 := ⟨reach - 1, by omega⟩
          rw [lookupFrom_succ hs, lookupFrom_succ ht, htwin.slot?_eq, hslot]
          exact ⟨rfl, rfl⟩
        · rw [hd.bound]
          exact (List.getElem?_eq_some_iff.mp hk).1
    | @outward F Γ d k hn ho _ ih =>
      cases hs with
      | @within _ y _ _ hx hy =>
        obtain ⟨s, t, hs, ht, htwin⟩ := h.live x _ hx
        have hnone : s.slot? n = none := by
          cases hslot : s.slot? n with
          | none => rfl
          | some j => exact (hn ((htwin.frame F rfl).closed ho n j hslot)).elim
        obtain ⟨z, shape, u, v, hz, hl, hr, hlook, hrest⟩ := ih hy
        refine ⟨z, shape, u, v, hz, fun e => ?_, fun e => ?_, fun reach hlt => ?_, hrest⟩
        · rw [ancestorFrom_succ hs htwin.parent_left, hl]
        · rw [ancestorFrom_succ ht htwin.parent_right, hr]
        · obtain ⟨r, rfl⟩ : ∃ r, reach = r + 1 := ⟨reach - 1, by omega⟩
          rw [lookupFrom_succ hs, lookupFrom_succ ht, htwin.slot?_eq, hnone]
          dsimp only
          rw [htwin.parent_left, htwin.parent_right]
          exact hlook r (by omega)
  obtain ⟨y, shape, s, t, hy, hl, hr, hlook, hs, ht, htwin, hslot, hlt⟩ := walk
  have hreach := hlook p.reach (by rw [reach, h.depth_left]; omega)
  refine ⟨y, ⟨_, hy⟩, hl _, hr _, hreach.1, ?_, ⟨s, hs, hslot, hlt⟩, t, ht, ?_, ?_⟩
  · rw [Pool.lookup, h.reach_eq]
    exact hreach.2
  · rw [htwin.slot?_eq, hslot]
  · rw [htwin.bound]
    exact hlt

/-- Two walks for the scope in which declarations land come to the same: to a pair that may gain
names, or to the limit. -/
inductive Lands (W : World) : Except ScopeError ScopeId → Except ScopeError ScopeId → Prop where
  | found {y : Pairing} {shape : Shape} : W.shape y = some shape →
    (∀ F, shape.frame = some F → F.isOpen = true) → Lands W (.ok y.1) (.ok y.2)
  | deep (d : Nat) : Lands W (.error (.depthExceeded d)) (.error (.depthExceeded d))

theorem Twin.lands (h : Twin one W limit p q) (ho : W.Opens x) :
    Lands W (p.declarationTarget x.1) (q.declarationTarget x.2) := by
  have walk (reach : Nat) : Lands W (p.declarationTargetFrom reach x.1)
      (q.declarationTargetFrom reach x.2) := by
    induction reach generalizing x with
    | zero =>
      simp only [declarationTargetFrom, tooDeep, h.depth_left, h.depth_right]
      exact .deep limit
    | succ reach ih =>
      obtain ⟨shape, hx⟩ := ho.live
      obtain ⟨s, t, hs, ht, htwin⟩ := h.live x shape hx
      rw [declarationTargetFrom_succ hs, declarationTargetFrom_succ ht, htwin.kind]
      cases ho with
      | root hx' =>
        cases hx.symm.trans hx'
        rw [if_pos (htwin.root rfl), if_pos (htwin.root rfl)]
        refine .found hx ?_
        rintro F ⟨⟩
      | «open» hx' hc hop =>
        cases hx.symm.trans hx'
        have hk : s.kind.extensible = true := by simp [(htwin.frame _ rfl).kind, hc]
        rw [if_pos hk, if_pos hk]
        refine .found hx ?_
        rintro G ⟨rfl⟩
        exact hop
      | outward hx' hc hy =>
        cases hx.symm.trans hx'
        have hk : ¬ s.kind.extensible = true := by simp [(htwin.frame _ rfl).kind, hc]
        rw [if_neg hk, if_neg hk, htwin.parent_left, htwin.parent_right]
        exact ih hy
  rw [Pool.declarationTarget, Pool.declarationTarget, h.reach_eq]
  exact walk p.reach

/-- A pair of scopes is replaced by scopes that agree. -/
theorem Twin.update {f g : Scope Value → Scope Value} (h : Twin one W limit p q)
    (hx : W.shape x = some shape) (hs : p.find? x.1 = some s) (ht : q.find? x.2 = some t)
    (hfg : Scope.Twin W limit shape (f s) (g t)) (hone : one → W.Diagonal → s = t → f s = g t) :
    Twin one W limit (p.update x.1 f) (q.update x.2 g) := by
  refine ⟨h.depth_left, h.depth_right, fun y shape' hy => ?_, fun ho => ?_⟩
  · by_cases he : y = x
    · subst he
      cases hx.symm.trans hy
      exact ⟨f s, g t, find?_update_self hs f, find?_update_self ht g, hfg⟩
    · have hne : y.1 ≠ x.1 := fun h₁ => he (Prod.ext h₁ ((W.matched y x _ _ hy hx).mp h₁))
      have hne' : y.2 ≠ x.2 := fun h₂ => he (Prod.ext ((W.matched y x _ _ hy hx).mpr h₂) h₂)
      rw [find?_update_of_ne hne, find?_update_of_ne hne']
      exact h.live y shape' hy
  · obtain ⟨rfl, hd⟩ := h.single ho
    rw [← hd x _ hx] at ht ⊢
    obtain rfl : s = t := Option.some.inj (hs.symm.trans ht)
    exact ⟨update_congr hs (hone ho hd rfl), hd⟩

/-- A pair of new scopes that agree. -/
theorem Twin.extend {p' q' : Pool Value} {i j : ScopeId} (h : Twin one W limit p q)
    (hi : p.find? i = none) (hj : q.find? j = none)
    (hp : ∀ z, p'.find? z = if z = i then some s else p.find? z)
    (hq : ∀ z, q'.find? z = if z = j then some t else q.find? z)
    (hlp : p'.limits = p.limits) (hlq : q'.limits = q.limits)
    (hparent : ∀ y, shape.parent = some y → ∃ t, W.shape y = some t)
    (htwin : Scope.Twin W limit shape s t) (hone : one → W.Diagonal → p = q → p' = q' ∧ i = j) :
    ∃ W', W ≤ W' ∧ W'.shape (i, j) = some shape ∧ Twin one W' limit p' q' := by
  have hnew : ∀ y t, W.shape y = some t → y.1 ≠ i ∧ y.2 ≠ j := by
    intro y u hy
    obtain ⟨s', t', hs', ht', _⟩ := h.live y u hy
    refine ⟨?_, ?_⟩
    · rintro he
      rw [he, hi] at hs'
      cases hs'
    · rintro he
      rw [he, hj] at ht'
      cases ht'
  refine ⟨W.extend (i, j) shape hnew hparent, World.le_extend, World.shape_extend_self,
    by rw [hlp, h.depth_left], by rw [hlq, h.depth_right], fun y u hy => ?_, fun ho => ?_⟩
  · rcases World.shape_extend_cases hy with ⟨rfl, rfl⟩ | hy
    · exact ⟨s, t, by simp [hp], by simp [hq], htwin.mono World.le_extend⟩
    · obtain ⟨s', t', hs', ht', htwin'⟩ := h.live y u hy
      obtain ⟨hni, hnj⟩ := hnew y u hy
      exact ⟨s', t', by rw [hp, if_neg hni, hs'], by rw [hq, if_neg hnj, ht'],
        htwin'.mono World.le_extend⟩
  · obtain ⟨he, hd⟩ := h.single ho
    obtain ⟨he', hij⟩ := hone ho hd he
    refine ⟨he', fun y u hy => ?_⟩
    rcases World.shape_extend_cases hy with ⟨rfl, _⟩ | hy
    · exact hij
    · exact hd y u hy

end ScopeChain.Pool
