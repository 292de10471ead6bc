import ScopeChain.Proofs.Frames
import ScopeChain.Proofs.Likeness

/-! Worlds: which scopes of two runs stand for each other, and what is known about them for good.
A run by itself is a run beside itself. -/
namespace ScopeChain

open Code (FunctionCode)

/-- A scope of one run and its counterpart in the other. -/
abbrev Pairing := ScopeId × ScopeId

/-- What never changes about a pair of scopes: the pair around it, and the frame that the scopes
were made for, if they were made for one. -/
structure Shape where
  parent : Option Pairing
  frame : Option Frame

/-- The pairs of scopes in two runs. No scope has two counterparts, and the scopes around a pair are
a pair. -/
structure World where
  shape : Pairing → Option Shape
  matched : ∀ x y s t, shape x = some s → shape y = some t → (x.1 = y.1 ↔ x.2 = y.2)
  around : ∀ x s y, shape x = some s → s.parent = some y → ∃ t, shape y = some t

namespace World

variable {W W' : World} {x y : Pairing} {Γ : List Frame} {limit : Nat} {code : FunctionCode}

/-- A later world knows of more pairs. -/
instance : LE World := ⟨fun W W' => ∀ x s, W.shape x = some s → W'.shape x = some s⟩

theorem le_refl (W : World) : W ≤ W := fun _ _ h => h

theorem le_trans {W'' : World} (h : W ≤ W') (h' : W' ≤ W'') : W ≤ W'' :=
  fun x s hs => h' x s (h x s hs)

/-- Two scopes are a pair. -/
def Pairs (W : World) (i j : ScopeId) : Prop := ∃ s, W.shape (i, j) = some s

/-- The scopes of each pair are the same. -/
def Diagonal (W : World) : Prop := ∀ x s, W.shape x = some s → x.1 = x.2

/-- Declarations made in a pair of scopes may add names: they land in scopes made for no frame, or
for an open one. -/
inductive Opens (W : World) : Pairing → Prop where
  | root {x : Pairing} {parent : Option Pairing} :
    W.shape x = some ⟨parent, none⟩ → Opens W x
  | open {x : Pairing} {parent : Option Pairing} {F : Frame} :
    W.shape x = some ⟨parent, some F⟩ → F.isCatch = false → F.isOpen = true → Opens W x
  | outward {x y : Pairing} {F : Frame} :
    W.shape x = some ⟨some y, some F⟩ → F.isCatch = true → Opens W y → Opens W x

/-- Going outward from a pair of scopes one passes by scopes made for some frames, and then is where
more names may come. -/
inductive Sees (W : World) : Pairing → List Frame → Prop where
  | outside {x : Pairing} : W.Opens x → Sees W x []
  | within {x y : Pairing} {F : Frame} {Γ : List Frame} :
    W.shape x = some ⟨some y, some F⟩ → Sees W y Γ → Sees W x (F :: Γ)

theorem Opens.mono (h : W.Opens x) (hw : W ≤ W') : W'.Opens x := by
  induction h with
  | root hs => exact .root (hw _ _ hs)
  | «open» hs hc ho => exact .open (hw _ _ hs) hc ho
  | outward hs hc _ ih => exact .outward (hw _ _ hs) hc ih

theorem Sees.mono (h : W.Sees x Γ) (hw : W ≤ W') : W'.Sees x Γ := by
  induction h with
  | outside ho => exact .outside (ho.mono hw)
  | within hs _ ih => exact .within (hw _ _ hs) ih

theorem Opens.live (h : W.Opens x) : ∃ s, W.shape x = some s := by
  cases h with
  | root hs => exact ⟨_, hs⟩
  | «open» hs => exact ⟨_, hs⟩
  | outward hs => exact ⟨_, hs⟩

theorem Sees.live (h : W.Sees x Γ) : ∃ s, W.shape x = some s := by
  cases h with
  | outside ho => exact ho.live
  | within hs => exact ⟨_, hs⟩

/-- Where code may call `eval` directly, names may be added. -/
theorem Sees.opens (h : W.Sees x Γ) (ht : Frame.TakesEval Γ) : W.Opens x := by
  induction h with
  | outside ho => exact ho
  | @within x y F Γ hs _ ih =>
    cases hc : F.isCatch with
    | true => exact .outward hs hc (ih ((Frame.takesEval_cons_of_catch hc).mp ht))
    | false => exact .open hs hc ((Frame.takesEval_cons_of_not_catch hc).mp ht)

/-- Code fits a pair of scopes. -/
def Captures (W : World) (limit : Nat) (code : FunctionCode) (x : Pairing) : Prop :=
  ∃ Γ, W.Sees x Γ ∧ code.Fits limit Γ

theorem Captures.mono (h : W.Captures limit code x) (hw : W ≤ W') : W'.Captures limit code x := by
  obtain ⟨Γ, hs, hf⟩ := h
  exact ⟨Γ, hs.mono hw, hf⟩

/-- Two values are the same but for pairs of scopes, and their functions fit these. -/
def Likens (W : World) (limit : Nat) : Value → Value → Prop :=
  Value.Alike fun code i j => W.Captures limit code (i, j)

theorem Likens.mono {v w : Value} (h : W.Likens limit v w) (hw : W ≤ W') : W'.Likens limit v w :=
  Value.Alike.mono h fun _ _ _ hc => hc.mono hw

theorem Likens.eq {v w : Value} (h : W.Likens limit v w) (hd : W.Diagonal) : v = w :=
  Value.Alike.eq h fun _ i j ⟨_, hs, _⟩ => by
    obtain ⟨s, hs⟩ := hs.live
    exact hd (i, j) s hs

theorem forall₂_mono {vs ws : List Value} (h : List.Forall₂ (W.Likens limit) vs ws) (hw : W ≤ W') :
    List.Forall₂ (W'.Likens limit) vs ws :=
  h.imp fun _ _ hv => hv.mono hw

theorem rel_mono {v w : Option Value} (h : Option.Rel (W.Likens limit) v w) (hw : W ≤ W') :
    Option.Rel (W'.Likens limit) v w := by
  cases h with
  | some h => exact .some (h.mono hw)
  | none => exact .none

theorem rel_or {v w v' w' : Option Value} (h : Option.Rel (W.Likens limit) v w)
    (h' : Option.Rel (W.Likens limit) v' w') : Option.Rel (W.Likens limit) (v.or v') (w.or w') := by
  cases h with
  | some h => exact .some h
  | none => exact h'

/-- A pair of scopes that were not there before, with the pair around it. -/
def extend (W : World) (x : Pairing) (s : Shape)
    (hl : ∀ y t, W.shape y = some t → y.1 ≠ x.1 ∧ y.2 ≠ x.2)
    (hp : ∀ y, s.parent = some y → ∃ t, W.shape y = some t) : World where
  shape y := if y = x then some s else W.shape y
  matched y z t u hy hz := by
    split at hy <;> split at hz
    · next h h' => rw [h, h']; simp
    · next h h' =>
      have := hl z u hz
      rw [h]
      exact ⟨fun he => absurd he.symm this.1, fun he => absurd he.symm this.2⟩
    · next h h' =>
      have := hl y t hy
      rw [h']
      exact ⟨fun he => absurd he this.1, fun he => absurd he this.2⟩
    · exact W.matched y z t u hy hz
  around y t z hy ht := by
    have hz : ∃ u, W.shape z = some u := by
      split at hy
      · cases hy
        exact hp z ht
      · exact W.around y t z hy ht
    obtain ⟨u, hu⟩ := hz
    by_cases he : z = x
    · exact ⟨s, by simp [he]⟩
    · exact ⟨u, by simpa [he] using hu⟩

section Extend

variable {s : Shape} {hl : ∀ y t, W.shape y = some t → y.1 ≠ x.1 ∧ y.2 ≠ x.2}
  {hp : ∀ y, s.parent = some y → ∃ t, W.shape y = some t}

@[simp] theorem shape_extend_self : (W.extend x s hl hp).shape x = some s := if_pos rfl

theorem le_extend : W ≤ W.extend x s hl hp := by
  intro y t hy
  have hne : y ≠ x := fun he => (hl y t hy).1 (he ▸ rfl)
  exact (if_neg hne).trans hy

theorem shape_extend_cases {t : Shape} (h : (W.extend x s hl hp).shape y = some t) :
    (y = x ∧ t = s) ∨ W.shape y = some t := by
  simp only [extend] at h
  split at h
  · next he => exact .inl ⟨he, (Option.some.inj h).symm⟩
  · exact .inr h

end Extend

open Classical in
/-- Only some of the pairs, and with each of them the pair around it. -/
noncomputable def restrict (W : World) (K : Pairing → Prop)
    (hk : ∀ x s y, W.shape x = some s → K x → s.parent = some y → K y) : World where
  shape x := if K x then W.shape x else none
  matched x y s t hx hy := by
    split at hx
    · split at hy
      · exact W.matched x y s t hx hy
      · cases hy
    · cases hx
  around x s y hx hs := by
    split at hx
    · next hK =>
      obtain ⟨t, ht⟩ := W.around x s y hx hs
      exact ⟨t, by simpa [hk x s y hx hK hs] using ht⟩
    · cases hx

section Restrict

variable {K : Pairing → Prop}
  {hk : ∀ x s y, W.shape x = some s → K x → s.parent = some y → K y}

theorem shape_restrict {s : Shape} :
    (W.restrict K hk).shape x = some s ↔ W.shape x = some s ∧ K x := by
  simp only [restrict]
  split
  · next h => simp [h]
  · next h => simp [h]

theorem Opens.restrict (h : W.Opens x) (hx : K x) : (W.restrict K hk).Opens x := by
  induction h with
  | root hs => exact .root (shape_restrict.mpr ⟨hs, hx⟩)
  | «open» hs hc ho => exact .open (shape_restrict.mpr ⟨hs, hx⟩) hc ho
  | outward hs hc _ ih => exact .outward (shape_restrict.mpr ⟨hs, hx⟩) hc (ih (hk _ _ _ hs hx rfl))

theorem Sees.restrict (h : W.Sees x Γ) (hx : K x) : (W.restrict K hk).Sees x Γ := by
  induction h with
  | outside ho => exact .outside (ho.restrict hx)
  | within hs _ ih => exact .within (shape_restrict.mpr ⟨hs, hx⟩) (ih (hk _ _ _ hs hx rfl))

end Restrict

end World

end ScopeChain
