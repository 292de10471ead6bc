import ScopeChain.Proofs.Regimes

/-! Seals on the global scope. While code runs, it seals no name there and breaks no seal; deletions
go by the seals, and a script that starts seals all that is bound. -/
namespace ScopeChain

variable {limit : Nat} {g : ScopeId} {F : Name → Bool} {p q : Pool Value} {s : Scope Value}
  {n : Name} {k : Nat} {v : Value}

/-- A global scope with room for values, of whose names just those in `F` are sealed. -/
structure Scope.Seals (F : Name → Bool) (s : Scope Value) : Prop where
  kind : s.kind = .global
  room : s.values.isSome = true
  sealed : ∀ n, s.cell.isSealed n = F n

/-- All values fit, and just the names in `F` are sealed in the global scope. -/
structure Pool.Seals (limit : Nat) (g : ScopeId) (F : Name → Bool) (p : Pool Value) : Prop where
  fits : p.Each (Scope.Fits limit)
  global : ∃ s, p.find? g = some s ∧ s.Seals F

/-- Whether a name is bound in a scope itself. -/
def Pool.binds (p : Pool Value) (id : ScopeId) (n : Name) : Bool :=
  (p.find? id).any fun s => (s.slot? n).isSome

namespace Scope

theorem Seals.declareHoisted (h : s.Seals F) (hs : s.Guarded) (slack : Nat) (n : Name) :
    (s.declareHoisted slack n none).2.Seals F :=
  ⟨h.kind, (isSome_values_declareHoisted slack n none).trans h.room,
    fun m => (hs.isSealed_declareHoisted slack n m none).trans (h.sealed m)⟩

theorem Seals.setSlot (h : s.Seals F) (k : Nat) (v : Value) : (s.setSlot k v).Seals F :=
  ⟨h.kind, by simpa [Scope.setSlot] using h.room, h.sealed⟩

theorem Seals.apply (h : s.Seals F) (hs : s.Guarded) {c : Change Value} (hc : c.Ordinary limit)
    (slack : Nat) : (c.apply slack s).Seals F := by
  cases hc with
  | declare n => exact h.declareHoisted hs slack n
  | setValue n => exact (h.declareHoisted hs slack n).setSlot _ _
  | store k => exact h.setSlot k _
  | delete n =>
    rw [Change.apply]
    split
    · exact h
    · next hsealed =>
      cases hn : s.slot? n with
      | none => rwa [erase_of_none hn]
      | some k =>
        rw [hn] at hsealed
        have hk : s.immutableCount ≤ k :=
          Nat.le_of_not_lt fun hk => hsealed (decide_eq_true hk)
        refine ⟨?_, ?_, fun m => (hs.isSealed_erase hn hk m).trans (h.sealed m)⟩
        · rw [erase_of_some hn]
          exact h.kind
        · rw [erase_of_some hn, Option.isSome_map]
          exact h.room

end Scope

namespace Pool

theorem Seals.edit {e : Edit Value} {r : Except ScopeError Edit.Outcome} (h : p.Seals limit g F)
    (he : e.Ordinary limit) (hr : e.Runs p (r, q)) : q.Seals limit g F := by
  refine ⟨hr.fits he h.fits, ?_⟩
  obtain ⟨s, hs, hseals⟩ := h.global
  cases he with
  | make m =>
    cases hr with
    | unmade => exact ⟨s, hs, hseals⟩
    | made =>
      refine ⟨s, ?_, hseals⟩
      rw [find?_insert, if_neg, hs]
      rintro rfl
      rw [find?_insert_fst] at hs
      cases hs
  | change id hc =>
    cases hr with
    | refused => exact ⟨s, hs, hseals⟩
    | @changed _ t c u ht hu =>
      by_cases hg : g = t
      · subst hg
        cases hs.symm.trans hu
        have hguarded := (h.fits g s hs).toGuarded
        exact ⟨_, find?_update_self hs _, hseals.apply hguarded hc _⟩
      · exact ⟨s, (find?_update_of_ne hg _).trans hs, hseals⟩

theorem Seals.collect {h : Heap} {roots : List ScopeId} (hp : h.pool.Seals limit g F)
    (hg : g ∈ roots) : (h.collect roots).2.pool.Seals limit g F := by
  obtain ⟨s, hs, hseals⟩ := hp.global
  exact ⟨Heap.each_collect hp.fits, s, Heap.find?_collect.mpr ⟨hs, .root hg⟩, hseals⟩

end Pool

/-- While no script starts, just the names in `F` are sealed in the global scope. -/
def Regime.sealing (limit : Nat) (g : ScopeId) (F : Name → Bool) : Regime where
  limit
  global := g
  scopes := Pool.Seals limit g F
  fits h := h.fits
  keeps h he hr := h.edit he hr
  collects h hg := h.collect hg

namespace Pool.Seals

theorem binds_of_sealed (h : p.Seals limit g F) (hn : F n = true) : p.binds g n = true := by
  obtain ⟨s, hs, hseals⟩ := h.global
  have hsealed := (hseals.sealed n).trans hn
  rw [Pool.binds, hs, Option.any_some]
  exact Option.isSome_of_any hsealed

/-- What becomes of a deletion is up to the seals. -/
theorem run_delete (h : p.Seals limit g F) (n : Name) :
    (PoolM.delete g n).run p =
      if F n then (.ok false, p) else (.ok true, p.update g (·.erase n)) := by
  obtain ⟨s, hs, hseals⟩ := h.global
  obtain ⟨vs, hvs⟩ := Option.isSome_iff_exists.mp hseals.room
  have hsealed : (s.slot? n).any (· < s.immutableCount) = F n := hseals.sealed n
  rw [PoolM.run_delete n hs hvs, ← hsealed]
  -- A name that is not bound is deleted too: there is nothing to erase.
  cases hn : s.slot? n with
  | none =>
    rw [Option.any_none, if_neg Bool.false_ne_true,
      Pool.update_eq_self hs (Scope.erase_of_none hn)]
  | some k => simp only [Option.any_some, decide_eq_true_eq]

theorem binds_erase (h : p.Seals limit g F) (n : Name) :
    (p.update g (·.erase n)).binds g n = false := by
  obtain ⟨s, hs, -⟩ := h.global
  rw [Pool.binds, Pool.find?_update_self hs, Option.any_some]
  cases hn : s.slot? n with
  | none => rw [Scope.erase_of_none hn, hn, Option.isSome_none]
  | some k => rw [(h.fits g s hs).slot?_erase hn, if_pos rfl, Option.isSome_none]

theorem run_declare (h : p.Seals limit g F) (n : Name) : ∃ a q,
    (PoolM.declare g n).run p = (.ok a, q) ∧ q.Seals limit g F ∧
      ∀ m, q.binds g m = (p.binds g m || m == n) := by
  obtain ⟨s, hs, hseals⟩ := h.global
  have htarget : p.declarationTarget g = .ok g := by
    rw [Pool.declarationTarget, Pool.reach, Pool.declarationTargetFrom_succ hs, hseals.kind]
    rfl
  have hguarded := (h.fits g s hs).toGuarded
  refine ⟨_, _, PoolM.run_declareHoisted n none htarget hs, ⟨?_, ?_⟩, fun m => ?_⟩
  · exact h.fits.update hs ((h.fits g s hs).declareHoisted _ n none)
  · exact ⟨_, Pool.find?_update_self hs _, hseals.declareHoisted hguarded _ n⟩
  · rw [Pool.binds, Pool.find?_update_self hs, Pool.binds, hs, Option.any_some, Option.any_some,
      hguarded.slot?_declareHoisted]
    by_cases hm : m = n <;> simp [hm]

/-- A name that is bound has room for its value. -/
theorem run_setValue (h : p.Seals limit g F) (hn : p.binds g n = true) (hv : v.Fits limit) : ∃ q,
    (PoolM.setValue g n v).run p = (.ok ⟨⟩, q) ∧ q.Seals limit g F ∧
      ∀ m, q.binds g m = p.binds g m := by
  obtain ⟨s, hs, hseals⟩ := h.global
  obtain ⟨vs, hvs⟩ := Option.isSome_iff_exists.mp hseals.room
  have hfits := h.fits g s hs
  rw [Pool.binds, hs, Option.any_some] at hn
  obtain ⟨k, hk⟩ := Option.isSome_iff_exists.mp hn
  refine ⟨p.update g (·.setSlot k v), ?_, ⟨?_, ?_⟩, fun m => ?_⟩
  · rw [PoolM.run_setValue n v hs hvs, hk]
    exact PoolM.run_store v hs hvs (hfits.lt_size hvs hk)
  · exact h.fits.update hs (hfits.setSlot hv k)
  · exact ⟨_, Pool.find?_update_self hs _, hseals.setSlot k v⟩
  · rw [Pool.binds, Pool.find?_update_self hs, Pool.binds, hs]
    rfl

/-- Once the global scope is frozen, all that it binds is sealed. -/
theorem run_freeze (h : p.Seals limit g F) : ∃ q,
    (PoolM.freeze g).run p = (.ok ⟨⟩, q) ∧ q.Seals limit g (p.binds g) ∧
      ∀ m, q.binds g m = p.binds g m := by
  obtain ⟨s, hs, hseals⟩ := h.global
  refine ⟨p.update g Scope.freeze, PoolM.run_update hs _, ⟨?_, s.freeze, ?_, ?_⟩, fun m => ?_⟩
  · exact h.fits.update hs (h.fits g s hs).freeze
  · exact Pool.find?_update_self hs _
  · refine ⟨hseals.kind, hseals.room, fun n => ?_⟩
    rw [Scope.cell_freeze, Pool.binds, hs, Option.any_some]
    exact Option.isSome_map ..
  · rw [Pool.binds, Pool.find?_update_self hs, Pool.binds, hs]
    rfl

end Pool.Seals

end ScopeChain
