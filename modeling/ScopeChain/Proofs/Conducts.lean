import ScopeChain.Proofs.Deletions
import ScopeChain.Proofs.Manners

/-! What code may do to scopes. A conduct says which names of the global scope are sealed, and
whether there are any others; it is obeyed by what mindful code does to scopes. -/
namespace ScopeChain

open Code (FunctionCode Part)
open Machine (isPredefined)

variable {limit : Nat} {strict : Bool} {p q : Pool Value} {s : Scope Value} {id t : ScopeId}
  {n : Name} {k : Nat} {v : Value}

namespace Code.Part

/-- Code that is mindful throughout and fits some place. -/
structure Tame (limit : Nat) (strict : Bool) (x : Part) : Prop where
  mindful : x.Mindful strict
  fits : ∃ Φ τ, x.Fits limit Φ τ

variable {x y : Part}

theorem Tame.minds (h : x.Tame limit strict) : x.Minds strict := by
  obtain ⟨⟨h, -⟩, -⟩ := h
  exact h

theorem Tame.parts (h : x.Tame limit strict) (hy : y ∈ x.parts) : y.Tame limit strict := by
  obtain ⟨⟨-, hmindful⟩, Φ, τ, hfits⟩ := h
  refine ⟨hmindful y hy, ?_⟩
  cases x with
  | function c =>
    obtain ⟨F, -, hparts⟩ := fits_function hfits
    exact ⟨_, _, hparts y hy⟩
  | «catch» c =>
    obtain ⟨F, -, hparts⟩ := fits_catch hfits
    exact ⟨_, _, hparts y hy⟩
  | stmt s => exact ⟨_, _, fits_stmt hfits y hy⟩
  | expr e => exact ⟨_, _, fits_expr hfits y hy⟩
  | use u => cases hy

end Code.Part

/-- The code of every function that a value is or holds is tame. -/
def Value.Tame (limit : Nat) (strict : Bool) (v : Value) : Prop :=
  v.Alike (fun code _ _ => (Part.function code).Tame limit strict) v

theorem Value.Tame.fits (h : v.Tame limit strict) : v.Fits limit :=
  Value.Alike.mono h fun _ _ _ hc => by
    obtain ⟨-, Φ, τ, hfits⟩ := hc
    exact ⟨Φ, hfits⟩

/-- What is asked of code with respect to the global scope. -/
structure Conduct where
  limit : Nat
  global : ScopeId
  /-- The global names that are sealed. -/
  sealed : Name → Bool
  /-- Whether all code is strict. -/
  strict : Bool
  /-- Whether no other names than the sealed ones are global. -/
  closed : Bool
  predefined : ∀ n, isPredefined n = true → sealed n = true
  strict_of_closed : closed = true → strict = true

variable {C : Conduct}

/-- A scope of a run: in order, and with tame values. -/
structure Scope.Proper (limit : Nat) (strict : Bool) (s : Scope Value) : Prop extends s.Tidy where
  filled : s.values.isSome = true
  tame : ∀ k, (s.valueAt k).Tame limit strict

/-- A global scope as it should be. The name `this` is `undefined` in it. -/
structure Scope.Reigns (C : Conduct) (s : Scope Value) : Prop where
  seals : s.Seals C.sealed
  this : ∀ k, s.slot? .this = some k → s.valueAt k = .undefined
  closed : C.closed = true → ∀ n, (s.slot? n).isSome = C.sealed n

/-- The scopes of a pool are as they should be. -/
structure Pool.Obeys (C : Conduct) (p : Pool Value) : Prop where
  each : p.Each (Scope.Proper C.limit C.strict)
  global : ∃ s, p.find? C.global = some s ∧ s.Reigns C

/-- What code may change in a scope. The values that it puts there are tame, and a slot that they are
put into is that of some name. -/
def Change.Tame (limit : Nat) (strict : Bool) (s : Scope Value) : Change Value → Prop
  | .declare _ none | .delete _ => True
  | .setValue _ v => v.Tame limit strict
  | .store k v => v.Tame limit strict ∧ ∃ n, s.slot? n = some k
  | .markDirectEval | .materialize | .freeze | .declare _ (some _) => False

/-- What code may change in a global scope. -/
def Conduct.Permits (C : Conduct) (s : Scope Value) : Change Value → Prop
  | .declare _ _ | .delete _ => C.closed = false
  | .setValue n _ => C.closed = false ∧ n ≠ .this
  | .store k _ => s.slot? .this ≠ some k
  | .markDirectEval | .materialize | .freeze => True

namespace Scope

/-- The slot of a name after the name was declared. -/
theorem Guarded.slot?_declareHoisted_self (h : s.Guarded) (slack : Nat) (n : Name) :
    (s.declareHoisted slack n none).2.slot? n = some (s.declareHoisted slack n none).1 := by
  rw [h.slot?_declareHoisted, if_pos rfl]

theorem Proper.declareHoisted (h : s.Proper limit strict) (slack : Nat) (n : Name) :
    (s.declareHoisted slack n none).2.Proper limit strict := by
  refine ⟨h.toTidy.declareHoisted slack n none, ?_, fun k => ?_⟩
  · rw [isSome_values_declareHoisted]
    exact h.filled
  · rw [valueAt_declareHoisted]
    exact h.tame k

theorem Proper.setSlot (h : s.Proper limit strict) (hn : s.slot? n = some k)
    (hv : v.Tame limit strict) : (s.setSlot k v).Proper limit strict := by
  obtain ⟨vs, hvs⟩ := Option.isSome_iff_exists.mp h.filled
  refine ⟨h.toTidy.setSlot hvs hn v, ?_, fun j => ?_⟩
  · rw [Scope.setSlot, Option.isSome_map]
    exact h.filled
  · rw [valueAt_setSlot hvs (h.lt_size hvs hn)]
    split
    · exact hv
    · exact h.tame j

theorem Proper.erase (h : s.Proper limit strict) (hn : s.slot? n = some k)
    (hk : s.immutableCount ≤ k) : (s.erase n).Proper limit strict := by
  obtain ⟨vs, hvs⟩ := Option.isSome_iff_exists.mp h.filled
  refine ⟨h.toTidy.erase hvs hn hk, ?_, fun j => ?_⟩
  · rw [erase_of_some hn, Option.isSome_map]
    exact h.filled
  · rw [valueAt_erase hvs hn (h.lt_size hvs hn)]
    split
    · exact .undefined
    · exact h.tame j

theorem Proper.freeze (h : s.Proper limit strict) : s.freeze.Proper limit strict :=
  ⟨h.toTidy.freeze, h.filled, h.tame⟩

/-- A deletion takes a name out whose slot is not one of the sealed ones, or it does nothing. -/
theorem apply_delete_cases {P : Scope Value → Prop} (slack : Nat) (h : P s)
    (herase : ∀ k, s.slot? n = some k → s.immutableCount ≤ k → P (s.erase n)) :
    P ((Change.delete n).apply slack s) := by
  rw [Change.apply]
  split
  · exact h
  · next hsealed =>
    cases hn : s.slot? n with
    | none => rwa [erase_of_none hn]
    | some k =>
      rw [hn] at hsealed
      exact herase k hn (Nat.le_of_not_lt fun hk => hsealed (decide_eq_true hk))

theorem Proper.apply (h : s.Proper limit strict) {c : Change Value} (hc : c.Tame limit strict s)
    (slack : Nat) : (c.apply slack s).Proper limit strict := by
  cases c with
  | declare n o =>
    cases o with
    | none => exact h.declareHoisted slack n
    | some => exact hc.elim
  | setValue n v =>
    exact (h.declareHoisted slack n).setSlot (h.slot?_declareHoisted_self slack n) hc
  | store k v =>
    obtain ⟨hv, n, hn⟩ := hc
    exact h.setSlot hn hv
  | delete n => exact apply_delete_cases slack h fun k hn hk => h.erase hn hk
  | markDirectEval | materialize | freeze => exact hc.elim

theorem eq_of_slot? {m : Name} (hm : s.slot? m = some k) (hn : s.slot? n = some k) : m = n :=
  Option.some.inj ((Table.nameAt_of_slot? hm).symm.trans (Table.nameAt_of_slot? hn))

variable {F : Name → Bool}

theorem Seals.slot?_isSome (h : s.Seals F) (hn : F n = true) : (s.slot? n).isSome = true :=
  Option.isSome_of_any ((h.sealed n).trans hn)

theorem Reigns.exists_this (h : s.Reigns C) : ∃ k, s.slot? .this = some k :=
  Option.isSome_iff_exists.mp (h.seals.slot?_isSome (C.predefined .this rfl))

theorem Reigns.setSlot (h : s.Reigns C) (hs : s.Guarded) (hn : s.slot? n = some k)
    (hk : s.slot? .this ≠ some k) (v : Value) : (s.setSlot k v).Reigns C := by
  refine ⟨h.seals.setSlot k v, fun j hj => ?_, h.closed⟩
  obtain ⟨vs, hvs⟩ := Option.isSome_iff_exists.mp h.seals.room
  have hne : j ≠ k := by
    rintro rfl
    exact hk hj
  rw [valueAt_setSlot hvs (hs.lt_size hvs hn), if_neg hne]
  exact h.this j hj

theorem Reigns.declareHoisted (h : s.Reigns C) (hs : s.Guarded) (hc : C.closed = false)
    (slack : Nat) (n : Name) : (s.declareHoisted slack n none).2.Reigns C := by
  refine ⟨h.seals.declareHoisted hs slack n, fun j hj => ?_,
    fun h => Bool.noConfusion (hc.symm.trans h)⟩
  rw [valueAt_declareHoisted]
  refine h.this j ?_
  obtain ⟨i, hi⟩ := h.exists_this
  rw [Scope.slot?, Scope.declareHoisted, hs.sound.slot?_declareHoisted_of_some none hi] at hj
  rw [hi, hj]

theorem Reigns.erase (h : s.Reigns C) (hs : s.Guarded) (hc : C.closed = false)
    (hn : s.slot? n = some k) (hk : s.immutableCount ≤ k) : (s.erase n).Reigns C := by
  obtain ⟨vs, hvs⟩ := Option.isSome_iff_exists.mp h.seals.room
  refine ⟨?_, fun j hj => ?_, fun h => Bool.noConfusion (hc.symm.trans h)⟩
  · refine ⟨?_, ?_, fun m => (hs.isSealed_erase hn hk m).trans (h.seals.sealed m)⟩
    · rw [erase_of_some hn]
      exact h.seals.kind
    · rw [erase_of_some hn, Option.isSome_map]
      exact h.seals.room
  · rw [hs.slot?_erase hn] at hj
    split at hj
    · cases hj
    · rw [valueAt_erase hvs hn (hs.lt_size hvs hn)]
      split
      · rfl
      · exact h.this j hj

theorem Reigns.apply (h : s.Reigns C) (hs : s.Guarded) {c : Change Value}
    (hc : c.Tame limit strict s) (hp : C.Permits s c) (slack : Nat) :
    (c.apply slack s).Reigns C := by
  cases c with
  | declare n o =>
    cases o with
    | none => exact h.declareHoisted hs hp slack n
    | some => exact hc.elim
  | store k v =>
    obtain ⟨-, n, hn⟩ := hc
    exact h.setSlot hs hn hp v
  | delete n => exact apply_delete_cases slack h fun k hn hk => h.erase hs hp hn hk
  | setValue n v =>
    have hself := hs.slot?_declareHoisted_self slack n
    refine (h.declareHoisted hs hp.1 slack n).setSlot (hs.declareHoisted slack n none) hself ?_ v
    exact fun hthis => hp.2 (eq_of_slot? hself hthis)
  | markDirectEval | materialize | freeze => exact hc.elim

/-- A global scope after a script has begun. -/
theorem Reigns.freeze {C' : Conduct} (h : s.Reigns C)
    (hsealed : ∀ n, C'.sealed n = (s.slot? n).isSome) : s.freeze.Reigns C' := by
  refine ⟨⟨h.seals.kind, h.seals.room, fun n => ?_⟩, h.this, fun _ n => (hsealed n).symm⟩
  rw [cell_freeze, hsealed]
  exact Option.isSome_map

end Scope

/-- A new scope that has room for values has none yet. -/
theorem Maker.proper_scope {m : Maker} (hm : m.kind = .catch → m.parent.isSome = true)
    (hfilled : (m.scope : Scope Value).values.isSome = true) :
    (m.scope : Scope Value).Proper limit strict := by
  refine ⟨m.tidy_scope hm, hfilled, fun k => ?_⟩
  rw [m.valueAt_scope]
  exact .undefined

namespace Pool

theorem Obeys.guarded (h : p.Obeys C) : p.Each Scope.Guarded :=
  h.each.imp fun _ hs => hs.toGuarded

theorem Obeys.tidy (h : p.Obeys C) : p.Tidy :=
  h.each.imp fun _ hs => hs.toTidy

theorem Obeys.seals (h : p.Obeys C) : p.Seals C.limit C.global C.sealed := by
  obtain ⟨s, hs, hreigns⟩ := h.global
  refine ⟨h.each.imp fun u hproper => ?_, s, hs, hreigns.seals⟩
  exact ⟨hproper.toGuarded, fun k => (hproper.tame k).fits⟩

/-- A change must be one that code may make where it comes to. -/
theorem Obeys.change (h : p.Obeys C) {c : Change Value}
    (hc : ∀ t s, c.target p id = .ok t → p.find? t = some s →
      c.Tame C.limit C.strict s ∧ (t = C.global → C.Permits s c)) :
    ((c.run id).run p).2.Obeys C := by
  have hr := runs_change h.guarded id c
  generalize (c.run id).run p = a at hr ⊢
  cases hr with
  | refused => exact h
  | @landed t s ht hs =>
    obtain ⟨htame, hpermits⟩ := hc t s ht hs
    obtain ⟨g, hg, hreigns⟩ := h.global
    refine ⟨h.each.update hs ((h.each t s hs).apply htame _), ?_⟩
    by_cases hgt : C.global = t
    · subst hgt
      cases hs.symm.trans hg
      have hguarded := (h.each _ s hs).toGuarded
      exact ⟨_, find?_update_self hs _, hreigns.apply hguarded htame (hpermits rfl) _⟩
    · exact ⟨g, (find?_update_of_ne hgt _).trans hg, hreigns⟩

theorem Obeys.next_ne (h : p.Obeys C) : p.next ≠ C.global := by
  obtain ⟨g, hg, -⟩ := h.global
  intro heq
  rw [← heq, find?_next] at hg
  cases hg

/-- A new scope is not the global one. -/
theorem Obeys.insert (h : p.Obeys C) (hs : s.Proper C.limit C.strict) :
    (p.insert s).2.Obeys C := by
  refine ⟨h.each.insert hs, ?_⟩
  obtain ⟨g, hg, hreigns⟩ := h.global
  refine ⟨g, ?_, hreigns⟩
  rw [find?_insert, fst_insert, if_neg h.next_ne.symm]
  exact hg

theorem Obeys.make (h : p.Obeys C) {m : Maker} (hm : m.kind = .catch → m.parent.isSome = true)
    (hfilled : (m.scope : Scope Value).values.isSome = true) :
    (∃ e, m.run.run p = (.error e, p)) ∨ m.run.run p = (.ok p.next, (p.insert m.scope).2) ∧
      (p.insert m.scope).2.Obeys C := by
  have hsame := PoolM.snd_run_checkParent m.kind m.parent p
  rw [m.run_eq, run_bind]
  rcases hcheck : (PoolM.checkParent m.kind m.parent).run p with ⟨a, q⟩
  rw [hcheck] at hsame
  rw [show q = p from hsame]
  cases a with
  | error e => exact .inl ⟨e, rfl⟩
  | ok => exact .inr ⟨m.run_place p, h.insert (m.proper_scope hm hfilled)⟩

theorem Obeys.collect {h : Heap} {roots : List ScopeId} (hp : h.pool.Obeys C)
    (hg : C.global ∈ roots) : (h.collect roots).2.pool.Obeys C := by
  obtain ⟨s, hs, hreigns⟩ := hp.global
  exact ⟨Heap.each_collect hp.each, s, Heap.find?_collect.mpr ⟨hs, .root hg⟩, hreigns⟩

end Pool

end ScopeChain
