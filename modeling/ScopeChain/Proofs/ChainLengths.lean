import Mathlib.Data.List.Perm.Subperm
import ScopeChain.Proofs.Chains

/-! How long chains of scopes get, and which of them are too long for a walk. Whether a walk gives
up says something about the length of the chain, as no scope is on a chain twice. -/
namespace ScopeChain

variable {V : Type} {p q : Pool V} {id x : ScopeId} {s : Scope V} {r : Nat} {xs : List ScopeId}

namespace Pool

/-- The scopes that the links to parents lead to, from the inside out. A handle that is stale is the
last on its chain. -/
inductive Chain (p : Pool V) : ScopeId → List ScopeId → Prop
  | stale {id : ScopeId} : p.find? id = none → Chain p id [id]
  | root {id : ScopeId} {s : Scope V} : p.find? id = some s → s.parent = none → Chain p id [id]
  | link {id x : ScopeId} {s : Scope V} {xs : List ScopeId} : p.find? id = some s →
    s.parent = some x → Chain p x xs → Chain p id (id :: xs)

namespace Chain

theorem length_pos (h : p.Chain id xs) : 0 < xs.length := by
  cases h <;> exact Nat.succ_pos _

/-- The scope so many links above the first is that far down the list. -/
theorem ancestor_iff (h : p.Chain id xs) (d : Nat) : p.ancestor id d = .ok x ↔ xs[d]? = some x := by
  rw [ancestor_eq_ok_iff]
  induction h generalizing d with
  | @stale id hs =>
    cases d with
    | zero => simp [Above]
    | succ d =>
      refine ⟨?_, fun h => by simp at h⟩
      rintro ⟨s, parent, hs', -⟩
      cases hs.symm.trans hs'
  | @root id s hs hroot =>
    cases d with
    | zero => simp [Above]
    | succ d =>
      refine ⟨?_, fun h => by simp at h⟩
      rintro ⟨u, parent, hu, hparent, -⟩
      cases hs.symm.trans hu
      cases hroot.symm.trans hparent
  | @link id y s ys hs hy h ih =>
    cases d with
    | zero => simp [Above]
    | succ d => rw [above_succ hs hy, ih, List.getElem?_cons_succ]

/-- Only the last handle on a chain may be stale. -/
theorem mem_dropLast (h : p.Chain id xs) (hx : x ∈ xs.dropLast) : x ∈ p.ids := by
  induction h with
  | stale | root => simp at hx
  | @link id y s ys hs hy h ih =>
    rw [List.dropLast_cons_of_ne_nil (List.ne_nil_of_length_pos h.length_pos)] at hx
    rcases List.mem_cons.mp hx with rfl | hx
    · exact mem_ids_iff.mpr ⟨s, hs⟩
    · exact ih hx

/-- All scopes on a chain were made no later than the first. -/
theorem idxOf_le {made : List ScopeId} (hmade : p.Ordered made) (h : p.Chain id xs) (hx : x ∈ xs) :
    made.idxOf x ≤ made.idxOf id := by
  induction h with
  | stale | root => exact Nat.le_of_eq (congrArg made.idxOf (List.mem_singleton.mp hx))
  | @link id y s ys hs hy h ih =>
    have hlt := ((hmade id s hs).2 y hy).2
    rcases List.mem_cons.mp hx with rfl | hx
    · exact Nat.le_refl _
    · have hle := ih hx
      omega

theorem nodup {made : List ScopeId} (hmade : p.Ordered made) (h : p.Chain id xs) : xs.Nodup := by
  induction h with
  | stale | root => exact List.nodup_singleton _
  | @link id y s ys hs hy h ih =>
    refine List.nodup_cons.mpr ⟨?_, ih⟩
    intro hid
    have hle := h.idxOf_le hmade hid
    have hlt := ((hmade id s hs).2 y hy).2
    omega

/-- Next to the scopes that are there, a chain has room for one stale handle. -/
theorem length_le {made : List ScopeId} (hmade : p.Ordered made) (h : p.Chain id xs) :
    xs.length ≤ p.size + 1 := by
  have hnodup : xs.dropLast.Nodup := (h.nodup hmade).sublist (List.dropLast_sublist xs)
  have hlive : xs.dropLast ⊆ p.ids := fun _ hx => h.mem_dropLast hx
  have hlength := (hnodup.subperm hlive).length_le
  rw [List.length_dropLast, ← size_eq] at hlength
  omega

end Chain

/-- The links from a scope come to an end. -/
theorem Ordered.exists_chain {made : List ScopeId} (hmade : p.Ordered made) (id : ScopeId) :
    ∃ xs, p.Chain id xs := by
  induction hi : made.idxOf id using Nat.strongRecOn generalizing id with
  | ind i ih =>
    cases hs : p.find? id with
    | none => exact ⟨[id], .stale hs⟩
    | some s =>
      cases hx : s.parent with
      | none => exact ⟨[id], .root hs hx⟩
      | some x =>
        obtain ⟨xs, hxs⟩ := ih _ (hi ▸ ((hmade id s hs).2 x hx).2) x rfl
        exact ⟨id :: xs, .link hs hx hxs⟩

/-- There are more scopes on a chain than a walk may visit, and it goes on from all those that it
visits. -/
def Outruns (p : Pool V) (goesOn : Scope V → Prop) (reach : Nat) (xs : List ScopeId) : Prop :=
  reach < xs.length ∧ ∀ x ∈ xs.take reach, ∀ s, p.find? x = some s → goesOn s

theorem outruns_cons {goesOn : Scope V → Prop} (hs : p.find? id = some s) :
    p.Outruns goesOn (r + 1) (id :: xs) ↔ goesOn s ∧ p.Outruns goesOn r xs := by
  simp only [Outruns, List.length_cons, List.take_succ_cons, List.forall_mem_cons,
    Nat.add_lt_add_iff_right, hs, Option.some.injEq, forall_eq']
  tauto

/-- How a walk along a chain comes to visit too many scopes: it visits one and goes on to its
parent, `depth` links above the start. -/
structure Walk (p : Pool V) (goesOn : Scope V → Prop) (givesUp : Nat → Nat → ScopeId → Prop) :
    Prop where
  zero : ∀ depth id, givesUp 0 depth id
  stale : ∀ {r depth id}, p.find? id = none → ¬ givesUp (r + 1) depth id
  root : ∀ {r depth id s}, p.find? id = some s → s.parent = none → ¬ givesUp (r + 1) depth id
  link : ∀ {r depth id s x}, p.find? id = some s → s.parent = some x →
    (givesUp (r + 1) depth id ↔ goesOn s ∧ givesUp r (depth + 1) x)

theorem Walk.givesUp_iff {goesOn : Scope V → Prop} {givesUp : Nat → Nat → ScopeId → Prop}
    (hw : p.Walk goesOn givesUp) (h : p.Chain id xs) (r depth : Nat) :
    givesUp r depth id ↔ p.Outruns goesOn r xs := by
  induction h generalizing r depth with
  | @stale id hs =>
    cases r with
    | zero => simp [Outruns, hw.zero]
    | succ r => simp [Outruns, hw.stale hs]
  | @root id s hs hroot =>
    cases r with
    | zero => simp [Outruns, hw.zero]
    | succ r => simp [Outruns, hw.root hs hroot]
  | @link id y s ys hs hy h ih =>
    cases r with
    | zero => simp [Outruns, hw.zero]
    | succ r => rw [hw.link hs hy, ih, outruns_cons hs]

/-- An answer says that there were too many scopes to visit. -/
def GaveUp {α : Type} (a : Except ScopeError α) : Prop := ∃ l, a = .error (.depthExceeded l)

@[simp] theorem gaveUp_tooDeep {α : Type} : GaveUp (p.tooDeep : Except ScopeError α) := ⟨_, rfl⟩

@[simp] theorem not_gaveUp_ok {α : Type} (a : α) : ¬ GaveUp (.ok a) := nofun

theorem walk_lookup (p : Pool V) (n : Name) :
    p.Walk (fun s => s.slot? n = none) fun r _ id => GaveUp (p.lookupFrom n r (some id)) where
  zero _ _ := gaveUp_tooDeep
  stale hs := by simp [lookupFrom, get, hs, bind, Except.bind, GaveUp]
  root {r depth id s} hs hroot := by
    rw [lookupFrom_succ hs, hroot]
    cases s.slot? n with
    | some k => exact not_gaveUp_ok _
    | none => rw [lookupFrom]; exact not_gaveUp_ok _
  link {r depth id s x} hs hx := by
    rw [lookupFrom_succ hs, hx]
    cases s.slot? n <;> simp

theorem walk_resolve (p : Pool V) (n : Name) :
    p.Walk (fun s => s.kind.staticallyClosed = true ∧ s.slot? n = none ∧ s.directEval = false)
      fun r depth id => GaveUp (p.resolveFrom n r depth id) where
  zero _ _ := gaveUp_tooDeep
  stale hs := by simp [resolveFrom, get, hs, bind, Except.bind, GaveUp]
  root {r depth id s} hs hroot := by
    rw [resolveFrom_succ hs, hroot]
    cases s.kind.staticallyClosed <;> cases s.slot? n <;> cases s.directEval <;> simp
  link {r depth id s x} hs hx := by
    rw [resolveFrom_succ hs, hx]
    cases s.kind.staticallyClosed <;> cases s.slot? n <;> cases s.directEval <;> simp

theorem walk_declarationTarget (p : Pool V) :
    p.Walk (fun s => s.kind.extensible = false)
      fun r _ id => GaveUp (p.declarationTargetFrom r id) where
  zero _ _ := gaveUp_tooDeep
  stale hs := by simp [declarationTargetFrom, get, hs, bind, Except.bind, GaveUp]
  root {r depth id s} hs hroot := by
    rw [declarationTargetFrom_succ hs, hroot]
    cases s.kind.extensible <;> simp [GaveUp]
  link {r depth id s x} hs hx := by
    rw [declarationTargetFrom_succ hs, hx]
    cases s.kind.extensible <;> simp

section Histories

variable [Inhabited V]

theorem limits_of_runs {e : Edit V} {a : Except ScopeError Edit.Outcome} (hr : e.Runs p (a, q)) :
    q.limits = p.limits := by
  cases hr with
  | unmade | refused | changed | absent => rfl
  | made => exact limits_insert
  | removed => exact limits_erase

theorem limits_edited (h : p.Each Scope.Guarded) (es : List (Edit V)) :
    (p.edited es).limits = p.limits := by
  induction es generalizing p with
  | nil => rfl
  | cons e es ih =>
    have hr := Edit.runs h e
    exact (ih (hr.guarded h)).trans (limits_of_runs hr)

/-- No chain of scopes comes back to a scope, after any edits that overflow the count of no place:
the ancestors of a scope are listed without repetition. The three walks give up only on a chain with
more members than they may visit, and just if each scope that they visit sends them on; so none
gives up if there are no more scopes than the limit. -/
theorem chains_are_acyclic (limits : Limits) (es : List (Edit V))
    (hbound : ∀ i, ((Pool.empty limits).gone es).countP (·.index = i) < 2 ^ 32) (id : ScopeId) :
    let p := (Pool.empty limits).edited es
    ∃ xs, p.Chain id xs ∧ xs.Nodup ∧ (∀ d x, p.ancestor id d = .ok x ↔ xs[d]? = some x) ∧
      (∀ n, GaveUp (p.lookup id n) ↔ p.Outruns (·.slot? n = none) (limits.maxDepth + 1) xs) ∧
      (∀ n, GaveUp (p.resolve id n) ↔ p.Outruns (fun s => s.kind.staticallyClosed = true ∧
        s.slot? n = none ∧ s.directEval = false) (limits.maxDepth + 1) xs) ∧
      (GaveUp (p.declarationTarget id) ↔
        p.Outruns (·.kind.extensible = false) (limits.maxDepth + 1) xs) ∧
      (p.size ≤ limits.maxDepth → xs.length ≤ limits.maxDepth + 1 ∧
        (∀ n, ¬ GaveUp (p.lookup id n) ∧ ¬ GaveUp (p.resolve id n)) ∧
        ¬ GaveUp (p.declarationTarget id)) := by
  intro p
  have hstart : (Pool.empty limits : Pool V).Each Scope.Guarded := each_empty limits
  have hmade : p.Ordered ([] ++ (Pool.empty limits).given es) :=
    (Ordered.empty limits).edited hstart (Numbered.empty limits) hbound
  have hreach : p.reach = limits.maxDepth + 1 := by
    rw [reach, limits_edited hstart es]
    rfl
  obtain ⟨xs, hxs⟩ := hmade.exists_chain id
  have hlookup (n : Name) : GaveUp (p.lookup id n) ↔ _ :=
    (p.walk_lookup n).givesUp_iff hxs p.reach 0
  have hresolve (n : Name) : GaveUp (p.resolve id n) ↔ _ :=
    (p.walk_resolve n).givesUp_iff hxs p.reach 0
  have htarget : GaveUp (p.declarationTarget id) ↔ _ :=
    p.walk_declarationTarget.givesUp_iff hxs p.reach 0
  rw [hreach] at hlookup hresolve htarget
  refine ⟨xs, hxs, hxs.nodup hmade, fun d x => hxs.ancestor_iff d, hlookup, hresolve, htarget, ?_⟩
  intro hsize
  have hle := hxs.length_le hmade
  have hlength : xs.length ≤ limits.maxDepth + 1 := by omega
  have hshort {goesOn : Scope V → Prop} : ¬ p.Outruns goesOn (limits.maxDepth + 1) xs := by
    intro h
    have hlong := h.1
    omega
  refine ⟨hlength, ?_, fun h => hshort (htarget.mp h)⟩
  intro n
  exact ⟨fun h => hshort ((hlookup n).mp h), fun h => hshort ((hresolve n).mp h)⟩

/-- A catch scope in a place that was used before, over a scope made in a later place, whose own
parent is gone: three members, one more than a walk may visit. -/
theorem chains_are_acyclic_in_used_place :
    let limits : Limits := ⟨10, 1⟩
    let es : List (Edit Nat) := [.make .global, .make (.eval (some ⟨0, 0⟩)), .remove ⟨0, 0⟩,
      .make (.catch (some ⟨1, 0⟩) ⟨7⟩)]
    (∀ i, ((Pool.empty limits).gone es).countP (·.index = i) < 2 ^ 32) ∧
    ∃ xs, ((Pool.empty limits).edited es).Chain ⟨0, 1⟩ xs ∧ xs.Nodup ∧ 2 < xs.length ∧
      GaveUp (((Pool.empty limits).edited es).lookup ⟨0, 1⟩ ⟨8⟩) := by
  intro limits es
  have hgone : (Pool.empty limits).gone es = [⟨0, 0⟩] := by decide +kernel
  have hbound (i : Nat) : ((Pool.empty limits).gone es).countP (·.index = i) < 2 ^ 32 := by
    rw [hgone]
    have hle : [(⟨0, 0⟩ : ScopeId)].countP (·.index = i) ≤ 1 := List.countP_le_length
    omega
  obtain ⟨xs, hxs, hnodup, -, hlookup, -⟩ := chains_are_acyclic limits es hbound ⟨0, 1⟩
  have hdeep : ((Pool.empty limits).edited es).lookup ⟨0, 1⟩ ⟨8⟩ = .error (.depthExceeded 1) := by
    decide +kernel
  exact ⟨hbound, xs, hxs, hnodup, ((hlookup ⟨8⟩).mp ⟨1, hdeep⟩).1, 1, hdeep⟩

end Histories

end Pool

end ScopeChain
