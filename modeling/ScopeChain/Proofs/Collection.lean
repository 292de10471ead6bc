import ScopeChain.Heap
import ScopeChain.Proofs.Pool

/-! The collector keeps the scopes that can be reached from its roots, unchanged, and no others. -/
namespace ScopeChain

namespace Value

/-- A function over a scope is found in a value: the value is one, or has one among its items. -/
inductive Holds : Value → ScopeId → Prop where
  | function {object : Nat} {code : Code.FunctionCode} {scope : ScopeId} :
    Holds (.function object code scope) scope
  | arguments {object : Nat} {items : List Value} {v : Value} {scope : ScopeId} :
    v ∈ items → Holds v scope → Holds (.arguments object items) scope

mutual

theorem mem_scopes_iff {id : ScopeId} : (v : Value) → (id ∈ v.scopes ↔ v.Holds id)
  | .undefined | .null | .bool _ | .number _ | .string _ | .error .. => by
    constructor
    · intro h
      simp [scopes] at h
    · intro h
      cases h
  | .function object code scope => by
    rw [scopes, List.mem_singleton]
    constructor
    · rintro rfl
      exact .function
    · intro h
      cases h
      rfl
  | .arguments object items => by
    rw [scopes, mem_allScopes_iff items]
    constructor
    · rintro ⟨v, hv, h⟩
      exact .arguments hv h
    · intro h
      cases h with
      | arguments hv h => exact ⟨_, hv, h⟩

theorem mem_allScopes_iff {id : ScopeId} :
    (vs : List Value) → (id ∈ allScopes vs ↔ ∃ v ∈ vs, v.Holds id)
  | [] => by simp [allScopes]
  | v :: vs => by simp [allScopes, mem_scopes_iff v, mem_allScopes_iff vs]

end

end Value

namespace Heap

variable {p : Pool Value} {marked : Std.HashSet ScopeId} {pending : List ScopeId} {id a b : ScopeId}

/-- A live scope refers to another as its parent or through a function among its values. -/
def Link (p : Pool Value) (a b : ScopeId) : Prop :=
  ∃ s, p.find? a = some s ∧
    (s.parent = some b ∨ ∃ vs, s.values = some vs ∧ ∃ v ∈ vs, v.Holds b)

/-- A scope is a root or is linked to, step by step, from one. -/
inductive Reachable (p : Pool Value) (root : ScopeId → Prop) : ScopeId → Prop where
  | root {id : ScopeId} : root id → Reachable p root id
  | link {a b : ScopeId} : Reachable p root a → Link p a b → Reachable p root b

theorem mem_links_iff {s : Scope Value} :
    b ∈ links s ↔ s.parent = some b ∨ ∃ vs, s.values = some vs ∧ ∃ v ∈ vs, v.Holds b := by
  rw [links, List.mem_append, Option.mem_toList, Value.mem_allScopes_iff]
  cases hv : s.values <;> simp

theorem link_iff : Link p a b ↔ ∃ s, p.find? a = some s ∧ b ∈ links s := by
  simp only [Link, mem_links_iff]

theorem mark_nil : mark p marked [] = marked := by rw [mark]

theorem mark_of_gone (h : p.find? id = none) :
    mark p marked (id :: pending) = mark p marked pending := by
  rw [mark]
  split
  · rfl
  · next hs => simp [h] at hs

theorem mark_of_old (hm : marked.contains id = true) :
    mark p marked (id :: pending) = mark p marked pending := by
  rw [mark]
  split
  · rfl
  · simp [hm]

theorem mark_of_new {s : Scope Value} (h : p.find? id = some s) (hm : ¬ marked.contains id = true) :
    mark p marked (id :: pending) = mark p (marked.insert id) (links s ++ pending) := by
  rw [mark]
  split
  · next hs => simp [h] at hs
  · next t ht =>
    obtain rfl : s = t := by simpa [h] using ht
    simp [hm]

theorem mark_mono (p : Pool Value) (marked : Std.HashSet ScopeId) (pending : List ScopeId)
    (h : id ∈ marked) : id ∈ mark p marked pending := by
  induction marked, pending using mark.induct p with
  | case1 => rwa [mark_nil]
  | case2 marked x pending hx ih =>
    rw [mark_of_gone hx]
    exact ih h
  | case3 marked x pending s hx hold ih =>
    rw [mark_of_old hold]
    exact ih h
  | case4 marked x pending s hx hnew ih =>
    rw [mark_of_new hx hnew]
    exact ih (by simp [h])

/-- What is marked was marked before or can be reached from a handle that was pending. -/
theorem mark_sound (h : id ∈ mark p marked pending) :
    id ∈ marked ∨ Reachable p (· ∈ pending) id := by
  have weaken {x : ScopeId} {xs ys : List ScopeId} (hs : ∀ y ∈ xs, Reachable p (· ∈ ys) y)
      (hr : Reachable p (· ∈ xs) x) : Reachable p (· ∈ ys) x := by
    induction hr with
    | root hm => exact hs _ hm
    | link _ hl ih => exact .link ih hl
  induction marked, pending using mark.induct p with
  | case1 =>
    rw [mark_nil] at h
    exact .inl h
  | case2 marked x pending hx ih =>
    rw [mark_of_gone hx] at h
    rcases ih h with hm | hr
    · exact .inl hm
    · exact .inr (weaken (fun y hy => .root (List.mem_cons_of_mem x hy)) hr)
  | case3 marked x pending s hx hold ih =>
    rw [mark_of_old hold] at h
    rcases ih h with hm | hr
    · exact .inl hm
    · exact .inr (weaken (fun y hy => .root (List.mem_cons_of_mem x hy)) hr)
  | case4 marked x pending s hx hnew ih =>
    have hroot : Reachable p (· ∈ x :: pending) x := .root List.mem_cons_self
    rw [mark_of_new hx hnew] at h
    rcases ih h with hm | hr
    · rcases Std.HashSet.mem_insert.mp hm with he | hm
      · exact .inr (eq_of_beq he ▸ hroot)
      · exact .inl hm
    · refine .inr (weaken (fun y hy => ?_) hr)
      rcases List.mem_append.mp hy with hy | hy
      · exact .link hroot (link_iff.mpr ⟨s, hx, hy⟩)
      · exact .root (List.mem_cons_of_mem x hy)

/-- Live pending handles get marked. -/
theorem mark_pending {s : Scope Value} (hid : id ∈ pending) (hs : p.find? id = some s) :
    id ∈ mark p marked pending := by
  induction marked, pending using mark.induct p with
  | case1 => simp at hid
  | case2 marked x pending hx ih =>
    have hne : id ≠ x := fun he => by simp [he, hx] at hs
    rw [mark_of_gone hx]
    exact ih (List.mem_of_ne_of_mem hne hid)
  | case3 marked x pending t hx hold ih =>
    rw [mark_of_old hold]
    rcases List.mem_cons.mp hid with rfl | hid
    · exact mark_mono p marked pending hold
    · exact ih hid
  | case4 marked x pending t hx hnew ih =>
    rw [mark_of_new hx hnew]
    rcases List.mem_cons.mp hid with rfl | hid
    · exact mark_mono p _ _ (by simp)
    · exact ih (List.mem_append_right _ hid)

/-- The scopes of a set link to scopes in the set, to pending ones and to ones that are gone. -/
def ClosedUpTo (p : Pool Value) (marked : Std.HashSet ScopeId) (pending : List ScopeId) : Prop :=
  ∀ a ∈ marked, ∀ b, Link p a b → p.contains b → b ∈ marked ∨ b ∈ pending

/-- Nothing pending is lost, so in the end the marked scopes are closed. -/
theorem mark_closed (h : ClosedUpTo p marked pending) :
    ClosedUpTo p (mark p marked pending) [] := by
  induction marked, pending using mark.induct p with
  | case1 => rwa [mark_nil]
  | case2 marked x pending hx ih =>
    rw [mark_of_gone hx]
    refine ih ?_
    intro a ha b hl hb
    rcases h a ha b hl hb with hm | hm
    · exact .inl hm
    · have hne : b ≠ x := fun he => by simp [Pool.contains, he, hx] at hb
      exact .inr (List.mem_of_ne_of_mem hne hm)
  | case3 marked x pending s hx hold ih =>
    rw [mark_of_old hold]
    refine ih ?_
    intro a ha b hl hb
    rcases h a ha b hl hb with hm | hm
    · exact .inl hm
    · rcases List.mem_cons.mp hm with rfl | hm
      · exact .inl hold
      · exact .inr hm
  | case4 marked x pending s hx hnew ih =>
    rw [mark_of_new hx hnew]
    refine ih ?_
    intro a ha b hl hb
    rw [Std.HashSet.mem_insert] at ha ⊢
    rcases ha with he | ha
    · obtain ⟨t, ht, hbt⟩ := link_iff.mp hl
      rw [← eq_of_beq he, hx] at ht
      cases ht
      exact .inr (List.mem_append_left _ hbt)
    · rcases h a ha b hl hb with hm | hm
      · exact .inl (.inr hm)
      · rcases List.mem_cons.mp hm with rfl | hm
        · exact .inl (.inl (by simp))
        · exact .inr (List.mem_append_right _ hm)

/-- A live scope is marked exactly if it can be reached from the handles that marking starts at. -/
theorem mem_mark_iff {roots : List ScopeId} {s : Scope Value} (hs : p.find? id = some s) :
    id ∈ mark p {} roots ↔ Reachable p (· ∈ roots) id := by
  constructor
  · intro h
    rcases mark_sound h with hm | hr
    · simp at hm
    · exact hr
  · intro h
    have hclosed : ClosedUpTo p (mark p {} roots) [] := mark_closed (by simp [ClosedUpTo])
    induction h generalizing s with
    | root hm => exact mark_pending hm hs
    | @link a b _ hl ih =>
      have ⟨t, ht, _⟩ := hl
      have hb : p.contains b := Pool.contains_iff.mpr ⟨s, hs⟩
      simpa using hclosed a (ih ht) b hl hb

theorem find?_eraseAll (ids : List ScopeId) :
    (eraseAll p ids).find? id = if id ∈ ids then none else p.find? id := by
  induction ids generalizing p with
  | nil => simp [eraseAll]
  | cons x ids ih =>
    rw [eraseAll, List.foldl_cons, ← eraseAll, ih, Pool.find?_erase]
    by_cases hx : id = x <;> by_cases hm : id ∈ ids <;> simp [hx, hm]

theorem size_eraseAll {ids : List ScopeId} (hnd : ids.Nodup) (hlive : ∀ x ∈ ids, p.contains x) :
    (eraseAll p ids).size + ids.length = p.size := by
  induction ids generalizing p with
  | nil => rfl
  | cons x ids ih =>
    obtain ⟨hx, hnd⟩ := List.nodup_cons.mp hnd
    have hrest : ∀ y ∈ ids, (p.erase x).contains y := by
      intro y hy
      have hne : y ≠ x := fun he => hx (he ▸ hy)
      simpa [Pool.contains, Pool.find?_erase, hne] using hlive y (List.mem_cons_of_mem x hy)
    have hsize := Pool.size_erase (hlive x List.mem_cons_self)
    rw [eraseAll, List.foldl_cons, ← eraseAll, List.length_cons]
    have := ih hnd hrest
    omega

theorem mem_unmarked_iff :
    id ∈ unmarked p marked ↔ (∃ s, p.find? id = some s) ∧ id ∉ marked := by
  simp [unmarked, Pool.mem_ids_iff]

variable {h : Heap} {roots : List ScopeId} {s : Scope Value}

/-- A collection keeps what can be reached and drops the rest. -/
theorem find?_collect :
    (h.collect roots).2.pool.find? id = some s ↔
      h.pool.find? id = some s ∧ Reachable h.pool (· ∈ roots) id := by
  simp only [collect, find?_eraseAll]
  constructor
  · intro hs
    split at hs
    · simp at hs
    · next hn =>
      refine ⟨hs, (mem_mark_iff hs).mp ?_⟩
      by_contra hm
      exact hn (mem_unmarked_iff.mpr ⟨⟨s, hs⟩, hm⟩)
  · rintro ⟨hs, hr⟩
    have hn : id ∉ unmarked h.pool (mark h.pool {} roots) := fun hm =>
      (mem_unmarked_iff.mp hm).2 ((mem_mark_iff hs).mpr hr)
    rw [if_neg hn, hs]

theorem each_collect {P : Scope Value → Prop} (hp : h.pool.Each P) :
    (h.collect roots).2.pool.Each P :=
  fun id s hs => hp id s (find?_collect.mp hs).1

theorem live_collect : (h.collect roots).2.live + (h.collect roots).1 = h.live := by
  refine size_eraseAll ((Pool.ids_nodup h.pool).filter _) ?_
  intro x hx
  exact Pool.contains_iff.mpr (mem_unmarked_iff.mp hx).1

/-- Where all that is live can be reached, a collection removes nothing. -/
theorem collect_of_reachable
    (hr : ∀ id s, h.pool.find? id = some s → Reachable h.pool (· ∈ roots) id) :
    h.collect roots = (0, { h with collections := h.collections + 1 }) := by
  have hnone : unmarked h.pool (mark h.pool {} roots) = [] := by
    rw [List.eq_nil_iff_forall_not_mem]
    intro id hid
    obtain ⟨⟨s, hs⟩, hm⟩ := mem_unmarked_iff.mp hid
    exact hm ((mem_mark_iff hs).mpr (hr id s hs))
  simp [collect, hnone, eraseAll]

/-- What could be reached before a collection can be reached after it in the same way. -/
theorem reachable_collect (hr : Reachable h.pool (· ∈ roots) id) :
    Reachable (h.collect roots).2.pool (· ∈ roots) id := by
  induction hr with
  | root hm => exact .root hm
  | link hr hl ih =>
    obtain ⟨s, hs, hb⟩ := hl
    exact .link ih ⟨s, find?_collect.mpr ⟨hs, hr⟩, hb⟩

/-- Where a collection starts: at a handle, or at the functions in a value. -/
inductive Root where
  | scope (id : ScopeId)
  | value (v : Value)

namespace Root

def Names : Root → ScopeId → Prop
  | scope id, x => x = id
  | value v, x => v.Holds x

/-- The handles that a root stands for. -/
def scopes : Root → List ScopeId
  | scope id => [id]
  | value v => v.scopes

theorem mem_scopes_iff (r : Root) : id ∈ r.scopes ↔ r.Names id := by
  cases r with
  | scope x => simp [scopes, Names]
  | value v => exact Value.mem_scopes_iff v

end Root

/-- A collection from any roots keeps just the scopes that were live and can be reached from them,
each as it was; it answers how many are gone, the handles of which are stale, and repeated at once
it finds nothing to remove. -/
theorem collect_exact (h : Heap) (roots : List Root) :
    let (freed, h') := h.collect (roots.flatMap Root.scopes)
    let Reached := Reachable h.pool fun id => ∃ r ∈ roots, r.Names id
    (∀ id s, h'.pool.find? id = some s ↔ h.pool.find? id = some s ∧ Reached id) ∧
    (∀ id, h.pool.contains id → ¬ Reached id → h'.pool.get id = .error (.staleHandle id)) ∧
    h'.live + freed = h.live ∧
    h'.collect (roots.flatMap Root.scopes) =
      (0, { h' with collections := h'.collections + 1 }) := by
  have hroots : (fun id => ∃ r ∈ roots, r.Names id) = (· ∈ roots.flatMap Root.scopes) := by
    funext id
    simp [List.mem_flatMap, Root.mem_scopes_iff]
  simp only [hroots]
  refine ⟨fun id s => find?_collect, fun id hid hn => ?_, live_collect, ?_⟩
  · have hnone : (h.collect (roots.flatMap Root.scopes)).2.pool.find? id = none := by
      rw [Option.eq_none_iff_forall_ne_some]
      exact fun s hs => hn (find?_collect.mp hs).2
    simp [Pool.get, hnone]
  · exact collect_of_reachable fun id s hs => reachable_collect (find?_collect.mp hs).2

end Heap

end ScopeChain
