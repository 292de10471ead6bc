import Std.Data.HashSet
import ScopeChain.Scope.Values
import ScopeChain.Value

/-! The scopes of running code, and the removal of those that nothing can reach any more. -/
namespace ScopeChain

structure Heap where
  pool : Pool Value
  /-- How many scopes may be live before a collection is due. -/
  threshold : Nat
  /-- How many collections there were. -/
  collections : Nat

namespace Heap

def empty (limits : Limits) (threshold : Nat) : Heap := ⟨.empty limits, threshold, 0⟩

def live (h : Heap) : Nat := h.pool.size

def collectionDue (h : Heap) : Bool := h.threshold < h.live

/-- The scopes that a scope refers to: its parent and those of the functions among its values. -/
def links (s : Scope Value) : List ScopeId :=
  s.parent.toList ++ Value.allScopes (s.values.getD #[]).toList

/-- The live scopes that are not marked. -/
def unmarked (p : Pool Value) (marked : Std.HashSet ScopeId) : List ScopeId :=
  p.ids.filter fun id => !marked.contains id

theorem mem_ids_of_find? {p : Pool Value} {id : ScopeId} {s : Scope Value}
    (h : p.find? id = some s) : id ∈ p.ids := by
  unfold Pool.find? at h
  split at h
  · next e he =>
    split at h
    · next hg =>
      simp only [Pool.ids, Pool.toList, List.mem_map, List.mem_filterMap]
      obtain ⟨hi, rfl⟩ := Array.getElem?_eq_some_iff.mp he
      refine ⟨(id, s), ⟨(p.entries[id.index], id.index), ?_, by simp [h, hg]⟩, rfl⟩
      rw [List.mem_zipIdx_iff_getElem?]
      simp [hi]
    · simp at h
  · simp at h

theorem length_unmarked_insert {p : Pool Value} {marked : Std.HashSet ScopeId} {id : ScopeId}
    {s : Scope Value} (hs : p.find? id = some s) (hm : marked.contains id = false) :
    (unmarked p (marked.insert id)).length < (unmarked p marked).length := by
  have hid : id ∈ unmarked p marked := by
    simp only [unmarked, List.mem_filter, hm, Bool.not_false, and_true]
    exact mem_ids_of_find? hs
  have hsub : unmarked p (marked.insert id) =
      (unmarked p marked).filter fun x => !(x == id) := by
    simp only [unmarked, List.filter_filter, Std.HashSet.contains_insert]
    congr 1
    funext x
    rw [Bool.not_or, show (id == x) = (x == id) from BEq.comm]
  rw [hsub]
  exact List.length_filter_lt_length_iff_exists.mpr ⟨id, hid, by simp⟩

/-- Marks the live scopes among some handles, and all that can be reached from them. -/
def mark (p : Pool Value) (marked : Std.HashSet ScopeId) : List ScopeId → Std.HashSet ScopeId
  | [] => marked
  | id :: pending =>
    match _found : p.find? id with
    | none => mark p marked pending
    | some s =>
      if _old : marked.contains id then mark p marked pending
      else mark p (marked.insert id) (links s ++ pending)
termination_by pending => ((unmarked p marked).length, pending.length)
decreasing_by
  · exact Prod.Lex.right _ (by simp)
  · exact Prod.Lex.right _ (by simp)
  · exact Prod.Lex.left _ _ (length_unmarked_insert _found (by simpa using _old))

/-- Removes some scopes one after the other. -/
def eraseAll (p : Pool Value) (ids : List ScopeId) : Pool Value := ids.foldl Pool.erase p

/-- Removes every scope that cannot be reached from the roots, and answers how many there were. -/
def collect (h : Heap) (roots : List ScopeId) : Nat × Heap :=
  let garbage := unmarked h.pool (mark h.pool {} roots)
  (garbage.length,
    { h with pool := eraseAll h.pool garbage, collections := h.collections + 1 })

end Heap

end ScopeChain
