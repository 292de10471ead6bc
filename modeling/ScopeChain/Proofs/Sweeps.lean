import ScopeChain.Proofs.Collection
import ScopeChain.Proofs.Parallel

/-! Collections beside parallel runs: machines that agree go on to agree if garbage is removed from
either of them, since code that runs or may run yet meets only scopes that are kept. -/
namespace ScopeChain

open Heap (Link Reachable)

variable {one : Prop} {W : World} {limit : Nat} {c : Situation} {m m' n n' : Machine}
  {p p' q q' : Pool Value} {L R : ScopeId → Prop}

namespace Pool

/-- A pool from which all scopes are gone but those of a set, which is closed under links. -/
structure Kept (L : ScopeId → Prop) (p p' : Pool Value) : Prop where
  find?_iff : ∀ id s, p'.find? id = some s ↔ p.find? id = some s ∧ L id
  closed : ∀ a b, L a → Link p a b → L b
  limits : p'.limits = p.limits

theorem kept_all (p : Pool Value) : Kept (fun _ => True) p p where
  find?_iff _ _ := by simp
  closed _ _ _ _ := trivial
  limits := rfl

theorem limits_eraseAll (p : Pool Value) (ids : List ScopeId) :
    (Heap.eraseAll p ids).limits = p.limits := by
  induction ids generalizing p with
  | nil => rfl
  | cons id ids ih => exact (ih (p.erase id)).trans (limits_erase)

theorem kept_collect (h : Heap) (roots : List ScopeId) :
    Kept (Reachable h.pool (· ∈ roots)) h.pool (h.collect roots).2.pool where
  find?_iff _ _ := Heap.find?_collect
  closed _ _ ha hl := .link ha hl
  limits := limits_eraseAll _ _

end Pool

/-- Functions in values that are alike stand in scopes that are kept, if these are closed. -/
theorem World.Likens.restrict {v w : Value}
    {hk : ∀ x s y, W.shape x = some s → L x.1 ∧ R x.2 → s.parent = some y → L y.1 ∧ R y.2}
    (h : W.Likens limit v w) (hl : ∀ i, v.Holds i → L i) (hr : ∀ j, w.Holds j → R j) :
    (W.restrict (fun x => L x.1 ∧ R x.2) hk).Likens limit v w := by
  induction h with
  | undefined => exact .undefined
  | null => exact .null
  | bool b => exact .bool b
  | number x => exact .number x
  | string s => exact .string s
  | error object kind message => exact .error object kind message
  | function object hc =>
    obtain ⟨Γ, hs, hf⟩ := hc
    exact .function object ⟨Γ, hs.restrict ⟨hl _ .function, hr _ .function⟩, hf⟩
  | arguments object hlen _ ih =>
    refine .arguments object hlen ?_
    intro p hp
    obtain ⟨hv, hw⟩ := List.of_mem_zip hp
    exact ih p hp (fun i hi => hl i (.arguments hv hi)) fun j hj => hr j (.arguments hw hj)

theorem link_of_slot {s : Scope Value} {vs : Array Value} {k : Nat} {a b : ScopeId}
    (hs : p.find? a = some s) (hv : s.values = some vs)
    (hb : (vs[k]?.getD .undefined).Holds b) : Link p a b := by
  cases hk : vs[k]? with
  | none =>
    rw [hk] at hb
    cases hb
  | some v =>
    rw [hk] at hb
    exact ⟨s, hs, .inr ⟨vs, hv, v, Array.mem_of_getElem? hk, hb⟩⟩

/-- Scopes may go from two pools that agree, if those that stay are closed in each. -/
theorem Pool.Twin.restrict (h : Pool.Twin one W limit p q) (hp : Kept L p p') (hq : Kept R q q')
    (hone : one → p' = q') :
    ∃ hk, Pool.Twin one (W.restrict (fun x => L x.1 ∧ R x.2) hk) limit p' q' := by
  have hk : ∀ x s y, W.shape x = some s → L x.1 ∧ R x.2 → s.parent = some y → L y.1 ∧ R y.2 := by
    intro x shape y hx hK hy
    obtain ⟨s, t, hs, ht, htwin⟩ := h.live x shape hx
    refine ⟨hp.closed _ _ hK.1 ⟨s, hs, .inl ?_⟩, hq.closed _ _ hK.2 ⟨t, ht, .inl ?_⟩⟩
    · rw [htwin.parent_left, hy]
      rfl
    · rw [htwin.parent_right, hy]
      rfl
  refine ⟨hk, ?_, ?_, fun x shape hx => ?_,
    fun ho => ⟨hone ho, fun x shape hx => ?_⟩⟩
  · rw [hp.limits, h.depth_left]
  · rw [hq.limits, h.depth_right]
  · obtain ⟨hx, hl, hr⟩ := World.shape_restrict.mp hx
    obtain ⟨s, t, hs, ht, htwin⟩ := h.live x shape hx
    obtain ⟨vs, ws, hf⟩ := htwin.filled
    refine ⟨s, t, (hp.find?_iff _ _).mpr ⟨hs, hl⟩, (hq.find?_iff _ _).mpr ⟨ht, hr⟩,
      { htwin with filled := ⟨vs, ws, { hf with likens := fun k => ?_ }⟩ }⟩
    refine (hf.likens k).restrict (fun i hi => ?_) fun j hj => ?_
    · exact hp.closed _ _ hl (link_of_slot hs hf.left hi)
    · exact hq.closed _ _ hr (link_of_slot ht hf.right hj)
  · exact (h.single ho).2 x shape (World.shape_restrict.mp hx).1

namespace Machine

/-- The machine has collected garbage, or has not. -/
inductive Swept (m : Machine) : Machine → Prop where
  | idle : Swept m m
  | collected : Swept m m.collectGarbage.2

/-- What running code and the last value can reach is kept. -/
theorem Swept.kept (h : Swept m m') : ∃ heap L, m' = { m with heap } ∧
    Pool.Kept L m.heap.pool heap.pool ∧ L m.global ∧ L m.active ∧ (∀ i ∈ m.saved, L i) ∧
    ∀ i, m.completion.Holds i → L i := by
  cases h with
  | idle =>
    exact ⟨m.heap, fun _ => True, rfl, Pool.kept_all _, trivial, trivial, fun _ _ => trivial,
      fun _ _ => trivial⟩
  | collected =>
    refine ⟨_, _, rfl, Pool.kept_collect m.heap _, .root ?_, .root ?_, fun i hi => .root ?_,
      fun i hi => .root ?_⟩
    · simp
    · simp
    · simp [hi]
    · simp [(Value.mem_scopes_iff _).mpr hi]

/-- Garbage may be removed from either of two machines that agree. -/
theorem Twin.sweep (h : Twin one W limit c m n) (hm : Swept m m') (hn : Swept n n')
    (hone : one → m' = n') :
    ∃ W', Twin one W' limit c m' n' ∧ (W.Opens c.active → W'.Opens c.active) := by
  obtain ⟨heap, L, rfl, hp, hlg, hla, hls, hlv⟩ := hm.kept
  obtain ⟨heap', R, rfl, hq, hrg, hra, hrs, hrv⟩ := hn.kept
  rw [h.global_left] at hlg
  rw [h.global_right] at hrg
  rw [h.active_left] at hla
  rw [h.active_right] at hra
  obtain ⟨hk, hpool⟩ := h.pool.restrict hp hq fun ho => congrArg (·.heap.pool) (hone ho)
  obtain ⟨parent, hg⟩ := h.global
  obtain ⟨shape, ha⟩ := h.active
  refine ⟨_, { h with
    pool := hpool
    global := ⟨parent, World.shape_restrict.mpr ⟨hg, hlg, hrg⟩⟩
    active := ⟨shape, World.shape_restrict.mpr ⟨ha, hla, hra⟩⟩
    saved := fun x hx => ?_
    completion := h.completion.restrict hlv hrv
    single := hone }, fun ho => ho.restrict ⟨hla, hra⟩⟩
  obtain ⟨shape', hs⟩ := h.saved x hx
  refine ⟨shape', World.shape_restrict.mpr ⟨hs, hls _ ?_, hrs _ ?_⟩⟩
  · rw [h.saved_left]
    exact List.mem_map_of_mem hx
  · rw [h.saved_right]
    exact List.mem_map_of_mem hx

end Machine

end ScopeChain
