import ScopeChain.Proofs.Handles

/-! Chains of scopes. A scope is made after its parent, so that a chain comes to each scope once,
and the three walks along a chain agree on what they find and how far up. -/
namespace ScopeChain

variable {V : Type} {p q : Pool V} {id t x : ScopeId} {s : Scope V} {n : Name} {d k : Nat}

namespace Pool

/-- A scope is so many links above another. -/
def Above (p : Pool V) : (depth : Nat) → ScopeId → ScopeId → Prop
  | 0, id, t => id = t
  | d + 1, id, t => ∃ s parent, p.find? id = some s ∧ s.parent = some parent ∧ p.Above d parent t

theorem ancestorFrom_eq_ok_iff {e : ScopeError} :
    p.ancestorFrom e d id = .ok t ↔ p.Above d id t := by
  induction d generalizing id with
  | zero => exact ⟨Except.ok.inj, congrArg _⟩
  | succ d ih =>
    rw [ancestorFrom, Above]
    cases hs : p.find? id with
    | none => simp [get, hs, bind, Except.bind]
    | some s =>
      simp only [get_of_find? hs, bind, Except.bind]
      cases hparent : s.parent with
      | none => simp [hparent]
      | some parent => simp [hparent, ih]

theorem ancestor_eq_ok_iff : p.ancestor id d = .ok t ↔ p.Above d id t := ancestorFrom_eq_ok_iff

theorem above_succ (hs : p.find? id = some s) (hx : s.parent = some x) :
    p.Above (d + 1) id t ↔ p.Above d x t := by
  constructor
  · rintro ⟨u, y, hu, hy, h⟩
    cases hs.symm.trans hu
    cases hx.symm.trans hy
    exact h
  · exact fun h => ⟨s, x, hs, hx, h⟩

/-- Every scope was made, and made after its parent. -/
def Ordered (p : Pool V) (made : List ScopeId) : Prop :=
  ∀ id s, p.find? id = some s → id ∈ made ∧
    ∀ x ∈ s.parent, x ∈ made ∧ made.idxOf x < made.idxOf id

namespace Ordered

variable {made : List ScopeId}

theorem empty (l : Limits) : (Pool.empty l : Pool V).Ordered [] := by
  intro id s hs
  simp [find?, Pool.empty] at hs

theorem update (h : p.Ordered made) {f : Scope V → Scope V} (hf : ∀ s, (f s).parent = s.parent) :
    (p.update id f).Ordered made := by
  intro x u hu
  rw [find?_update] at hu
  split at hu
  · obtain ⟨s, hs, rfl⟩ := Option.map_eq_some_iff.mp hu
    rw [hf]
    exact h x s (by assumption)
  · exact h x u hu

theorem erase (h : p.Ordered made) (id : ScopeId) : (p.erase id).Ordered made := by
  intro x s hs
  rw [find?_erase] at hs
  split at hs
  · cases hs
  · exact h x s hs

theorem insert (h : p.Ordered made) (hnew : p.next ∉ made)
    (hparent : ∀ x ∈ s.parent, ∃ u, p.find? x = some u) :
    (p.insert s).2.Ordered (made ++ [p.next]) := by
  intro id u hu
  rw [find?_insert, fst_insert] at hu
  have hold {x : ScopeId} (hx : x ∈ made) : (made ++ [p.next]).idxOf x = made.idxOf x :=
    List.idxOf_append_of_mem hx
  split at hu
  · next hid =>
    cases hu
    subst hid
    refine ⟨by simp, fun x hx => ?_⟩
    obtain ⟨u, hu⟩ := hparent x hx
    have hmade := (h x u hu).1
    refine ⟨List.mem_append_left _ hmade, ?_⟩
    rw [hold hmade, List.idxOf_append_of_notMem hnew]
    exact Nat.lt_of_lt_of_le (List.idxOf_lt_length_of_mem hmade) (Nat.le_add_right _ _)
  · obtain ⟨hid, hup⟩ := h id u hu
    refine ⟨List.mem_append_left _ hid, fun x hx => ?_⟩
    obtain ⟨hx, hlt⟩ := hup x hx
    refine ⟨List.mem_append_left _ hx, ?_⟩
    rwa [hold hx, hold hid]

/-- The way up leads to scopes that were made earlier. -/
theorem above (h : p.Ordered made) (ht : p.Above (d + 1) id t) : made.idxOf t < made.idxOf id := by
  induction d generalizing id with
  | zero =>
    obtain ⟨s, parent, hs, hparent, rfl⟩ := ht
    exact ((h id s hs).2 parent hparent).2
  | succ d ih =>
    obtain ⟨s, parent, hs, hparent, ht⟩ := ht
    exact Nat.lt_trans (ih ht) ((h id s hs).2 parent hparent).2

/-- No scope is above itself. -/
theorem eq_zero (h : p.Ordered made) (ht : p.Above d id id) : d = 0 := by
  cases d with
  | zero => rfl
  | succ d => exact absurd (h.above ht) (Nat.lt_irrefl _)

end Ordered

end Pool

section Histories

variable [Inhabited V]

theorem Change.parent_apply (c : Change V) (slack : Nat) (s : Scope V) :
    (c.apply slack s).parent = s.parent := by
  cases c with
  | delete n =>
    rw [Change.apply]
    split
    · rfl
    · cases hn : s.slot? n with
      | none => rw [Scope.erase_of_none hn]
      | some k => rw [Scope.erase_of_some hn]
  | _ => rfl

theorem Maker.parent_scope (m : Maker) : (m.scope : Scope V).parent = m.parent := by
  cases m <;> rfl

/-- No scope is made below one that is not there. -/
theorem Edit.find?_of_made {m : Maker} (h : ((Edit.make m).run.run p).1 = .ok (.made x)) :
    ∀ y ∈ m.parent, ∃ s, p.find? y = some s := by
  intro y hy
  cases hs : p.find? y with
  | some s => exact ⟨s, rfl⟩
  | none =>
    rw [Edit.run, run_bind, m.run_eq, run_bind, Option.mem_def.mp hy,
      PoolM.run_checkParent_stale _ hs] at h
    cases h

namespace Pool

theorem Ordered.step {made removed : List ScopeId} (h : p.Ordered made)
    (hnumbered : p.Numbered made removed) {e : Edit V} (hr : e.Runs p (e.run.run p)) :
    (e.run.run p).2.Ordered (made ++ Edit.Outcome.given (e.run.run p).1) := by
  have hmade {m : Maker} {x : ScopeId} (he : e = .make m)
      (h : (e.run.run p).1 = .ok (.made x)) := Edit.find?_of_made (m := m) (x := x) (he ▸ h)
  generalize e.run.run p = a at hr hmade ⊢
  cases hr with
  | unmade | refused | absent =>
    simp only [Edit.Outcome.given, List.append_nil]
    exact h
  | made m =>
    refine h.insert hnumbered.next_not_mem ?_
    rw [m.parent_scope]
    exact hmade rfl rfl
  | @changed id t c s ht hs =>
    have hnone : Edit.Outcome.given ((c.verdict t s).map fun _ => Edit.Outcome.changed) = [] := by
      cases c.verdict t s <;> rfl
    rw [hnone, List.append_nil]
    exact h.update (c.parent_apply _)
  | removed hs =>
    simp only [Edit.Outcome.given, List.append_nil]
    exact h.erase _

theorem Ordered.edited {made removed : List ScopeId} (h : p.Ordered made)
    (hp : p.Each Scope.Guarded) (hnumbered : p.Numbered made removed) {es : List (Edit V)}
    (hbound : ∀ i, (removed ++ p.gone es).countP (·.index = i) < 2 ^ 32) :
    (p.edited es).Ordered (made ++ p.given es) := by
  induction es generalizing p made removed with
  | nil =>
    rw [show p.given [] = [] from rfl, List.append_nil]
    exact h
  | cons e es ih =>
    have hr := Edit.runs hp e
    rw [gone_cons, ← List.append_assoc] at hbound
    rw [given_cons, ← List.append_assoc]
    refine ih (h.step hnumbered hr) (hr.guarded hp) (hnumbered.step hr ?_) hbound
    intro i
    refine Nat.lt_of_le_of_lt ?_ (hbound i)
    exact (List.sublist_append_left _ _).countP_le

end Pool

end Histories

namespace Pool

/-- Up to so many links above a scope no names come and go while the program runs. -/
def SettledTo (p : Pool V) (id : ScopeId) (depth : Nat) : Prop :=
  ∀ d ≤ depth, ∀ u s, p.ancestor id d = .ok u → p.find? u = some s →
    s.kind.staticallyClosed = true ∧ (d < depth → s.directEval = false)

theorem settledTo_zero (hs : p.find? id = some s) :
    p.SettledTo id 0 ↔ s.kind.staticallyClosed = true := by
  constructor
  · exact fun h => (h 0 (Nat.le_refl 0) id s rfl hs).1
  · intro hclosed d hd u v hu hv
    obtain rfl := Nat.le_zero.mp hd
    cases hu
    cases hs.symm.trans hv
    exact ⟨hclosed, nofun⟩

theorem settledTo_succ (hs : p.find? id = some s) (hx : s.parent = some x) :
    p.SettledTo id (d + 1) ↔
      s.kind.staticallyClosed = true ∧ s.directEval = false ∧ p.SettledTo x d := by
  constructor
  · intro h
    obtain ⟨hclosed, hopen⟩ := h 0 (Nat.zero_le _) id s rfl hs
    refine ⟨hclosed, hopen (Nat.succ_pos d), fun i hi u v hu hv => ?_⟩
    have hu' : p.ancestor id (i + 1) = .ok u :=
      ancestor_eq_ok_iff.mpr ((above_succ hs hx).mpr (ancestor_eq_ok_iff.mp hu))
    obtain ⟨hclosed, hopen⟩ := h (i + 1) (Nat.succ_le_succ hi) u v hu' hv
    exact ⟨hclosed, fun hlt => hopen (Nat.succ_lt_succ hlt)⟩
  · rintro ⟨hclosed, hopen, h⟩ i hi u v hu hv
    cases i with
    | zero =>
      cases hu
      cases hs.symm.trans hv
      exact ⟨hclosed, fun _ => hopen⟩
    | succ i =>
      have hu' : p.ancestor x i = .ok u :=
        ancestor_eq_ok_iff.mpr ((above_succ hs hx).mp (ancestor_eq_ok_iff.mp hu))
      obtain ⟨hclosed, hopen⟩ := h i (Nat.le_of_succ_le_succ hi) u v hu' hv
      exact ⟨hclosed, fun hlt => hopen (Nat.lt_of_succ_lt_succ hlt)⟩

theorem resolveFrom_succ (hs : p.find? id = some s) (n : Name) (reach depth : Nat) :
    p.resolveFrom n (reach + 1) depth id =
      if s.kind.staticallyClosed then
        match s.slot? n with
        | some k => .ok (.static depth k)
        | none =>
          if s.directEval then .ok (.dynamic n)
          else match s.parent with
            | some parent => p.resolveFrom n reach (depth + 1) parent
            | none => .ok (.dynamic n)
      else .ok (.dynamic n) := by
  simp only [resolveFrom, get_of_find? hs, bind, Except.bind]
  rfl

/-- What a walk for an address comes to. -/
theorem resolveFrom_cases (p : Pool V) (n : Name) (reach depth : Nat) (id : ScopeId) :
    (∃ d k t, p.resolveFrom n reach depth id = .ok (.static (depth + d) k) ∧
      p.lookupFrom n reach (some id) = .ok (some (t, k)) ∧ p.Above d id t ∧ p.SettledTo id d) ∨
    (∃ e, p.resolveFrom n reach depth id = .error e ∧ p.lookupFrom n reach (some id) = .error e) ∨
    p.resolveFrom n reach depth id = .ok (.dynamic n) := by
  induction reach generalizing depth id with
  | zero => exact .inr (.inl ⟨_, rfl, rfl⟩)
  | succ reach ih =>
    cases hs : p.find? id with
    | none =>
      refine .inr (.inl ⟨.staleHandle id, ?_, ?_⟩)
      · simp only [resolveFrom, get, hs, bind, Except.bind]
      · simp only [lookupFrom, get, hs, bind, Except.bind]
    | some s =>
      rw [resolveFrom_succ hs, lookupFrom_succ hs]
      cases hclosed : s.kind.staticallyClosed with
      | false => exact .inr (.inr rfl)
      | true =>
        cases hn : s.slot? n with
        | some k => exact .inl ⟨0, k, id, rfl, rfl, rfl, (settledTo_zero hs).mpr hclosed⟩
        | none =>
          cases hopen : s.directEval with
          | true => exact .inr (.inr rfl)
          | false =>
            cases hx : s.parent with
            | none => exact .inr (.inr rfl)
            | some x =>
              obtain ⟨d, k, t, hresolve, hlookup, habove, hsettled⟩ | h := ih (depth + 1) x
              · refine .inl ⟨d + 1, k, t, ?_, hlookup, (above_succ hs hx).mpr habove,
                  (settledTo_succ hs hx).mpr ⟨hclosed, hopen, hsettled⟩⟩
                rw [← Nat.add_assoc, Nat.add_right_comm]
                exact hresolve
              · exact .inr h

/-- What is found where nothing comes and goes has an address. -/
theorem Ordered.resolveFrom {made : List ScopeId} (h : p.Ordered made) {reach : Nat}
    (hlookup : p.lookupFrom n reach (some id) = .ok (some (t, k))) (habove : p.Above d id t)
    (hsettled : p.SettledTo id d) (depth : Nat) :
    p.resolveFrom n reach depth id = .ok (.static (depth + d) k) := by
  induction reach generalizing id d depth with
  | zero => cases hlookup
  | succ reach ih =>
    cases hs : p.find? id with
    | none => simp [lookupFrom, get, hs, bind, Except.bind] at hlookup
    | some s =>
      rw [lookupFrom_succ hs] at hlookup
      rw [resolveFrom_succ hs]
      cases hn : s.slot? n with
      | some j =>
        rw [hn] at hlookup
        cases hlookup
        obtain rfl := h.eq_zero habove
        rw [if_pos ((settledTo_zero hs).mp hsettled)]
        rfl
      | none =>
        rw [hn] at hlookup
        cases d with
        | zero =>
          -- the name would be found right here
          obtain rfl : id = t := habove
          obtain ⟨u, hu, hslot⟩ := slot?_of_lookupFrom hlookup
          cases hs.symm.trans hu
          cases hn.symm.trans hslot
        | succ d =>
          obtain ⟨u, x, hu, hx, habove⟩ := habove
          cases hs.symm.trans hu
          obtain ⟨hclosed, hopen, hsettled⟩ := (settledTo_succ hs hx).mp hsettled
          rw [hx] at hlookup
          simp only [hclosed, hopen, hx, if_true, Bool.false_eq_true, if_false]
          rw [ih hlookup habove hsettled (depth + 1), Nat.add_right_comm, Nat.add_assoc]

variable [Inhabited V]

/-- The walks for an address, for a name and for an ancestor agree, after any edits that overflow
the count of no place. An address with a depth and a slot is what is found by name, at that depth,
in a part of the chain where no names come and go; where there is no telling the address because of
an error, the walk for the name comes to the same error; and else the address is the name. -/
theorem walks_agree (limits : Limits) (es : List (Edit V))
    (hbound : ∀ i, ((Pool.empty limits).gone es).countP (·.index = i) < 2 ^ 32) (id : ScopeId)
    (n : Name) :
    let p := (Pool.empty limits).edited es
    let Static (depth slot : Nat) : Prop :=
      ∃ t, p.lookup id n = .ok (some (t, slot)) ∧ p.ancestor id depth = .ok t ∧
        p.SettledTo id depth
    (∀ depth slot, p.resolve id n = .ok (.static depth slot) ↔ Static depth slot) ∧
    (∀ e, p.resolve id n = .error e → p.lookup id n = .error e) ∧
    ((∀ depth slot, ¬ Static depth slot) → (∀ e, p.resolve id n ≠ .error e) →
      p.resolve id n = .ok (.dynamic n)) := by
  intro p Static
  have hstart : (Pool.empty limits : Pool V).Each Scope.Guarded := each_empty limits
  have hordered : p.Ordered ([] ++ (Pool.empty limits).given es) :=
    (Ordered.empty limits).edited hstart (Numbered.empty limits) hbound
  have hstatic {depth slot : Nat} (h : Static depth slot) :
      p.resolve id n = .ok (.static depth slot) := by
    obtain ⟨t, hlookup, habove, hsettled⟩ := h
    have hresolve := hordered.resolveFrom hlookup (ancestor_eq_ok_iff.mp habove) hsettled 0
    rwa [Nat.zero_add] at hresolve
  obtain ⟨d, k, t, hresolve, hlookup, habove, hsettled⟩ | ⟨e, hresolve, hlookup⟩ | hresolve :=
    p.resolveFrom_cases n p.reach 0 id
  · have hfound : Static d k := ⟨t, hlookup, ancestor_eq_ok_iff.mpr habove, hsettled⟩
    rw [Nat.zero_add] at hresolve
    refine ⟨fun depth slot => ⟨fun h => ?_, hstatic⟩, fun e h => ?_, fun h => absurd hfound (h d k)⟩
    · cases hresolve.symm.trans h
      exact hfound
    · cases hresolve.symm.trans h
  · refine ⟨fun depth slot => ⟨fun h => ?_, hstatic⟩, fun e' h => ?_, fun _ h => absurd hresolve (h e)⟩
    · cases hresolve.symm.trans h
    · cases hresolve.symm.trans h
      exact hlookup
  · refine ⟨fun depth slot => ⟨fun h => ?_, hstatic⟩, fun e' h => ?_, fun _ _ => hresolve⟩
    · cases hresolve.symm.trans h
    · cases hresolve.symm.trans h

/-- A name of a function, used in a catch clause within. -/
theorem walks_agree_within_function :
    let es : List (Edit Nat) :=
      [.make .global, .make (.function (some ⟨0, 0⟩) none [⟨7⟩]), .make (.catch (some ⟨1, 0⟩) ⟨8⟩)]
    (∀ i, ((Pool.empty .standard).gone es).countP (·.index = i) < 2 ^ 32) ∧
    ((Pool.empty .standard).edited es).resolve ⟨2, 0⟩ ⟨7⟩ = .ok (.static 1 2) ∧
    ((Pool.empty .standard).edited es).lookup ⟨2, 0⟩ ⟨7⟩ = .ok (some (⟨1, 0⟩, 2)) := by
  intro es
  have hgone : (Pool.empty .standard).gone es = [] := by decide +kernel
  have hbound (i : Nat) : ((Pool.empty .standard).gone es).countP (·.index = i) < 2 ^ 32 := by
    rw [hgone]
    exact Nat.two_pow_pos 32
  have hresolve : ((Pool.empty .standard).edited es).resolve ⟨2, 0⟩ ⟨7⟩ = .ok (.static 1 2) := by
    decide +kernel
  obtain ⟨t, hlookup, habove, -⟩ :=
    ((walks_agree .standard es hbound ⟨2, 0⟩ ⟨7⟩).1 1 2).mp hresolve
  refine ⟨hbound, hresolve, ?_⟩
  rw [hlookup]
  have ht : ((Pool.empty .standard).edited es).ancestor ⟨2, 0⟩ 1 = .ok ⟨1, 0⟩ := by decide +kernel
  cases habove.symm.trans ht
  rfl

end Pool

end ScopeChain
