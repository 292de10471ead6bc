import ScopeChain.Proofs.Handles

/-! The names of catch scopes. No declaration comes to a catch scope, so that it has at most the
names that it was made from, and it keeps them all if it was made sealed. The name of a catch scope
that was not can be deleted from when there is room for values to when the scope is sealed. -/
namespace ScopeChain

variable {V : Type} {p : Pool V} {id t x : ScopeId} {s : Scope V} {n : Name} {opened fixed : Prop}

namespace Pool

/-- What is declared does not come to a catch scope. -/
theorem declarationTarget_ne_of_catch (hs : p.find? x = some s) (hk : s.kind = .catch)
    (id : ScopeId) : p.declarationTarget id ≠ .ok x := by
  intro ht
  obtain ⟨u, hu, hopen⟩ := find?_declarationTarget ht
  cases hs.symm.trans hu
  simp [ScopeKind.extensible, hk] at hopen

end Pool

/-- A change comes to the scope that it is made on, or to where declarations go from there. -/
theorem Change.target_eq_ok {c : Change V} (h : c.target p id = .ok t) :
    t = id ∨ p.declarationTarget id = .ok t := by
  cases c with
  | declare => exact .inr h
  | markDirectEval | materialize | freeze =>
    rw [target] at h
    cases hget : p.get id with
    | error e => simp [hget, bind, Except.bind] at h
    | ok s =>
      rw [hget] at h
      exact .inl (Except.ok.inj h).symm
  | setValue | delete | store =>
    rw [target] at h
    cases hvalues : p.valuesOf id with
    | error e => simp [hvalues, bind, Except.bind] at h
    | ok a =>
      simp only [hvalues, bind, Except.bind] at h
      first
        | exact .inl (Except.ok.inj h).symm
        | split at h
          · exact .inl (Except.ok.inj h).symm
          · exact .inr h

variable [Inhabited V]

/-- What a change makes of a catch scope that it is made on. -/
def Change.onCatch (c : Change V) (s : Scope V) : Scope V :=
  match c with
  | markDirectEval => { s with directEval := true }
  | declare _ _ => s
  | materialize => s.materialize
  | freeze => s.freeze
  | setValue n v => match s.slot? n with
    | some k => s.setSlot k v
    | none => s
  | delete n =>
    if s.values.isNone || (s.slot? n).any (· < s.immutableCount) then s else s.erase n
  | store k v => s.setSlot k v

theorem Edit.touch_of_catch (hp : p.Each Scope.Guarded) (hs : p.find? x = some s)
    (hk : s.kind = .catch) (c : Change V) : (Edit.change x c).touch p x s = c.onCatch s := by
  have hdeclared := Pool.declarationTarget_ne_of_catch hs hk x
  rw [Edit.touch]
  cases c with
  | markDirectEval | materialize | freeze =>
    rw [Change.target, Pool.get_of_find? hs]
    exact if_pos rfl
  | declare n o => exact if_neg hdeclared
  | setValue n v =>
    rw [Change.onCatch]
    cases hvs : s.values with
    | none =>
      have htarget : (Change.setValue n v).target p x ≠ .ok x := by
        simp [Change.target, Pool.valuesOf_of_none hs hvs, bind, Except.bind]
      rw [if_neg htarget]
      cases s.slot? n with
      | none => rfl
      | some k => exact (Scope.setSlot_of_size_le (by simp [hvs]) v).symm
    | some vs =>
      cases hn : s.slot? n with
      | none =>
        refine if_neg fun htarget => hdeclared ?_
        simpa [Change.target, Pool.valuesOf_of_find? hs hvs, bind, Except.bind, hn] using htarget
      | some k =>
        have htarget : (Change.setValue n v).target p x = .ok x := by
          simp [Change.target, Pool.valuesOf_of_find? hs hvs, bind, Except.bind, pure, Except.pure,
            hn]
        simp only [if_pos htarget, Change.apply,
          (hp x s hs).declareHoisted_of_some _ hn]
  | delete n =>
    rw [Change.onCatch, Change.target, Change.apply]
    cases hvs : s.values with
    | none => simp [Pool.valuesOf_of_none hs hvs, bind, Except.bind]
    | some vs => simp [Pool.valuesOf_of_find? hs hvs, bind, Except.bind, pure, Except.pure]
  | store k v =>
    cases hvs : s.values with
    | none =>
      have htarget : (Change.store k v).target p x ≠ .ok x := by
        simp [Change.target, Pool.valuesOf_of_none hs hvs, bind, Except.bind]
      rw [if_neg htarget]
      exact (Scope.setSlot_of_size_le (by simp [hvs]) v).symm
    | some vs =>
      refine if_pos ?_
      rw [Change.target, Pool.valuesOf_of_find? hs hvs]
      rfl

/-- An edit is a change made on a catch scope, or leaves it alone. -/
theorem Edit.touch_catch_cases (hp : p.Each Scope.Guarded) (hs : p.find? x = some s)
    (hk : s.kind = .catch) (e : Edit V) :
    (∃ c, e = .change x c ∧ e.touch p x s = c.onCatch s) ∨
    (∀ c, e ≠ .change x c) ∧ e.touch p x s = s := by
  cases e with
  | make | remove => exact .inr ⟨nofun, rfl⟩
  | change id c =>
    by_cases hid : id = x
    · subst hid
      exact .inl ⟨c, rfl, Edit.touch_of_catch hp hs hk c⟩
    · refine .inr ⟨fun c' hc => hid (Edit.change.inj hc).1, ?_⟩
      rw [Edit.touch, if_neg]
      intro ht
      rcases Change.target_eq_ok ht with hx | hx
      · exact hid hx.symm
      · exact Pool.declarationTarget_ne_of_catch hs hk id hx

/-- A catch scope, with room for values or without, and with all of its slots fixed or none. -/
structure Scope.Catches (opened fixed : Prop) (s : Scope V) : Prop extends s.Guarded where
  kind : s.kind = .catch
  values : s.values.isSome = true ↔ opened
  loose : ¬ fixed → s.immutableCount = 0
  sealed : fixed → s.table.slotCount ≤ s.immutableCount

namespace Scope.Catches

theorem erase (h : s.Catches opened fixed) {k : Nat} (hn : s.slot? n = some k)
    (hk : s.immutableCount ≤ k) : (s.erase n).Catches opened fixed := by
  refine ⟨h.toGuarded.erase hn hk, ?_, ?_, ?_, ?_⟩ <;> rw [erase_of_some hn]
  · exact h.kind
  · simpa using h.values
  · exact h.loose
  · intro hf
    -- there is no such slot
    have hlt := Table.slot?_lt hn
    have hle := h.sealed hf
    omega

theorem onCatch (h : s.Catches opened fixed) (c : Change V) :
    (c.onCatch s).Catches (opened ∨ c = .materialize) (fixed ∨ c = .freeze) := by
  have hsame {s' : Scope V} (h' : s'.Catches opened fixed) (hm : c ≠ .materialize)
      (hf : c ≠ .freeze) : s'.Catches (opened ∨ c = .materialize) (fixed ∨ c = .freeze) := by
    rwa [or_iff_left hm, or_iff_left hf]
  have hset (k : Nat) (v : V) : (s.setSlot k v).Catches opened fixed :=
    ⟨h.toGuarded.setSlot k v, h.kind, by simpa [setSlot] using h.values, h.loose, h.sealed⟩
  cases c with
  | markDirectEval =>
    refine hsame ?_ (by simp) (by simp)
    exact ⟨⟨h.sound, h.bound, h.above, h.room⟩, h.kind, h.values, h.loose, h.sealed⟩
  | declare => exact hsame h (by simp) (by simp)
  | materialize =>
    have hopened : s.materialize.values.isSome = true := rfl
    have hne : (Change.materialize : Change V) ≠ .freeze := by simp
    rw [or_iff_left hne]
    exact ⟨h.toGuarded.materialize, h.kind, iff_of_true hopened (.inr rfl), h.loose, h.sealed⟩
  | freeze =>
    have hne : (Change.freeze : Change V) ≠ .materialize := by simp
    rw [or_iff_left hne]
    exact ⟨h.toGuarded.freeze, h.kind, h.values, fun hf => absurd (.inr rfl) hf,
      fun _ => Nat.le_max_right _ _⟩
  | setValue n v =>
    refine hsame ?_ (by simp) (by simp)
    rw [Change.onCatch]
    cases s.slot? n with
    | none => exact h
    | some k => exact hset k v
  | store k v => exact hsame (hset k v) (by simp) (by simp)
  | delete n =>
    refine hsame ?_ (by simp) (by simp)
    rw [Change.onCatch]
    split
    · exact h
    · next hloose =>
      cases hn : s.slot? n with
      | none => rwa [erase_of_none hn]
      | some k =>
        rw [hn, Bool.or_eq_true, not_or, Option.any_some, decide_eq_true_iff, Nat.not_lt] at hloose
        exact h.erase hn hloose.2

/-- A catch scope keeps a name, and its slot, unless the name is deleted when there is room for
values and no slot is fixed. -/
theorem slot?_onCatch (h : s.Catches opened fixed) (c : Change V) (n : Name) :
    (c = .delete n ∧ opened ∧ ¬ fixed → (c.onCatch s).slot? n = none) ∧
    (¬ (c = .delete n ∧ opened ∧ ¬ fixed) → (c.onCatch s).slot? n = s.slot? n) := by
  cases c with
  | markDirectEval | declare | materialize | store => exact ⟨nofun, fun _ => rfl⟩
  | freeze => exact ⟨nofun, fun _ => Table.slot?_retireBelow _⟩
  | setValue m v =>
    refine ⟨nofun, fun _ => ?_⟩
    rw [Change.onCatch]
    cases s.slot? m <;> rfl
  | delete m =>
    constructor
    · rintro ⟨⟨rfl⟩, hopened, hfixed⟩
      rw [Change.onCatch, h.loose hfixed, Option.isNone_eq_false_iff.mpr (h.values.mpr hopened)]
      cases hn : s.slot? n with
      | none => simp [erase_of_none hn, hn]
      | some k => simp [h.slot?_erase hn]
    · intro hkept
      rw [Change.onCatch]
      split
      · rfl
      · next hloose =>
        cases hm : s.slot? m with
        | none => rw [erase_of_none hm]
        | some k =>
          rw [hm, Bool.or_eq_true, not_or, Option.any_some, decide_eq_true_iff, Nat.not_lt,
            Option.isNone_iff_eq_none] at hloose
          rw [h.slot?_erase hm, if_neg]
          rintro rfl
          apply hkept
          refine ⟨rfl, h.values.mp (Option.isSome_iff_ne_none.mpr hloose.1), ?_⟩
          intro hf
          have hlt := Table.slot?_lt hm
          have hle := h.sealed hf
          omega

end Scope.Catches

/-- Some edits delete a name of a scope that has no slot fixed, at a time when it has room for
values and they have not sealed it. -/
def Edit.Unbind (x : ScopeId) (n : Name) (opened fixed : Prop) (es : List (Edit V)) : Prop :=
  ∃ before after, es = before ++ .change x (.delete n) :: after ∧
    (opened ∨ .change x .materialize ∈ before) ∧ ¬ (fixed ∨ .change x .freeze ∈ before)

omit [Inhabited V] in
theorem Edit.unbind_cons {e : Edit V} {es : List (Edit V)} :
    Edit.Unbind x n opened fixed (e :: es) ↔
      (e = .change x (.delete n) ∧ opened ∧ ¬ fixed) ∨
      Edit.Unbind x n (opened ∨ e = .change x .materialize) (fixed ∨ e = .change x .freeze) es := by
  constructor
  · rintro ⟨before, after, hes, hopened, hfixed⟩
    cases before with
    | nil =>
      cases hes
      exact .inl ⟨rfl, by simpa using hopened, by simpa using hfixed⟩
    | cons e' before =>
      cases hes
      refine .inr ⟨before, after, rfl, ?_, ?_⟩
      · rwa [or_assoc, eq_comm, ← List.mem_cons]
      · rwa [or_assoc, eq_comm, ← List.mem_cons]
  · rintro (⟨rfl, hopened, hfixed⟩ | ⟨before, after, rfl, hopened, hfixed⟩)
    · exact ⟨[], es, rfl, .inl hopened, by simpa using hfixed⟩
    · refine ⟨e :: before, after, rfl, ?_, ?_⟩
      · rwa [List.mem_cons, ← or_assoc, eq_comm (a := Edit.change x _)]
      · rwa [List.mem_cons, ← or_assoc, eq_comm (a := Edit.change x _)]

/-- The step lemma. -/
theorem Scope.Catches.touch (h : s.Catches opened fixed) (hp : p.Each Scope.Guarded)
    (hs : p.find? x = some s) (e : Edit V) :
    (e.touch p x s).Catches (opened ∨ e = .change x .materialize) (fixed ∨ e = .change x .freeze) ∧
    ∀ n, (e = .change x (.delete n) ∧ opened ∧ ¬ fixed → (e.touch p x s).slot? n = none) ∧
      (¬ (e = .change x (.delete n) ∧ opened ∧ ¬ fixed) →
        (e.touch p x s).slot? n = s.slot? n) := by
  rcases Edit.touch_catch_cases hp hs h.kind e with ⟨c, rfl, ht⟩ | ⟨hne, ht⟩
  · simp only [ht, Edit.change.injEq, true_and]
    exact ⟨h.onCatch c, h.slot?_onCatch c⟩
  · rw [ht, or_iff_left (hne _), or_iff_left (hne _)]
    exact ⟨h, fun n => ⟨fun hdelete => absurd hdelete.1 (hne _), fun _ => rfl⟩⟩

/-- The run lemma. -/
theorem Scope.Catches.evolved (h : s.Catches opened fixed) (hp : p.Each Scope.Guarded)
    (hs : p.find? x = some s) {es : List (Edit V)} (hkept : .remove x ∉ es) :
    (p.evolved x s es).kind = .catch ∧
    ∀ n, (Edit.Unbind x n opened fixed es → (p.evolved x s es).slot? n = none) ∧
      (¬ Edit.Unbind x n opened fixed es → (p.evolved x s es).slot? n = s.slot? n) := by
  induction es generalizing p s opened fixed with
  | nil =>
    refine ⟨h.kind, fun n => ⟨?_, fun _ => rfl⟩⟩
    rintro ⟨before, after, hes, -⟩
    simp at hes
  | cons e es ih =>
    obtain ⟨hne, hkept⟩ := List.ne_and_not_mem_of_not_mem_cons hkept
    have hr := Edit.runs hp e
    rw [Pool.evolved_cons]
    generalize e.run.run p = a at hr ⊢
    obtain ⟨r, q⟩ := a
    have hs' := hr.find?_iff.mpr (.inr ⟨s, hs, hne.symm, rfl⟩)
    obtain ⟨htouch, hslot⟩ := h.touch hp hs e
    obtain ⟨hkind, hnames⟩ := ih htouch (hr.guarded hp) hs' hkept
    refine ⟨hkind, fun n => ?_⟩
    rw [Edit.unbind_cons]
    by_cases hfirst : e = .change x (.delete n) ∧ opened ∧ ¬ fixed
    · refine ⟨fun _ => ?_, fun hnot => absurd (.inl hfirst) hnot⟩
      by_cases hlater : Edit.Unbind x n (opened ∨ e = .change x .materialize)
          (fixed ∨ e = .change x .freeze) es
      · exact (hnames n).1 hlater
      · rw [(hnames n).2 hlater, (hslot n).1 hfirst]
    · rw [or_iff_right hfirst]
      refine ⟨(hnames n).1, fun hnot => ?_⟩
      rw [(hnames n).2 hnot, (hslot n).2 hfirst]

/-- A catch scope of a run is made with room for values and sealed, and one of the code without. -/
theorem Maker.catches_scope {m : Maker} (hm : m.kind = .catch) :
    (m.scope : Scope V).Catches (¬ ∃ parent e, m = .catch parent e)
      (¬ ∃ parent e, m = .catch parent e) := by
  cases m with
  | «catch» parent e =>
    have hloose : ∃ parent' e', Maker.catch parent e = .catch parent' e' := ⟨parent, e, rfl⟩
    refine ⟨Maker.guarded_scope _, rfl, ?_, fun _ => rfl, fun hfixed => absurd hloose hfixed⟩
    exact iff_of_false nofun fun hopened => hopened hloose
  | catchInstance parent names =>
    have hfixed : ¬ ∃ parent' e', Maker.catchInstance parent names = .catch parent' e' := by
      rintro ⟨_, _, ⟨⟩⟩
    exact ⟨Maker.guarded_scope _, rfl, iff_of_true rfl hfixed, absurd hfixed,
      fun _ => Nat.le_refl _⟩
  | _ => cases hm

namespace Pool

/-- A catch scope stays one, and no declaration comes to it from anywhere. It binds no other names
than it was made from, in the slots that they had. It binds all of them if it was made for a run; if
it was made from the code, it loses its name when the name is deleted after the scope was given room
for values, with no seal before. -/
theorem catch_scopes_keep_names (limits : Limits) (before after : List (Edit V)) (m : Maker)
    (x : ScopeId) (hm : m.kind = .catch)
    (hmade : ((Edit.make m).run.run ((Pool.empty limits).edited before)).1 = .ok (.made x))
    (hkept : .remove x ∉ after) :
    let p := (Pool.empty limits).edited (before ++ .make m :: after)
    let Lost (n : Name) : Prop := (∃ parent e, m = .catch parent e) ∧
      ∃ es es', after = es ++ .change x (.delete n) :: es' ∧
        .change x .materialize ∈ es ∧ .change x .freeze ∉ es
    (∀ id, p.declarationTarget id ≠ .ok x) ∧
    ∃ s, p.get x = .ok s ∧ s.kind = .catch ∧
      ∀ n, ((s.slot? n).isSome ↔ n ∈ m.names ∧ ¬ Lost n) ∧
        (¬ Lost n → s.slot? n = (Table.ofNames m.names).slot? n) := by
  intro p Lost
  have hstart : (Pool.empty limits : Pool V).Each Scope.Guarded := each_empty limits
  let q := (Pool.empty limits).edited (before ++ [.make m])
  have hmade' : (Pool.empty limits).Arises x m.scope (before ++ [.make m]) :=
    ⟨before, m, [], rfl, hmade, List.not_mem_nil, rfl⟩
  have hq : q.find? x = some m.scope := (find?_edited_iff hstart _).mpr (.inr hmade')
  have hx : p.find? x = some (q.evolved x m.scope after) :=
    (find?_edited_iff hstart _).mpr (.inr ⟨before, m, after, rfl, hmade, hkept, rfl⟩)
  obtain ⟨hkind, hnames⟩ :=
    (Maker.catches_scope hm).evolved (guarded_edited hstart _) hq hkept
  refine ⟨declarationTarget_ne_of_catch hx hkind, _, get_of_find? hx, hkind, fun n => ?_⟩
  have hlost : Edit.Unbind x n (¬ ∃ parent e, m = .catch parent e)
      (¬ ∃ parent e, m = .catch parent e) after ↔ Lost n := by
    by_cases hloose : ∃ parent e, m = .catch parent e <;> simp [Edit.Unbind, Lost, hloose]
  have hslot : (m.scope : Scope V).slot? n = (Table.ofNames m.names).slot? n := by
    cases m <;> rfl
  obtain ⟨hgone, hkept⟩ := hnames n
  rw [hlost] at hgone hkept
  rw [hslot] at hkept
  refine ⟨?_, hkept⟩
  by_cases hn : Lost n
  · simp [q, hgone hn, hn]
  · rw [hkept hn, Scope.slot?_ofNames_isSome, and_iff_left hn]

/-- A name that is bound in a catch scope of a run is neither deleted nor joined by another. -/
theorem catch_scopes_keep_names_in_run :
    let before : List (Edit Nat) := [.make .global]
    let m : Maker := .catchInstance (some ⟨0, 0⟩) [⟨7⟩]
    let after : List (Edit Nat) :=
      [.change ⟨1, 0⟩ (.delete ⟨7⟩), .change ⟨1, 0⟩ (.declare ⟨8⟩ none), .change ⟨1, 0⟩ .freeze]
    m.kind = .catch ∧
    ((Edit.make m).run.run ((Pool.empty .standard).edited before)).1 = .ok (.made ⟨1, 0⟩) ∧
    .remove ⟨1, 0⟩ ∉ after ∧
    ∃ s, ((Pool.empty .standard).edited (before ++ .make m :: after)).get ⟨1, 0⟩ = .ok s ∧
      ∀ n, (s.slot? n).isSome ↔ n = ⟨7⟩ := by
  intro before m after
  have hmade : ((Edit.make m).run.run ((Pool.empty .standard).edited before)).1 =
      .ok (.made ⟨1, 0⟩) := by decide +kernel
  have hkept : .remove ⟨1, 0⟩ ∉ after := by simp [after]
  obtain ⟨-, s, hs, -, hnames⟩ :=
    catch_scopes_keep_names .standard before after m ⟨1, 0⟩ rfl hmade hkept
  refine ⟨rfl, hmade, hkept, s, hs, fun n => (hnames n).1.trans ?_⟩
  simp [m, Maker.names]

/-- The name of a catch scope that was made from the code is gone. -/
theorem catch_scope_loses_name :
    let p := (Pool.empty .standard : Pool Nat).edited
      [.make .global, .make (.catch (some ⟨0, 0⟩) ⟨7⟩), .change ⟨1, 0⟩ .materialize,
        .change ⟨1, 0⟩ (.delete ⟨7⟩)]
    (p.find? ⟨1, 0⟩).map (fun s => (s.kind, s.table.names)) = some (.catch, []) := by
  decide +kernel

end Pool

end ScopeChain
