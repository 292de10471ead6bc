import ScopeChain.Proofs.Frames
import ScopeChain.Proofs.Operations

/-! The scopes that binding works on. They hold no values, names are only ever added to them, and
what a walk along them finds is what the frames say that they stand for. -/
namespace ScopeChain

/-- A scope that lists the names of a piece of code, in the order of their slots. -/
structure Scope.Draft (s : Scope Unit) : Prop where
  compact : s.table.Compact
  sound : s.table.Sound
  bare : s.values = none

/-- The frame that a scope of the code becomes. -/
def Scope.frame (s : Scope Unit) : Frame := ⟨s.table.names, s.kind = .catch, s.directEval⟩

theorem Scope.draft_ofTable (kind : ScopeKind) (parent : Option ScopeId) (names : List Name) :
    (Scope.ofTable kind parent (.ofNames names) : Scope Unit).Draft :=
  ⟨Table.compact_ofNames names, Table.sound_ofNames names, rfl⟩

/-- The scope of a catch clause. -/
theorem Scope.frame_catch (parent : Option ScopeId) (n : Name) :
    (Scope.ofTable .catch parent (.ofNames [n]) : Scope Unit).frame = ⟨[n], true, false⟩ := by
  simp [Scope.frame, Scope.ofTable, Table.names_ofNames (List.nodup_singleton n)]

/-- A name has the slot of its place among the names. -/
theorem Scope.Draft.slot?_eq_idxOf? {s : Scope Unit} (h : s.Draft) (n : Name) :
    s.slot? n = s.table.names.idxOf? n := by
  have hnodup := h.sound.nodup_names
  cases hn : s.slot? n with
  | none => exact (List.idxOf?_eq_none_iff.mpr (h.compact.slot?_eq_none_iff.mp hn)).symm
  | some k =>
    obtain ⟨hk, rfl⟩ := List.getElem?_eq_some_iff.mp ((h.compact.slot?_eq_some_iff h.sound).mp hn)
    rw [eq_comm, List.idxOf?_eq_some_iff]
    exact ⟨hk, rfl, fun j hj heq => Nat.ne_of_lt hj ((hnodup.getElem_inj_iff).mp heq)⟩

theorem Scope.Draft.declareHoisted {s : Scope Unit} (h : s.Draft) (slack : Nat) (n : Name)
    (o : Option NodeId) : (s.declareHoisted slack n o).2.Draft :=
  ⟨h.compact.declareHoisted, h.sound.declareHoisted n o, by simp [Scope.declareHoisted, h.bare]⟩

theorem Scope.Draft.declareHoisted_slack {s : Scope Unit} (h : s.Draft) (j k : Nat) (n : Name)
    (o : Option NodeId) : s.declareHoisted j n o = s.declareHoisted k n o := by
  simp [Scope.declareHoisted, h.bare]

namespace Pool

variable {p : Pool Unit} {id t : ScopeId} {s : Scope Unit} {Γ : List Frame} {n : Name}

def Draft (p : Pool Unit) : Prop := p.Each Scope.Draft

theorem draft_empty (l : Limits) : (empty l : Pool Unit).Draft := each_empty l

theorem Draft.insert (h : p.Draft) (hs : s.Draft) : (p.insert s).2.Draft := Each.insert h hs

theorem Draft.update (h : p.Draft) {f : Scope Unit → Scope Unit} (hf : ∀ s, s.Draft → (f s).Draft) :
    (p.update id f).Draft := by
  intro x t ht
  rw [find?_update] at ht
  split at ht
  · obtain ⟨s, hs, rfl⟩ := Option.map_eq_some_iff.mp ht
    exact hf s (h x s hs)
  · exact h x t ht

/-- Following parents from a scope to the scope of the program passes by some frames. -/
inductive Describes (p : Pool Unit) : ScopeId → List Frame → Prop where
  | root {id : ScopeId} {s : Scope Unit} :
    p.find? id = some s → s.kind = .global ∨ s.kind = .eval → Describes p id []
  | frame {id parent : ScopeId} {s : Scope Unit} {Γ : List Frame} :
    p.find? id = some s → s.kind = .function ∨ s.kind = .catch → s.parent = some parent →
    Describes p parent Γ → Describes p id (s.frame :: Γ)

theorem Describes.live (h : p.Describes id Γ) : ∃ s, p.find? id = some s := by
  cases h with
  | root hs => exact ⟨_, hs⟩
  | frame hs => exact ⟨_, hs⟩

/-- The nearest scope that keeps declarations, following parents from another. -/
inductive Targets (p : Pool Unit) : ScopeId → ScopeId → Prop where
  | here {id : ScopeId} {s : Scope Unit} :
    p.find? id = some s → s.kind.extensible = true → Targets p id id
  | outward {id parent t : ScopeId} {s : Scope Unit} :
    p.find? id = some s → s.kind = .catch → s.parent = some parent →
    Targets p parent t → Targets p id t

theorem Targets.extensible (h : p.Targets id t) :
    ∃ s, p.find? t = some s ∧ s.kind.extensible = true := by
  induction h with
  | here hs hk => exact ⟨_, hs, hk⟩
  | outward _ _ _ _ ih => exact ih

theorem Targets.live (h : p.Targets id t) : ∃ s, p.find? id = some s := by
  cases h with
  | here hs => exact ⟨_, hs⟩
  | outward hs => exact ⟨_, hs⟩

theorem Targets.self (h : p.Targets id t) : p.Targets t t := by
  obtain ⟨s, hs, hk⟩ := h.extensible
  exact .here hs hk

theorem Targets.ne_of_catch {x : ScopeId} (h : p.Targets id t) (hx : p.find? x = some s)
    (hk : s.kind = .catch) : x ≠ t := by
  rintro rfl
  obtain ⟨u, hu, hext⟩ := h.extensible
  rw [hx] at hu
  cases hu
  simp [ScopeKind.extensible, hk] at hext

theorem Targets.declarationTarget (h : p.Targets id t) :
    p.declarationTarget id = .ok t ∨
      p.declarationTarget id = .error (.depthExceeded p.limits.maxDepth) := by
  unfold Pool.declarationTarget
  generalize p.reach = reach
  induction h generalizing reach with
  | @here id s hs hk =>
    cases reach with
    | zero => exact .inr rfl
    | succ reach =>
      left
      rw [declarationTargetFrom_succ hs, if_pos hk]
  | @outward id parent t s hs hk hp _ ih =>
    cases reach with
    | zero => exact .inr rfl
    | succ reach =>
      have hstep :
          p.declarationTargetFrom (reach + 1) id = p.declarationTargetFrom reach parent := by
        simp [declarationTargetFrom_succ hs, hk, hp, ScopeKind.extensible]
      rw [hstep]
      exact ih reach

theorem Describes.targets (h : p.Describes id Γ) :
    ∃ t, p.Targets id t ∧ p.Describes t (Frame.target Γ) := by
  induction h with
  | @root id s hs hk =>
    refine ⟨id, .here hs ?_, .root hs hk⟩
    rcases hk with hk | hk <;> simp [ScopeKind.extensible, hk]
  | @frame id parent s Γ hs hk hp hd ih =>
    rcases hk with hk | hk
    · refine ⟨id, .here hs (by simp [ScopeKind.extensible, hk]), ?_⟩
      rw [Frame.target_cons_of_not_catch Γ (by simp [Scope.frame, hk])]
      exact .frame hs (.inl hk) hp hd
    · obtain ⟨t, ht, hdt⟩ := ih
      refine ⟨t, .outward hs hk hp ht, ?_⟩
      rwa [Frame.target_cons_of_catch Γ (by simp [Scope.frame, hk])]

theorem Describes.resolveFrom_eq {a : Address} {reach depth : Nat} (h : p.Describes id Γ)
    (hp : p.Draft) (hresolve : p.resolveFrom n reach depth id = .ok a) :
    a = Frame.addressFrom n depth Γ := by
  induction h generalizing reach depth with
  | @root id s hs hk =>
    cases reach with
    | zero => cases hresolve
    | succ reach =>
      have hopen : s.kind.staticallyClosed = false := by
        rcases hk with hk | hk <;> simp [ScopeKind.staticallyClosed, hk]
      simp only [resolveFrom, get_of_find? hs, bind, Except.bind, hopen] at hresolve
      exact (Except.ok.inj hresolve).symm
  | @frame id parent s Γ hs hk hpar _ ih =>
    cases reach with
    | zero => cases hresolve
    | succ reach =>
      have hclosed : s.kind.staticallyClosed = true := by
        rcases hk with hk | hk <;> simp [ScopeKind.staticallyClosed, hk]
      simp only [resolveFrom, get_of_find? hs, bind, Except.bind, hclosed, if_true] at hresolve
      rw [Frame.addressFrom, Scope.frame, ← (hp id s hs).slot?_eq_idxOf?]
      cases hslot : s.slot? n with
      | some k =>
        rw [hslot] at hresolve
        exact (Except.ok.inj hresolve).symm
      | none =>
        rw [hslot] at hresolve
        cases hopen : s.directEval with
        | true =>
          rw [hopen] at hresolve
          exact (Except.ok.inj hresolve).symm
        | false =>
          simp only [hopen, hpar, Bool.false_eq_true, if_false] at hresolve
          exact ih hresolve

/-- A name that is looked for has the address that the frames give it. -/
theorem Describes.resolve_eq {a : Address} (h : p.Describes id Γ) (hp : p.Draft)
    (hresolve : p.resolve id n = .ok a) : a = Frame.address n Γ := h.resolveFrom_eq hp hresolve

/-- An address resolved from a scope fits the frames that the scope stands for. -/
theorem Describes.resolve (h : p.Describes id Γ) (hp : p.Draft) (n : Name) :
    (∃ a, p.resolve id n = .ok a ∧ a.Fits p.limits.maxDepth Γ n) ∨
      p.resolve id n = .error (.depthExceeded p.limits.maxDepth) := by
  have walk (reach depth : Nat) :
      (∃ d k, p.resolveFrom n reach depth id = .ok (.static (depth + d) k) ∧ d < reach ∧
        Finds n Γ d k) ∨
      p.resolveFrom n reach depth id = .ok (.dynamic n) ∨
      p.resolveFrom n reach depth id = .error (.depthExceeded p.limits.maxDepth) := by
    induction h generalizing reach depth with
    | @root id s hs hk =>
      cases reach with
      | zero => exact .inr (.inr rfl)
      | succ reach =>
        refine .inr (.inl ?_)
        rcases hk with hk | hk <;>
          simp [resolveFrom, get_of_find? hs, bind, Except.bind, hk, ScopeKind.staticallyClosed,
            pure, Except.pure]
    | @frame id parent s Γ hs hk hpar _ ih =>
      cases reach with
      | zero => exact .inr (.inr rfl)
      | succ reach =>
        have hclosed : s.kind.staticallyClosed = true := by
          rcases hk with hk | hk <;> simp [ScopeKind.staticallyClosed, hk]
        have hd := hp id s hs
        simp only [resolveFrom, get_of_find? hs, bind, Except.bind, hclosed, if_true]
        cases hslot : s.slot? n with
        | some k =>
          refine .inl ⟨0, k, rfl, Nat.succ_pos _, .here ?_⟩
          exact (hd.compact.slot?_eq_some_iff hd.sound).mp hslot
        | none =>
          have hnot : n ∉ s.frame.names := hd.compact.slot?_eq_none_iff.mp hslot
          cases hopen : s.directEval with
          | true => exact .inr (.inl rfl)
          | false =>
            simp only [hpar, Bool.false_eq_true, if_false]
            rcases ih reach (depth + 1) with ⟨d, k, he, hlt, hf⟩ | he | he
            · refine .inl ⟨d + 1, k, ?_, Nat.succ_lt_succ hlt, .outward hnot hopen hf⟩
              rw [he]
              congr 2
              omega
            · exact .inr (.inl he)
            · exact .inr (.inr he)
  rcases walk p.reach 0 with ⟨d, k, he, hlt, hf⟩ | he | he
  · refine .inl ⟨.static d k, ?_, Nat.le_of_lt_succ hlt, hf⟩
    rw [Pool.resolve, he, Nat.zero_add]
  · exact .inl ⟨.dynamic n, he, rfl⟩
  · exact .inr he

/-- The pool with another least room to be added when a scope outgrows its values. -/
def withSlack {V : Type} (p : Pool V) (k : Nat) : Pool V :=
  { p with limits := { p.limits with growthSlack := k } }

section Slack

variable {V : Type} (p : Pool V) (k : Nat) (id : ScopeId) (s : Scope V)

@[simp] theorem get_withSlack : (p.withSlack k).get id = p.get id := rfl

@[simp] theorem insert_withSlack :
    (p.withSlack k).insert s = ((p.insert s).1, (p.insert s).2.withSlack k) := by
  unfold insert
  simp only [withSlack]
  split <;> rfl

@[simp] theorem update_withSlack (f : Scope V → Scope V) :
    (p.withSlack k).update id f = (p.update id f).withSlack k := rfl

@[simp] theorem declarationTarget_withSlack :
    (p.withSlack k).declarationTarget id = p.declarationTarget id := by
  have walk (reach : Nat) (id : ScopeId) :
      (p.withSlack k).declarationTargetFrom reach id = p.declarationTargetFrom reach id := by
    induction reach generalizing id with
    | zero => rfl
    | succ reach ih => simp only [declarationTargetFrom, get_withSlack, ih]
  exact walk p.reach id

@[simp] theorem resolve_withSlack (n : Name) : (p.withSlack k).resolve id n = p.resolve id n := by
  have walk (reach depth : Nat) (id : ScopeId) :
      (p.withSlack k).resolveFrom n reach depth id = p.resolveFrom n reach depth id := by
    induction reach generalizing depth id with
    | zero => rfl
    | succ reach ih => simp only [resolveFrom, get_withSlack, ih]
  exact walk p.reach 0 id

end Slack

end Pool

end ScopeChain
