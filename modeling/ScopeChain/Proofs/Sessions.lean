import ScopeChain.Proofs.Requests

/-! Sessions: a machine is asked for one thing after the other. What comes of it depends neither on
the ways in which names are used nor on when memory is claimed and freed, and no scope is missed. -/
namespace ScopeChain

/-- The error of scopes at the bottom of a failure, if there is one. -/
def Abrupt.scopeError? : Abrupt → Option ScopeError
  | .scope e | .compile (.scope e) | .compile (.emit (.scope e)) => some e
  | _ => none

/-- Scopes of one pool renamed to scopes of another: each has the same names in the same slots, and
the same values there but for the scopes of functions, which are renamed too, as is the parent. -/
structure Pool.Renamed (R : ScopeId → ScopeId → Prop) (p q : Pool Value) : Prop where
  one_to_one : ∀ i j i' j', R i j → R i' j' → (i = i' ↔ j = j')
  scopes : ∀ i j, R i j → ∃ s t vs ws, p.find? i = some s ∧ q.find? j = some t ∧
    t.kind = s.kind ∧ t.table = s.table ∧ t.immutableCount = s.immutableCount ∧
    Option.Rel R s.parent t.parent ∧ s.values = some vs ∧ t.values = some ws ∧
    ∀ k : Nat, Value.Alike (fun _ => R) (vs[k]?.getD .undefined) (ws[k]?.getD .undefined)

namespace Machine

open Exec (Access Ends)

/-- Two outcomes are the same but for the scopes of functions, which are related. -/
def SameOutcome (R : ScopeId → ScopeId → Prop) : Except Abrupt Value → Except Abrupt Value → Prop
  | .ok v, .ok w | .error (.thrown v), .error (.thrown w) => v.Alike (fun _ => R) w
  | .error (.compile e), .error (.compile e') => e = e'
  | .error (.scope e), .error (.scope e') => e = e'
  | .error .outOfFuel, .error .outOfFuel => True
  | _, _ => False

/-- Two programs had the same outcome up to a renaming of scopes, and what can be reached from it
and from the global scope is the same after both. -/
def Same (a b : Except Abrupt Value × Machine) : Prop :=
  ∃ R, Pool.Renamed R a.2.heap.pool b.2.heap.pool ∧ R a.2.global b.2.global ∧
    SameOutcome R a.1 b.1

variable {A B : Access} {one : Prop} {limit : Nat} {W : World} {x : Pairing} {fuel : Nat}
  {m n : Machine} {rs rs' : List Request}

/-- The outcome of each request and the machine after it. -/
def session (access : Access) (fuel : Nat) (m : Machine) :
    List Request → List (Option (Except Abrupt Value) × Machine)
  | [] => []
  | r :: rs => m.answer access fuel r :: session access fuel (m.answer access fuel r).2 rs

/-- Two answers to one request. -/
inductive Matches (one : Prop) (limit : Nat) (x : Pairing) :
    Option (Except Abrupt Value) × Machine → Option (Except Abrupt Value) × Machine → Prop where
  | program {a b : Except Abrupt Value × Machine} : Agree one limit x a b →
    Matches one limit x (some a.1, a.2) (some b.1, b.2)
  | collect {W : World} {m n : Machine} : AtRest one W limit x m n →
    Matches one limit x (none, m) (none, n)

theorem Matches.atRest {a b : Option (Except Abrupt Value) × Machine}
    (h : Matches one limit x a b) : ∃ W, AtRest one W limit x a.2 b.2 := by
  cases h with
  | program h =>
    obtain ⟨W, hw, -⟩ := h
    exact ⟨W, hw⟩
  | collect h => exact ⟨_, h⟩

/-- Garbage may be removed from either machine while both are at rest. -/
theorem AtRest.sweep {m' n' : Machine} (h : AtRest one W limit x m n) (hm : Swept m m')
    (hn : Swept n n') (hone : one → m' = n') : ∃ W', AtRest one W' limit x m' n' := by
  obtain ⟨W', ht, -⟩ := Twin.sweep h hm hn hone
  exact ⟨W', ht⟩

theorem matches_answer (hA : A.Faithful) (hB : B.Faithful) (fuel : Nat)
    (h : AtRest one W limit x m n) (r : Request) :
    Matches one limit x (m.answer A fuel r) (n.answer B fuel r) := by
  cases hr : r.isProgram with
  | true =>
    obtain ⟨a, b, ha, hb, hab⟩ := agree_answer hA hB fuel h r hr
    rw [ha, hb]
    exact .program hab
  | false =>
    cases r with
    | collect =>
      obtain ⟨W', hw⟩ := h.sweep .collected .collected fun ho => by rw [h.single ho]
      exact .collect hw
    | _ => cases hr

theorem matches_session (hA : A.Faithful) (hB : B.Faithful) (fuel : Nat)
    (h : AtRest one W limit x m n) (rs : List Request) :
    List.Forall₂ (Matches one limit x) (session A fuel m rs) (session B fuel n rs) := by
  induction rs generalizing W m n with
  | nil => exact .nil
  | cons r rs ih =>
    have hr := matches_answer hA hB fuel h r
    obtain ⟨W', hw⟩ := hr.atRest
    exact .cons hr (ih hw)

/-- Where two runs are one, outcomes alike are the same. -/
theorem Agree.eq {a b : Except Abrupt Value × Machine} (h : Agree True limit x a b) : a = b := by
  obtain ⟨W, hw, he⟩ := h
  have hd := (hw.pool.single trivial).2
  refine Prod.ext ?_ (hw.single trivial)
  generalize a.1 = r at he
  generalize b.1 = s at he
  cases he with
  | ok hv => rw [hv.eq hd]
  | error h =>
    cases h with
    | thrown hv => rw [hv.eq hd]
    | _ => rfl

theorem Matches.eq {a b : Option (Except Abrupt Value) × Machine} (h : Matches True limit x a b) :
    a = b := by
  cases h with
  | program h => rw [h.eq]
  | collect h => rw [h.single trivial]

theorem session_of_faithful (hA : A.Faithful) (fuel : Nat) (h : AtRest True W limit x m m)
    (rs : List Request) : session A fuel m rs = session .byAddress fuel m rs := by
  have hall := (matches_session hA Exec.faithful_byAddress fuel h rs).imp
    fun _ _ hab => hab.eq
  rwa [List.forall₂_eq_eq_eq] at hall

/-- In every session of scripts and programs for `eval`, each name that is used has an address that
leads where a look-up of the name leads: whatever were done at a use whose address does not, it
would never be done. So looking all names up comes to the same outcomes and the same machines. -/
theorem addresses_keep_promises (o : Options) (fuel : Nat) (rs : List Request) :
    ∃ m, start o = .ok m ∧
      (∀ other, session (.watched other) fuel m rs = session .byAddress fuel m rs) ∧
      session .byName fuel m rs = session .byAddress fuel m rs := by
  obtain ⟨m, n, W, x, hm, hn, h⟩ := atRest_start True o o rfl rfl fun _ => rfl
  cases hm.symm.trans hn
  exact ⟨m, hm, fun other => session_of_faithful (Exec.faithful_watched other) fuel h rs,
    session_of_faithful Exec.faithful_byName fuel h rs⟩

theorem Matches.ends {r s : Except Abrupt Value}
    (h : Matches one limit x (some r, m) (some s, n)) : ∃ W, Ends W limit (W.Likens limit) r s := by
  cases h with
  | program h =>
    obtain ⟨W, -, he⟩ := h
    exact ⟨W, he⟩

/-- However a session goes, scopes report no errors but that too many are nested. -/
theorem only_depth_is_exceeded (o : Options) (fuel : Nat) (rs : List Request) :
    ∃ m, start o = .ok m ∧ ∀ a m' e, (some (.error a), m') ∈ session .byAddress fuel m rs →
      a.scopeError? = some e → ∃ d, e = .depthExceeded d := by
  obtain ⟨m, n, W, x, hm, hn, h⟩ := atRest_start True o o rfl rfl fun _ => rfl
  cases hm.symm.trans hn
  refine ⟨m, hm, fun a m' e ha he => ?_⟩
  have hall := matches_session Exec.faithful_byAddress Exec.faithful_byAddress fuel h rs
  obtain ⟨W', hends⟩ := (List.forall₂_same.mp hall _ ha).ends
  cases hends with
  | error h =>
    cases h with
    | thrown | malformed | outOfFuel => cases he
    | tooNested d | deep d => exact ⟨d, (Option.some.inj he).symm⟩

/-- The outcomes of the programs in a session, each with the machine after the program. -/
def outcomes (answers : List (Option (Except Abrupt Value) × Machine)) :
    List (Except Abrupt Value × Machine) :=
  answers.filterMap fun (r, m) => r.map (·, m)

/-- Two lists ask for the same programs, and for collections anywhere between them. -/
inductive Aligned : List Request → List Request → Prop where
  | nil : Aligned [] []
  | cons (r : Request) {rs rs' : List Request} : Aligned rs rs' → Aligned (r :: rs) (r :: rs')
  | left {rs rs' : List Request} : Aligned rs rs' → Aligned (.collect :: rs) rs'
  | right {rs rs' : List Request} : Aligned rs rs' → Aligned rs (.collect :: rs')

theorem aligned_cons (r : Request) (hr : r.isProgram = true) (hrs : ∀ rs',
      rs.filter Request.isProgram = rs'.filter Request.isProgram → Aligned rs rs')
    (h : (r :: rs).filter Request.isProgram = rs'.filter Request.isProgram) :
    Aligned (r :: rs) rs' := by
  induction rs' with
  | nil => simp [hr] at h
  | cons r' rs' ih =>
    cases hr' : r'.isProgram with
    | true =>
      simp only [List.filter_cons, hr, hr', if_true, List.cons.injEq] at h
      obtain ⟨rfl, h⟩ := h
      exact .cons r (hrs rs' h)
    | false =>
      cases r' with
      | collect => exact .right (ih (by simpa [List.filter_cons, hr'] using h))
      | _ => cases hr'

theorem aligned_of_filter (h : rs.filter Request.isProgram = rs'.filter Request.isProgram) :
    Aligned rs rs' := by
  induction rs generalizing rs' with
  | nil =>
    induction rs' with
    | nil => exact .nil
    | cons r' rs' ih =>
      cases r' with
      | collect => exact .right (ih h)
      | _ => cases h
  | cons r rs ih =>
    cases hr : r.isProgram with
    | true => exact aligned_cons r hr (fun _ => ih) h
    | false =>
      cases r with
      | collect => exact .left (ih h)
      | _ => cases hr

theorem agree_outcomes (hA : A.Faithful) (hB : B.Faithful) (fuel : Nat)
    (h : AtRest False W limit x m n) (hr : Aligned rs rs') :
    List.Forall₂ (Agree False limit x) (outcomes (session A fuel m rs))
      (outcomes (session B fuel n rs')) := by
  induction hr generalizing W m n with
  | nil => exact .nil
  | @cons r rs rs' _ ih =>
    have hr := matches_answer hA hB fuel h r
    obtain ⟨W', hw⟩ := hr.atRest
    have hrest := ih hw
    rw [session, session]
    generalize m.answer A fuel r = a at hr hrest
    generalize n.answer B fuel r = b at hr hrest
    cases hr with
    | program hab => exact .cons hab hrest
    | collect => exact hrest
  | left _ ih =>
    obtain ⟨W', hw⟩ := h.sweep .collected .idle nofun
    exact ih hw
  | right _ ih =>
    obtain ⟨W', hw⟩ := h.sweep .idle .collected nofun
    exact ih hw

theorem alike_of_likens {v w : Value} (h : W.Likens limit v w) : v.Alike (fun _ => W.Pairs) w :=
  Value.Alike.mono h fun _ _ _ ⟨_, hs, _⟩ => hs.live

theorem renamed_of_twin {p q : Pool Value} (h : Pool.Twin one W limit p q) :
    Pool.Renamed W.Pairs p q := by
  refine ⟨fun i j i' j' ⟨s, hs⟩ ⟨t, ht⟩ => W.matched (i, j) (i', j') s t hs ht, ?_⟩
  rintro i j ⟨shape, hx⟩
  obtain ⟨s, t, hs, ht, htwin⟩ := h.live (i, j) shape hx
  obtain ⟨vs, ws, hf⟩ := htwin.filled
  refine ⟨s, t, vs, ws, hs, ht, htwin.kind, htwin.table, htwin.bound, ?_, hf.left, hf.right,
    fun k => alike_of_likens (hf.likens k)⟩
  rw [htwin.parent_left, htwin.parent_right]
  cases hy : shape.parent with
  | none => exact .none
  | some y => exact .some (W.around _ _ y hx hy)

theorem Agree.same {a b : Except Abrupt Value × Machine} (h : Agree one limit x a b) :
    Same a b := by
  obtain ⟨W, hw, he⟩ := h
  refine ⟨W.Pairs, renamed_of_twin hw.pool, ?_, ?_⟩
  · obtain ⟨parent, hx⟩ := hw.global
    rw [hw.global_left, hw.global_right]
    exact ⟨_, hx⟩
  · generalize a.1 = r at he
    generalize b.1 = s at he
    cases he with
    | ok hv => exact alike_of_likens hv
    | error h =>
      cases h with
      | thrown hv => exact alike_of_likens hv
      | malformed | tooNested | deep => rfl
      | outOfFuel => trivial

/-- Whatever the options that say when memory is claimed and freed, and whenever garbage is
collected between programs, every program has the same outcome up to a renaming of scopes. -/
theorem memory_is_invisible (o : Options) (threshold slack : Option Nat) (fuel : Nat)
    (rs rs' : List Request)
    (h : rs.filter Request.isProgram = rs'.filter Request.isProgram) :
    ∃ m n, start o = .ok m ∧
      start { o with gcThreshold := threshold, growthSlack := slack } = .ok n ∧
      List.Forall₂ Same (outcomes (session .byAddress fuel m rs))
        (outcomes (session .byAddress fuel n rs')) := by
  obtain ⟨m, n, W, x, hm, hn, hrest⟩ := atRest_start False o
    { o with gcThreshold := threshold, growthSlack := slack } rfl rfl nofun
  have hall := agree_outcomes Exec.faithful_byAddress Exec.faithful_byAddress fuel hrest
    (aligned_of_filter h)
  exact ⟨m, n, hm, hn, hall.imp fun _ _ hab => hab.same⟩

/-- A script and code for `eval`, in one of two sessions with a collection after each. -/
theorem memory_is_invisible_to_two_programs :
    let first := Request.script "first.js" "var x = 7;"
    let second := Request.eval "x + 1;" false
    ∃ m n, start .unset = .ok m ∧
      start { Options.unset with gcThreshold := some 1, growthSlack := some 0 } = .ok n ∧
      List.Forall₂ Same (outcomes (session .byAddress amplyFuelled m [first, second]))
        (outcomes (session .byAddress amplyFuelled n [first, .collect, second, .collect])) :=
  memory_is_invisible .unset (some 1) (some 0) amplyFuelled _ _ rfl

end Machine

end ScopeChain
