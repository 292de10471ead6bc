import ScopeChain.Proofs.Observance

/-! The global names of a session. Those that are there from the start stay, and `this` is
`undefined` all the while; where all code is strict, only the declarations of scripts add others. -/
namespace ScopeChain

open Code (FunctionCode)
open Machine (isPredefined newGlobalScope)

variable {C : Conduct} {m : Machine} {p : Pool Value} {s : Scope Value} {g : ScopeId} {n : Name}

/-- A scope in which nothing has got a value yet. -/
structure Scope.Blank (s : Scope Value) : Prop extends s.Tidy where
  filled : s.values.isSome = true
  blank : ∀ k, s.valueAt k = .undefined

theorem Scope.Blank.proper (h : s.Blank) (limit : Nat) (strict : Bool) : s.Proper limit strict := by
  refine ⟨h.toTidy, h.filled, fun k => ?_⟩
  rw [h.blank]
  exact .undefined

theorem Scope.Blank.declareHoisted (h : s.Blank) (slack : Nat) (n : Name) :
    (s.declareHoisted slack n none).2.Blank := by
  refine ⟨h.toTidy.declareHoisted slack n none, ?_, fun k => ?_⟩
  · rw [isSome_values_declareHoisted]
    exact h.filled
  · rw [valueAt_declareHoisted]
    exact h.blank k

theorem Scope.Blank.freeze (h : s.Blank) : s.freeze.Blank := ⟨h.toTidy.freeze, h.filled, h.blank⟩

namespace Pool

theorem Each.blank_change (h : p.Each Scope.Blank) {c : Change Value}
    (hc : ∀ slack s, s.Blank → (c.apply slack s).Blank) (id : ScopeId) :
    ((c.run id).run p).2.Each Scope.Blank := by
  have hguarded : p.Each Scope.Guarded :=
    h.imp fun _ hs => hs.toTidy.toGuarded
  have hr := runs_change hguarded id c
  generalize (c.run id).run p = a at hr ⊢
  cases hr with
  | refused => exact h
  | @landed t s ht hs => exact h.update hs (hc _ s (h t s hs))

theorem blank_bind {α β : Type} {f : PoolM Value α} {h : α → PoolM Value β}
    (hf : (f.run p).2.Each Scope.Blank)
    (hh : ∀ a q, q.Each Scope.Blank → ((h a).run q).2.Each Scope.Blank) :
    ((f >>= h).run p).2.Each Scope.Blank := by
  rcases hrun : f.run p with ⟨r, q⟩
  rw [hrun] at hf
  cases r with
  | ok a =>
    rw [run_bind_of_ok hrun]
    exact hh a q hf
  | error e =>
    rw [run_bind_of_error hrun]
    exact hf

theorem blank_newGlobalScope (l : Limits) :
    (newGlobalScope.run (.empty l : Pool Value)).2.Each Scope.Blank := by
  have hmake : PoolM.newGlobalInstance.run (.empty l : Pool Value) = _ :=
    PoolM.run_materialized (PoolM.run_newDescriptor_none [] rfl _)
  have hmade : (PoolM.newGlobalInstance.run (.empty l : Pool Value)).2.Each Scope.Blank := by
    rw [hmake]
    have hkind : ScopeKind.global = .catch → (none : Option ScopeId).isSome = true :=
      ScopeKind.noConfusion
    refine (each_empty l).insert ⟨(Scope.tidy_ofTable hkind).materialize, rfl, fun k => ?_⟩
    exact Scope.valueAt_materialize k
  have hdeclare (id : ScopeId) (n : Name) (q : Pool Value) (hq : q.Each Scope.Blank) :
      ((PoolM.declare id n).run q).2.Each Scope.Blank := by
    rw [Exec.snd_run_declare]
    exact hq.blank_change (c := .declare n none) (fun slack _ hs => hs.declareHoisted slack n) id
  have hfreeze (id : ScopeId) (q : Pool Value) (hq : q.Each Scope.Blank) :
      ((PoolM.freeze id).run q).2.Each Scope.Blank :=
    hq.blank_change (c := .freeze) (fun _ _ hs => hs.freeze) id
  refine blank_bind hmade fun g q hq => blank_bind (hdeclare g _ q hq) fun _ q hq => ?_
  refine blank_bind (hdeclare g _ q hq) fun _ q hq => ?_
  exact blank_bind (hfreeze g q hq) fun _ _ hq => hq

end Pool

/-- The conduct of a session at its start. -/
def Conduct.initial (limit : Nat) (global : ScopeId) (isStrict : Bool) : Conduct where
  limit
  global
  sealed := isPredefined
  strict := isStrict
  closed := isStrict
  predefined _ h := h
  strict_of_closed h := h

namespace Machine

/-- A machine at rest under a conduct. -/
structure Rests (C : Conduct) (m : Machine) : Prop where
  atRest : ∃ W x, AtRest True W C.limit x m m
  holds : C.Holds m

theorem rests_start (o : Options) :
    ∃ m, start o = .ok m ∧ m.Rests (.initial o.limits.maxDepth m.global o.isStrict) := by
  obtain ⟨m, n, W, x, hm, hn, hrest⟩ := atRest_start True o o rfl rfl fun _ => rfl
  cases hm.symm.trans hn
  obtain ⟨g, p, hp, hseals, hbinds⟩ := seals_newGlobalScope o.limits.maxDepth o.limits
  refine ⟨m, hm, ⟨W, x, hrest⟩, ?_⟩
  cases (start_of_run hp).symm.trans hm
  have hblank := Pool.blank_newGlobalScope o.limits
  rw [hp] at hblank
  obtain ⟨s, hs, hsealed⟩ := hseals.global
  have hbound (n : Name) : (s.slot? n).isSome = isPredefined n := by
    rw [← hbinds, Pool.binds, hs]
    rfl
  refine ⟨rfl, id, rfl, Interner.laws.le_refl _, ?_, s, hs, hsealed, ?_, fun _ => hbound⟩
  · exact hblank.imp fun _ hs => hs.proper _ _
  · exact fun k _ => (hblank g s hs).blank k

theorem Rests.answer (h : m.Rests C) (fuel : Nat) (r : Request) :
    (m.answer .byAddress fuel r).2.Rests (C.sealing (m.fixes · r)) := by
  obtain ⟨W, x, hrest⟩ := h.atRest
  -- A conduct is kept by look-ups by name; between requests these do what addresses do.
  have hfaithful := Exec.faithful_byAddress
  have hname := (matches_answer Exec.faithful_byName hfaithful fuel hrest r).eq
  obtain ⟨W', hrest'⟩ := (matches_answer hfaithful hfaithful fuel hrest r).atRest
  have hglobal : m.global = C.global := h.holds.global
  have hactive : m.active = C.global :=
    (hrest.active_left.trans hrest.global_left.symm).trans hglobal
  obtain ⟨-, hm⟩ := answer_of_kept (Exec.kept_byName _) h.holds hactive fuel (r := r)
  rw [hname] at hm
  exact ⟨⟨W', x, hrest'⟩, hm⟩

theorem Rests.following (h : m.Rests C) (fuel : Nat) (rs : List Request) :
    ∃ C' : Conduct, (m.following fuel rs).Rests C' := by
  induction rs generalizing m C with
  | nil => exact ⟨C, h⟩
  | cons r rs ih => exact ih (h.answer fuel r)

theorem globalValue_of_find? {text : String} (h : m.Rests C)
    (hn : Interner.wellKnown.find? text = some n) (hpredefined : isPredefined n = true) :
    ∃ (s : Scope Value) (k : Nat), s.Reigns C ∧ s.slot? n = some k ∧
      m.globalValue text = .ok (some (s.valueAt k)) := by
  obtain ⟨s, hs, hreigns⟩ := h.holds.scopes.global
  obtain ⟨vs, hvs⟩ := Option.isSome_iff_exists.mp hreigns.seals.room
  obtain ⟨k, hk⟩ :=
    Option.isSome_iff_exists.mp (hreigns.seals.slot?_isSome (C.predefined n hpredefined))
  have htidy := (h.holds.scopes.each _ s hs).toTidy
  have hglobal : m.global = C.global := h.holds.global
  refine ⟨s, k, hreigns, hk, ?_⟩
  rw [globalValue, Interner.laws.find?_of_le h.holds.names hn, hglobal]
  exact (value?_of_find? htidy hs hvs n).trans (by rw [Scope.value_of_slot? hk])

/-- However a session goes, `this` and `undefined` are global names, and the former is
`undefined`. -/
theorem predefined_names_stay (o : Options) (fuel : Nat) (rs : List Request) :
    ∃ m, start o = .ok m ∧
      (m.following fuel rs).globalValue "this" = .ok (some .undefined) ∧
      ∃ v, (m.following fuel rs).globalValue "undefined" = .ok (some v) := by
  obtain ⟨m, hm, h⟩ := rests_start o
  obtain ⟨C, hC⟩ := h.following fuel rs
  obtain ⟨s, k, hreigns, hk, hthis⟩ := globalValue_of_find? hC Interner.find?_this rfl
  obtain ⟨s', k', -, -, hundefined⟩ := globalValue_of_find? hC Interner.find?_undefined rfl
  rw [hreigns.this k hk] at hthis
  exact ⟨m, hm, hthis, _, hundefined⟩

/-- The value of the latter is up to the scripts. -/
theorem undefined_is_assigned :
    let x : Code.Use := ⟨.undefined, .dynamic .undefined⟩
    let script : FunctionCode :=
      ⟨none, [], none, none, none, ⟨[], [], .global⟩, [.expr (.store x (.bool true))], false, ⟨0, 0⟩⟩
    (start .unset).toOption.map (fun m =>
      match (m.execute 3 script).2.globalValue "undefined" with
      | .ok (some (.bool b)) => some b
      | _ => none) = some (some true) := by
  decide +kernel

/-- Whether a request is a script that compiles and declares a name. -/
def declares (m : Machine) (n : Name) : Request → Bool
  | .script file text =>
    match (Compilation.script m.options file text m.names).1 with
    | .ok c => c.code.entry.names.contains n
    | .error _ => false
  | .eval .. | .collect => false

/-- Whether one of some requests is a script that compiles and declares a name. -/
def declaredAmong (fuel : Nat) (n : Name) : Machine → List Request → Bool
  | _, [] => false
  | m, r :: rs => m.declares n r || declaredAmong fuel n (m.answer .byAddress fuel r).2 rs

theorem Rests.bindsGlobal (h : m.Rests C) (hclosed : C.closed = true) (n : Name) :
    m.bindsGlobal n = C.sealed n := by
  obtain ⟨s, hs, hreigns⟩ := h.holds.scopes.global
  have hglobal : m.global = C.global := h.holds.global
  rw [Machine.bindsGlobal, hglobal, Pool.binds, hs]
  exact hreigns.closed hclosed n

/-- Where all that is global is sealed, a request seals just what it declares. -/
theorem Rests.declares (h : m.Rests C) (hclosed : C.closed = true) (n : Name) (r : Request) :
    (C.sealed n || m.fixes n r) = (C.sealed n || m.declares n r) := by
  cases r with
  | script file text =>
    cases hc : (Compilation.script m.options file text m.names).1 with
    | ok c =>
      rw [or_fixes_script h.holds.seals hc, h.bindsGlobal hclosed, Machine.declares, hc]
    | error e => rw [fixes, Machine.declares, hc]
  | eval | collect => rfl

theorem Rests.declaredAmong (h : m.Rests C) (hclosed : C.closed = true) (fuel : Nat) (n : Name)
    (rs : List Request) :
    (m.following fuel rs).bindsGlobal n = (C.sealed n || declaredAmong fuel n m rs) := by
  induction rs generalizing m C with
  | nil => exact (h.bindsGlobal hclosed n).trans (Bool.or_false _).symm
  | cons r rs ih =>
    have hnext := ih (h.answer fuel r) hclosed
    rw [show (C.sealing (m.fixes · r)).sealed n = (C.sealed n || m.fixes n r) from rfl,
      h.declares hclosed, Bool.or_assoc] at hnext
    exact hnext

/-- In a session in which all code is strict, the global names are the predefined ones and those that
the scripts declare which compiled so far, whatever became of them when they ran. -/
theorem strict_sessions_bind_declared_names (o : Options) (ho : o.isStrict = true) (fuel : Nat)
    (rs : List Request) :
    ∃ m, start o = .ok m ∧ ∀ n,
      (m.following fuel rs).bindsGlobal n = (isPredefined n || declaredAmong fuel n m rs) := by
  obtain ⟨m, hm, h⟩ := rests_start o
  exact ⟨m, hm, fun n => h.declaredAmong ho fuel n rs⟩

/-- The names of the script are `x` and `y` in this order. -/
theorem strict_script_binds_declared_name :
    let o : Options := { Options.unset with strict := some true }
    let r : Request := .script "" "var x; y = 1;"
    o.isStrict = true ∧ ∃ m, start o = .ok m ∧ (m.following 3 [r]).bindsGlobal ⟨4⟩ = true ∧
      (m.following 3 [r]).bindsGlobal ⟨5⟩ = false := by
  intro o r
  let read := Parser.parse "" "var x; y = 1;" true .wellKnown
  have herrors : read.diagnostics.firstError?.isNone = true := by decide +kernel
  have hbinds : (Binding.ofProgram read.program false o.limits read.names).toOption.isSome = true := by
    decide +kernel
  have hdeclared : ⟨4⟩ ∈ read.program.declaredNames ∧ ⟨5⟩ ∉ read.program.declaredNames := by
    decide +kernel
  obtain ⟨c, hc, -⟩ := Compilation.exists_ofText (Option.isNone_iff_eq_none.mp herrors) hbinds
  have hnames := Compilation.mem_names_ofText hc
  obtain ⟨m, hm, hglobal⟩ := strict_sessions_bind_declared_names o rfl 3 [r]
  obtain ⟨g, p, hp⟩ := run_newGlobalScope o.limits
  have hrest (n : Name) : declaredAmong 3 n m [r] = c.code.entry.names.contains n := by
    cases (start_of_run hp).symm.trans hm
    rw [declaredAmong, declaredAmong, Bool.or_false, Machine.declares, Compilation.script,
      show o.isStrict = true from rfl, hc]
  refine ⟨rfl, m, hm, ?_, ?_⟩
  · rw [hglobal, hrest, List.contains_iff_mem.mpr ((hnames ⟨4⟩).mpr hdeclared.1), Bool.or_true]
  · rw [hglobal, hrest]
    have hnot : ⟨5⟩ ∉ c.code.entry.names := fun h => hdeclared.2 ((hnames ⟨5⟩).mp h)
    rw [← List.contains_iff_mem, Bool.not_eq_true] at hnot
    rw [hnot]
    rfl

end Machine

end ScopeChain
