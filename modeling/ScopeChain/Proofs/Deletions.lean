import ScopeChain.Proofs.DeclaredNames
import ScopeChain.Proofs.Seals
import ScopeChain.Proofs.Sessions
import ScopeChain.Proofs.Upkeep

/-! Which global names sloppy code can delete. A script that starts makes undeletable what it
declares and whatever else the global scope binds by then; nothing else that code does has a part
in it. -/
namespace ScopeChain

open Code (FunctionCode)
open Exec (Access)

namespace Machine

/-- Whether the global scope binds a name. -/
def bindsGlobal (m : Machine) (n : Name) : Bool := m.heap.pool.binds m.global n

/-- A look-up of a name from the scope that is active ends in the global scope. -/
def SeesGlobal (m : Machine) (n : Name) : Prop :=
  ∃ slot, m.heap.pool.lookup m.active n = .ok (some (m.global, slot))

/-- The machine without a global name. -/
def withoutGlobal (m : Machine) (n : Name) : Machine :=
  { m with heap := { m.heap with pool := m.heap.pool.update m.global (·.erase n) } }

/-- To delete a global name gives `false` and changes nothing if the name is fixed. Otherwise it
gives `true`, and the name is bound no more. -/
structure DeletesAs (isFixed : Bool) (n : Name) (m : Machine) : Prop where
  run : (Exec.deleteName (.dynamic n)).run m =
    (.ok (.bool !isFixed), if isFixed then m else m.withoutGlobal n)
  binds : ((Exec.deleteName (.dynamic n)).run m).2.bindsGlobal n = isFixed

/-- Sloppy code deletes a global name as it is told which names are fixed. -/
def DeletesBy (isFixed : Name → Bool) (n : Name) (m : Machine) : Prop :=
  m.strict = false → m.SeesGlobal n → m.DeletesAs (isFixed n) n

/-- Whether a request makes a global name undeletable: a script that compiles does so for the names
that it declares and for those that are bound when it starts. -/
def fixes (m : Machine) (n : Name) : Request → Bool
  | .script file text =>
    match (Compilation.script m.options file text m.names).1 with
    | .ok _ =>
      (Parser.parse file text m.options.isStrict m.names).program.declaredNames.contains n ||
        m.bindsGlobal n
    | .error _ => false
  | .eval .. | .collect => false

/-- Whether one of some requests makes a global name undeletable. -/
def fixesAmong (fuel : Nat) (n : Name) : Machine → List Request → Bool
  | _, [] => false
  | m, r :: rs => m.fixes n r || fixesAmong fuel n (m.answer .byAddress fuel r).2 rs

/-- The names that are bound in the global scope for good from the start. -/
def isPredefined (n : Name) : Bool := n = .undefined || n = .this

/-- The machine after some requests. -/
def following (m : Machine) (fuel : Nat) (rs : List Request) : Machine :=
  rs.foldl (fun m r => (m.answer .byAddress fuel r).2) m

end Machine

namespace Exec

open Classical in
/-- Looks every name up. A deletion that breaks a law is carried out in another way. -/
noncomputable def Access.lawful (law : Name → Machine → Prop) (other : Name → Exec Value) :
    Access :=
  { Access.byName with
    deleteName := fun u m =>
      if law u.name m then Exec.deleteName (.dynamic u.name) m else other u.name m }

variable {limit : Nat} {g : ScopeId} {F : Name → Bool} {n : Name} {m : Machine}

theorem deletesBy_of_holds (h : (Regime.sealing limit g F).Holds m) (n : Name) :
    Machine.DeletesBy F n m := by
  rintro hstrict ⟨slot, hlook⟩
  obtain rfl : m.global = g := h.global
  have hdelete := h.scopes.run_delete n
  have hrun : (deleteName (.dynamic n)).run m =
      (.ok (.bool !F n), if F n then m else m.withoutGlobal n) := by
    rw [deleteName, run_bind_of_ok (run_get m)]
    dsimp only
    rw [run_bind_of_ok (run_ask_of_ok hlook)]
    dsimp only
    cases hn : F n with
    | true =>
      rw [hn, if_pos rfl] at hdelete
      rw [run_bind_of_ok (run_onScopes_of_ok hdelete), run_bind_of_ok (run_get m), hstrict]
      rfl
    | false =>
      rw [hn, if_neg Bool.false_ne_true] at hdelete
      rw [run_bind_of_ok (run_onScopes_of_ok hdelete)]
      rfl
  refine ⟨hrun, ?_⟩
  rw [hrun]
  cases hn : F n with
  | true =>
    change m.heap.pool.binds m.global n = true
    exact h.scopes.binds_of_sealed hn
  | false =>
    change (m.heap.pool.update m.global (·.erase n)).binds m.global n = false
    exact h.scopes.binds_erase n

theorem concur_lawful (other : Name → Exec Value) :
    Access.Concur (.sealing limit g F) (.lawful (Machine.DeletesBy F) other) .byName := by
  have hnames := concur_byName (.sealing limit g F)
  refine { hnames with deleteName := fun u m hm => ?_ }
  obtain ⟨-, hm', he⟩ := hnames.deleteName u m hm
  have hlaw := deletesBy_of_holds hm u.name
  exact ⟨if_pos hlaw, hm', he⟩

/-- What holds of a machine holds after something is done for each item of a list, if each is done
without failing and it holds after each. -/
theorem exists_run_forM {ι : Type} {P : Machine → Prop} {f : ι → Exec PUnit} (is : List ι)
    (hf : ∀ i ∈ is, ∀ m, P m → ∃ m', (f i).run m = (.ok ⟨⟩, m') ∧ P m') (hm : P m) :
    ∃ m', (is.forM f).run m = (.ok ⟨⟩, m') ∧ P m' := by
  induction is generalizing m with
  | nil => exact ⟨m, rfl, hm⟩
  | cons i is ih =>
    obtain ⟨m₁, hrun, hm₁⟩ := hf i List.mem_cons_self m hm
    obtain ⟨m₂, hrun', hm₂⟩ := ih (fun j hj => hf j (List.mem_cons_of_mem i hj)) hm₁
    exact ⟨m₂, (run_bind_of_ok hrun).trans hrun', hm₂⟩

theorem run_declareAll (h : (Regime.sealing limit g F).Holds m) (ns : List Name) :
    ∃ m', (declareAll g ns).run m = (.ok ⟨⟩, m') ∧ (Regime.sealing limit g F).Holds m' ∧
      ∀ n, m'.bindsGlobal n = (m.bindsGlobal n || ns.contains n) := by
  induction ns generalizing m with
  | nil => exact ⟨m, rfl, h, fun n => by simp⟩
  | cons a ns ih =>
    obtain ⟨b, q, hrun, hq, hbinds⟩ := h.scopes.run_declare a
    obtain ⟨m', hrest, hm', hbinds'⟩ := ih (h.onPool hq)
    refine ⟨m', ?_, hm', fun n => ?_⟩
    · have hstep : (do let _ ← onScopes (.declare g a) : Exec PUnit).run m =
          (.ok ⟨⟩, { m with heap := { m.heap with pool := q } }) := by
        rw [run_bind_of_ok (run_onScopes_of_ok hrun)]
        rfl
      exact (run_bind_of_ok hstep).trans hrest
    · rw [hbinds', Machine.bindsGlobal, Machine.bindsGlobal, h.global]
      change (q.binds g n || ns.contains n) = _
      rw [hbinds, List.contains_cons, Bool.or_assoc]
      rfl

/-- A script that starts gives its functions to names that it has declared, and then seals all that
the global scope binds. -/
theorem run_hoist {Γ : List Frame} {e : Code.Entry} (h : (Regime.sealing limit g F).Holds m)
    (he : e.mode = .global)
    (hh : ∀ f ∈ e.hoisted, f.code.Fits limit Γ ∧ m.bindsGlobal f.name = true) :
    ∃ m', (hoist e g).run m = (.ok ⟨⟩, m') ∧ (Regime.sealing limit g m.bindsGlobal).Holds m' := by
  -- No function declares a name by being stored: what is bound stays as it was found.
  have hgive : ∀ f ∈ e.hoisted, ∀ n, ((Regime.sealing limit g F).Holds n ∧
      n.bindsGlobal = m.bindsGlobal) → ∃ n', (do
        let v ← closure f.code g
        onScopes (.setValue g f.name v)).run n = (.ok ⟨⟩, n') ∧
      (Regime.sealing limit g F).Holds n' ∧ n'.bindsGlobal = m.bindsGlobal := by
    intro f hf n ⟨hn, hsame⟩
    obtain ⟨hfits, hbound⟩ := hh f hf
    rw [← hsame, Machine.bindsGlobal, hn.global] at hbound
    have hv : (Value.function n.nextObject f.code g).Fits limit := .function _ ⟨Γ, hfits⟩
    obtain ⟨q, hrun, hq, hbinds⟩ := hn.scopes.run_setValue hbound hv
    have hnew : (closure f.code g).run n = (.ok (.function n.nextObject f.code g),
        { n with nextObject := n.nextObject + 1 }) := rfl
    refine ⟨_, (run_bind_of_ok hnew).trans (run_onScopes_of_ok hrun), ?_, ?_⟩
    · exact ⟨hn.depth, hn.global, hq⟩
    · rw [← hsame]
      funext a
      rw [Machine.bindsGlobal, Machine.bindsGlobal, hn.global]
      exact hbinds a
  obtain ⟨n, hrun, hn, hsame⟩ := exists_run_forM e.hoisted hgive ⟨h, rfl⟩
  obtain ⟨q, hfreeze, hq, -⟩ := hn.scopes.run_freeze
  have hbinds : n.heap.pool.binds g = m.bindsGlobal := by
    rw [← hsame]
    funext a
    rw [Machine.bindsGlobal, hn.global]
    rfl
  rw [hbinds] at hq
  refine ⟨{ n with heap := { n.heap with pool := q } }, ?_, hn.depth, hn.global, hq⟩
  rw [hoist]
  simp only [he, if_true]
  exact (run_bind_of_ok hrun).trans (run_onScopes_of_ok hfreeze)

/-- After the start of a script its statements run under the new seals. -/
theorem concursFrom_script {code : FunctionCode} (other : Name → Exec Value)
    (h : (Regime.sealing limit g F).Holds m) (ha : m.active = g)
    (hc : code.FitsProgram limit .global) (fuel : Nat) (F' : Name → Bool)
    (hF : ∀ n, F' n = (m.bindsGlobal n || code.entry.names.contains n)) :
    ConcursFrom (.sealing limit g F') (fun _ => True) m
      (runProgram (.lawful (Machine.DeletesBy F') other) fuel code)
      (runProgram .byName fuel code) := by
  obtain ⟨m₁, hdeclare, hm₁, hbinds⟩ := run_declareAll h code.entry.names
  have henter : (enter code.entry).run m = (.ok g, m₁) := by
    rw [enter, run_bind_of_ok (run_get m)]
    simp only [hc.mode_eq, ha]
    exact run_bind_of_ok hdeclare
  -- Until the global scope is frozen the old seals hold; no name is used in the meantime.
  refine .after henter (.within ?_)
  have hm₂ : (Regime.sealing limit g F).Holds
      { m₁ with active := g, strict := code.strict, saved := m₁.active :: m₁.saved } :=
    ⟨hm₁.depth, hm₁.global, hm₁.scopes⟩
  have hsame : F' = Machine.bindsGlobal
      { m₁ with active := g, strict := code.strict, saved := m₁.active :: m₁.saved } := by
    funext n
    exact (hF n).trans (hbinds n).symm
  have hhoisted : ∀ f ∈ code.entry.hoisted, f.code.Fits limit [] ∧ F' f.name = true := by
    intro f hf
    refine ⟨hc.hoisted f hf, ?_⟩
    rw [hF, Bool.or_eq_true, List.contains_iff_mem]
    exact .inr (List.mem_of_getElem? (hc.hoisted_name f hf))
  rw [hsame] at hhoisted
  obtain ⟨m₃, hrun, hm₃⟩ := run_hoist hm₂ hc.mode_eq hhoisted
  rw [← hsame] at hm₃
  exact .after hrun (concurs_runStmts (concur_lawful other) fuel hc.body m₃ hm₃)

end Exec

namespace Machine

variable {limit : Nat} {g : ScopeId} {F F' : Name → Bool} {m : Machine}

theorem execute_of_concurs {R : Regime} {A B : Access} {code : FunctionCode}
    (h : Exec.ConcursFrom R (fun _ => True) { m with completion := .undefined }
      (Exec.runProgram A fuel code) (Exec.runProgram B fuel code)) :
    m.execute fuel code A = m.execute fuel code B ∧ R.Holds (m.execute fuel code B).2 := by
  obtain ⟨hrun, hm, -⟩ := h
  rw [execute_eq, execute_eq, hrun]
  exact ⟨rfl, hm⟩

theorem compileAndRun_of_ok {file text : String} {strict eval : Bool} {c : Compiled}
    (h : (Compilation.ofText m.options file text strict eval m.names).1 = .ok c) (A : Access) :
    m.compileAndRun A fuel file text strict eval = { m with
      names := (Compilation.ofText m.options file text strict eval m.names).2 }.execute fuel c.code
        A := by
  rw [compileAndRun]
  dsimp only
  rw [h]

theorem compileAndRun_of_error {file text : String} {strict eval : Bool} {e : CompileError}
    (h : (Compilation.ofText m.options file text strict eval m.names).1 = .error e) (A : Access) :
    m.compileAndRun A fuel file text strict eval = (.error (.compile e), { m with
      names := (Compilation.ofText m.options file text strict eval m.names).2 }) := by
  rw [compileAndRun]
  dsimp only
  rw [h]

theorem or_fixes_script {file text : String} {c : Compiled}
    (h : (Regime.sealing limit g F).Holds m)
    (hc : (Compilation.ofText m.options file text m.options.isStrict false m.names).1 = .ok c)
    (n : Name) : (F n || m.fixes n (.script file text)) =
      (m.bindsGlobal n || c.code.entry.names.contains n) := by
  have hbound : F n = true → m.bindsGlobal n = true := by
    rw [bindsGlobal, h.global]
    exact h.scopes.binds_of_sealed
  have hnames := Compilation.mem_names_ofText hc n
  rw [fixes, Compilation.script, hc, Bool.eq_iff_iff]
  simp only [Bool.or_eq_true, List.contains_iff_mem, hnames]
  constructor
  · rintro (hn | hn | hn)
    · exact .inl (hbound hn)
    · exact .inr hn
    · exact .inl hn
  · rintro (hn | hn)
    · exact .inr (.inr hn)
    · exact .inr (.inl hn)

variable (other : Name → Exec Value)

/-- A script that compiles runs under the seals that it makes; any other makes none. -/
theorem runScript_lawful (h : (Regime.sealing limit g F).Holds m) (ha : m.active = g) (fuel : Nat)
    (file text : String) (hF : ∀ n, F' n = (F n || m.fixes n (.script file text))) :
    m.runScript fuel file text (.lawful (DeletesBy F') other) = m.runScript fuel file text .byName ∧
      (Regime.sealing limit g F').Holds (m.runScript fuel file text .byName).2 := by
  rw [runScript_eq, runScript_eq]
  cases hc : (Compilation.ofText m.options file text m.options.isStrict false m.names).1 with
  | ok c =>
    have hfits := Compilation.fitsProgram_ofText hc
    rw [h.depth] at hfits
    rw [compileAndRun_of_ok hc, compileAndRun_of_ok hc]
    exact execute_of_concurs (Exec.concursFrom_script other (h.started _) ha hfits fuel F' fun n =>
      (hF n).trans (or_fixes_script h hc n))
  | error e =>
    have hsame : F' = F := by
      funext n
      rw [hF, fixes, Compilation.script, hc, Bool.or_false]
    rw [compileAndRun_of_error hc, compileAndRun_of_error hc, hsame]
    exact ⟨rfl, h.depth, h.global, h.scopes⟩

/-- Code for `eval` makes no seals. -/
theorem compileAndRun_eval_lawful (h : (Regime.sealing limit g F).Holds m) (fuel : Nat)
    (file text : String) (strict : Bool) :
    m.compileAndRun (.lawful (DeletesBy F) other) fuel file text strict true =
        m.compileAndRun .byName fuel file text strict true ∧
      (Regime.sealing limit g F).Holds (m.compileAndRun .byName fuel file text strict true).2 := by
  cases hc : (Compilation.ofText m.options file text strict true m.names).1 with
  | ok c =>
    have hfits := Compilation.fitsProgram_ofText hc
    rw [h.depth] at hfits
    rw [compileAndRun_of_ok hc, compileAndRun_of_ok hc]
    exact execute_of_concurs
      (Exec.concurs_runProgram (Exec.concur_lawful other) fuel hfits _ (h.started _))
  | error e =>
    rw [compileAndRun_of_error hc, compileAndRun_of_error hc]
    exact ⟨rfl, h.depth, h.global, h.scopes⟩

theorem answer_lawful (h : (Regime.sealing limit g F).Holds m) (ha : m.active = g) (fuel : Nat)
    (r : Request) (hF : ∀ n, F' n = (F n || m.fixes n r)) :
    m.answer (.lawful (DeletesBy F') other) fuel r = m.answer .byName fuel r ∧
      (Regime.sealing limit g F').Holds (m.answer .byName fuel r).2 := by
  cases r with
  | script file text =>
    obtain ⟨hrun, hm⟩ := runScript_lawful other h ha fuel file text hF
    rw [answer, answer, hrun]
    exact ⟨rfl, hm⟩
  | eval text strict =>
    have hsame : F' = F := funext fun n => (hF n).trans (Bool.or_false _)
    obtain ⟨hrun, hm⟩ := compileAndRun_eval_lawful other h fuel Compilation.evalFile text
      (strict || m.options.isStrict)
    rw [hsame, answer_eval, answer_eval, hrun]
    exact ⟨rfl, hm⟩
  | collect =>
    have hsame : F' = F := funext fun n => (hF n).trans (Bool.or_false _)
    rw [hsame]
    exact ⟨rfl, h.collected⟩

/-- A machine at rest, in whose global scope just the names in `F` are sealed. -/
structure RestsSealing (limit : Nat) (x : Pairing) (F : Name → Bool) (m : Machine) : Prop where
  atRest : ∃ W, AtRest True W limit x m m
  sealing : (Regime.sealing limit x.1 F).Holds m

theorem RestsSealing.answer {x : Pairing} (h : RestsSealing limit x F m) (fuel : Nat) (r : Request)
    (hF : ∀ n, F' n = (F n || m.fixes n r)) :
    m.answer (.lawful (DeletesBy F') other) fuel r = m.answer .byAddress fuel r ∧
      RestsSealing limit x F' (m.answer .byAddress fuel r).2 := by
  obtain ⟨W, hrest⟩ := h.atRest
  -- The law is one of look-ups by name; between requests these do what addresses do.
  have hfaithful := Exec.faithful_byAddress
  have hname := (matches_answer Exec.faithful_byName hfaithful fuel hrest r).eq
  have hrest' := (matches_answer hfaithful hfaithful fuel hrest r).atRest
  obtain ⟨hrun, hm⟩ := answer_lawful other h.sealing hrest.active_left fuel r hF
  rw [hname] at hrun hm
  exact ⟨hrun, hrest', hm⟩

/-- What becomes of the deletions in a request follows from all requests so far, itself included. -/
theorem RestsSealing.following {x : Pairing} (h : RestsSealing limit x F m) (fuel : Nat)
    (before : List Request) (r : Request)
    (hF : ∀ n, F' n = (F n || fixesAmong fuel n m (before ++ [r]))) :
    (m.following fuel before).answer (.lawful (DeletesBy F') other) fuel r =
      (m.following fuel before).answer .byAddress fuel r := by
  induction before generalizing m F with
  | nil =>
    refine (h.answer other fuel r fun n => ?_).1
    rw [hF, List.nil_append, fixesAmong, fixesAmong, Bool.or_false]
  | cons a before ih =>
    obtain ⟨-, hnext⟩ := h.answer other fuel a fun n => rfl
    refine ih hnext fun n => ?_
    rw [hF, List.cons_append, fixesAmong, Bool.or_assoc]

theorem seals_newGlobalScope (limit : Nat) (l : Limits) :
    ∃ id p, newGlobalScope.run (.empty l) = (.ok id, p) ∧ p.Seals limit id isPredefined ∧
      p.binds id = isPredefined := by
  let p : Pool Value := .empty l
  let s : Scope Value := (Scope.ofTable .global none (.ofNames [])).materialize
  have hmake : PoolM.newGlobalInstance.run p = (.ok p.next, (p.insert s).2) :=
    PoolM.run_materialized (PoolM.run_newDescriptor_none [] rfl p)
  have hfind : (p.insert s).2.find? p.next = some s := p.find?_insert_next s
  have hslot (n : Name) : s.slot? n = none := by
    rw [← Option.not_isSome_iff_eq_none]
    exact fun h => nomatch Scope.slot?_ofNames_isSome.mp h
  have hempty : (p.insert s).2.Seals limit p.next fun _ => false := by
    refine ⟨(Pool.each_empty l).insert (Maker.fits_scope .globalInstance), s, hfind, rfl, rfl, ?_⟩
    intro n
    change (s.slot? n).any _ = false
    rw [hslot, Option.any_none]
  obtain ⟨a, p₁, h₁, hseals₁, hbinds₁⟩ := hempty.run_declare .undefined
  obtain ⟨b, p₂, h₂, hseals₂, hbinds₂⟩ := hseals₁.run_declare .this
  obtain ⟨p₃, h₃, hseals₃, hbinds₃⟩ := hseals₂.run_freeze
  have hbound : p₂.binds p.next = isPredefined := by
    funext n
    rw [hbinds₂, hbinds₁, Pool.binds, hfind, Option.any_some, hslot]
    rfl
  rw [hbound] at hseals₃
  refine ⟨p.next, p₃, ?_, hseals₃, (funext hbinds₃).trans hbound⟩
  rw [newGlobalScope, run_bind_of_ok hmake, run_bind_of_ok h₁, run_bind_of_ok h₂,
    run_bind_of_ok h₃]
  rfl

theorem restsSealing_start (o : Options) :
    ∃ m x, start o = .ok m ∧ RestsSealing o.limits.maxDepth x isPredefined m := by
  obtain ⟨m, n, W, x, hm, hn, hrest⟩ := atRest_start True o o rfl rfl fun _ => rfl
  cases hm.symm.trans hn
  obtain ⟨id, p, hp, hseals, -⟩ := seals_newGlobalScope o.limits.maxDepth o.limits
  refine ⟨m, x, hm, ⟨W, hrest⟩, hrest.depth_left, hrest.global_left, ?_⟩
  have hglobal := hrest.global_left
  cases (start_of_run hp).symm.trans hm
  rw [← hglobal]
  exact hseals

/-- However a session goes, sloppy code that deletes a global name in the next request gets `false`
if the name is `undefined` or `this`, or if some script that compiled among the requests so far, the
present one included, declares it or started while it was bound; and else it gets `true` and the
name is unbound. Whatever were done at a deletion that goes otherwise, it would never be done. -/
theorem deletions_follow_history (o : Options) (fuel : Nat) (before : List Request) (r : Request) :
    ∃ m, start o = .ok m ∧
      let isFixed n := isPredefined n || fixesAmong fuel n m (before ++ [r])
      ∀ other, (m.following fuel before).answer (.lawful (DeletesBy isFixed) other) fuel r =
        (m.following fuel before).answer .byAddress fuel r := by
  obtain ⟨m, x, hm, h⟩ := restsSealing_start o
  exact ⟨m, hm, fun other => h.following other fuel before r fun _ => rfl⟩

/-- A name that comes about by assignment can be deleted by the script that assigned it, but not by
the next one. -/
theorem next_script_seals_assigned_name :
    let x : Code.Use := ⟨⟨4⟩, .dynamic ⟨4⟩⟩
    let script (body : List Code.Expr) : FunctionCode :=
      ⟨none, [], none, none, none, ⟨[], [], .global⟩, body.map .expr, false, ⟨0, 0⟩⟩
    let truth (a : Except Abrupt Value × Machine) : Option Bool :=
      match a.1 with
      | .ok (.bool b) => some b
      | _ => none
    (start .unset).toOption.map (fun m =>
      let next := (m.execute 3 (script [.store x .null])).2
      (truth (m.execute 3 (script [.store x .null, .deleteName x])),
        truth (next.execute 3 (script [.deleteName x])))) = some (some true, some false) := by
  decide +kernel

end Machine

end ScopeChain
