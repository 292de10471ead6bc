import ScopeChain.Proofs.Obedience

/-! Programs under a conduct. A script that starts seals the names that the global scope has by
then, so that a stricter conduct begins; a program for `eval` is under the conduct that there was. -/
namespace ScopeChain

open Code (FunctionCode Part)
open Exec (Access)
open Machine (isPredefined)

variable {C : Conduct} {m : Machine} {fuel : Nat} {A B : Access} {code : FunctionCode}

namespace Conduct

/-- More names are sealed. -/
def sealing (C : Conduct) (F : Name → Bool) : Conduct :=
  { C with
    sealed := fun n => C.sealed n || F n
    predefined := fun n hn => by rw [C.predefined n hn, Bool.true_or] }

/-- Names that are not sealed may be global. -/
def opened (C : Conduct) : Conduct := { C with closed := false, strict_of_closed := nofun }

theorem Holds.opened (h : C.Holds m) : C.opened.Holds m := by
  obtain ⟨s, hs, hreigns⟩ := h.scopes.global
  exact ⟨h.depth, h.options, h.global, h.names, h.scopes.each, s, hs, hreigns.seals, hreigns.this,
    Bool.noConfusion⟩

theorem Holds.seals (h : C.Holds m) : (Regime.sealing C.limit C.global C.sealed).Holds m :=
  ⟨h.depth, h.global, h.scopes.seals⟩

theorem Holds.onPool {p : Pool Value} (h : C.Holds m) (hp : p.Obeys C) :
    C.Holds { m with heap := { m.heap with pool := p } } := ⟨h.depth, h.options, h.global, h.names, hp⟩

theorem Holds.swept (h : C.Holds m) :
    C.Holds (if m.heap.collectionDue then m.collectGarbage.2 else m) := by
  split
  · exact ⟨h.depth, h.options, h.global, h.names, h.scopes.collect (by simp [← h.global])⟩
  · exact h

theorem Holds.collected (h : C.Holds m) : C.Holds m.collectGarbage.2 :=
  ⟨h.depth, h.options, h.global, h.names, h.scopes.collect (by simp [← h.global])⟩

theorem Ready.afterStatement {running : Bool} (h : C.Ready running m) (flow : Flow) :
    C.Ready running (Exec.afterStatement flow m) := by
  have hkept : ∀ v, C.Ready running { m with completion := v } := fun _ =>
    ⟨h.holds.like rfl rfl rfl rfl, h.strict⟩
  have hswept {m : Machine} (h : C.Ready running m) :
      C.Ready running (if m.heap.collectionDue then m.collectGarbage.2 else m) := by
    refine ⟨h.holds.swept, fun hr hs => ?_⟩
    split
    · exact h.strict hr hs
    · exact h.strict hr hs
  cases flow with
  | normal v =>
    cases v with
    | none => exact hswept h
    | some v => exact hswept (hkept v)
  | «return» => exact hswept h

end Conduct

/-- A value is given to a global name that is bound. -/
theorem Pool.Obeys.run_setValue {p : Pool Value} {n : Name} {v : Value} (h : p.Obeys C)
    (hclosed : C.closed = false) (hn : p.binds C.global n = true) (hthis : n ≠ .this)
    (hv : v.Tame C.limit C.strict) : ∃ q, (PoolM.setValue C.global n v).run p = (.ok ⟨⟩, q) ∧
      q.Obeys C ∧ q.binds C.global = p.binds C.global := by
  obtain ⟨q, hrun, -, hbinds⟩ := h.seals.run_setValue hn hv.fits
  have hobeys : (((Change.setValue n v).run C.global).run p).2.Obeys C :=
    h.change fun _ _ _ _ => ⟨hv, fun _ => ⟨hclosed, hthis⟩⟩
  rw [Change.run, hrun] at hobeys
  exact ⟨q, hrun, hobeys, funext hbinds⟩

/-- All that the global scope binds is sealed. -/
theorem Pool.Obeys.freeze {p : Pool Value} {C' : Conduct} (h : p.Obeys C)
    (hlimit : C'.limit = C.limit) (hglobal : C'.global = C.global) (hstrict : C'.strict = C.strict)
    (hsealed : ∀ n, C'.sealed n = p.binds C.global n) :
    ∃ q, (PoolM.freeze C.global).run p = (.ok ⟨⟩, q) ∧ q.Obeys C' := by
  obtain ⟨s, hs, hreigns⟩ := h.global
  refine ⟨_, PoolM.run_update hs _, ?_, s.freeze, ?_, hreigns.freeze fun n => ?_⟩
  · rw [hlimit, hstrict]
    exact h.each.update hs (h.each _ s hs).freeze
  · rw [hglobal]
    exact Pool.find?_update_self hs _
  · rw [hsealed, Pool.binds, hs]
    rfl

namespace Exec

/-- The statements of a program that runs. -/
theorem minds_runStmts (hk : (C.discipline true).Kept A B) (fuel : Nat) {ss : List Code.Stmt}
    (hs : ∀ s ∈ ss, (Part.stmt s).Tame C.limit C.strict) :
    Minds (C.discipline true) (fun _ => True) (runStmts A fuel ss) (runStmts B fuel ss) := by
  induction ss with
  | nil => exact minds_pure trivial
  | cons s ss ih =>
    intro m hm
    rw [MindsFrom, run_runStmts_cons, run_runStmts_cons]
    refine ((minding hk fuel).exec (hs s List.mem_cons_self)).bind (fun flow _ => ?_) m hm
    refine Minds.bind (Q := fun _ => True) ?_ fun _ _ =>
      ih fun s hm => hs s (List.mem_cons_of_mem _ hm)
    exact fun n hn => ⟨rfl, hn.afterStatement flow, trivial⟩

theorem tame_body {mode : Code.EntryMode} (hfits : code.FitsProgram C.limit mode)
    (hcode : code.MindfulProgram C.strict) :
    ∀ s ∈ code.body, (Part.stmt s).Tame C.limit C.strict :=
  fun s hs => ⟨hcode.parts _ (List.mem_append_left _ (List.mem_map.mpr ⟨s, hs, rfl⟩)), [], _,
    hfits.body s hs⟩

/-- A program for `eval` that is run from outside all scripts. -/
theorem minds_runProgram_eval (hk : (C.discipline true).Kept A B)
    (hfits : code.FitsProgram C.limit .eval) (hcode : code.MindfulProgram C.strict) (fuel : Nat) :
    Minds (C.discipline false) (fun _ => True) (runProgram A fuel code)
      (runProgram B fuel code) := by
  intro m hm
  refine mindsFrom_enter (.eval hfits.mode_eq) hm fun scope m₁ hm₁ hhosts => ?_
  refine .within hm₁ hcode.inherits fun m₂ hheap hm₂ => ?_
  rw [← hheap] at hhosts
  exact (keeps_hoistApart hfits hcode).followed
    (fun _ _ => minds_runStmts hk fuel (tame_body hfits hcode)) hm₂ hhosts

/-- The names of a script are declared. -/
theorem enter_script (h : C.Holds m) (ha : m.active = C.global)
    (hmode : code.entry.mode = .global) : ∃ m', (enter code.entry).run m = (.ok C.global, m') ∧
      C.opened.Holds m' ∧
      ∀ n, m'.bindsGlobal n = (m.bindsGlobal n || code.entry.names.contains n) := by
  obtain ⟨m', hdeclare, -, hbinds⟩ := run_declareAll h.seals code.entry.names
  refine ⟨m', ?_, ?_, hbinds⟩
  · rw [enter, run_bind_of_ok (run_get m), hmode, ha]
    exact run_bind_of_ok hdeclare
  · have hready : C.opened.Ready false m := h.opened.ready
    obtain ⟨⟨-, hm', -⟩, -⟩ := keeps_declareAnywhere (C := C.opened) rfl C.global code.entry.names m
      hready trivial
    have hholds := hm'.holds
    rwa [show (declareAll C.global code.entry.names).run m = (.ok ⟨⟩, m') from hdeclare] at hholds

/-- The functions of a script are given to names that it has declared, and all that is bound is
sealed. -/
theorem hoist_script (C' : Conduct) (h : C.opened.Holds m)
    (hfits : code.FitsProgram C.limit .global) (hcode : code.MindfulProgram C.strict)
    (hlimit : C'.limit = C.limit) (hglobal : C'.global = C.global) (hstrict : C'.strict = C.strict)
    (hsealed : C'.sealed = m.bindsGlobal)
    (hnames : ∀ n ∈ code.entry.names, m.bindsGlobal n = true) :
    ∃ m', (hoist code.entry C.global).run m = (.ok ⟨⟩, m') ∧ C'.Holds m' ∧
      m'.strict = m.strict := by
  let Given (n : Machine) : Prop :=
    C.opened.Holds n ∧ n.heap.pool.binds C.global = C'.sealed ∧ n.strict = m.strict
  have hbegin : Given m :=
    ⟨h, by rw [hsealed, ← show m.global = C.global from h.global]; rfl, rfl⟩
  have hgive : ∀ f ∈ code.entry.hoisted, ∀ n, Given n → ∃ n', (do
      let v ← closure f.code C.global
      onScopes (.setValue C.global f.name v)).run n = (.ok ⟨⟩, n') ∧ Given n' := by
    rintro f hf n ⟨hn, hsame, hstrict⟩
    obtain ⟨htame, hthis⟩ := tame_hoisted (C := C) hfits hcode hf
    have hbound : n.heap.pool.binds C.global f.name = true := by
      rw [hsame, hsealed]
      exact hnames f.name (List.mem_of_getElem? (hfits.hoisted_name f hf))
    obtain ⟨q, hrun, hobeys, hbinds⟩ := hn.scopes.run_setValue rfl hbound hthis
      (.function n.nextObject htame)
    have hnew : (closure f.code C.global).run n = (.ok (.function n.nextObject f.code C.global),
        { n with nextObject := n.nextObject + 1 }) := rfl
    refine ⟨_, (run_bind_of_ok hnew).trans (run_onScopes_of_ok hrun), ?_, hbinds.trans hsame,
      hstrict⟩
    exact ⟨hn.depth, hn.options, hn.global, hn.names, hobeys⟩
  obtain ⟨n, hrun, hn, hsame, hkept⟩ := exists_run_forM code.entry.hoisted hgive hbegin
  obtain ⟨q, hfreeze, hq⟩ := hn.scopes.freeze hlimit hglobal hstrict (congrFun hsame.symm)
  refine ⟨{ n with heap := { n.heap with pool := q } }, ?_, ?_, hkept⟩
  · rw [hoist]
    simp only [hfits.mode_eq, if_true]
    exact (run_bind_of_ok hrun).trans (run_onScopes_of_ok hfreeze)
  · exact ⟨hlimit ▸ hn.depth, hstrict ▸ hn.options, hglobal ▸ hn.global, hn.names, hq⟩

/-- After the start of a script its statements run with more names sealed. -/
theorem mindsFrom_runProgram_script {F : Name → Bool}
    (hk : ((C.sealing F).discipline true).Kept A B) (h : C.Holds m) (ha : m.active = C.global)
    (hfits : code.FitsProgram C.limit .global) (hcode : code.MindfulProgram C.strict)
    (hF : ∀ n, (C.sealing F).sealed n = (m.bindsGlobal n || code.entry.names.contains n))
    (fuel : Nat) : MindsFrom ((C.sealing F).discipline false) (fun _ => True) m
      (runProgram A fuel code) (runProgram B fuel code) := by
  obtain ⟨m₁, henter, hm₁, hbinds⟩ := enter_script h ha hfits.mode_eq
  refine .after henter ?_
  let m₂ : Machine :=
    { m₁ with active := C.global, strict := code.strict, saved := m₁.active :: m₁.saved }
  have hm₂ : C.opened.Holds m₂ := hm₁.like rfl rfl rfl rfl
  have hsealed : (C.sealing F).sealed = m₂.bindsGlobal :=
    funext fun n => (hF n).trans (hbinds n).symm
  have hnames : ∀ n ∈ code.entry.names, m₂.bindsGlobal n = true := fun n hn =>
    (hbinds n).trans (by simp [hn])
  obtain ⟨m₃, hhoist, hm₃, hstrict⟩ :=
    hoist_script (C.sealing F) hm₂ hfits hcode rfl rfl rfl hsealed hnames
  have hready : (C.sealing F).Ready true m₃ :=
    ⟨hm₃, fun _ hs => hstrict.trans (hcode.inherits hs)⟩
  have hbody := minds_runStmts hk fuel (tame_body (C := C.sealing F) hfits hcode)
  exact .inside (fun hr => Bool.noConfusion hr) (.after hhoist (hbody m₃ hready))

end Exec

namespace Conduct

theorem sealing_eq {F : Name → Bool} (h : ∀ n, F n = false) : C.sealing F = C := by
  obtain ⟨limit, global, sealed, strict, closed, _, _⟩ := C
  have hsame : (fun n => sealed n || F n) = sealed := funext fun n => by rw [h n, Bool.or_false]
  simp only [sealing, hsame]

/-- A text has been compiled. -/
theorem Holds.named (h : C.Holds m) (file text : String) (strict eval : Bool) :
    C.Holds { m with
      names := (Compilation.ofText m.options file text strict eval m.names).2 } :=
  ⟨h.depth, h.options, h.global,
    Interner.laws.le_trans h.names (Parser.le_names_parse file text strict m.names), h.scopes⟩

/-- The run of a program begins. -/
theorem Holds.started (h : C.Holds m) : C.Holds { m with completion := .undefined } :=
  ⟨h.depth, h.options, h.global, h.names, h.scopes⟩

end Conduct

namespace Machine

theorem execute_of_minds (h : Exec.MindsFrom (C.discipline false) (fun _ => True)
      { m with completion := .undefined } (Exec.runProgram A fuel code)
      (Exec.runProgram B fuel code)) :
    m.execute fuel code A = m.execute fuel code B ∧ C.Holds (m.execute fuel code B).2 := by
  obtain ⟨hrun, hm, -⟩ := h
  rw [execute_eq, execute_eq, hrun]
  exact ⟨rfl, hm.holds⟩

/-- A script that compiles runs under the conduct that its start makes; any other makes none. -/
theorem runScript_of_kept {file text : String}
    (hk : ((C.sealing (m.fixes · (.script file text))).discipline true).Kept A B)
    (h : C.Holds m) (ha : m.active = C.global) (fuel : Nat) :
    m.runScript fuel file text A = m.runScript fuel file text B ∧
      (C.sealing (m.fixes · (.script file text))).Holds (m.runScript fuel file text B).2 := by
  rw [runScript_eq, runScript_eq]
  cases hc : (Compilation.ofText m.options file text m.options.isStrict false m.names).1 with
  | ok c =>
    have hfits := Compilation.fitsProgram_ofText hc
    rw [h.depth] at hfits
    have hcode := Compilation.mindful_ofText h.names h.options hc
    have hstarted := (h.named file text m.options.isStrict false).started
    rw [compileAndRun_of_ok hc, compileAndRun_of_ok hc]
    refine execute_of_minds (Exec.mindsFrom_runProgram_script hk hstarted ha hfits hcode ?_ fuel)
    exact fun n => or_fixes_script h.seals hc n
  | error e =>
    rw [compileAndRun_of_error hc, compileAndRun_of_error hc, Conduct.sealing_eq fun n => by
      rw [fixes, Compilation.script, hc]]
    exact ⟨rfl, h.named file text m.options.isStrict false⟩

/-- Code for `eval` runs under the conduct that there is. -/
theorem compileAndRun_eval_of_kept (hk : (C.discipline true).Kept A B) (h : C.Holds m)
    (fuel : Nat) (file text : String) {strict : Bool}
    (hs : m.options.isStrict = true → strict = true) :
    m.compileAndRun A fuel file text strict true = m.compileAndRun B fuel file text strict true ∧
      C.Holds (m.compileAndRun B fuel file text strict true).2 := by
  cases hc : (Compilation.ofText m.options file text strict true m.names).1 with
  | ok c =>
    have hfits := Compilation.fitsProgram_ofText hc
    rw [h.depth] at hfits
    have hcode := Compilation.mindful_ofText h.names (fun hC => hs (h.options hC)) hc
    rw [compileAndRun_of_ok hc, compileAndRun_of_ok hc]
    have hready := (h.named file text strict true).started.ready
    exact execute_of_minds (Exec.minds_runProgram_eval hk hfits hcode fuel _ hready)
  | error e =>
    rw [compileAndRun_of_error hc, compileAndRun_of_error hc]
    exact ⟨rfl, h.named file text strict true⟩

/-- The conduct after a request. -/
theorem answer_of_kept {r : Request}
    (hk : ((C.sealing (m.fixes · r)).discipline true).Kept A B) (h : C.Holds m)
    (ha : m.active = C.global) (fuel : Nat) :
    m.answer A fuel r = m.answer B fuel r ∧
      (C.sealing (m.fixes · r)).Holds (m.answer B fuel r).2 := by
  cases r with
  | script file text =>
    obtain ⟨hrun, hm⟩ := runScript_of_kept hk h ha fuel
    rw [answer, answer, hrun]
    exact ⟨rfl, hm⟩
  | eval text strict =>
    have hsame : C.sealing (m.fixes · (.eval text strict)) = C := Conduct.sealing_eq fun _ => rfl
    rw [hsame] at hk ⊢
    have hstrict : m.options.isStrict = true → (strict || m.options.isStrict) = true := fun hs => by
      rw [hs, Bool.or_true]
    obtain ⟨hrun, hm⟩ := compileAndRun_eval_of_kept hk h fuel Compilation.evalFile text hstrict
    rw [answer_eval, answer_eval, hrun]
    exact ⟨rfl, hm⟩
  | collect =>
    have hsame : C.sealing (m.fixes · .collect) = C := Conduct.sealing_eq fun _ => rfl
    rw [hsame]
    exact ⟨rfl, h.collected⟩

end Machine

end ScopeChain
