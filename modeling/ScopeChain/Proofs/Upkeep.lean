import ScopeChain.Proofs.Regimes

/-! Evaluation under a regime: it is kept up by all code that fits, and two ways to carry out the
uses of names that do the same under the regime make no difference to the code. -/
namespace ScopeChain

open Code (CatchCode Entry EntryMode FunctionCode)

/-- The value of a statement, if there is one, fits. -/
def Flow.Fits (limit : Nat) : Flow → Prop
  | .normal v => ∀ w ∈ v, w.Fits limit
  | .return v => v.Fits limit

theorem Value.fits_none {limit : Nat} : ∀ v ∈ (none : Option Value), v.Fits limit := nofun

namespace Exec

variable {R : Regime} {f g : Exec Flow} {h h' : Value → Exec Flow}

theorem Concurs.caught (hf : Concurs R (·.Fits R.limit) f g)
    (hh : ∀ v, v.Fits R.limit → Concurs R (·.Fits R.limit) (h v) (h' v)) :
    Concurs R (·.Fits R.limit) (caught f h) (caught g h') := by
  intro m hm
  obtain ⟨hrun, hm', he⟩ := hf m hm
  rw [ConcursFrom, run_caught, run_caught, hrun]
  rcases hg : g.run m with ⟨r, m'⟩
  rw [hg] at hm' he
  cases r with
  | ok flow => exact ⟨rfl, hm', he⟩
  | error e =>
    cases e with
    | thrown v => exact hh v he m' hm'
    | compile | scope | outOfFuel => exact ⟨rfl, hm', he⟩

theorem Concurs.finalized {f' g' : Exec Flow} (hf : Concurs R (·.Fits R.limit) f g)
    (hf' : Concurs R (·.Fits R.limit) f' g') :
    Concurs R (·.Fits R.limit) (finalized f f') (finalized g g') := by
  intro m hm
  obtain ⟨hrun, hm', he⟩ := hf m hm
  obtain ⟨hrun', hm'', he'⟩ := hf' _ hm'
  rw [ConcursFrom, run_finalized, run_finalized, hrun, hrun']
  refine ⟨rfl, ?_⟩
  split
  · rcases hg : g'.run (g.run m).2 with ⟨r, n⟩
    rw [hg] at hm'' he'
    cases r with
    | error e => exact ⟨hm'', he'⟩
    | ok flow =>
      cases flow with
      | normal v => exact ⟨hm'', he⟩
      | «return» v => exact ⟨hm'', he'⟩
  · exact ⟨hm', he⟩

theorem concurs_locate (a : Address) : Concurs R (fun _ => True) (locate a) (locate a) := by
  refine .looking fun m _ => ?_
  cases a with
  | static depth slot =>
    exact (concurs_ask fun _ _ _ _ => trivial).bind fun _ _ => concurs_pure trivial
  | dynamic n => exact concurs_ask fun _ _ _ _ => trivial

theorem concurs_unbound {α : Type} {Q : α → Prop} (a : Address) :
    Concurs R Q (unbound a) (unbound a) := by
  cases a with
  | static => exact concurs_raise _ _
  | dynamic n => exact .looking fun m _ => concurs_raise _ _

theorem concurs_loadSlot (scope : ScopeId) (slot : Nat) :
    Concurs R (·.Fits R.limit) (ask (·.load scope slot)) (ask (·.load scope slot)) :=
  concurs_ask fun _ _ hp hv => (R.fits hp).fits_load hv

theorem concurs_load (a : Address) : Concurs R (·.Fits R.limit) (load a) (load a) := by
  refine (concurs_locate a).bind fun found _ => ?_
  cases found with
  | none => exact concurs_unbound a
  | some found => exact concurs_loadSlot _ _

theorem concurs_store (a : Address) {v : Value} (hv : v.Fits R.limit) :
    Concurs R (fun _ => True) (store a v) (store a v) := by
  refine (concurs_locate a).bind fun found _ => ?_
  cases found with
  | some found => exact concurs_change found.1 (.store found.2 hv)
  | none =>
    cases a with
    | static =>
      refine .looking fun m _ => ?_
      split
      · exact concurs_unbound _
      · exact concurs_pure trivial
    | dynamic n =>
      have hglobal : Concurs R (fun _ => True) (do onScopes (.setValue (← get).global n v))
          (do onScopes (.setValue (← get).global n v)) :=
        .looking fun m _ => concurs_change m.global (.setValue n hv)
      refine .looking fun m _ => ?_
      split
      · exact (concurs_unbound (Q := fun _ => True) _).bind fun _ _ => hglobal
      · exact hglobal

theorem concurs_typeOfName (a : Address) :
    Concurs R (·.Fits R.limit) (typeOfName a) (typeOfName a) := by
  refine (concurs_locate a).bind fun found _ => ?_
  cases found with
  | none => exact concurs_pure (.string _)
  | some found => exact (concurs_loadSlot _ _).bind fun _ _ => concurs_pure (.string _)

theorem concurs_deleteName (a : Address) :
    Concurs R (·.Fits R.limit) (deleteName a) (deleteName a) := by
  have hrest (deleted : Bool) : Concurs R (·.Fits R.limit)
      (do
        if !deleted && (← get).strict then raise .type "Cannot delete a declared binding"
        return Value.bool deleted)
      (do
        if !deleted && (← get).strict then raise .type "Cannot delete a declared binding"
        return Value.bool deleted) := by
    refine .looking fun m _ => ?_
    split
    · exact (concurs_raise (Q := fun _ => True) _ _).bind fun _ _ => concurs_pure (.bool _)
    · exact concurs_pure (.bool _)
  cases a with
  | static => exact .looking fun _ _ => hrest false
  | dynamic n =>
    refine .looking fun _ _ => (concurs_ask fun _ _ _ _ => trivial).bind fun found _ => ?_
    cases found with
    | none => exact hrest true
    | some found => exact (concurs_delete _ _).bind fun deleted _ => hrest deleted

/-- Under a regime two ways to carry out the uses of names come to the same. -/
structure Access.Concur (R : Regime) (A B : Access) : Prop where
  load : ∀ u, Concurs R (·.Fits R.limit) (A.load u) (B.load u)
  store : ∀ u {v}, v.Fits R.limit → Concurs R (fun _ => True) (A.store u v) (B.store u v)
  typeOfName : ∀ u, Concurs R (·.Fits R.limit) (A.typeOfName u) (B.typeOfName u)
  deleteName : ∀ u, Concurs R (·.Fits R.limit) (A.deleteName u) (B.deleteName u)

theorem concur_byName (R : Regime) : Access.Concur R .byName .byName where
  load u := concurs_load (.dynamic u.name)
  store u := concurs_store (.dynamic u.name)
  typeOfName u := concurs_typeOfName (.dynamic u.name)
  deleteName u := concurs_deleteName (.dynamic u.name)

theorem concurs_declareAll (scope : ScopeId) (ns : List Name) :
    Concurs R (fun _ => True) (declareAll scope ns) (declareAll scope ns) :=
  concurs_forM ns fun _ _ => (concurs_declare _ _).bind fun _ _ => concurs_pure trivial

theorem concurs_enter (e : Entry) : Concurs R (fun _ => True) (enter e) (enter e) := by
  refine .looking fun m _ => ?_
  split
  · exact (concurs_declareAll _ _).bind fun _ _ => concurs_pure trivial
  · exact concurs_make (.template _ _)
  · exact concurs_make (.catchInstance _ _)
  · exact (concurs_make (.evalInstance _)).bind fun _ _ => (concurs_declareAll _ _).bind fun _ _ =>
      concurs_pure trivial

/-- The functions of a body are put where their names are. The start of a script is left out, which
freezes a scope. -/
theorem concurs_hoist {Γ : List Frame} {e : Entry} (he : e.mode ≠ .global) (scope : ScopeId)
    (hh : ∀ h ∈ e.hoisted, h.code.Fits R.limit Γ) :
    Concurs R (fun _ => True) (hoist e scope) (hoist e scope) := by
  refine (concurs_forM e.hoisted fun h hm => ?_).bind fun _ _ => ?_
  · refine (concurs_closure (hh h hm) scope).bind fun v hv => ?_
    split
    · exact concurs_change scope (.store h.slot hv)
    · exact concurs_change scope (.store h.slot hv)
    · exact concurs_change scope (.setValue h.name hv)
    · exact concurs_change scope (.setValue h.name hv)
  · rw [if_neg he]
    exact concurs_pure trivial

theorem concurs_storeOwn {value : Exec Value} (hv : Concurs R (·.Fits R.limit) value value)
    (scope : ScopeId) (slot : Option Nat) :
    Concurs R (fun _ => True) (storeOwn scope slot value) (storeOwn scope slot value) := by
  cases slot with
  | none => exact concurs_pure trivial
  | some slot => exact hv.bind fun v hv => concurs_change scope (.store slot hv)

theorem concurs_storeParams (scope : ScopeId) (slots : List Nat) {args : List Value}
    (ha : ∀ v ∈ args, v.Fits R.limit) :
    Concurs R (fun _ => True) (storeParams scope slots args) (storeParams scope slots args) := by
  induction slots generalizing args with
  | nil => exact concurs_pure trivial
  | cons slot slots ih =>
    have hhead : (args.headD .undefined).Fits R.limit := by
      cases args with
      | nil => exact .undefined
      | cons v args => exact ha v List.mem_cons_self
    exact (concurs_change scope (.store slot hhead)).bind fun _ _ =>
      ih fun v hv => ha v (List.mem_of_mem_tail hv)

theorem fits_arguments {limit : Nat} {args : List Value} (ha : ∀ v ∈ args, v.Fits limit)
    (object : Nat) : (Value.arguments object args).Fits limit :=
  .items (List.forall₂_same.mpr ha)

theorem concurs_fillActivation {Γ : List Frame} {self : Value} {code : FunctionCode}
    {args : List Value} (hs : self.Fits R.limit) (hc : code.Fits R.limit Γ)
    (ha : ∀ v ∈ args, v.Fits R.limit) (scope : ScopeId) :
    Concurs R (fun _ => True) (fillActivation self code scope args)
      (fillActivation self code scope args) := by
  cases hc with
  | intro isOpen hm _ _ _ _ _ hhoisted _ =>
    refine (concurs_storeOwn (concurs_pure hs) _ _).bind fun _ _ => ?_
    refine (concurs_storeOwn ?_ _ _).bind fun _ _ => ?_
    · exact concurs_newObject.bind fun object _ => concurs_pure (fits_arguments ha object)
    · refine (concurs_storeParams _ _ ha).bind fun _ _ => concurs_hoist ?_ _ hhoisted
      rw [hm]
      nofun

theorem Concurs.activate {Γ : List Frame} {self : Value} {code : FunctionCode} {args : List Value}
    (hb : Concurs R (·.Fits R.limit) f g) (hs : self.Fits R.limit) (hc : code.Fits R.limit Γ)
    (ha : ∀ v ∈ args, v.Fits R.limit) (scope : ScopeId) :
    Concurs R (·.Fits R.limit) (activate self code scope args f)
      (activate self code scope args g) := by
  refine .within ((concurs_enter _).bind fun activation _ => ?_) _ _
  refine .within (.oneDeeper ((concurs_fillActivation hs hc ha _).bind fun _ _ =>
    hb.bind fun flow hflow => ?_)) _ _
  cases flow with
  | normal => exact concurs_pure .undefined
  | «return» => exact concurs_pure hflow

theorem Concurs.handle {v : Value} (hb : Concurs R (·.Fits R.limit) f g) (hv : v.Fits R.limit)
    (c : CatchCode) : Concurs R (·.Fits R.limit) (handle c v f) (handle c v g) := by
  refine (concurs_enter _).bind fun scope _ => ?_
  refine (concurs_change scope (.store _ hv)).bind fun _ _ => ?_
  exact .looking fun m _ => hb.within _ _

theorem Concurs.evaluate {code : FunctionCode} (hb : Concurs R (·.Fits R.limit) f g)
    (hc : code.FitsProgram R.limit .eval) :
    Concurs R (·.Fits R.limit) (evaluate code f) (evaluate code g) := by
  have hmode : code.entry.mode ≠ .global := by
    rw [hc.mode_eq]
    nofun
  unfold Exec.evaluate
  split
  · exact (concurs_enter _).bind fun scope _ =>
      .within ((concurs_hoist hmode _ hc.hoisted).bind fun _ _ => hb) _ _
  · refine .looking fun m _ => (concurs_declareAll _ _).bind fun _ _ => ?_
    exact (concurs_hoist hmode _ hc.hoisted).bind fun _ _ => hb

theorem concurs_compileEval (text : String) :
    Concurs R (·.code.FitsProgram R.limit .eval) (compileEval text) (compileEval text) := by
  intro m hm
  refine ⟨rfl, ?_⟩
  have halike := Compilation.alike_ofText (o := m.options) rfl Compilation.evalFile text
    (m.strict || m.options.isStrict) true m.names
  rw [hm.depth] at halike
  rw [run_compileEval, Compilation.evalCode]
  generalize Compilation.ofText m.options Compilation.evalFile text
    (m.strict || m.options.isStrict) true m.names = r at halike
  obtain ⟨r, names⟩ := r
  have hnamed : R.Holds { m with names } := ⟨hm.depth, hm.global, hm.scopes⟩
  cases halike with
  | compiled _ hfits _ => exact ⟨hnamed, hfits⟩
  | malformed d => exact (concurs_raise .malformed d.text _ hnamed).2
  | deep => exact ⟨hnamed, trivial⟩

/-- What is to be shown of each part of the evaluator, with some fuel. -/
structure Upholds (R : Regime) (A B : Access) (fuel : Nat) : Prop where
  eval : ∀ {Γ strict e}, e.Fits R.limit Γ strict →
    Concurs R (·.Fits R.limit) (eval A fuel e) (eval B fuel e)
  evalAll : ∀ {Γ strict es}, (∀ e ∈ es, e.Fits R.limit Γ strict) →
    Concurs R (fun vs => ∀ v ∈ vs, v.Fits R.limit) (evalAll A fuel es) (evalAll B fuel es)
  call : ∀ {f args}, f.Fits R.limit → (∀ v ∈ args, v.Fits R.limit) →
    Concurs R (·.Fits R.limit) (call A fuel f args) (call B fuel f args)
  directEval : ∀ {args}, (∀ v ∈ args, v.Fits R.limit) →
    Concurs R (·.Fits R.limit) (directEval A fuel args) (directEval B fuel args)
  execAll : ∀ {Γ strict v ss}, (∀ s ∈ ss, s.Fits R.limit Γ strict) → (∀ w ∈ v, w.Fits R.limit) →
    Concurs R (·.Fits R.limit) (execAll A fuel v ss) (execAll B fuel v ss)
  exec : ∀ {Γ strict s}, s.Fits R.limit Γ strict →
    Concurs R (·.Fits R.limit) (exec A fuel s) (exec B fuel s)
  loop : ∀ {Γ strict v test body}, test.Fits R.limit Γ strict → body.Fits R.limit Γ strict →
    (∀ w ∈ v, w.Fits R.limit) →
    Concurs R (·.Fits R.limit) (loop A fuel v test body) (loop B fuel v test body)

variable {A B : Access} {fuel : Nat} {Γ : List Frame} {strict : Bool}

theorem upholds_zero : Upholds R A B 0 where
  eval _ := concurs_outOfFuel
  evalAll _ := concurs_outOfFuel
  call _ _ := concurs_outOfFuel
  directEval _ := concurs_outOfFuel
  execAll _ _ := concurs_outOfFuel
  exec _ := concurs_outOfFuel
  loop _ _ _ := concurs_outOfFuel

section Step

variable (ih : Upholds R A B fuel)

include ih

theorem concurs_eval (hA : Access.Concur R A B) {e : Code.Expr} (he : e.Fits R.limit Γ strict) :
    Concurs R (·.Fits R.limit) (eval A (fuel + 1) e) (eval B (fuel + 1) e) := by
  cases he with
  | number => exact concurs_pure (.number _)
  | string => exact concurs_pure (.string _)
  | bool => exact concurs_pure (.bool _)
  | null => exact concurs_pure .null
  | load => exact hA.load _
  | store _ he =>
    exact (ih.eval he).bind fun v hv => (hA.store _ hv).bind fun _ _ => concurs_pure hv
  | @binary _ _ op l r hl hr =>
    refine (ih.eval hl).bind fun a ha => ?_
    have hboth : Concurs R (·.Fits R.limit)
        (do return Value.binary op a (← Exec.eval A fuel r))
        (do return Value.binary op a (← Exec.eval B fuel r)) :=
      (ih.eval hr).bind fun _ hb => concurs_pure (ha.binary op hb)
    cases op with
    | logicalAnd =>
      cases a.isTruthy with
      | false => exact concurs_pure ha
      | true => exact hboth
    | logicalOr =>
      cases a.isTruthy with
      | false => exact hboth
      | true => exact concurs_pure ha
    | _ => exact hboth
  | unary he => exact (ih.eval he).bind fun _ hv => concurs_pure (hv.unary _)
  | typeofName => exact hA.typeOfName _
  | typeof he => exact (ih.eval he).bind fun _ _ => concurs_pure (.string _)
  | deleteName => exact hA.deleteName _
  | deleteValue he => exact (ih.eval he).bind fun _ _ => concurs_pure (.bool true)
  | call hf hargs =>
    exact (ih.eval hf).bind fun f hf => (ih.evalAll hargs).bind fun args ha => ih.call hf ha
  | directEval _ hargs => exact (ih.evalAll hargs).bind fun args ha => ih.directEval ha
  | function hc => exact .looking fun m _ => concurs_closure hc _

theorem concurs_evalAll {es : List Code.Expr} (he : ∀ e ∈ es, e.Fits R.limit Γ strict) :
    Concurs R (fun vs => ∀ v ∈ vs, v.Fits R.limit) (evalAll A (fuel + 1) es)
      (evalAll B (fuel + 1) es) := by
  cases es with
  | nil => exact concurs_pure nofun
  | cons e es =>
    refine (ih.eval (he e List.mem_cons_self)).bind fun v hv => ?_
    refine (ih.evalAll fun e hm => he e (List.mem_cons_of_mem _ hm)).bind fun vs hvs => ?_
    exact concurs_pure (List.forall_mem_cons.mpr ⟨hv, hvs⟩)

theorem concurs_call {f : Value} {args : List Value} (hf : f.Fits R.limit)
    (ha : ∀ v ∈ args, v.Fits R.limit) :
    Concurs R (·.Fits R.limit) (call A (fuel + 1) f args) (call B (fuel + 1) f args) := by
  cases f with
  | function object code scope =>
    have hrun : Concurs R (·.Fits R.limit)
        (activate (.function object code scope) code scope args
          (Exec.execAll A fuel none code.body))
        (activate (.function object code scope) code scope args
          (Exec.execAll B fuel none code.body)) := by
      have hself := hf
      cases hf with
      | function _ hcode =>
        obtain ⟨Γ, hcode⟩ := hcode
        have hbody := hcode
        cases hbody with
        | intro _ _ _ _ _ _ _ _ hstmts =>
          exact (ih.execAll hstmts Value.fits_none).activate hself hcode ha scope
    refine .looking fun m _ => ?_
    split
    · exact (concurs_raise (Q := fun _ => True) _ _).bind fun _ _ => hrun
    · exact hrun
  | _ => exact concurs_raise _ _

theorem concurs_directEval {args : List Value} (ha : ∀ v ∈ args, v.Fits R.limit) :
    Concurs R (·.Fits R.limit) (directEval A (fuel + 1) args) (directEval B (fuel + 1) args) := by
  refine .looking fun m _ => (concurs_ask fun _ _ _ _ => trivial).bind fun found _ => ?_
  cases found with
  | some found => exact (concurs_loadSlot _ _).bind fun f hf => ih.call hf ha
  | none =>
    cases args with
    | nil => exact concurs_pure .undefined
    | cons v vs =>
      cases v with
      | string text =>
        refine (concurs_compileEval text).bind fun c hc =>
          ((ih.execAll hc.body Value.fits_none).evaluate hc).bind fun flow hflow => ?_
        cases flow with
        | normal v =>
          cases v with
          | none => exact concurs_pure .undefined
          | some v => exact concurs_pure (hflow v rfl)
        | «return» => exact concurs_pure hflow
      | _ => exact concurs_pure (ha _ List.mem_cons_self)

theorem concurs_execAll {v : Option Value} {ss : List Code.Stmt}
    (hs : ∀ s ∈ ss, s.Fits R.limit Γ strict) (hv : ∀ w ∈ v, w.Fits R.limit) :
    Concurs R (·.Fits R.limit) (execAll A (fuel + 1) v ss) (execAll B (fuel + 1) v ss) := by
  cases ss with
  | nil => exact concurs_pure hv
  | cons s ss =>
    refine (ih.exec (hs s List.mem_cons_self)).bind fun flow hflow => ?_
    cases flow with
    | normal w =>
      refine ih.execAll (fun s hm => hs s (List.mem_cons_of_mem _ hm)) ?_
      cases w with
      | none => exact hv
      | some w => exact hflow
    | «return» => exact concurs_pure hflow

theorem concurs_loop {v : Option Value} {test : Code.Expr} {body : Code.Stmt}
    (ht : test.Fits R.limit Γ strict) (hb : body.Fits R.limit Γ strict)
    (hv : ∀ w ∈ v, w.Fits R.limit) :
    Concurs R (·.Fits R.limit) (loop A (fuel + 1) v test body)
      (loop B (fuel + 1) v test body) := by
  refine (ih.eval ht).bind fun t _ => ?_
  split
  · refine (ih.exec hb).bind fun flow hflow => ?_
    cases flow with
    | normal w =>
      refine ih.loop ht hb ?_
      cases w with
      | none => exact hv
      | some w => exact hflow
    | «return» => exact concurs_pure hflow
  · exact concurs_pure hv

/-- A block that may have a catch clause. -/
theorem concurs_handled {block : List Code.Stmt} {c : CatchCode}
    (hs : ∀ s ∈ block, s.Fits R.limit Γ strict) (hc : c.Fits R.limit Γ strict) :
    Concurs R (·.Fits R.limit)
      (caught (Exec.execAll A fuel none block) fun v =>
        handle c v (Exec.execAll A fuel none c.body))
      (caught (Exec.execAll B fuel none block) fun v =>
        handle c v (Exec.execAll B fuel none c.body)) := by
  cases hc with
  | intro _ _ _ _ hbody =>
    exact (ih.execAll hs Value.fits_none).caught fun v hv =>
      (ih.execAll hbody Value.fits_none).handle hv c

theorem concurs_exec {s : Code.Stmt} (hs : s.Fits R.limit Γ strict) :
    Concurs R (·.Fits R.limit) (exec A (fuel + 1) s) (exec B (fuel + 1) s) := by
  cases hs with
  | expr he =>
    exact (ih.eval he).bind fun v hv => concurs_pure fun w hw => Option.some.inj hw ▸ hv
  | init he => exact (ih.eval he).bind fun _ _ => concurs_pure nofun
  | @«return» _ _ argument he =>
    cases argument with
    | none => exact concurs_pure .undefined
    | some e => exact (ih.eval (he e rfl)).bind fun _ hv => concurs_pure hv
  | @«if» _ _ test consequent alternate ht hc ha =>
    cases alternate with
    | none =>
      refine (ih.eval ht).bind fun t _ => ?_
      split
      · exact ih.exec hc
      · exact concurs_pure nofun
    | some alternate =>
      refine (ih.eval ht).bind fun t _ => ?_
      split
      · exact ih.exec hc
      · exact ih.exec (ha alternate rfl)
  | «while» ht hb => exact ih.loop ht hb Value.fits_none
  | block hs => exact ih.execAll hs Value.fits_none
  | @«try» _ _ block handler finalizer hs hh hf =>
    have hblock := ih.execAll hs Value.fits_none
    cases handler with
    | none =>
      cases finalizer with
      | none => exact hblock
      | some f => exact hblock.finalized (ih.execAll (hf f rfl) Value.fits_none)
    | some c =>
      have hcaught := concurs_handled ih hs (hh c rfl)
      cases finalizer with
      | none => exact hcaught
      | some f => exact hcaught.finalized (ih.execAll (hf f rfl) Value.fits_none)
  | throw he => exact (ih.eval he).bind fun _ hv => concurs_thrown hv

end Step

theorem upholds (hA : Access.Concur R A B) (fuel : Nat) : Upholds R A B fuel := by
  induction fuel with
  | zero => exact upholds_zero
  | succ fuel ih =>
    exact {
      eval := concurs_eval ih hA
      evalAll := concurs_evalAll ih
      call := concurs_call ih
      directEval := concurs_directEval ih
      execAll := concurs_execAll ih
      exec := concurs_exec ih
      loop := concurs_loop ih }

/-- Garbage may be collected after each statement of a program. -/
theorem concurs_runStmts (hA : Access.Concur R A B) (fuel : Nat) {ss : List Code.Stmt}
    (hs : ∀ s ∈ ss, s.Fits R.limit Γ strict) :
    Concurs R (fun _ => True) (runStmts A fuel ss) (runStmts B fuel ss) := by
  induction ss with
  | nil => exact concurs_pure trivial
  | cons s ss ih =>
    intro m hm
    rw [ConcursFrom, run_runStmts_cons, run_runStmts_cons]
    refine ((upholds hA fuel).exec (hs s List.mem_cons_self)).bind (fun flow _ => ?_) m hm
    refine Concurs.bind (Q := fun _ => True) ?_ fun _ _ =>
      ih fun s hm => hs s (List.mem_cons_of_mem _ hm)
    exact fun n hn => ⟨rfl, hn.afterStatement flow, trivial⟩

/-- A program that was handed to `eval` from outside all scripts. -/
theorem concurs_runProgram (hA : Access.Concur R A B) (fuel : Nat) {code : FunctionCode}
    (hc : code.FitsProgram R.limit .eval) :
    Concurs R (fun _ => True) (runProgram A fuel code) (runProgram B fuel code) := by
  refine (concurs_enter _).bind fun scope _ => .within ?_ _ _
  refine (concurs_hoist ?_ _ hc.hoisted).bind fun _ _ => concurs_runStmts hA fuel hc.body
  rw [hc.mode_eq]
  nofun

end Exec

end ScopeChain
