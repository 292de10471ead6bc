import ScopeChain.Proofs.Accesses
import ScopeChain.Proofs.Bodies

/-! Evaluation in parallel: code that fits comes to the same in two machines that agree, whichever
faithful ways its names are used in. -/
namespace ScopeChain.Exec

variable {A B : Access} {one : Prop} {limit fuel : Nat} {W : World} {c : Situation}
  {Γ : List Frame}

/-- What is to be shown of each part of the evaluator, with some fuel. -/
structure InStep (A B : Access) (one : Prop) (limit fuel : Nat) : Prop where
  eval : ∀ {W c Γ} e, W.Sees c.active Γ → e.Fits limit Γ c.strict →
    Parallel one W limit c (·.Likens limit) (eval A fuel e) (eval B fuel e)
  evalAll : ∀ {W c Γ} es, W.Sees c.active Γ → (∀ e ∈ es, e.Fits limit Γ c.strict) →
    Parallel one W limit c (fun W' => List.Forall₂ (W'.Likens limit)) (evalAll A fuel es)
      (evalAll B fuel es)
  call : ∀ {W c f g vs ws}, W.Likens limit f g → List.Forall₂ (W.Likens limit) vs ws →
    Parallel one W limit c (·.Likens limit) (call A fuel f vs) (call B fuel g ws)
  directEval : ∀ {W c Γ vs ws}, W.Sees c.active Γ → (c.strict = true ∨ Frame.TakesEval Γ) →
    List.Forall₂ (W.Likens limit) vs ws →
    Parallel one W limit c (·.Likens limit) (directEval A fuel vs) (directEval B fuel ws)
  execAll : ∀ {W c Γ v w} ss, W.Sees c.active Γ → (∀ s ∈ ss, s.Fits limit Γ c.strict) →
    Option.Rel (W.Likens limit) v w →
    Parallel one W limit c (Flows · limit) (execAll A fuel v ss) (execAll B fuel w ss)
  exec : ∀ {W c Γ} s, W.Sees c.active Γ → s.Fits limit Γ c.strict →
    Parallel one W limit c (Flows · limit) (exec A fuel s) (exec B fuel s)
  loop : ∀ {W c Γ v w} test body, W.Sees c.active Γ → test.Fits limit Γ c.strict →
    body.Fits limit Γ c.strict → Option.Rel (W.Likens limit) v w →
    Parallel one W limit c (Flows · limit) (loop A fuel v test body) (loop B fuel w test body)

theorem inStep_zero : InStep A B one limit 0 where
  eval _ _ _ := .outOfFuel
  evalAll _ _ _ := .outOfFuel
  call _ _ := .outOfFuel
  directEval _ _ _ := .outOfFuel
  execAll _ _ _ _ := .outOfFuel
  exec _ _ _ := .outOfFuel
  loop _ _ _ _ _ _ := .outOfFuel

section Step

variable (ih : InStep A B one limit fuel)

include ih

theorem parallel_eval (hA : A.Faithful) (hB : B.Faithful) (e : Code.Expr)
    (hs : W.Sees c.active Γ) (hf : e.Fits limit Γ c.strict) :
    Parallel one W limit c (·.Likens limit) (eval A (fuel + 1) e) (eval B (fuel + 1) e) := by
  cases hf with
  | number => exact .pure (.number _)
  | string => exact .pure (.string _)
  | bool => exact .pure (.bool _)
  | null => exact .pure .null
  | load hu => exact hA.parallel_load hB hs hu
  | store hu he =>
    refine (ih.eval _ hs he).bind ?_
    intro W' hw v w hv
    refine (hA.parallel_store hB (hs.mono hw) hu hv).bind ?_
    intro W'' hw' _ _ _
    exact .pure (hv.mono hw')
  | @binary _ _ op l r hl hr =>
    refine (ih.eval _ hs hl).bind ?_
    intro W' hw v w hv
    have hboth : Parallel one W' limit c (·.Likens limit)
        (do return .binary op v (← Exec.eval A fuel r))
        (do return .binary op w (← Exec.eval B fuel r)) :=
      (ih.eval _ (hs.mono hw) hr).bind fun _ hw' _ _ hv' => .pure ((hv.mono hw').binary op hv')
    rw [hv.isTruthy_eq]
    cases op with
    | logicalAnd =>
      cases w.isTruthy with
      | false => exact .pure hv
      | true => exact hboth
    | logicalOr =>
      cases w.isTruthy with
      | false => exact hboth
      | true => exact .pure hv
    | _ => exact hboth
  | unary he => exact (ih.eval _ hs he).bind fun _ _ _ _ hv => .pure (hv.unary _)
  | typeofName hu => exact hA.parallel_typeOfName hB hs hu
  | typeof he =>
    refine (ih.eval _ hs he).bind ?_
    intro W' hw v w hv
    rw [hv.typeName_eq]
    exact .pure (.string _)
  | deleteName hu => exact hA.parallel_deleteName hB hs hu
  | deleteValue he => exact (ih.eval _ hs he).bind fun _ _ _ _ _ => .pure (.bool true)
  | call hf hargs =>
    refine (ih.eval _ hs hf).bind ?_
    intro W' hw f g hfg
    refine (ih.evalAll _ (hs.mono hw) hargs).bind ?_
    intro W'' hw' vs ws hv
    exact ih.call (hfg.mono hw') hv
  | directEval hd hargs =>
    refine (ih.evalAll _ hs hargs).bind ?_
    intro W' hw vs ws hv
    exact ih.directEval (hs.mono hw) hd hv
  | function hc =>
    refine .looking ?_
    intro m n ht
    rw [ht.active_left, ht.active_right]
    exact parallel_closure ⟨Γ, hs, hc⟩

theorem parallel_evalAll (es : List Code.Expr) (hs : W.Sees c.active Γ)
    (hf : ∀ e ∈ es, e.Fits limit Γ c.strict) :
    Parallel one W limit c (fun W' => List.Forall₂ (W'.Likens limit)) (evalAll A (fuel + 1) es)
      (evalAll B (fuel + 1) es) := by
  cases es with
  | nil => exact .pure .nil
  | cons e es =>
    refine (ih.eval _ hs (hf e List.mem_cons_self)).bind ?_
    intro W' hw v w hv
    refine (ih.evalAll es (hs.mono hw) fun e he => hf e (List.mem_cons_of_mem _ he)).bind ?_
    exact fun W'' hw' vs ws hvs => .pure (.cons (hv.mono hw') hvs)

theorem parallel_call {f g : Value} {vs ws : List Value} (hfg : W.Likens limit f g)
    (hv : List.Forall₂ (W.Likens limit) vs ws) :
    Parallel one W limit c (·.Likens limit) (call A (fuel + 1) f vs) (call B (fuel + 1) g ws) := by
  cases hfg with
  | @function object code i j hc =>
    have hrun (W' : World) (hw : W ≤ W') : Parallel one W' limit c (·.Likens limit)
        (activate (.function object code i) code i vs (Exec.execAll A fuel none code.body))
        (activate (.function object code j) code j ws (Exec.execAll B fuel none code.body)) := by
      refine parallel_activate (y := (i, j)) (hc.mono hw) (.function object (hc.mono hw))
        (World.forall₂_mono hv hw) fun W'' hw' c' Δ hs hstrict hbody => ?_
      exact ih.execAll _ hs (hstrict ▸ hbody) .none
    refine .looking ?_
    intro m n ht
    rw [ht.callDepth_left, ht.callDepth_right]
    split
    · exact (parallel_raise (R := fun _ _ _ => True) _ _).bind fun W' hw _ _ _ => hrun W' hw
    · exact hrun W (World.le_refl W)
  | _ => exact parallel_raise _ _

/-- A text that was handed to `eval` is run as a program. -/
theorem parallel_evalText (text : String) (hs : W.Sees c.active Γ)
    (hd : c.strict = true ∨ Frame.TakesEval Γ) :
    Parallel one W limit c (·.Likens limit)
      (do
        let code := (← compileEval text).code
        match ← evaluate code (Exec.execAll A fuel none code.body) with
        | .normal v => return v.getD .undefined
        | .return v => return v)
      (do
        let code := (← compileEval text).code
        match ← evaluate code (Exec.execAll B fuel none code.body) with
        | .normal v => return v.getD .undefined
        | .return v => return v) := by
  refine (parallel_compileEval text).bind ?_
  rintro W' hw r r' ⟨hcode, hfits, hstrict⟩
  dsimp only
  rw [← hcode]
  refine (parallel_evaluate hfits (hs.mono hw).live (fun hn => ?_)
    fun W'' hw' c' hs' hc' => ?_).bind fun W'' hw' a b hab => ?_
  · have hc : c.strict = false := by
      by_contra hc
      rw [hstrict (by simpa using hc)] at hn
      cases hn
    refine ⟨hc, (hs.mono hw).opens (hd.resolve_left ?_)⟩
    simp [hc]
  · exact ih.execAll _ hs' (hc' ▸ hfits.body) .none
  · cases hab with
    | normal h =>
      cases h with
      | some h => exact .pure h
      | none => exact .pure .undefined
    | «return» h => exact .pure h

theorem parallel_directEval {vs ws : List Value} (hs : W.Sees c.active Γ)
    (hd : c.strict = true ∨ Frame.TakesEval Γ) (hv : List.Forall₂ (W.Likens limit) vs ws) :
    Parallel one W limit c (·.Likens limit) (directEval A (fuel + 1) vs)
      (directEval B (fuel + 1) ws) := by
  obtain ⟨shape, hx⟩ := hs.live
  refine parallel_lookup hx .eval ?_ fun m n y shape s k ht hy hfind hk => ?_
  · cases hv with
    | nil => exact .pure .undefined
    | cons hvw _ =>
      cases hvw with
      | string text => exact parallel_evalText ih text hs hd
      | undefined => exact .pure .undefined
      | null => exact .pure .null
      | bool b => exact .pure (.bool b)
      | number x => exact .pure (.number x)
      | function object h => exact .pure (.function object h)
      | arguments object hlen h => exact .pure (.arguments object hlen h)
      | error object kind message => exact .pure (.error object kind message)
  · obtain ⟨f, g, hf, hg, hfg⟩ := load_likens ht.pool hy hfind hk
    dsimp only
    rw [run_bind_of_ok (run_ask_of_ok hf), run_bind_of_ok (run_ask_of_ok hg)]
    exact ih.call hfg hv m n ht

theorem parallel_execAll {v w : Option Value} (ss : List Code.Stmt) (hs : W.Sees c.active Γ)
    (hf : ∀ s ∈ ss, s.Fits limit Γ c.strict) (hv : Option.Rel (W.Likens limit) v w) :
    Parallel one W limit c (Flows · limit) (execAll A (fuel + 1) v ss)
      (execAll B (fuel + 1) w ss) := by
  cases ss with
  | nil => exact .pure (.normal hv)
  | cons s ss =>
    refine (ih.exec s hs (hf s List.mem_cons_self)).bind ?_
    intro W' hw a b hab
    cases hab with
    | normal hvw =>
      refine ih.execAll ss (hs.mono hw) (fun s hs => hf s (List.mem_cons_of_mem _ hs)) ?_
      exact World.rel_or hvw (World.rel_mono hv hw)
    | «return» h => exact .pure (.return h)

theorem parallel_loop {v w : Option Value} (test : Code.Expr) (body : Code.Stmt)
    (hs : W.Sees c.active Γ) (ht : test.Fits limit Γ c.strict) (hb : body.Fits limit Γ c.strict)
    (hv : Option.Rel (W.Likens limit) v w) :
    Parallel one W limit c (Flows · limit) (loop A (fuel + 1) v test body)
      (loop B (fuel + 1) w test body) := by
  refine (ih.eval test hs ht).bind ?_
  intro W' hw t u htu
  rw [htu.isTruthy_eq]
  cases u.isTruthy with
  | false => exact .pure (.normal (World.rel_mono hv hw))
  | true =>
    refine (ih.exec body (hs.mono hw) hb).bind ?_
    intro W'' hw' a b hab
    cases hab with
    | normal hvw =>
      refine ih.loop test body ((hs.mono hw).mono hw') ht hb ?_
      exact World.rel_or hvw (World.rel_mono hv (World.le_trans hw hw'))
    | «return» h => exact .pure (.return h)

/-- A block has a catch clause. -/
theorem parallel_caught {f g : Exec Flow} (h : Code.CatchCode) (hs : W.Sees c.active Γ)
    (hf : h.Fits limit Γ c.strict) (hfg : Parallel one W limit c (Flows · limit) f g) :
    Parallel one W limit c (Flows · limit)
      (caught f fun v => handle h v (Exec.execAll A fuel none h.body))
      (caught g fun v => handle h v (Exec.execAll B fuel none h.body)) := by
  refine hfg.caught ?_
  intro W' hw v w hv
  refine parallel_handle (hs.mono hw) hf hv ?_
  intro W'' hw' c' Δ hs' hstrict hbody
  exact ih.execAll _ hs' (hstrict ▸ hbody) .none

theorem parallel_exec (stmt : Code.Stmt) (hs : W.Sees c.active Γ)
    (hf : stmt.Fits limit Γ c.strict) :
    Parallel one W limit c (Flows · limit) (exec A (fuel + 1) stmt) (exec B (fuel + 1) stmt) := by
  cases hf with
  | expr he => exact (ih.eval _ hs he).bind fun _ _ _ _ hv => .pure (.normal (.some hv))
  | init he => exact (ih.eval _ hs he).bind fun _ _ _ _ _ => .pure (.normal .none)
  | @«return» _ _ argument he =>
    cases argument with
    | none => exact .pure (.return .undefined)
    | some e => exact (ih.eval _ hs (he e rfl)).bind fun _ _ _ _ hv => .pure (.return hv)
  | @«if» _ _ test consequent alternate ht hc ha =>
    cases alternate with
    | none =>
      refine (ih.eval test hs ht).bind ?_
      intro W' hw v w hv
      rw [hv.isTruthy_eq]
      split
      · exact ih.exec _ (hs.mono hw) hc
      · exact .pure (.normal .none)
    | some alternate =>
      refine (ih.eval test hs ht).bind ?_
      intro W' hw v w hv
      rw [hv.isTruthy_eq]
      split
      · exact ih.exec _ (hs.mono hw) hc
      · exact ih.exec _ (hs.mono hw) (ha alternate rfl)
  | «while» ht hb => exact ih.loop _ _ hs ht hb .none
  | block hb => exact ih.execAll _ hs hb .none
  | @«try» _ _ block handler finalizer hb hh hf =>
    have hblock := ih.execAll block hs hb .none
    cases handler with
    | none =>
      cases finalizer with
      | none => exact hblock
      | some f => exact hblock.finalized fun W' hw => ih.execAll f (hs.mono hw) (hf f rfl) .none
    | some h =>
      have hcaught := parallel_caught ih h hs (hh h rfl) hblock
      cases finalizer with
      | none => exact hcaught
      | some f => exact hcaught.finalized fun W' hw => ih.execAll f (hs.mono hw) (hf f rfl) .none
  | throw he => exact (ih.eval _ hs he).bind fun _ _ _ _ hv => .thrown hv

end Step

/-- Every part of the evaluator runs in step with itself, whatever the fuel. -/
theorem inStep (hA : A.Faithful) (hB : B.Faithful) (fuel : Nat) : InStep A B one limit fuel := by
  induction fuel with
  | zero => exact inStep_zero
  | succ fuel ih =>
    exact {
      eval := parallel_eval ih hA hB
      evalAll := parallel_evalAll ih
      call := parallel_call ih
      directEval := parallel_directEval ih
      execAll := parallel_execAll ih
      exec := parallel_exec ih
      loop := parallel_loop ih }

end ScopeChain.Exec
