import ScopeChain.Proofs.Parallel

/-! Bodies in parallel: those of functions, of catch clauses and of programs, from the scope that is
made for them to the code that runs in it. -/
namespace ScopeChain.Exec

open Code (FunctionCode CatchCode Entry Hoisted)

variable {one : Prop} {W : World} {limit : Nat} {c : Situation} {x y : Pairing} {Γ : List Frame}
  {e : Entry} {code : FunctionCode}

/-- Something is done for each item of a list. -/
theorem parallel_forM {α : Type} {f g : α → Exec Unit} (as : List α)
    (h : ∀ a ∈ as, ∀ W', W ≤ W' → Parallel one W' limit c (fun _ _ _ => True) (f a) (g a)) :
    Parallel one W limit c (fun _ _ _ => True) (as.forM f) (as.forM g) := by
  induction as generalizing W with
  | nil => exact .pure trivial
  | cons a as ih =>
    refine (h a List.mem_cons_self W (World.le_refl W)).bind ?_
    intro W' hw _ _ _
    exact ih fun b hb W'' hw' => h b (List.mem_cons_of_mem a hb) W'' (World.le_trans hw hw')

theorem parallel_declareAll (ho : W.Opens x) (names : List Name) :
    Parallel one W limit c (fun _ _ _ => True) (declareAll x.1 names) (declareAll x.2 names) := by
  refine parallel_forM names ?_
  intro n _ W' hw
  exact (Parallel.onScopes (PoolM.both_declare (ho.mono hw) n)).bind fun _ _ _ _ _ => .pure trivial

/-- The scope of a function's activation. -/
theorem parallel_enter_template {shape : Shape} (isOpen : Bool) (hx : W.shape c.active = some shape)
    (hm : e.mode = .template) (hn : e.names.Nodup) :
    Parallel one W limit c
      (fun W' i j => W'.shape (i, j) = some ⟨some c.active, some ⟨e.names, false, isOpen⟩⟩)
      (enter e) (enter e) := by
  unfold enter
  simp only [hm]
  refine .looking ?_
  intro m n ht
  rw [ht.active_left, ht.active_right]
  exact .onScopes (PoolM.both_newInstance (F := ⟨e.names, false, isOpen⟩) .template hx rfl hn)

theorem parallel_enter_catch {shape : Shape} (hx : W.shape c.active = some shape)
    (hm : e.mode = .catch) (hn : e.names.Nodup) :
    Parallel one W limit c
      (fun W' i j => W'.shape (i, j) = some ⟨some c.active, some ⟨e.names, true, false⟩⟩)
      (enter e) (enter e) := by
  unfold enter
  simp only [hm]
  refine .looking ?_
  intro m n ht
  rw [ht.active_left, ht.active_right]
  exact .onScopes (PoolM.both_newInstance (F := ⟨e.names, true, false⟩) .catch hx rfl hn)

/-- The scope of code that was handed to `eval` and has its own. -/
theorem parallel_enter_eval {shape : Shape} (hx : W.shape c.active = some shape)
    (hm : e.mode = .eval) :
    Parallel one W limit c (fun W' i j => W'.shape (i, j) = some ⟨some c.active, none⟩)
      (enter e) (enter e) := by
  unfold enter
  simp only [hm]
  refine .looking ?_
  intro m n ht
  rw [ht.active_left, ht.active_right]
  refine (Parallel.onScopes (PoolM.both_newEvalInstance hx)).bind ?_
  intro W' hw i j hij
  refine (parallel_declareAll (x := (i, j)) (.root hij) e.names).bind ?_
  intro W'' hw' _ _ _
  exact .pure (hw' _ _ hij)

/-- A script declares its names in the scope that is active. -/
theorem parallel_enter_global {parent : Option Pairing}
    (hx : W.shape c.active = some ⟨parent, none⟩) (hm : e.mode = .global) :
    Parallel one W limit c (fun W' i j => W'.shape (i, j) = some ⟨parent, none⟩) (enter e)
      (enter e) := by
  unfold enter
  simp only [hm]
  refine .looking ?_
  intro m n ht
  rw [ht.active_left, ht.active_right]
  exact (parallel_declareAll (.root hx) e.names).bind fun W' hw _ _ _ => .pure (hw _ _ hx)

/-- A value is put into a slot that the frame of a scope has. -/
theorem parallel_fill {parent : Option Pairing} {F : Frame} {k : Nat} {v w : Value}
    (hx : W.shape x = some ⟨parent, some F⟩) (hk : k < F.names.length) (hv : W.Likens limit v w) :
    Parallel one W limit c (fun _ _ _ => True) (onScopes (.store x.1 k v))
      (onScopes (.store x.2 k w)) :=
  .onScopes (PoolM.both_store hx hk hv)

/-- The functions of a body are made in its scope and put where their names are. -/
theorem parallel_hoisted {f g : Hoisted → Value → Exec Unit}
    (hcode : ∀ h ∈ e.hoisted, W.Captures limit h.code x)
    (hput : ∀ h ∈ e.hoisted, ∀ W', W ≤ W' → ∀ v w, W'.Likens limit v w →
      Parallel one W' limit c (fun _ _ _ => True) (f h v) (g h w)) :
    Parallel one W limit c (fun _ _ _ => True)
      (e.hoisted.forM fun h => do f h (← closure h.code x.1))
      (e.hoisted.forM fun h => do g h (← closure h.code x.2)) := by
  refine parallel_forM e.hoisted ?_
  intro h hh W' hw
  refine (parallel_closure ((hcode h hh).mono hw)).bind ?_
  intro W'' hw' v w hv
  exact hput h hh W'' (World.le_trans hw hw') v w hv

theorem parallel_hoist_template {parent : Option Pairing} {F : Frame}
    (hx : W.shape x = some ⟨parent, some F⟩) (hm : e.mode = .template)
    (hcode : ∀ h ∈ e.hoisted, W.Captures limit h.code x)
    (hslot : ∀ h ∈ e.hoisted, h.slot < F.names.length) :
    Parallel one W limit c (fun _ _ _ => True) (hoist e x.1) (hoist e x.2) := by
  unfold hoist
  simp only [hm]
  refine (parallel_hoisted hcode fun h hh W' hw v w hv => ?_).bind fun _ _ _ _ _ => .pure trivial
  exact parallel_fill (hw _ _ hx) (hslot h hh) hv

theorem parallel_hoist_eval (ho : W.Opens x) (hm : e.mode = .eval)
    (hcode : ∀ h ∈ e.hoisted, W.Captures limit h.code x) :
    Parallel one W limit c (fun _ _ _ => True) (hoist e x.1) (hoist e x.2) := by
  unfold hoist
  simp only [hm]
  refine (parallel_hoisted hcode fun h _ W' hw v w hv => ?_).bind fun _ _ _ _ _ => .pure trivial
  exact .onScopes (PoolM.both_setValue (ho.mono hw) h.name hv)

/-- Once a script's functions are there, no name of the global scope can be deleted. -/
theorem parallel_hoist_global {parent : Option Pairing} (hx : W.shape x = some ⟨parent, none⟩)
    (hm : e.mode = .global) (hcode : ∀ h ∈ e.hoisted, W.Captures limit h.code x) :
    Parallel one W limit c (fun _ _ _ => True) (hoist e x.1) (hoist e x.2) := by
  unfold hoist
  simp only [hm]
  refine (parallel_hoisted hcode fun h _ W' hw v w hv => ?_).bind fun W' hw _ _ _ => ?_
  · exact .onScopes (PoolM.both_setValue (.root (hw _ _ hx)) h.name hv)
  · exact .onScopes (PoolM.both_freeze (hw _ _ hx) rfl)

theorem parallel_storeOwn {parent : Option Pairing} {F : Frame} {slot : Option Nat}
    {f g : Exec Value} (hx : W.shape x = some ⟨parent, some F⟩)
    (hslot : ∀ k ∈ slot, k < F.names.length) (hf : Parallel one W limit c (·.Likens limit) f g) :
    Parallel one W limit c (fun _ _ _ => True) (storeOwn x.1 slot f) (storeOwn x.2 slot g) := by
  cases slot with
  | none => exact .pure trivial
  | some k => exact hf.bind fun W' hw v w hv => parallel_fill (hw _ _ hx) (hslot k rfl) hv

theorem parallel_storeParams {parent : Option Pairing} {F : Frame} (slots : List Nat)
    {vs ws : List Value} (hx : W.shape x = some ⟨parent, some F⟩)
    (hslots : ∀ k ∈ slots, k < F.names.length) (hv : List.Forall₂ (W.Likens limit) vs ws) :
    Parallel one W limit c (fun _ _ _ => True) (storeParams x.1 slots vs)
      (storeParams x.2 slots ws) := by
  induction slots generalizing W vs ws with
  | nil => exact .pure trivial
  | cons k slots ih =>
    have hhead : W.Likens limit (vs.headD .undefined) (ws.headD .undefined) := by
      cases hv with
      | nil => exact .undefined
      | cons h _ => exact h
    have htail : List.Forall₂ (W.Likens limit) vs.tail ws.tail := by
      cases hv with
      | nil => exact .nil
      | cons _ h => exact h
    refine (parallel_fill hx (hslots k List.mem_cons_self) hhead).bind ?_
    intro W' hw _ _ _
    exact ih (hw _ _ hx) (fun k hk => hslots k (List.mem_cons_of_mem _ hk))
      (World.forall₂_mono htail hw)

/-- The names of a function get their values. -/
theorem parallel_fillActivation {isOpen : Bool} {self self' : Value} {vs ws : List Value}
    (hsees : W.Sees x (⟨code.entry.names, false, isOpen⟩ :: Γ)) (hm : code.entry.mode = .template)
    (hparams : ∀ k ∈ code.params, k < code.entry.names.length)
    (hself : ∀ k ∈ code.selfSlot, k < code.entry.names.length)
    (harguments : ∀ k ∈ code.argumentsSlot, k < code.entry.names.length)
    (hname : ∀ h ∈ code.entry.hoisted, code.entry.names[h.slot]? = some h.name)
    (hcode : ∀ h ∈ code.entry.hoisted,
      h.code.Fits limit (⟨code.entry.names, false, isOpen⟩ :: Γ))
    (hs : W.Likens limit self self') (hv : List.Forall₂ (W.Likens limit) vs ws) :
    Parallel one W limit c (fun _ _ _ => True) (fillActivation self code x.1 vs)
      (fillActivation self' code x.2 ws) := by
  obtain ⟨parent, hx⟩ : ∃ y, W.shape x = some ⟨some y, some ⟨code.entry.names, false, isOpen⟩⟩ := by
    cases hsees with
    | within hx => exact ⟨_, hx⟩
  refine (parallel_storeOwn hx hself (.pure hs)).bind ?_
  intro W₁ hw₁ _ _ _
  have hv₁ := World.forall₂_mono hv hw₁
  have hlist : Parallel one W₁ limit c (·.Likens limit)
      (do return .arguments (← newObject) vs) (do return .arguments (← newObject) ws) := by
    refine parallel_newObject.bind ?_
    rintro W' hw object _ rfl
    exact .pure (.items (World.forall₂_mono hv₁ hw))
  refine (parallel_storeOwn (hw₁ _ _ hx) harguments hlist).bind ?_
  intro W₂ hw₂ _ _ _
  have hx₂ := hw₂ _ _ (hw₁ _ _ hx)
  have hv₂ := World.forall₂_mono hv₁ hw₂
  refine (parallel_storeParams code.params hx₂ hparams hv₂).bind ?_
  intro W₃ hw₃ _ _ _
  have hsees₃ := ((hsees.mono hw₁).mono hw₂).mono hw₃
  refine parallel_hoist_template (hw₃ _ _ hx₂) hm (fun h hh => ?_) fun h hh => ?_
  · exact ⟨_, hsees₃, hcode h hh⟩
  · exact (List.getElem?_eq_some_iff.mp (hname h hh)).1

/-- A function is run. -/
theorem parallel_activate {self self' : Value} {vs ws : List Value} {body body' : Exec Flow}
    (hc : W.Captures limit code y) (hs : W.Likens limit self self')
    (hv : List.Forall₂ (W.Likens limit) vs ws)
    (hbody : ∀ W', W ≤ W' → ∀ c' Δ, W'.Sees c'.active Δ → c'.strict = code.strict →
      (∀ s ∈ code.body, s.Fits limit Δ code.strict) →
      Parallel one W' limit c' (Flows · limit) body body') :
    Parallel one W limit c (·.Likens limit) (activate self code y.1 vs body)
      (activate self' code y.2 ws body') := by
  obtain ⟨Γ, hsees, hfits⟩ := hc
  obtain ⟨shape, hy⟩ := hsees.live
  cases hfits with
  | intro isOpen hm hn hparams hself harguments hname hcode hstmts =>
    refine .within code.strict hy ?_
    refine (parallel_enter_template isOpen hy hm hn).bind ?_
    intro W' hw i j hij
    have hin : W'.Sees (i, j) (⟨code.entry.names, false, isOpen⟩ :: Γ) :=
      .within hij (hsees.mono hw)
    refine .within (y := (i, j)) code.strict hij (.oneDeeper ?_)
    refine (parallel_fillActivation hin hm hparams hself harguments hname hcode (hs.mono hw)
      (World.forall₂_mono hv hw)).bind fun W'' hw' _ _ _ => ?_
    refine (hbody W'' (World.le_trans hw hw') _ _ (hin.mono hw') rfl hstmts).bind ?_
    intro W₃ hw₃ a b hab
    cases hab with
    | normal => exact .pure .undefined
    | «return» h => exact .pure h

/-- A catch clause is run on what was thrown. -/
theorem parallel_handle {h : CatchCode} {v w : Value} {body body' : Exec Flow}
    (hsees : W.Sees c.active Γ) (hfits : h.Fits limit Γ c.strict) (hv : W.Likens limit v w)
    (hbody : ∀ W', W ≤ W' → ∀ c' Δ, W'.Sees c'.active Δ → c'.strict = c.strict →
      (∀ s ∈ h.body, s.Fits limit Δ c.strict) →
      Parallel one W' limit c' (Flows · limit) body body') :
    Parallel one W limit c (Flows · limit) (handle h v body) (handle h w body') := by
  obtain ⟨shape, hx⟩ := hsees.live
  cases hfits with
  | intro hm hn _ hslot hstmts =>
    refine (parallel_enter_catch hx hm hn).bind ?_
    intro W' hw i j hij
    refine (parallel_fill hij hslot (hv.mono hw)).bind ?_
    intro W'' hw' _ _ _
    refine .looking ?_
    intro m n ht
    rw [ht.strict_left, ht.strict_right]
    refine .within (y := (i, j)) c.strict (hw' _ _ hij) ?_
    refine hbody W'' (World.le_trans hw hw') _ _ ?_ rfl hstmts
    exact .within (hw' _ _ hij) ((hsees.mono hw).mono hw')

/-- A program that was handed to `eval` is run. -/
theorem parallel_evaluate {body body' : Exec Flow} (hfits : code.FitsProgram limit .eval)
    (hx : ∃ shape, W.shape c.active = some shape)
    (hopens : code.strict = false → c.strict = false ∧ W.Opens c.active)
    (hbody : ∀ W', W ≤ W' → ∀ c', W'.Sees c'.active [] → c'.strict = code.strict →
      Parallel one W' limit c' (Flows · limit) body body') :
    Parallel one W limit c (Flows · limit) (evaluate code body) (evaluate code body') := by
  have hcaptures (W' : World) (x : Pairing) (ho : W'.Opens x) :
      ∀ h ∈ code.entry.hoisted, W'.Captures limit h.code x :=
    fun h hh => ⟨[], .outside ho, hfits.hoisted h hh⟩
  obtain ⟨shape, hx⟩ := hx
  unfold evaluate
  cases hstrict : code.strict with
  | true =>
    refine (parallel_enter_eval hx hfits.mode_eq).bind ?_
    intro W' hw i j hij
    refine .within (y := (i, j)) true hij ?_
    have ho : W'.Opens (i, j) := .root hij
    refine (parallel_hoist_eval ho hfits.mode_eq (hcaptures W' _ ho)).bind ?_
    intro W'' hw' _ _ _
    exact hbody W'' (World.le_trans hw hw') _ (.outside (ho.mono hw')) hstrict.symm
  | false =>
    obtain ⟨hc, ho⟩ := hopens hstrict
    refine .looking ?_
    intro m n ht
    rw [ht.active_left, ht.active_right]
    refine (parallel_declareAll ho code.entry.names).bind ?_
    intro W' hw _ _ _
    have ho' := ho.mono hw
    refine (parallel_hoist_eval ho' hfits.mode_eq (hcaptures W' _ ho')).bind ?_
    intro W'' hw' _ _ _
    exact hbody W'' (World.le_trans hw hw') c (.outside (ho'.mono hw')) (hc.trans hstrict.symm)

theorem run_compileEval (text : String) (m : Machine) :
    (compileEval text).run m =
      let (r, names) := Compilation.evalCode m.options text m.strict m.names
      match r with
      | .ok c => (.ok c, { m with names })
      | .error (.malformed d) => (raise .malformed d.text : Exec Compiled).run { m with names }
      | .error e => (.error (.compile e), { m with names }) := by
  rw [compileEval, run_bind_of_ok (run_get m)]
  dsimp only
  rw [run_bind_of_ok (run_set _ _)]
  rcases Compilation.evalCode m.options text m.strict m.names with ⟨(d | e | e) | r, names⟩ <;> rfl

/-- A text that was handed to `eval` is compiled. -/
theorem parallel_compileEval (text : String) :
    Parallel one W limit c
      (fun _ r r' => r.code = r'.code ∧ r.code.FitsProgram limit .eval ∧
        (c.strict = true → r.code.strict = true))
      (compileEval text) (compileEval text) := by
  intro m n ht
  have halike := Compilation.alike_ofText (ht.depth_left.trans ht.depth_right.symm)
    Compilation.evalFile text (c.strict || m.options.isStrict) true m.names
  have hnames := Compilation.names_ofText n.options m.options Compilation.evalFile text
    (c.strict || m.options.isStrict) true m.names
  rw [ht.depth_left] at halike
  rw [run_compileEval, run_compileEval, Compilation.evalCode, Compilation.evalCode, ht.options,
    ht.strict_left, ht.strict_right, ht.names]
  dsimp only
  rw [hnames]
  have htwin := ht.named (Compilation.ofText m.options Compilation.evalFile text
    (c.strict || m.options.isStrict) true m.names).2
  rw [ht.strict_left, ht.strict_right] at htwin
  generalize (Compilation.ofText m.options Compilation.evalFile text
    (c.strict || m.options.isStrict) true m.names).1 = r at halike
  generalize (Compilation.ofText n.options Compilation.evalFile text
    (c.strict || m.options.isStrict) true m.names).1 = r' at halike
  cases halike with
  | compiled hcode hfits hstrict =>
    refine ⟨W, World.le_refl W, htwin, .ok ⟨hcode, hfits, fun hs => hstrict ?_⟩⟩
    rw [hs, Bool.true_or]
  | malformed d => exact parallel_raise _ _ _ _ htwin
  | deep d => exact ⟨W, World.le_refl W, htwin, .error (.tooNested d)⟩

end ScopeChain.Exec
