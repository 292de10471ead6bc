import ScopeChain.Code.Emission
import ScopeChain.Proofs.Resolutions

/-! Code is made of every bound program, and it fits the frames that binding has found. -/
namespace ScopeChain

namespace Code

namespace Emission

variable {α β : Type} {D D' D'' : Declared} {b : Binding} {Γ : List Frame} {limit : Nat}
  {xs ys : List NodeId} {ds es : List (Name × Option FunctionDef)}

/-- Making code succeeds, and ends as `Q` says. -/
def Emits (f : EmitM α) (D : Declared) (Q : α → Declared → Prop) : Prop :=
  ∃ a D', f.run D = .ok (a, D') ∧ Q a D'

section Rules

variable {f : EmitM α} {g : α → EmitM β} {Q Q' : α → Declared → Prop} {R : β → Declared → Prop}

theorem Emits.pure {a : α} (h : Q a D) : Emits (pure a) D Q := ⟨a, D, rfl, h⟩

theorem Emits.imp (hf : Emits f D Q) (h : ∀ a D', Q a D' → Q' a D') : Emits f D Q' := by
  obtain ⟨a, D', he, hq⟩ := hf
  exact ⟨a, D', he, h a D' hq⟩

theorem Emits.bind (hf : Emits f D Q) (hg : ∀ a D', Q a D' → Emits (g a) D' R) :
    Emits (f >>= g) D R := by
  obtain ⟨a, D', he, hq⟩ := hf
  obtain ⟨c, D'', hg', hr⟩ := hg a D' hq
  refine ⟨c, D'', ?_, hr⟩
  rw [StateT.run_bind, he]
  exact hg'

theorem Emits.map {h : α → β} (hf : Emits f D Q) (hr : ∀ a D', Q a D' → R (h a) D') :
    Emits (h <$> f) D R := by
  obtain ⟨a, D', he, hq⟩ := hf
  refine ⟨h a, D', ?_, hr a D' hq⟩
  rw [StateT.run_map, he]
  rfl

theorem emits_required {o : Option α} {a : α} (e : EmitError) (h : o = some a) :
    Emits (required e o) D fun x D' => a = x ∧ D = D' := by
  subst h
  exact .pure ⟨rfl, rfl⟩

/-- Answers that come one by one from the members of a list. -/
theorem emits_mapM {h : α → EmitM β} {P : β → Prop} (as : List α)
    (hh : ∀ a ∈ as, Emits (h a) D fun x D' => P x ∧ D = D') :
    Emits (as.mapM h) D fun xs D' => (∀ x ∈ xs, P x) ∧ D = D' := by
  induction as with
  | nil => exact .pure ⟨by simp, rfl⟩
  | cons a as ih =>
    rw [List.mapM_cons]
    refine (hh a List.mem_cons_self).bind ?_
    rintro x _ ⟨hx, rfl⟩
    refine (ih fun a ha => hh a (List.mem_cons_of_mem _ ha)).bind ?_
    rintro xs _ ⟨hxs, rfl⟩
    refine .pure ⟨fun y hy => ?_, rfl⟩
    rcases List.mem_cons.mp hy with rfl | hy
    · exact hx
    · exact hxs y hy

end Rules

/-- The table of functions is changed for nodes in `xs` only, and afterwards has code for those that
are declared in `ds`, which fits their place. -/
structure Leaves (limit : Nat) (Γ : List Frame) (xs : List NodeId)
    (ds : List (Name × Option FunctionDef)) (D D' : Declared) : Prop where
  rest : ∀ k, k ∉ xs → D'[k]? = D[k]?
  declared : ∀ d ∈ ds, ∀ f ∈ d.2, ∃ c, D'[f.id]? = some c ∧ c.Fits limit Γ

theorem Leaves.refl : Leaves limit Γ xs [] D D := ⟨fun _ _ => rfl, nofun⟩

theorem Leaves.trans (h : Leaves limit Γ xs ds D D') (h' : Leaves limit Γ ys es D' D'')
    (hdis : ∀ d ∈ ds, ∀ f ∈ d.2, f.id ∉ ys) : Leaves limit Γ (xs ++ ys) (ds ++ es) D D'' := by
  refine ⟨fun k hk => ?_, fun d hd f hf => ?_⟩
  · rw [List.mem_append, not_or] at hk
    rw [h'.rest k hk.2, h.rest k hk.1]
  · rcases List.mem_append.mp hd with hd | hd
    · rw [h'.rest f.id (hdis d hd f hf)]
      exact h.declared d hd f hf
    · exact h'.declared d hd f hf

theorem Leaves.over (h : Leaves limit Γ xs ds D D') (hsub : xs ⊆ ys) :
    Leaves limit Γ ys ds D D' := ⟨fun k hk => h.rest k fun hm => hk (hsub hm), h.declared⟩

/-- Where no function is declared it does not matter where it would fit. -/
theorem Leaves.elsewhere {Δ : List Frame} (h : Leaves limit Γ xs [] D D') :
    Leaves limit Δ xs [] D D' := ⟨h.rest, nofun⟩

/-- A name that holds a function from the start has code after it was left for what is declared. -/
theorem Leaves.of_table {ns : List Name} {t : Table} (h : Leaves limit Γ xs ds D D')
    (ht : t = (Table.ofNames ns).declareEach ds) {k : Nat} {d : Declaration} {f : NodeId}
    (hd : t.get? k = some d) (hf : d.hoisted = some f) :
    ∃ c, D'[f]? = some c ∧ c.Fits limit Γ := by
  have hsound := (Table.compact_sound_declareEach (Table.compact_ofNames ns)
    (Table.sound_ofNames ns) ds).2
  obtain ⟨-, hinitial⟩ := hsound.get?_eq_some_iff.mp (ht ▸ hd)
  rw [Table.initial?_declareEach_ofNames, hf] at hinitial
  obtain ⟨g, hg, rfl⟩ := Option.map_eq_some_iff.mp hinitial
  exact h.declared _ (mem_of_lastFunction hg) g rfl

/-- Where a direct call of `eval` may declare names: in strict code in a scope of its own. -/
def EvalLands (strict : Bool) (Γ : List Frame) : Prop := strict = true ∨ Frame.TakesEval Γ

/-- A use of a resolved name. -/
theorem emits_use {i : Identifier} (hr : b.Resolved Γ i) :
    Emits (use b i) D fun u D' => u.Fits b.scopes.limits.maxDepth Γ ∧ D = D' := by
  obtain ⟨ha, hfits⟩ := hr
  refine (emits_required _ ha).bind ?_
  rintro _ _ ⟨rfl, rfl⟩
  exact .pure ⟨hfits, rfl⟩

theorem emits_scopeOf {node : NodeId} {id : ScopeId} (h : b.nodeScopes[node]? = some id) :
    Emits (scopeOf b node) D fun x D' => id = x ∧ D = D' := emits_required _ h

theorem emits_descriptor {id : ScopeId} {s : Scope Unit} (h : b.scopes.find? id = some s) :
    Emits (descriptor b id) D fun x D' => s = x ∧ D = D' := by
  unfold descriptor
  rw [Pool.get_of_find? h]
  exact .pure ⟨rfl, rfl⟩

theorem emits_ownSlot {s : Scope Unit} (hs : s.Draft) (node : NodeId) {n : Name}
    (hn : n ∈ s.table.names) :
    Emits (ownSlot s node n) D fun k D' => k < s.table.names.length ∧ D = D' := by
  obtain ⟨k, hk⟩ := List.mem_iff_getElem?.mp hn
  have hslot : s.slot? n = some k := (hs.compact.slot?_eq_some_iff hs.sound).mpr hk
  refine (emits_required _ hslot).imp ?_
  rintro _ _ ⟨rfl, rfl⟩
  exact ⟨(List.getElem?_eq_some_iff.mp hk).1, rfl⟩

theorem emits_hoisted {P : FunctionCode → Prop} (ds : List (Nat × Declaration))
    (hd : ∀ k d f, (k, d) ∈ ds → d.hoisted = some f → ∃ c, D[f]? = some c ∧ P c) :
    Emits (hoisted ds) D fun hs D' =>
      (∀ h ∈ hs, P h.code ∧ ∃ d, (h.slot, d) ∈ ds ∧ d.name = h.name) ∧ D = D' := by
  induction ds with
  | nil => exact .pure ⟨by simp, rfl⟩
  | cons e ds ih =>
    have hrest := ih fun k d f hm => hd k d f (List.mem_cons_of_mem _ hm)
    obtain ⟨k, ⟨n, o⟩⟩ := e
    cases o with
    | none =>
      refine hrest.imp fun hs _ ⟨hall, he⟩ => ⟨fun h hm => ?_, he⟩
      obtain ⟨hp, d, hdm, hn⟩ := hall h hm
      exact ⟨hp, d, List.mem_cons_of_mem _ hdm, hn⟩
    | some f =>
      obtain ⟨c, hc, hp⟩ := hd k ⟨n, some f⟩ f List.mem_cons_self rfl
      refine Emits.bind (Q := fun x D' => D = x ∧ D = D') ⟨D, D, rfl, rfl, rfl⟩ ?_
      rintro _ _ ⟨rfl, rfl⟩
      refine (emits_required _ hc).bind ?_
      rintro _ _ ⟨rfl, rfl⟩
      refine hrest.bind fun hs _ ⟨hall, he⟩ => .pure ⟨fun h hm => ?_, he⟩
      rcases List.mem_cons.mp hm with rfl | hm
      · exact ⟨hp, ⟨n, some f⟩, List.mem_cons_self, rfl⟩
      · obtain ⟨hp, d, hdm, hn⟩ := hall h hm
        exact ⟨hp, d, List.mem_cons_of_mem _ hdm, hn⟩

/-- The entry of a body lists the names of its scope, and the functions that they hold. -/
theorem emits_entry {P : FunctionCode → Prop} {id : ScopeId} {s : Scope Unit} (mode : EntryMode)
    (hs : s.Draft) (hid : b.scopes.find? id = some s)
    (hd : ∀ k d f, s.table.get? k = some d → d.hoisted = some f → ∃ c, D[f]? = some c ∧ P c) :
    Emits (entry b id mode) D fun e D' => (e.names = s.table.names ∧ e.mode = mode ∧
      (∀ h ∈ e.hoisted, s.table.names[h.slot]? = some h.name) ∧ ∀ h ∈ e.hoisted, P h.code) ∧
      D = D' := by
  refine (emits_descriptor hid).bind ?_
  rintro _ _ ⟨rfl, rfl⟩
  refine (emits_hoisted s.table.declarations fun k d f hm =>
    hd k d f (Table.mem_declarations_iff.mp hm)).bind ?_
  rintro hs' _ ⟨hall, rfl⟩
  refine .pure ⟨⟨rfl, rfl, fun h hm => ?_, fun h hm => (hall h hm).1⟩, rfl⟩
  obtain ⟨-, d, hdm, hn⟩ := hall h hm
  rw [hs.compact.getElem?_names, Table.nameAt, Table.mem_declarations_iff.mp hdm, ← hn]
  rfl

theorem frame_of_functionScope {f : FunctionDef} {s : Scope Unit} (hs : Binding.FunctionScope f s) :
    s.frame = ⟨s.table.names, false, s.directEval⟩ := by
  simp [Scope.frame, hs.kind]

/-- The scope of a sloppy function that calls `eval` directly is open. -/
theorem evalLands_of_functionScope {f : FunctionDef} {s : Scope Unit}
    (hs : Binding.FunctionScope f s) (hc : Stmt.anyCallsEval f.body = true) :
    EvalLands f.strict (s.frame :: Γ) := by
  have hframe := frame_of_functionScope hs
  cases hstrict : f.strict with
  | true => exact .inl rfl
  | false =>
    refine .inr ((Frame.takesEval_cons_of_not_catch (by rw [hframe])).mpr ?_)
    simp [hframe, hs.directEval, hstrict, hc]

/-- A function's code is made once that of its body is. -/
theorem emits_function_of_body {f : FunctionDef} (hn : f.nodes.Nodup) (hd : b.scopes.Draft)
    (hb : b.FunctionBound Γ f)
    (hbody : ∀ Γ strict D, b.StmtsBound Γ f.body →
      (Stmt.anyCallsEval f.body = true → EvalLands strict Γ) →
      Emits (stmts b f.body) D fun ss D' =>
        (∀ s ∈ ss, s.Fits b.scopes.limits.maxDepth Γ strict) ∧
        Leaves b.scopes.limits.maxDepth (Frame.target Γ) (Stmt.allNodes f.body)
          (Stmt.allDeclarations f.body) D D') :
    Emits (function b f) D fun c D' => c.Fits b.scopes.limits.maxDepth Γ ∧
      Leaves b.scopes.limits.maxDepth Γ f.nodes [] D D' := by
  obtain ⟨id, self, params, body, strict, span⟩ := f
  obtain ⟨scope, s, hnode, hs, hfs, hbound⟩ := hb
  have hdraft := hd scope s hs
  have hframe := frame_of_functionScope hfs
  have htarget : Frame.target (s.frame :: Γ) = s.frame :: Γ :=
    Frame.target_cons_of_not_catch Γ (by rw [hframe])
  rw [function]
  refine (emits_scopeOf hnode).bind ?_
  rintro _ _ ⟨rfl, rfl⟩
  refine (hbody (s.frame :: Γ) strict D hbound (evalLands_of_functionScope hfs)).bind ?_
  rintro ss D₁ ⟨hss, hleft⟩
  rw [htarget] at hleft
  refine (emits_entry .template hdraft hs fun k d f hk hf =>
    hleft.of_table hfs.table hk hf).bind ?_
  rintro e _ ⟨⟨hnames, hmode, hslots, hcodes⟩, rfl⟩
  refine (emits_descriptor hs).bind ?_
  rintro _ _ ⟨rfl, rfl⟩
  have hown (n : Name) (hm : n ∈ (self.map Identifier.name).toList ++
      .this :: .arguments :: params.map Identifier.name) :
      Emits (ownSlot s id n) D₁ fun k D' => k < e.names.length ∧ D₁ = D' :=
    hnames ▸ emits_ownSlot hdraft id (hfs.mem_names_iff.mpr (.inl hm))
  refine (emits_mapM params fun i hi => hown i.name ?_).bind ?_
  · simp only [List.mem_append, List.mem_cons, List.mem_map]
    exact .inr (.inr (.inr ⟨i, hi, rfl⟩))
  rintro ps _ ⟨hps, rfl⟩
  refine Emits.bind (Q := fun o D' => (∀ k ∈ o, k < e.names.length) ∧ D₁ = D') ?_ ?_
  · cases self with
    | none => exact .pure ⟨by simp, rfl⟩
    | some i =>
      rw [Option.mapM_some]
      refine (hown i.name (by simp)).map ?_
      rintro k _ ⟨hk, he⟩
      exact ⟨by simpa using hk, he⟩
  rintro selfSlot _ ⟨hself, rfl⟩
  refine (hown .this (by simp)).bind ?_
  rintro thisSlot _ ⟨-, rfl⟩
  refine (hown .arguments (by simp)).bind ?_
  rintro argumentsSlot _ ⟨harguments, rfl⟩
  refine .pure ⟨.intro s.directEval hmode ?_ hps hself (by simpa using harguments) ?_ ?_ ?_, ?_⟩
  · exact hnames ▸ hdraft.sound.nodup_names
  · simpa only [hnames] using hslots
  · simpa only [hnames, ← hframe] using hcodes
  · simpa only [hnames, ← hframe] using hss
  · refine ⟨fun k hk => hleft.rest k fun hm => hk ?_, by simp⟩
    exact List.mem_cons_of_mem _ (List.mem_append_right _ hm)

theorem identifier?_eq_some {e : ScopeChain.Expr} {i : Identifier} (h : e.identifier? = some i) :
    e = .identifier i := by
  cases e <;> simp_all [Expr.identifier?]

theorem fits_single {strict : Bool} {ss : List Stmt} (h : ∀ s ∈ ss, s.Fits limit Γ strict) :
    (single ss).Fits limit Γ strict := by
  unfold single
  split
  · exact h _ List.mem_cons_self
  · exact .block h

/-- Whatever is done with the answer, only a call of the bare name `eval` may be direct. -/
theorem emits_direct {f : ScopeChain.Expr} {next : Bool → EmitM β} {R : β → Declared → Prop}
    (hb : b.Bound Γ f) (hnext : ∀ direct, (direct = true → f.isEval = true) →
      Emits (next direct) D R) :
    Emits (match f.identifier? with
      | some i =>
        if i.name = .eval then do next (← (fun a => !a.isStatic) <$> address b i)
        else do next (← pure false)
      | none => do next (← pure false)) D R := by
  have hno : Emits (do next (← pure false)) D R := by
    rw [pure_bind]
    exact hnext false (by simp)
  cases hi : f.identifier? with
  | none => exact hno
  | some i =>
    dsimp only
    split
    · next hn =>
      obtain rfl := identifier?_eq_some hi
      obtain ⟨ha, -⟩ := hb
      have ha' : Emits (address b i) D fun x D' => Frame.address i.name Γ = x ∧ D = D' :=
        emits_required _ ha
      refine Emits.bind (Q := fun _ D' => D = D') (ha'.map fun _ _ h => h.2) ?_
      rintro direct _ rfl
      exact hnext direct fun _ => by simp [Expr.isEval, Expr.identifier?, hn]
    · exact hno

mutual

theorem emits_expr (hd : b.scopes.Draft) : (e : ScopeChain.Expr) → (Γ : List Frame) →
    (strict : Bool) → (D : Declared) → e.nodes.Nodup → b.Bound Γ e →
    (e.callsEval = true → EvalLands strict Γ) →
    Emits (expr b e) D fun c D' => c.Fits b.scopes.limits.maxDepth Γ strict ∧
      Leaves b.scopes.limits.maxDepth Γ e.nodes [] D D'
  | .number _, _, _, _, _, _, _ => .pure ⟨.number, .refl⟩
  | .string _, _, _, _, _, _, _ => .pure ⟨.string, .refl⟩
  | .bool _, _, _, _, _, _, _ => .pure ⟨.bool, .refl⟩
  | .null, _, _, _, _, _, _ => .pure ⟨.null, .refl⟩
  | .this i, _, _, _, _, hb, _ | .identifier i, _, _, _, _, hb, _ => by
    refine (emits_use hb).bind ?_
    rintro u _ ⟨hu, rfl⟩
    exact .pure ⟨.load hu, .refl⟩
  | .assign i e, Γ, strict, D, hn, hb, hc => by
    refine (emits_use hb.1).bind ?_
    rintro u _ ⟨hu, rfl⟩
    refine (emits_expr hd e Γ strict D (List.nodup_cons.mp hn).2 hb.2 hc).bind ?_
    rintro c D' ⟨hf, hl⟩
    exact .pure ⟨.store hu hf, hl.over (List.subset_cons_self _ _)⟩
  | .binary _ l r, Γ, strict, D, hn, hb, hc => by
    obtain ⟨hl, hr, -⟩ := List.nodup_append'.mp hn
    refine (emits_expr hd l Γ strict D hl hb.1 fun h => hc (by simp [Expr.callsEval, h])).bind
      fun c D' ⟨hf, hleft⟩ => ?_
    refine (emits_expr hd r Γ strict D' hr hb.2 fun h => hc (by simp [Expr.callsEval, h])).bind
      fun c' D'' ⟨hf', hleft'⟩ => ?_
    exact .pure ⟨.binary hf hf', hleft.trans hleft' nofun⟩
  | .unary _ e, Γ, strict, D, hn, hb, hc => by
    refine (emits_expr hd e Γ strict D hn hb hc).bind ?_
    rintro c D' ⟨hf, hl⟩
    exact .pure ⟨.unary hf, hl⟩
  | .typeof e, Γ, strict, D, hn, hb, hc => by
    rw [expr]
    split
    · next i hi =>
      obtain rfl := identifier?_eq_some hi
      refine (emits_use hb).bind ?_
      rintro u _ ⟨hu, rfl⟩
      exact .pure ⟨.typeofName hu, .refl⟩
    · refine (emits_expr hd e Γ strict D hn hb hc).bind ?_
      rintro c D' ⟨hf, hl⟩
      exact .pure ⟨.typeof hf, hl⟩
  | .delete e _, Γ, strict, D, hn, hb, hc => by
    rw [expr]
    split
    · next i hi =>
      obtain rfl := identifier?_eq_some hi
      refine (emits_use hb).bind ?_
      rintro u _ ⟨hu, rfl⟩
      exact .pure ⟨.deleteName hu, .refl⟩
    · refine (emits_expr hd e Γ strict D hn hb hc).bind ?_
      rintro c D' ⟨hf, hl⟩
      exact .pure ⟨.deleteValue hf, hl⟩
  | .call f args _, Γ, strict, D, hn, hb, hc => by
    obtain ⟨hnf, hna, -⟩ := List.nodup_append'.mp hn
    refine (emits_exprs hd args Γ strict D hna hb.2 fun h => hc (by simp [Expr.callsEval, h])).bind
      fun cs D' ⟨hcs, hleft⟩ => ?_
    refine emits_direct hb.1 ?_
    intro direct hdirect
    split
    · next h =>
      refine .pure ⟨.directEval (hc ?_) hcs, hleft.over (List.subset_append_right _ _)⟩
      simp [Expr.callsEval, hdirect h]
    · refine (emits_expr hd f Γ strict D' hnf hb.1 fun h => hc (by simp [Expr.callsEval, h])).bind
        fun c D'' ⟨hf, hleft'⟩ => .pure ⟨.call hf hcs, ?_⟩
      exact (hleft.trans hleft' nofun).over (by simp [Expr.nodes])
  | .function f, Γ, strict, D, hn, hb, _ => by
    refine (emits_function hd f Γ D hn hb).bind ?_
    rintro c D' ⟨hf, hl⟩
    exact .pure ⟨.function hf, hl⟩

theorem emits_exprs (hd : b.scopes.Draft) : (es : List ScopeChain.Expr) → (Γ : List Frame) →
    (strict : Bool) → (D : Declared) → (Expr.allNodes es).Nodup → b.AllBound Γ es →
    (Expr.anyCallsEval es = true → EvalLands strict Γ) →
    Emits (exprs b es) D fun cs D' => (∀ c ∈ cs, c.Fits b.scopes.limits.maxDepth Γ strict) ∧
      Leaves b.scopes.limits.maxDepth Γ (Expr.allNodes es) [] D D'
  | [], _, _, _, _, _, _ => .pure ⟨by simp, .refl⟩
  | e :: es, Γ, strict, D, hn, hb, hc => by
    obtain ⟨he, hes, -⟩ := List.nodup_append'.mp hn
    refine (emits_expr hd e Γ strict D he hb.1 fun h => hc (by simp [Expr.anyCallsEval, h])).bind
      fun c D' ⟨hf, hleft⟩ => ?_
    refine (emits_exprs hd es Γ strict D' hes hb.2 fun h => hc (by simp [Expr.anyCallsEval, h])).bind
      fun cs D'' ⟨hcs, hleft'⟩ => ?_
    refine .pure ⟨?_, hleft.trans hleft' nofun⟩
    simpa using ⟨hf, hcs⟩

theorem emits_declarators (hd : b.scopes.Draft) : (ds : List Declarator) → (Γ : List Frame) →
    (strict : Bool) → (D : Declared) → (Declarator.allNodes ds).Nodup → b.DeclaratorsBound Γ ds →
    (ds.any Declarator.callsEval = true → EvalLands strict Γ) →
    Emits (declarators b ds) D fun ss D' => (∀ s ∈ ss, s.Fits b.scopes.limits.maxDepth Γ strict) ∧
      Leaves b.scopes.limits.maxDepth Γ (Declarator.allNodes ds) [] D D'
  | [], _, _, _, _, _, _ => .pure ⟨by simp, .refl⟩
  | ⟨i, none⟩ :: ds, Γ, strict, D, hn, hb, hc => by
    refine (emits_declarators hd ds Γ strict D (List.nodup_cons.mp hn).2 hb.2 fun h =>
      hc (by simp [h])).imp fun ss D' ⟨hss, hl⟩ => ⟨hss, hl.over (List.subset_cons_self _ _)⟩
  | ⟨i, some e⟩ :: ds, Γ, strict, D, hn, hb, hc => by
    obtain ⟨he, hds, -⟩ := List.nodup_append'.mp (List.nodup_cons.mp hn).2
    refine (emits_use hb.1).bind ?_
    rintro u _ ⟨hu, rfl⟩
    refine (emits_expr hd e Γ strict D he hb.2.1 fun h =>
      hc (by simp [Declarator.callsEval, h])).bind fun c D' ⟨hf, hleft⟩ => ?_
    refine (emits_declarators hd ds Γ strict D' hds hb.2.2 fun h => hc (by simp [h])).bind
      fun ss D'' ⟨hss, hleft'⟩ => .pure ⟨?_, ?_⟩
    · simpa using ⟨.init (.store hu hf), hss⟩
    · exact (hleft.trans hleft' nofun).over (List.subset_cons_self _ _)

/-- Making code of a statement leaves code of the functions that it declares. -/
theorem emits_stmt (hd : b.scopes.Draft) : (s : ScopeChain.Stmt) → (Γ : List Frame) →
    (strict : Bool) → (D : Declared) → s.nodes.Nodup → b.StmtBound Γ s →
    (s.callsEval = true → EvalLands strict Γ) →
    Emits (stmt b s) D fun ss D' => (∀ s ∈ ss, s.Fits b.scopes.limits.maxDepth Γ strict) ∧
      Leaves b.scopes.limits.maxDepth (Frame.target Γ) s.nodes s.declarations D D'
  | .var ds, Γ, strict, D, hn, hb, hc =>
    (emits_declarators hd ds Γ strict D hn hb hc).imp fun _ _ h =>
      ⟨h.1, h.2.rest, fun _ hm _ hf => absurd hf (ScopeChain.Stmt.not_mem_var hm)⟩
  | .function f, Γ, strict, D, hn, hb, _ => by
    refine (emits_function hd f (Frame.target Γ) D hn hb).bind ?_
    rintro c D' ⟨hf, hl⟩
    refine Emits.bind (Q := fun _ D'' => D'' = D'.insert f.id c) ⟨⟨⟩, _, rfl, rfl⟩ ?_
    rintro _ _ rfl
    refine .pure ⟨by simp, fun k hk => ?_, fun d hd g hg => ?_⟩
    · have hne : f.id ≠ k := fun he => hk (he ▸ FunctionDef.id_mem_nodes f)
      rw [Std.HashMap.getElem?_insert, if_neg (by simpa using hne), hl.rest k hk]
    · obtain ⟨_, -, rfl⟩ := List.mem_map.mp hd
      cases hg
      exact ⟨c, Std.HashMap.getElem?_insert_self, hf⟩
  | .expr e, Γ, strict, D, hn, hb, hc => by
    refine (emits_expr hd e Γ strict D hn hb hc).bind fun c D' ⟨hf, hl⟩ => .pure ⟨?_, hl.elsewhere⟩
    simpa using .expr hf
  | .throw e, Γ, strict, D, hn, hb, hc => by
    refine (emits_expr hd e Γ strict D hn hb hc).bind fun c D' ⟨hf, hl⟩ => .pure ⟨?_, hl.elsewhere⟩
    simpa using .throw hf
  | .return (some e) _, Γ, strict, D, hn, hb, hc => by
    refine (emits_expr hd e Γ strict D hn hb hc).bind fun c D' ⟨hf, hl⟩ => .pure ⟨?_, hl.elsewhere⟩
    simpa using .return (by simpa using hf)
  | .return none _, _, _, _, _, _, _ => .pure ⟨by simpa using .return (by simp), .refl⟩
  | .empty, _, _, _, _, _, _ => .pure ⟨by simp, .refl⟩
  | .if t s none, Γ, strict, D, hn, hb, hc => by
    obtain ⟨ht, hs, hdis⟩ := List.nodup_append'.mp hn
    refine (emits_expr hd t Γ strict D ht hb.1 fun h => hc (by simp [Stmt.callsEval, h])).bind
      fun c D' ⟨hf, hleft⟩ => ?_
    refine (emits_stmt hd s Γ strict D' hs hb.2 fun h => hc (by simp [Stmt.callsEval, h])).bind
      fun ss D'' ⟨hss, hleft'⟩ => .pure ⟨?_, hleft.elsewhere.trans hleft' nofun⟩
    simpa using .if hf (fits_single hss) (by simp)
  | .if t s (some a), Γ, strict, D, hn, hb, hc => by
    simp only [Stmt.nodes, List.append_assoc] at hn ⊢
    obtain ⟨ht, hsa, -⟩ := List.nodup_append'.mp hn
    obtain ⟨hs, ha, hdis⟩ := List.nodup_append'.mp hsa
    refine (emits_expr hd t Γ strict D ht hb.1 fun h => hc (by simp [Stmt.callsEval, h])).bind
      fun c D₁ ⟨hf, hleft⟩ => ?_
    refine (emits_stmt hd s Γ strict D₁ hs hb.2.1 fun h => hc (by simp [Stmt.callsEval, h])).bind
      fun ss D₂ ⟨hss, hleft'⟩ => ?_
    refine (emits_stmt hd a Γ strict D₂ ha hb.2.2 fun h => hc (by simp [Stmt.callsEval, h])).bind
      fun as D₃ ⟨has, hleft''⟩ => .pure ⟨?_, ?_⟩
    · simpa using .if hf (fits_single hss) (by simpa using fits_single has)
    · exact hleft.elsewhere.trans (hleft'.trans hleft'' fun _ hd _ hf =>
        hdis ((ScopeChain.Stmt.declaredAmong s).id_mem (ScopeChain.Stmt.items_sublist s) hd hf)) nofun
  | .while t s, Γ, strict, D, hn, hb, hc => by
    obtain ⟨ht, hs, hdis⟩ := List.nodup_append'.mp hn
    refine (emits_expr hd t Γ strict D ht hb.1 fun h => hc (by simp [Stmt.callsEval, h])).bind
      fun c D' ⟨hf, hleft⟩ => ?_
    refine (emits_stmt hd s Γ strict D' hs hb.2 fun h => hc (by simp [Stmt.callsEval, h])).bind
      fun ss D'' ⟨hss, hleft'⟩ => .pure ⟨?_, hleft.elsewhere.trans hleft' nofun⟩
    simpa using .while hf (fits_single hss)
  | .block ss, Γ, strict, D, hn, hb, hc => by
    refine (emits_stmts hd ss Γ strict D hn hb hc).bind fun ss D' ⟨hss, hl⟩ => .pure ⟨?_, hl⟩
    simpa using .block hss
  | .try ss h f, Γ, strict, D, hn, hb, hc => by
    simp only [Stmt.nodes, List.append_assoc] at hn ⊢
    obtain ⟨hs, hhf, hdis⟩ := List.nodup_append'.mp hn
    obtain ⟨hh, hf, hdis'⟩ := List.nodup_append'.mp hhf
    refine (emits_stmts hd ss Γ strict D hs hb.1 fun h => hc (by simp [Stmt.callsEval, h])).bind
      fun cs D₁ ⟨hcs, hleft⟩ => ?_
    refine (emits_handler hd h Γ strict D₁ hh hb.2.1 fun h => hc (by simp [Stmt.callsEval, h])).bind
      fun o D₂ ⟨ho, hleft'⟩ => ?_
    refine (emits_finalizer hd f Γ strict D₂ hf hb.2.2 fun h =>
      hc (by simp [Stmt.callsEval, h])).bind fun o' D₃ ⟨ho', hleft''⟩ => .pure ⟨?_, ?_⟩
    · simpa using .try hcs ho ho'
    · exact hleft.trans (hleft'.trans hleft'' fun _ hd _ hf =>
        hdis' ((ScopeChain.Stmt.handlerDeclaredAmong h).id_mem
          (ScopeChain.Stmt.handlerItems_sublist h) hd hf)) fun _ hd _ hf =>
        hdis ((ScopeChain.Stmt.allDeclaredAmong ss).id_mem
          (ScopeChain.Stmt.allItems_sublist ss) hd hf)

theorem emits_stmts (hd : b.scopes.Draft) : (ss : List ScopeChain.Stmt) → (Γ : List Frame) →
    (strict : Bool) → (D : Declared) → (Stmt.allNodes ss).Nodup → b.StmtsBound Γ ss →
    (Stmt.anyCallsEval ss = true → EvalLands strict Γ) →
    Emits (stmts b ss) D fun ss' D' => (∀ s ∈ ss', s.Fits b.scopes.limits.maxDepth Γ strict) ∧
      Leaves b.scopes.limits.maxDepth (Frame.target Γ) (Stmt.allNodes ss) (Stmt.allDeclarations ss) D D'
  | [], _, _, _, _, _, _ => .pure ⟨by simp, .refl⟩
  | s :: ss, Γ, strict, D, hn, hb, hc => by
    obtain ⟨hs, hss, hdis⟩ := List.nodup_append'.mp hn
    refine (emits_stmt hd s Γ strict D hs hb.1 fun h => hc (by simp [Stmt.anyCallsEval, h])).bind
      fun c D' ⟨hf, hleft⟩ => ?_
    refine (emits_stmts hd ss Γ strict D' hss hb.2 fun h => hc (by simp [Stmt.anyCallsEval, h])).bind
      fun cs D'' ⟨hcs, hleft'⟩ => .pure ⟨fun x hx => ?_, hleft.trans hleft' ?_⟩
    · rcases List.mem_append.mp hx with hx | hx
      · exact hf x hx
      · exact hcs x hx
    · exact fun _ hd _ hf => hdis ((ScopeChain.Stmt.declaredAmong s).id_mem
        (ScopeChain.Stmt.items_sublist s) hd hf)

theorem emits_handler (hd : b.scopes.Draft) : (h : Option CatchClause) → (Γ : List Frame) →
    (strict : Bool) → (D : Declared) → (Stmt.handlerNodes h).Nodup → b.HandlerBound Γ h →
    (Stmt.handlerCallsEval h = true → EvalLands strict Γ) →
    Emits (handler b h) D fun o D' => (∀ c ∈ o, c.Fits b.scopes.limits.maxDepth Γ strict) ∧
      Leaves b.scopes.limits.maxDepth (Frame.target Γ) (Stmt.handlerNodes h)
        (Stmt.handlerDeclarations h) D D'
  | none, _, _, _, _, _, _ => .pure ⟨by simp, .refl⟩
  | some ⟨id, param, body⟩, Γ, strict, D, hn, hb, hc => by
    obtain ⟨inner, parent, hnode, hin, -, hbody⟩ := hb
    have hdraft := Scope.draft_ofTable .catch parent [param.name]
    have hnames : (Table.ofNames [param.name]).names = [param.name] :=
      Table.names_ofNames (List.nodup_singleton _)
    have hcatch : Frame.target (⟨[param.name], true, false⟩ :: Γ) = Frame.target Γ :=
      Frame.target_cons_of_catch Γ rfl
    have hlands (h : Stmt.anyCallsEval body = true) :
        EvalLands strict (⟨[param.name], true, false⟩ :: Γ) :=
      (hc h).imp_right (Frame.takesEval_cons_of_catch rfl).mpr
    refine (emits_scopeOf hnode).bind ?_
    rintro _ _ ⟨rfl, rfl⟩
    refine (emits_stmts hd body _ strict D (List.nodup_cons.mp (List.nodup_cons.mp hn).2).2 hbody
      hlands).bind fun ss D' ⟨hss, hleft⟩ => ?_
    rw [hcatch] at hleft
    refine (emits_entry (P := fun _ => False) .catch hdraft hin fun k d f hk hf => ?_).bind ?_
    · have hnone := Table.hoisted_ofNames hk
      rw [hf] at hnone
      cases hnone
    rintro e _ ⟨⟨hen, hem, -, heh⟩, rfl⟩
    refine (emits_descriptor hin).bind ?_
    rintro _ _ ⟨rfl, rfl⟩
    have hmem : param.name ∈ (Table.ofNames [param.name]).names := by simp [hnames]
    refine (emits_ownSlot hdraft id hmem).bind ?_
    rintro k _ ⟨hk, rfl⟩
    have hen' : e.names = [param.name] := hen.trans hnames
    have hk' : k < e.names.length := by rwa [hen]
    refine .pure ⟨?_, hleft.over fun i hi => List.mem_cons_of_mem _ (List.mem_cons_of_mem _ hi)⟩
    rintro c ⟨rfl⟩
    refine .intro hem (by simp [hen']) (List.eq_nil_iff_forall_not_mem.mpr heh) hk' ?_
    simpa only [hen'] using hss

theorem emits_finalizer (hd : b.scopes.Draft) : (f : Option (List ScopeChain.Stmt)) →
    (Γ : List Frame) → (strict : Bool) → (D : Declared) → (Stmt.finalizerNodes f).Nodup →
    b.FinalizerBound Γ f → (Stmt.finalizerCallsEval f = true → EvalLands strict Γ) →
    Emits (finalizer b f) D fun o D' =>
      (∀ ss ∈ o, ∀ s ∈ ss, s.Fits b.scopes.limits.maxDepth Γ strict) ∧
      Leaves b.scopes.limits.maxDepth (Frame.target Γ) (Stmt.finalizerNodes f)
        (Stmt.finalizerDeclarations f) D D'
  | none, _, _, _, _, _, _ => .pure ⟨by simp, .refl⟩
  | some body, Γ, strict, D, hn, hb, hc => by
    refine (emits_stmts hd body Γ strict D hn hb hc).bind fun ss D' ⟨hss, hl⟩ => .pure ⟨?_, hl⟩
    simpa using hss

theorem emits_function (hd : b.scopes.Draft) : (f : FunctionDef) → (Γ : List Frame) →
    (D : Declared) → f.nodes.Nodup → b.FunctionBound Γ f →
    Emits (function b f) D fun c D' => c.Fits b.scopes.limits.maxDepth Γ ∧
      Leaves b.scopes.limits.maxDepth Γ f.nodes [] D D'
  | ⟨id, self, params, body, strict, span⟩, Γ, D, hn, hb => by
    refine emits_function_of_body hn hd hb fun Γ strict D hbound hc =>
      emits_stmts hd body Γ strict D ?_ hbound hc
    exact (List.nodup_append'.mp (List.nodup_cons.mp hn).2).2.1

end

/-- The mode of a program's entry. -/
def rootMode (eval : Bool) : EntryMode := if eval then .eval else .global

theorem emits_program {p : Program} {eval : Bool} (hn : p.nodes.Nodup)
    (hb : b.ProgramBound p eval) :
    Emits (program b p) D fun c _ =>
      c.FitsProgram b.scopes.limits.maxDepth (rootMode eval) ∧ c.strict = p.strict := by
  obtain ⟨scope, s, hnode, hs, hkind, htable⟩ := hb.root
  have hdraft := hb.draft scope s hs
  have hmode : modeOf s = rootMode eval := by
    cases eval <;> simp [modeOf, rootMode, hkind, Binding.rootKind]
  refine (emits_scopeOf hnode).bind ?_
  rintro _ _ ⟨rfl, rfl⟩
  refine (emits_descriptor hs).bind ?_
  rintro _ _ ⟨rfl, rfl⟩
  refine (emits_stmts hb.draft p.body [] p.strict D (List.nodup_cons.mp hn).2 hb.body
    fun _ => .inr trivial).bind fun ss D' ⟨hss, hleft⟩ => ?_
  refine (emits_entry (modeOf s) hdraft hs fun k d f hk hf =>
    hleft.of_table htable hk hf).bind ?_
  rintro e _ ⟨⟨hnames, hem, hslots, hcodes⟩, rfl⟩
  refine .pure ⟨⟨hem.trans hmode, ?_, ?_, hcodes, hss⟩, rfl⟩
  · exact hnames ▸ hdraft.sound.nodup_names
  · simpa only [hnames] using hslots

section Slack

variable (b : Binding) (k : Nat)

theorem address_withSlack (i : Identifier) : address (b.withSlack k) i = address b i := rfl

theorem use_withSlack (i : Identifier) : use (b.withSlack k) i = use b i := rfl

theorem scopeOf_withSlack (node : NodeId) : scopeOf (b.withSlack k) node = scopeOf b node := rfl

theorem descriptor_withSlack (id : ScopeId) :
    descriptor (b.withSlack k) id = descriptor b id := rfl

theorem entry_withSlack (id : ScopeId) (mode : EntryMode) :
    entry (b.withSlack k) id mode = entry b id mode := rfl

mutual

theorem expr_withSlack : (e : ScopeChain.Expr) → expr (b.withSlack k) e = expr b e
  | .number _ | .string _ | .bool _ | .null | .this _ | .identifier _ => by
    simp only [expr, use_withSlack]
  | .assign _ e | .unary _ e | .typeof e | .delete e _ => by
    simp only [expr, use_withSlack, expr_withSlack e]
  | .binary _ l r => by simp only [expr, expr_withSlack l, expr_withSlack r]
  | .call f args _ => by
    simp only [expr, address_withSlack, expr_withSlack f, exprs_withSlack args]
  | .function f => by simp only [expr, function_withSlack f]

theorem exprs_withSlack : (es : List ScopeChain.Expr) → exprs (b.withSlack k) es = exprs b es
  | [] => by simp only [exprs]
  | e :: es => by simp only [exprs, expr_withSlack e, exprs_withSlack es]

theorem declarators_withSlack : (ds : List Declarator) →
    declarators (b.withSlack k) ds = declarators b ds
  | [] => by simp only [declarators]
  | ⟨_, none⟩ :: ds => by simp only [declarators, declarators_withSlack ds]
  | ⟨_, some e⟩ :: ds => by
    simp only [declarators, use_withSlack, expr_withSlack e, declarators_withSlack ds]

theorem stmt_withSlack : (s : ScopeChain.Stmt) → stmt (b.withSlack k) s = stmt b s
  | .var ds => by simp only [stmt, declarators_withSlack ds]
  | .function f => by simp only [stmt, function_withSlack f]
  | .expr e | .return (some e) _ | .throw e => by simp only [stmt, expr_withSlack e]
  | .return none _ | .empty => by simp only [stmt]
  | .if t c none => by simp only [stmt, expr_withSlack t, stmt_withSlack c]
  | .if t c (some a) => by
    simp only [stmt, expr_withSlack t, stmt_withSlack c, stmt_withSlack a]
  | .while t s => by simp only [stmt, expr_withSlack t, stmt_withSlack s]
  | .block ss => by simp only [stmt, stmts_withSlack ss]
  | .try ss h f => by
    simp only [stmt, stmts_withSlack ss, handler_withSlack h, finalizer_withSlack f]

theorem stmts_withSlack : (ss : List ScopeChain.Stmt) → stmts (b.withSlack k) ss = stmts b ss
  | [] => by simp only [stmts]
  | s :: ss => by simp only [stmts, stmt_withSlack s, stmts_withSlack ss]

theorem handler_withSlack : (h : Option CatchClause) → handler (b.withSlack k) h = handler b h
  | none => by simp only [handler]
  | some ⟨_, _, body⟩ => by
    simp only [handler, scopeOf_withSlack, entry_withSlack, descriptor_withSlack,
      stmts_withSlack body]

theorem finalizer_withSlack : (f : Option (List ScopeChain.Stmt)) →
    finalizer (b.withSlack k) f = finalizer b f
  | none => by simp only [finalizer]
  | some body => by simp only [finalizer, stmts_withSlack body]

theorem function_withSlack : (f : FunctionDef) → function (b.withSlack k) f = function b f
  | ⟨_, _, _, body, _, _⟩ => by
    simp only [function, scopeOf_withSlack, entry_withSlack, descriptor_withSlack,
      stmts_withSlack body]

end
theorem program_withSlack (p : Program) : program (b.withSlack k) p = program b p := by
  simp only [program, scopeOf_withSlack, descriptor_withSlack, entry_withSlack, stmts_withSlack]

end Slack

end Emission

/-- Code is made of every bound program. It fits, it is strict if the program is, and the growth of
value arrays has no part in it. -/
theorem ofProgram_spec {b : Binding} {p : Program} {eval : Bool} (hn : p.nodes.Nodup)
    (hb : b.ProgramBound p eval) :
    ∃ c, ofProgram b p = .ok c ∧
      c.FitsProgram b.scopes.limits.maxDepth (Emission.rootMode eval) ∧ c.strict = p.strict ∧
      ∀ k, ofProgram (b.withSlack k) p = .ok c := by
  obtain ⟨c, D, hc, hfits, hstrict⟩ := Emission.emits_program (D := {}) hn hb
  have hrun : (Emission.program b p).run' {} = .ok c := by
    rw [StateT.run'_eq, hc]
    rfl
  refine ⟨c, hrun, hfits, hstrict, fun k => ?_⟩
  rw [ofProgram, Emission.program_withSlack, hrun]

end Code

end ScopeChain
