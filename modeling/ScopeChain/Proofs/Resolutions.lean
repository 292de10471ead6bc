import ScopeChain.Proofs.Declarations

/-! The walk of a body for its names: every name in it gets an address that fits the scopes around
it, and every function and catch clause a scope. -/
namespace ScopeChain.Binding

variable {b c d : Binding} {scope : ScopeId} {Γ : List Frame} {xs ys : List NodeId}

/-- The scope of a function declares the function's own names and then what the body declares. It is
open if a direct call of `eval` may add names to it. -/
structure FunctionScope (f : FunctionDef) (s : Scope Unit) : Prop where
  kind : s.kind = .function
  table : s.table = (Table.ofNames f.ownNames).declareEach (Stmt.allDeclarations f.body)
  directEval : s.directEval = (!f.strict && Stmt.anyCallsEval f.body)

theorem FunctionScope.mem_names_iff {f : FunctionDef} {s : Scope Unit} (h : FunctionScope f s)
    {n : Name} : n ∈ s.table.names ↔
      n ∈ f.ownNames ∨ n ∈ (Stmt.allDeclarations f.body).map Prod.fst := by
  rw [h.table, (Table.compact_ofNames _).mem_names_declareEach, Table.mem_names_ofNames]

/-- An occurrence of a name has the address that some frames give the name, which leads to it. -/
def Resolved (b : Binding) (Γ : List Frame) (i : Identifier) : Prop :=
  b.references[i.id]? = some (Frame.address i.name Γ) ∧
    (Frame.address i.name Γ).Fits b.scopes.limits.maxDepth Γ i.name

mutual

/-- The names of an expression are resolved within some frames, and its functions are bound. -/
def Bound (b : Binding) (Γ : List Frame) : Expr → Prop
  | .number _ | .string _ | .bool _ | .null => True
  | .this i | .identifier i => b.Resolved Γ i
  | .assign i e => b.Resolved Γ i ∧ Bound b Γ e
  | .binary _ l r => Bound b Γ l ∧ Bound b Γ r
  | .unary _ e | .typeof e | .delete e _ => Bound b Γ e
  | .call f args _ => Bound b Γ f ∧ AllBound b Γ args
  | .function f => FunctionBound b Γ f

def AllBound (b : Binding) (Γ : List Frame) : List Expr → Prop
  | [] => True
  | e :: es => Bound b Γ e ∧ AllBound b Γ es

def DeclaratorsBound (b : Binding) (Γ : List Frame) : List Declarator → Prop
  | [] => True
  | ⟨i, none⟩ :: ds => b.Resolved Γ i ∧ DeclaratorsBound b Γ ds
  | ⟨i, some e⟩ :: ds => b.Resolved Γ i ∧ Bound b Γ e ∧ DeclaratorsBound b Γ ds

def StmtBound (b : Binding) (Γ : List Frame) : Stmt → Prop
  | .var ds => DeclaratorsBound b Γ ds
  | .function f => FunctionBound b (Frame.target Γ) f
  | .expr e | .throw e | .return (some e) _ => Bound b Γ e
  | .return none _ | .empty => True
  | .if t s none => Bound b Γ t ∧ StmtBound b Γ s
  | .if t s (some a) => Bound b Γ t ∧ StmtBound b Γ s ∧ StmtBound b Γ a
  | .while t s => Bound b Γ t ∧ StmtBound b Γ s
  | .block ss => StmtsBound b Γ ss
  | .try ss h f => StmtsBound b Γ ss ∧ HandlerBound b Γ h ∧ FinalizerBound b Γ f

def StmtsBound (b : Binding) (Γ : List Frame) : List Stmt → Prop
  | [] => True
  | s :: ss => StmtBound b Γ s ∧ StmtsBound b Γ ss

/-- The scope of a catch clause declares the name that the clause binds, and no other. -/
def HandlerBound (b : Binding) (Γ : List Frame) : Option CatchClause → Prop
  | none => True
  | some ⟨id, param, body⟩ => ∃ inner parent, b.nodeScopes[id]? = some inner ∧
    b.scopes.find? inner = some (.ofTable .catch parent (.ofNames [param.name])) ∧
    b.Resolved (⟨[param.name], true, false⟩ :: Γ) param ∧
    StmtsBound b (⟨[param.name], true, false⟩ :: Γ) body

def FinalizerBound (b : Binding) (Γ : List Frame) : Option (List Stmt) → Prop
  | none => True
  | some body => StmtsBound b Γ body

/-- A function has a scope of its own, in which its body is bound. -/
def FunctionBound (b : Binding) (Γ : List Frame) : FunctionDef → Prop
  | ⟨id, self, params, body, strict, span⟩ => ∃ scope s, b.nodeScopes[id]? = some scope ∧
    b.scopes.find? scope = some s ∧ FunctionScope ⟨id, self, params, body, strict, span⟩ s ∧
    StmtsBound b (s.frame :: Γ) body

end

/-- A part of the walk for names that goes as it should from wherever it may start. It records
nothing but for the nodes in `xs`, and while that stays as it is `P` holds. -/
def Binds (scope : ScopeId) (Γ : List Frame) (f : BindM Unit) (xs : List NodeId)
    (pre P : Binding → Prop) : Prop :=
  ∀ b, b.scopes.Draft → b.scopes.Describes scope Γ → pre b → Yields f b fun _ c =>
    c.scopes.Draft ∧ Keeps (fun _ => True) (· ∉ xs) b c ∧
    ∀ d, Keeps (fun _ => True) (· ∈ xs) c d → P d

theorem describes_of_kept {p q : Pool Unit} (h : p.Describes scope Γ)
    (hk : ∀ id s, p.find? id = some s → q.find? id = some s) : q.Describes scope Γ := by
  induction h with
  | root hs hr => exact .root (hk _ _ hs) hr
  | frame hs hf hp _ ih => exact .frame (hk _ _ hs) hf hp ih

theorem Keeps.describes {S : NodeId → Prop} (h : Keeps (fun _ => True) S b c)
    (hd : b.scopes.Describes scope Γ) : c.scopes.Describes scope Γ :=
  describes_of_kept hd fun id s => h.scopes id s trivial

section Binds

variable {f g : BindM Unit} {pre pre' P P' Q : Binding → Prop}

theorem Binds.pure (h : ∀ b, P b) : Binds scope Γ (pure ()) xs pre P :=
  fun b hd _ _ => .pure ⟨hd, .refl _ _ b, fun _ _ => h _⟩

theorem Binds.imp (h : Binds scope Γ f xs pre P) (hpre : ∀ b, pre' b → pre b)
    (hp : ∀ b, P b → P' b) : Binds scope Γ f xs pre' P' :=
  fun b hd hs hb => (h b hd hs (hpre b hb)).imp fun _ _ hc =>
    ⟨hc.1, hc.2.1, fun d hk => hp d (hc.2.2 d hk)⟩

/-- One part of the walk after another. What the second one asks for must not depend on what is
recorded for the nodes of the first. -/
theorem Binds.seq (hf : Binds scope Γ f xs pre P) (hg : Binds scope Γ g ys pre' Q)
    (hdis : List.Disjoint xs ys)
    (hpre : ∀ b c, Keeps (fun _ => True) (· ∈ ys) b c → pre' b → pre' c) :
    Binds scope Γ (do f; g) (xs ++ ys) (fun b => pre b ∧ pre' b) fun d => P d ∧ Q d := by
  intro b hd hs ⟨hb, hb'⟩
  refine (hf b hd hs hb).bind ?_
  rintro _ c ⟨hdc, hkc, hp⟩
  have hpc : pre' c := hpre b c (hkc.nodes fun i hi hm => hdis hm hi) hb'
  refine (hg c hdc (hkc.describes hs) hpc).imp fun _ d ⟨hdd, hkd, hq⟩ => ⟨hdd, ?_, fun e hk => ?_⟩
  · exact (hkc.nodes fun i hi hm => hi (List.mem_append_left _ hm)).trans
      (hkd.nodes fun i hi hm => hi (List.mem_append_right _ hm))
  · refine ⟨hp e ?_, hq e (hk.nodes fun i hi => List.mem_append_right _ hi)⟩
    exact (hkd.nodes fun i hi hm => hdis hi hm).trans
      (hk.nodes fun i hi => List.mem_append_left _ hi)

/-- Work that records nothing for nodes and leaves all scopes alone. -/
theorem Binds.after {α : Type} {m : BindM α}
    (hm : ∀ b, Yields m b fun _ c =>
      Keeps (fun _ => True) (fun _ => True) b c ∧ c.scopes = b.scopes)
    (hf : Binds scope Γ f xs pre P)
    (hpre : ∀ b c, Keeps (fun _ => True) (fun _ => True) b c → pre b → pre c) :
    Binds scope Γ (do let _ ← m; f) xs pre P := by
  intro b hd hs hb
  refine (hm b).bind ?_
  rintro _ c ⟨hk, hsc⟩
  refine (hf c (hsc ▸ hd) (hsc ▸ hs) (hpre b c hk hb)).imp fun _ d ⟨hdd, hkd, hp⟩ => ⟨hdd, ?_, hp⟩
  exact (hk.nodes fun _ _ => trivial).trans hkd

end Binds

theorem fresh_append : b.Fresh (xs ++ ys) ↔ b.Fresh xs ∧ b.Fresh ys := by
  simp only [Fresh, List.mem_append, or_imp, forall_and]

theorem fresh_steady (xs : List NodeId) (b c : Binding) (hk : Keeps (fun _ => True) (· ∈ xs) b c)
    (h : b.Fresh xs) : c.Fresh xs := h.keeps hk

theorem yields_report (cx : Context) (span : Span) (m : Message) (arg : String) (b : Binding) :
    Yields (report cx span m arg) b fun _ c =>
      Keeps (fun _ => True) (fun _ => True) b c ∧ c.scopes = b.scopes :=
  yields_modify (fun _ => rfl) ⟨⟨rfl, fun _ _ _ hs => hs, fun _ _ => rfl, fun _ _ => rfl⟩, rfl⟩

theorem yields_noteDirectEval (cx : Context) (scope : ScopeId) (span : Span) (b : Binding) :
    Yields (noteDirectEval cx scope span) b fun _ c =>
      Keeps (fun _ => True) (fun _ => True) b c ∧ c.scopes = b.scopes := by
  refine Yields.bind (Q := fun _ c => Keeps (fun _ => True) (fun _ => True) b c ∧
    c.scopes = b.scopes) (yields_modify (fun k => ?_) ?_) fun _ c ⟨hk, hsc⟩ => ?_
  · by_cases h : scope ∈ b.evalScopes <;> simp [withSlack, h]
  · split
    · exact ⟨.refl _ _ b, rfl⟩
    · exact ⟨⟨rfl, fun _ _ _ hs => hs, fun _ _ => rfl, fun _ _ => rfl⟩, rfl⟩
  · refine (yields_report cx span _ _ c).imp fun _ d ⟨hk', hsc'⟩ => ⟨hk.trans hk', hsc'.trans hsc⟩

/-- Recording an address for an occurrence of a name. -/
theorem yields_reference (i : Identifier) (b : Binding) (hd : b.scopes.Draft)
    (ha : (Frame.address i.name Γ).Fits b.scopes.limits.maxDepth Γ i.name) :
    Yields (modify fun b : Binding =>
      { b with
        references := b.references.insert i.id (Frame.address i.name Γ)
        log := b.log.push ⟨i.id, i.name, i.span, scope, Frame.address i.name Γ⟩ }) b fun _ c =>
      c.scopes.Draft ∧ Keeps (fun _ => True) (· ∉ [i.id]) b c ∧
      ∀ d, Keeps (fun _ => True) (· ∈ [i.id]) c d → d.Resolved Γ i := by
  refine yields_modify (fun _ => rfl) ⟨hd, ⟨rfl, fun _ _ _ hs => hs, fun _ _ => rfl, ?_⟩, ?_⟩
  · intro j hj
    have hne : i.id ≠ j := fun he => hj (by simp [he])
    simp [Std.HashMap.getElem?_insert, hne]
  · intro d hk
    refine ⟨?_, hk.limits ▸ ha⟩
    rw [hk.references i.id (by simp)]
    simp

theorem binds_resolve (cx : Context) (i : Identifier) :
    Binds scope Γ (resolve cx scope i) [i.id] (fun _ => True) (·.Resolved Γ i) := by
  intro b hd hs _
  rcases hs.resolve hd i.name with ⟨a, hres, ha⟩ | hres
  · obtain rfl := hs.resolve_eq hd hres
    refine Yields.bind (Q := fun x c => Frame.address i.name Γ = x ∧ b = c)
      (yields_onScopes (by rw [PoolM.run_query, hres]) (fun k => ?_) ⟨rfl, rfl⟩) ?_
    · rw [PoolM.run_query, Pool.resolve_withSlack, hres]
    · rintro _ _ ⟨rfl, rfl⟩
      split
      · refine (yields_report cx _ _ _ b).bind ?_
        rintro _ c ⟨hk, hsc⟩
        refine (yields_reference i c (hsc ▸ hd) (hsc ▸ ha)).imp fun _ d ⟨hdd, hkd, hp⟩ =>
          ⟨hdd, (hk.nodes fun _ _ => trivial).trans hkd, hp⟩
      · exact yields_reference i b hd ha
  · refine Yields.bind (Q := fun _ _ => False) (yields_onScopes_error
      (by rw [PoolM.run_query, hres]) fun k => ?_) fun _ _ h => h.elim
    rw [PoolM.run_query, Pool.resolve_withSlack, hres]

/-- The part of binding a function that comes before its names: its scope is made, the declarations
of its body are added to it, and then it is known whether it is open. -/
def openFunction (parent : ScopeId) : FunctionDef → BindM ScopeId
  | ⟨id, self, params, body, strict, _⟩ => do
    let scope ← onScopes
      (.newFunction (some parent) (self.map Identifier.name) (params.map Identifier.name))
    recordScope id scope
    declareStmts scope body
    if !strict && Stmt.anyCallsEval body then onScopes (.markDirectEval scope)
    return scope

theorem yields_markDirectEval {s : Scope Unit} (hd : b.scopes.Draft)
    (hs : b.scopes.find? scope = some s) :
    Yields (onScopes (.markDirectEval scope)) b fun _ c =>
      c.scopes.Draft ∧ Keeps (· ≠ scope) (fun _ => True) b c ∧
      c.scopes.find? scope = some { s with directEval := true } := by
  refine yields_onScopes (PoolM.run_update hs _) (fun k => ?_) ⟨?_, ?_, ?_⟩
  · exact PoolM.run_update (p := b.scopes.withSlack k) hs _
  · exact hd.update fun u hu => ⟨hu.compact, hu.sound, hu.bare⟩
  · exact ⟨rfl, fun id u hid hu => (Pool.find?_update_of_ne hid _).trans hu, fun _ _ => rfl,
      fun _ _ => rfl⟩
  · exact Pool.find?_update_self hs _

/-- The scope of a function is made and ready for the names of its body. -/
structure Opened (b : Binding) (parent : ScopeId) (f : FunctionDef) (scope : ScopeId)
    (c : Binding) : Prop where
  draft : c.scopes.Draft
  keeps : Keeps (fun x => ∃ s, b.scopes.find? x = some s) (· ∉ f.id :: Stmt.allNodes f.body) b c
  node : c.nodeScopes[f.id]? = some scope
  declared : AllDeclared c scope f.body
  scope : ∃ s, c.scopes.find? scope = some s ∧ s.parent = some parent ∧ FunctionScope f s

theorem yields_openFunction {parent : ScopeId} {f : FunctionDef} (hd : b.scopes.Draft)
    (hs : b.scopes.Describes parent Γ) (hf : b.Fresh f.nodes) (hn : f.nodes.Nodup) :
    Yields (openFunction parent f) b (Opened b parent f) := by
  obtain ⟨id, self, params, body, strict, span⟩ := f
  obtain ⟨u, hu⟩ := hs.live
  obtain ⟨hid, hbody⟩ : id ∉ Stmt.allNodes body ∧ (Stmt.allNodes body).Nodup := by
    obtain ⟨hid, hrest⟩ := List.nodup_cons.mp hn
    exact ⟨fun hm => hid (List.mem_append_right _ hm), (List.nodup_append'.mp hrest).2.1⟩
  refine (yields_newDescriptor .function _ hd hu).bind ?_
  rintro scope c ⟨hk₁, hd₁, hnew, hs₁⟩
  refine (yields_recordScope id scope).bind ?_
  rintro _ c₂ ⟨hk₂, hsc₂, hid₂⟩
  have hs₂ := hsc₂ ▸ hs₁
  have ht : c₂.scopes.Targets scope scope := .here hs₂ rfl
  have hfresh : c₂.Fresh (Stmt.allNodes body) := by
    refine Fresh.keeps (hf.subset fun i hi => ?_) ((hk₁.nodes fun _ _ => trivial).trans
      (hk₂.nodes fun i hi => ?_))
    · simp [FunctionDef.nodes, hi]
    · rintro rfl
      exact hid hi
  refine (walks_declareStmts scope body scope hbody c₂ (hsc₂ ▸ hd₁) ht hfresh).bind ?_
  rintro _ c₃ ⟨ha, hdecl⟩
  let s₃ : Scope Unit := Scope.declaring (.ofTable .function (some parent)
    (.ofNames (FunctionDef.ownNames ⟨id, self, params, body, strict, span⟩)))
    (Stmt.allDeclarations body)
  have hs₃ : c₃.scopes.find? scope = some s₃ := ha.adds _ hs₂
  have hlive : ∀ x, (∃ s, b.scopes.find? x = some s) → x ≠ scope := by
    rintro x ⟨v, hv⟩ rfl
    rw [hnew] at hv
    cases hv
  -- What remains is to set the mark, or to leave it unset.
  have hend (c₄ : Binding) (hd₄ : c₄.scopes.Draft) (hk₄ : Keeps (· ≠ scope) (fun _ => True) c₃ c₄)
      (hs₄ : c₄.scopes.find? scope =
        some { s₃ with directEval := !strict && Stmt.anyCallsEval body }) :
      Opened b parent ⟨id, self, params, body, strict, span⟩ scope c₄ := by
    refine ⟨hd₄, ?_, ?_, ?_, _, hs₄, rfl, rfl, rfl, rfl⟩
    · refine ((hk₁.mono (fun _ _ => trivial) fun _ _ => trivial).trans
        (hk₂.mono (fun _ _ => trivial) fun i hi he => hi (by simp [he]))).trans ?_
      exact (ha.keeps.mono hlive fun i hi hm => hi (List.mem_cons_of_mem _ hm)).trans
        (hk₄.mono hlive fun _ _ => trivial)
    · rw [hk₄.nodeScopes id trivial, ha.keeps.nodeScopes id hid, hid₂]
    · refine AllDeclared.keeps (fun x s hx hc => ?_) body scope (hk₄.nodes fun _ _ => trivial) hdecl
      exact (ha.targets ht).ne_of_catch hx hc
  dsimp only
  split
  · next hm =>
    refine (yields_markDirectEval ha.draft hs₃).bind ?_
    rintro _ c₄ ⟨hd₄, hk₄, hs₄⟩
    exact .pure (hend c₄ hd₄ hk₄ (by rw [hm]; exact hs₄))
  · next hm =>
    refine .pure (hend c₃ ha.draft (.refl _ _ c₃) ?_)
    rw [hs₃, Bool.eq_false_iff.mpr hm]
    rfl

theorem Opened.describes {parent : ScopeId} {f : FunctionDef} (h : Opened b parent f scope c)
    (hs : b.scopes.Describes parent Γ) : ∃ s, c.scopes.find? scope = some s ∧ FunctionScope f s ∧
      c.scopes.Describes scope (s.frame :: Γ) := by
  obtain ⟨s, hsc, hpar, hfs⟩ := h.scope
  have hparent : c.scopes.Describes parent Γ :=
    describes_of_kept hs fun x u hu => h.keeps.scopes x u ⟨u, hu⟩ hu
  exact ⟨s, hsc, hfs, .frame hsc (.inl hfs.kind) hpar hparent⟩

theorem bindFunction_eq (cx : Context) (parent : ScopeId) (f : FunctionDef) :
    bindFunction cx parent f = (openFunction parent f >>= fun scope =>
      bindStmts { cx with owner := .ofSelf f.self, strict := f.strict } scope f.body) := by
  obtain ⟨id, self, params, body, strict, span⟩ := f
  simp only [bindFunction, openFunction, bind_assoc]
  cases !strict && Stmt.anyCallsEval body <;> simp

/-- A function is bound once its body is, from wherever that may start. -/
theorem binds_function {cx : Context} {f : FunctionDef} (hn : f.nodes.Nodup)
    (hbody : ∀ cx scope Γ, Binds scope Γ (bindStmts cx scope f.body) (Stmt.allNodes f.body)
      (AllDeclared · scope f.body) (StmtsBound · Γ f.body)) :
    Binds scope Γ (bindFunction cx scope f) f.nodes (·.Fresh f.nodes) (FunctionBound · Γ f) := by
  intro b hd hs hf
  rw [bindFunction_eq]
  refine (yields_openFunction hd hs hf hn).bind ?_
  intro inner c ho
  obtain ⟨s, hsc, hfs, hds⟩ := ho.describes hs
  refine (hbody _ inner _ c ho.draft hds ho.declared).imp ?_
  rintro _ d ⟨hdd, hkd, hb⟩
  refine ⟨hdd, ?_, ?_⟩
  · have hmem : ∀ i, i ∉ f.nodes → i ∉ f.id :: Stmt.allNodes f.body := by
      intro i hi hm
      apply hi
      obtain ⟨id, self, params, body, strict, span⟩ := f
      simp only [FunctionDef.nodes, List.cons_append, List.mem_cons, List.mem_append] at hm ⊢
      tauto
    have hkeeps : Keeps (fun x => ∃ s, b.scopes.find? x = some s) (· ∉ f.nodes) b d :=
      (ho.keeps.nodes hmem).trans (hkd.mono (fun _ _ => trivial) fun i hi hm =>
        hmem i hi (List.mem_cons_of_mem _ hm))
    exact ⟨hkeeps.limits, fun x u _ hu => hkeeps.scopes x u ⟨u, hu⟩ hu, hkeeps.nodeScopes,
      hkeeps.references⟩
  · obtain ⟨id, self, params, body, strict, span⟩ := f
    obtain ⟨hid, hrest⟩ := List.nodup_cons.mp hn
    intro e hk
    refine ⟨inner, s, ?_, hk.scopes _ _ trivial (hkd.scopes _ _ trivial hsc), hfs, hb e ?_⟩
    · rw [hk.nodeScopes id List.mem_cons_self,
        hkd.nodeScopes id fun hm => hid (List.mem_append_right _ hm)]
      exact ho.node
    · exact hk.nodes fun i hi => List.mem_cons_of_mem _ (List.mem_append_right _ hi)

/-- Resolving a name and then going on. -/
theorem binds_resolve_then {cx : Context} {i : Identifier} {f : BindM Unit} {P : Binding → Prop}
    (hf : Binds scope Γ f xs (·.Fresh xs) P) (hi : i.id ∉ xs) :
    Binds scope Γ (do resolve cx scope i; f) (i.id :: xs) (·.Fresh (i.id :: xs)) fun d =>
      d.Resolved Γ i ∧ P d := by
  refine ((binds_resolve cx i).seq hf ?_ (fresh_steady xs)).imp (fun b hb => ⟨trivial, ?_⟩)
    fun _ h => h
  · simpa using hi
  · exact hb.subset (List.subset_cons_self _ _)

/-- A function declaration is bound where declarations land. -/
theorem binds_atTarget {f : ScopeId → BindM Unit} {pre P : Binding → Prop}
    (hf : ∀ t, Binds t (Frame.target Γ) (f t) xs pre P) :
    Binds scope Γ (do f (← onScopes (.query (·.declarationTarget scope)))) xs pre P := by
  intro b hd hs hb
  obtain ⟨t, ht, hdt⟩ := hs.targets
  rcases ht.declarationTarget with htar | htar
  · refine Yields.bind (Q := fun x c => t = x ∧ b = c)
      (yields_onScopes (by rw [PoolM.run_query, htar]) (fun k => ?_) ⟨rfl, rfl⟩) ?_
    · rw [PoolM.run_query, Pool.declarationTarget_withSlack, htar]
    · rintro _ _ ⟨rfl, rfl⟩
      exact hf t b hd hdt hb
  · refine Yields.bind (Q := fun _ _ => False) (yields_onScopes_error
      (by rw [PoolM.run_query, htar]) fun k => ?_) fun _ _ h => h.elim
    rw [PoolM.run_query, Pool.declarationTarget_withSlack, htar]

theorem declared_steady (s : Stmt) (scope : ScopeId) (b c : Binding)
    (hk : Keeps (fun _ => True) (· ∈ s.nodes) b c) (h : Declared b scope s) : Declared c scope s :=
  Declared.keeps (fun _ _ _ _ => trivial) s scope hk h

theorem allDeclared_steady (ss : List Stmt) (scope : ScopeId) (b c : Binding)
    (hk : Keeps (fun _ => True) (· ∈ Stmt.allNodes ss) b c) (h : AllDeclared b scope ss) :
    AllDeclared c scope ss := AllDeclared.keeps (fun _ _ _ _ => trivial) ss scope hk h

theorem handlerDeclared_steady (h : Option CatchClause) (scope : ScopeId) (b c : Binding)
    (hk : Keeps (fun _ => True) (· ∈ Stmt.handlerNodes h) b c) (hd : HandlerDeclared b scope h) :
    HandlerDeclared c scope h := HandlerDeclared.keeps (fun _ _ _ _ => trivial) h scope hk hd

theorem finalizerDeclared_steady (f : Option (List Stmt)) (scope : ScopeId) (b c : Binding)
    (hk : Keeps (fun _ => True) (· ∈ Stmt.finalizerNodes f) b c) (h : FinalizerDeclared b scope f) :
    FinalizerDeclared c scope f := FinalizerDeclared.keeps (fun _ _ _ _ => trivial) f scope hk h

mutual

theorem binds_bindExpr : (e : Expr) → (cx : Context) → (scope : ScopeId) → (Γ : List Frame) →
    e.nodes.Nodup → Binds scope Γ (bindExpr cx scope e) e.nodes (·.Fresh e.nodes) (Bound · Γ e)
  | .number _, _, _, _, _ | .string _, _, _, _, _ | .bool _, _, _, _, _ | .null, _, _, _, _ =>
    Binds.pure fun _ => trivial
  | .this i, cx, _, _, _ | .identifier i, cx, _, _, _ =>
    (binds_resolve cx i).imp (fun _ _ => trivial) fun _ h => h
  | .assign i e, cx, scope, Γ, hn => by
    obtain ⟨hi, he⟩ := List.nodup_cons.mp hn
    exact binds_resolve_then (binds_bindExpr e cx scope Γ he) hi
  | .binary _ l r, cx, scope, Γ, hn => by
    obtain ⟨hl, hr, hdis⟩ := List.nodup_append'.mp hn
    exact ((binds_bindExpr l cx scope Γ hl).seq (binds_bindExpr r cx scope Γ hr) hdis
      (fresh_steady _)).imp (fun _ h => fresh_append.mp h) fun _ h => h
  | .unary _ e, cx, scope, Γ, hn | .typeof e, cx, scope, Γ, hn | .delete e _, cx, scope, Γ, hn =>
    binds_bindExpr e cx scope Γ hn
  | .call f args span, cx, scope, Γ, hn => by
    obtain ⟨hf, ha, hdis⟩ := List.nodup_append'.mp hn
    have hboth := ((binds_bindExpr f cx scope Γ hf).seq (binds_bindExprs args cx scope Γ ha) hdis
      (fresh_steady _)).imp (fun _ h => fresh_append.mp h) fun _ h => h
    rw [bindExpr]
    dsimp only
    split
    · exact Binds.after (yields_noteDirectEval cx scope span) hboth fun b c hk h =>
        h.keeps (hk.nodes fun _ _ => trivial)
    · exact hboth
  | .function f, cx, scope, Γ, hn => binds_bindFunction f cx scope Γ hn

theorem binds_bindExprs : (es : List Expr) → (cx : Context) → (scope : ScopeId) →
    (Γ : List Frame) → (Expr.allNodes es).Nodup → Binds scope Γ (bindExprs cx scope es)
      (Expr.allNodes es) (·.Fresh (Expr.allNodes es)) (AllBound · Γ es)
  | [], _, _, _, _ => Binds.pure fun _ => trivial
  | e :: es, cx, scope, Γ, hn => by
    obtain ⟨he, hes, hdis⟩ := List.nodup_append'.mp hn
    exact ((binds_bindExpr e cx scope Γ he).seq (binds_bindExprs es cx scope Γ hes) hdis
      (fresh_steady _)).imp (fun _ h => fresh_append.mp h) fun _ h => h

theorem binds_bindDeclarators : (ds : List Declarator) → (cx : Context) → (scope : ScopeId) →
    (Γ : List Frame) → (Declarator.allNodes ds).Nodup → Binds scope Γ (bindDeclarators cx scope ds)
      (Declarator.allNodes ds) (·.Fresh (Declarator.allNodes ds)) (DeclaratorsBound · Γ ds)
  | [], _, _, _, _ => Binds.pure fun _ => trivial
  | ⟨i, none⟩ :: ds, cx, scope, Γ, hn => by
    obtain ⟨hi, hds⟩ := List.nodup_cons.mp hn
    exact binds_resolve_then (binds_bindDeclarators ds cx scope Γ hds) hi
  | ⟨i, some e⟩ :: ds, cx, scope, Γ, hn => by
    obtain ⟨hi, hrest⟩ := List.nodup_cons.mp hn
    obtain ⟨he, hds, hdis⟩ := List.nodup_append'.mp hrest
    exact binds_resolve_then (((binds_bindExpr e cx scope Γ he).seq
      (binds_bindDeclarators ds cx scope Γ hds) hdis (fresh_steady _)).imp
        (fun _ h => fresh_append.mp h) fun _ h => h) hi

theorem binds_bindStmt : (s : Stmt) → (cx : Context) → (scope : ScopeId) → (Γ : List Frame) →
    s.nodes.Nodup → Binds scope Γ (bindStmt cx scope s) s.nodes (Declared · scope s)
      (StmtBound · Γ s)
  | .var ds, cx, scope, Γ, hn => binds_bindDeclarators ds cx scope Γ hn
  | .function f, cx, scope, Γ, hn =>
    binds_atTarget fun t => binds_bindFunction f cx t (Frame.target Γ) hn
  | .expr e, cx, scope, Γ, hn | .throw e, cx, scope, Γ, hn | .return (some e) _, cx, scope, Γ, hn =>
    binds_bindExpr e cx scope Γ hn
  | .return none _, _, _, _, _ | .empty, _, _, _, _ => Binds.pure fun _ => trivial
  | .if t s none, cx, scope, Γ, hn => by
    obtain ⟨ht, hs, hdis⟩ := List.nodup_append'.mp hn
    exact (binds_bindExpr t cx scope Γ ht).seq (binds_bindStmt s cx scope Γ hs) hdis
      (declared_steady s scope)
  | .if t s (some a), cx, scope, Γ, hn => by
    simp only [Stmt.nodes, List.append_assoc] at hn ⊢
    obtain ⟨ht, hsa, hdis⟩ := List.nodup_append'.mp hn
    obtain ⟨hs, ha, hdis'⟩ := List.nodup_append'.mp hsa
    refine (binds_bindExpr t cx scope Γ ht).seq ((binds_bindStmt s cx scope Γ hs).seq
      (binds_bindStmt a cx scope Γ ha) hdis' (declared_steady a scope)) hdis fun b c hk h => ?_
    exact ⟨declared_steady s scope b c (hk.nodes fun i hi => List.mem_append_left _ hi) h.1,
      declared_steady a scope b c (hk.nodes fun i hi => List.mem_append_right _ hi) h.2⟩
  | .while t s, cx, scope, Γ, hn => by
    obtain ⟨ht, hs, hdis⟩ := List.nodup_append'.mp hn
    exact (binds_bindExpr t cx scope Γ ht).seq (binds_bindStmt s cx scope Γ hs) hdis
      (declared_steady s scope)
  | .block ss, cx, scope, Γ, hn => binds_bindStmts ss cx scope Γ hn
  | .try ss h f, cx, scope, Γ, hn => by
    simp only [Stmt.nodes, List.append_assoc] at hn ⊢
    obtain ⟨hs, hhf, hdis⟩ := List.nodup_append'.mp hn
    obtain ⟨hh, hf, hdis'⟩ := List.nodup_append'.mp hhf
    refine (binds_bindStmts ss cx scope Γ hs).seq ((binds_bindHandler h cx scope Γ hh).seq
      (binds_bindFinalizer f cx scope Γ hf) hdis' (finalizerDeclared_steady f scope)) hdis
      fun b c hk hd => ?_
    exact ⟨handlerDeclared_steady h scope b c (hk.nodes fun i hi => List.mem_append_left _ hi) hd.1,
      finalizerDeclared_steady f scope b c (hk.nodes fun i hi => List.mem_append_right _ hi) hd.2⟩

theorem binds_bindStmts : (ss : List Stmt) → (cx : Context) → (scope : ScopeId) →
    (Γ : List Frame) → (Stmt.allNodes ss).Nodup → Binds scope Γ (bindStmts cx scope ss)
      (Stmt.allNodes ss) (AllDeclared · scope ss) (StmtsBound · Γ ss)
  | [], _, _, _, _ => Binds.pure fun _ => trivial
  | s :: ss, cx, scope, Γ, hn => by
    obtain ⟨hs, hss, hdis⟩ := List.nodup_append'.mp hn
    exact (binds_bindStmt s cx scope Γ hs).seq (binds_bindStmts ss cx scope Γ hss) hdis
      (allDeclared_steady ss scope)

theorem binds_bindHandler : (h : Option CatchClause) → (cx : Context) → (scope : ScopeId) →
    (Γ : List Frame) → (Stmt.handlerNodes h).Nodup → Binds scope Γ (bindHandler cx scope h)
      (Stmt.handlerNodes h) (HandlerDeclared · scope h) (HandlerBound · Γ h)
  | none, _, _, _, _ => Binds.pure fun _ => trivial
  | some ⟨id, param, body⟩, cx, scope, Γ, hn => by
    obtain ⟨hid, hrest⟩ := List.nodup_cons.mp hn
    obtain ⟨hparam, hbody⟩ := List.nodup_cons.mp hrest
    rintro b hd hs ⟨inner, hnode, hin, hdecl⟩
    have hds : b.scopes.Describes inner (⟨[param.name], true, false⟩ :: Γ) :=
      Scope.frame_catch (some scope) param.name ▸ .frame hin (.inr rfl) rfl hs
    have hboth := (binds_resolve cx param).seq (binds_bindStmts body cx inner _ hbody)
      (by simpa using hparam) (allDeclared_steady body inner) b hd hds ⟨trivial, hdecl⟩
    refine (yields_catchScope_again param hnode).bind ?_
    rintro _ _ ⟨rfl, rfl⟩
    refine hboth.imp fun _ c ⟨hdc, hk, hp⟩ => ⟨hdc, hk.nodes fun i hi hm => ?_, fun d hkd => ?_⟩
    · exact hi (List.mem_cons_of_mem _ hm)
    · refine ⟨inner, some scope, ?_, hkd.scopes _ _ trivial (hk.scopes _ _ trivial hin),
        hp d (hkd.nodes fun i hi => List.mem_cons_of_mem _ hi)⟩
      rw [hkd.nodeScopes id List.mem_cons_self, hk.nodeScopes id hid, hnode]

theorem binds_bindFinalizer : (f : Option (List Stmt)) → (cx : Context) → (scope : ScopeId) →
    (Γ : List Frame) → (Stmt.finalizerNodes f).Nodup → Binds scope Γ (bindFinalizer cx scope f)
      (Stmt.finalizerNodes f) (FinalizerDeclared · scope f) (FinalizerBound · Γ f)
  | none, _, _, _, _ => Binds.pure fun _ => trivial
  | some body, cx, scope, Γ, hn => binds_bindStmts body cx scope Γ hn

theorem binds_bindFunction : (f : FunctionDef) → (cx : Context) → (scope : ScopeId) →
    (Γ : List Frame) → f.nodes.Nodup → Binds scope Γ (bindFunction cx scope f) f.nodes
      (·.Fresh f.nodes) (FunctionBound · Γ f)
  | ⟨id, self, params, body, strict, span⟩, _, _, _, hn => by
    refine binds_function hn fun cx scope Γ => binds_bindStmts body cx scope Γ ?_
    exact (List.nodup_append'.mp (List.nodup_cons.mp hn).2).2.1

end

/-- The kind of a program's scope. -/
def rootKind (eval : Bool) : ScopeKind := if eval then .eval else .global

/-- A program is bound: its scope declares what it declares, and all within it is bound. -/
structure ProgramBound (b : Binding) (p : Program) (eval : Bool) : Prop where
  draft : b.scopes.Draft
  root : ∃ scope s, b.nodeScopes[p.id]? = some scope ∧ b.scopes.find? scope = some s ∧
    s.kind = rootKind eval ∧
    s.table = (Table.ofNames []).declareEach (Stmt.allDeclarations p.body)
  body : StmtsBound b [] p.body

theorem run_newRoot (eval : Bool) (p : Pool Unit) :
    (newRoot eval).run p = (.ok (p.insert (.ofTable (rootKind eval) none (.ofNames []))).1,
      (p.insert (.ofTable (rootKind eval) none (.ofNames []))).2) := by
  cases eval <;> exact PoolM.run_newDescriptor_none [] rfl p

/-- The declarations of a program are added to its scope, which the names are looked for from. -/
theorem yields_declareProgram {p : Program} {eval : Bool} {root : ScopeId} {s : Scope Unit}
    (hn : p.nodes.Nodup) (hd : b.scopes.Draft) (hs : b.scopes.find? root = some s)
    (hk : s.kind = rootKind eval) (hfresh : b.Fresh (Stmt.allNodes p.body)) :
    Yields (declareStmts root p.body) b fun _ c =>
      Adds root (Stmt.allDeclarations p.body) (Stmt.allNodes p.body) b c ∧
      c.scopes.Describes root [] ∧ AllDeclared c root p.body := by
  have ht : b.scopes.Targets root root := by
    refine .here hs ?_
    rw [hk]
    cases eval <;> rfl
  refine (walks_declareStmts root p.body root (List.nodup_cons.mp hn).2 b hd ht hfresh).imp ?_
  rintro _ c ⟨ha, hdecl⟩
  refine ⟨ha, .root (ha.adds s hs) ?_, hdecl⟩
  change s.kind = .global ∨ s.kind = .eval
  rw [hk]
  cases eval
  · exact .inl rfl
  · exact .inr rfl

theorem yields_program {p : Program} {eval : Bool} {root : ScopeId} {s : Scope Unit} (cx : Context)
    (hn : p.nodes.Nodup) (hd : b.scopes.Draft) (hs : b.scopes.find? root = some s)
    (hk : s.kind = rootKind eval) (ht : s.table = .ofNames [])
    (hroot : b.nodeScopes[p.id]? = some root) (hfresh : b.Fresh (Stmt.allNodes p.body)) :
    Yields (do declareStmts root p.body; bindStmts cx root p.body) b fun _ c =>
      ProgramBound c p eval ∧ c.scopes.limits = b.scopes.limits := by
  obtain ⟨hid, hbody⟩ := List.nodup_cons.mp hn
  refine (yields_declareProgram hn hd hs hk hfresh).bind ?_
  rintro _ c ⟨ha, hdesc, hdecl⟩
  refine (binds_bindStmts p.body cx root [] hbody c ha.draft hdesc hdecl).imp
    fun _ d ⟨hdd, hkd, hp⟩ => ⟨⟨hdd, ⟨root, s.declaring (Stmt.allDeclarations p.body), ?_,
      hkd.scopes _ _ trivial (ha.adds s hs), hk, ?_⟩, ?_⟩, ?_⟩
  · rw [hkd.nodeScopes p.id hid, ha.keeps.nodeScopes p.id hid, hroot]
  · rw [Scope.declaring, ht]
  · exact hp d (.refl _ _ d)
  · rw [hkd.limits, ha.keeps.limits]

theorem ofProgram_eq {p : Program} {eval : Bool} {limits : Limits} {names : Interner}
    {root : ScopeId} {scopes : Pool Unit}
    (h : (newRoot eval).run (.empty limits) = (.ok root, scopes)) :
    ofProgram p eval limits names =
      ((do
        declareStmts root p.body
        bindStmts ⟨names, p.file, .script, p.strict⟩ root p.body : BindM Unit).run
          (start scopes root p.id)).map Prod.snd := by
  simp only [ofProgram, h, bind, Except.bind]
  split
  · next he =>
    simp only [he]
    rfl
  · next hb =>
    simp only [hb]
    rfl

/-- There is a scope for a program, and no other one. -/
structure Started (root : ScopeId) (scopes : Pool Unit) (eval : Bool) (limits : Limits) : Prop where
  run : (newRoot eval).run (.empty limits) = (.ok root, scopes)
  run_slack : ∀ k, (newRoot eval).run (.empty { limits with growthSlack := k }) =
    (.ok root, scopes.withSlack k)
  limits : scopes.limits = limits
  draft : scopes.Draft
  root : scopes.find? root = some (.ofTable (rootKind eval) none (.ofNames []))

theorem exists_started (eval : Bool) (limits : Limits) :
    ∃ root scopes, Started root scopes eval limits := by
  let s : Scope Unit := .ofTable (rootKind eval) none (.ofNames [])
  let q := (Pool.empty limits).insert s
  refine ⟨q.1, q.2, run_newRoot eval _, fun k => ?_, Pool.limits_insert, ?_, ?_⟩
  · rw [run_newRoot]
    exact congrArg (fun x : ScopeId × Pool Unit => (Except.ok (ε := ScopeError) x.1, x.2))
      (Pool.insert_withSlack (Pool.empty limits) k s)
  · exact (Pool.draft_empty limits).insert (Scope.draft_ofTable _ none [])
  · have hfind := (Pool.empty limits).find?_insert s q.1
    rwa [if_pos rfl] at hfind

/-- A binding is what the two walks make of that scope. -/
theorem exists_run_of_ofProgram {p : Program} {eval : Bool} {limits : Limits} {names : Interner}
    (hb : ofProgram p eval limits names = .ok b) :
    ∃ root scopes, Started root scopes eval limits ∧ (do
      declareStmts root p.body
      bindStmts ⟨names, p.file, .script, p.strict⟩ root p.body : BindM Unit).run
        (start scopes root p.id) = .ok ((), b) := by
  obtain ⟨root, scopes, h⟩ := exists_started eval limits
  refine ⟨root, scopes, h, ?_⟩
  rw [ofProgram_eq h.run] at hb
  cases hrun : (do
      declareStmts root p.body
      bindStmts ⟨names, p.file, .script, p.strict⟩ root p.body : BindM Unit).run
        (start scopes root p.id) with
  | error e =>
    rw [hrun] at hb
    cases hb
  | ok r =>
    rw [hrun] at hb
    cases hb
    rfl

theorem fresh_start {p : Program} (hn : p.nodes.Nodup) (scopes : Pool Unit) (root : ScopeId) :
    (start scopes root p.id).Fresh (Stmt.allNodes p.body) := by
  intro i hi
  have hne : p.id ≠ i := by
    rintro rfl
    exact (List.nodup_cons.mp hn).1 hi
  simp [start, hne]

/-- Binding a program whose nodes have numbers of their own succeeds unless too many scopes are
nested, and the growth of value arrays has no part in it. -/
theorem ofProgram_spec {p : Program} (hn : p.nodes.Nodup) (eval : Bool) (limits : Limits)
    (names : Interner) :
    (∃ b, ofProgram p eval limits names = .ok b ∧ ProgramBound b p eval ∧
      b.scopes.limits = limits ∧
      ∀ k, ofProgram p eval { limits with growthSlack := k } names = .ok (b.withSlack k)) ∨
    ∃ limit, ofProgram p eval limits names = .error (.depthExceeded limit) ∧
      ∀ k, ofProgram p eval { limits with growthSlack := k } names =
        .error (.depthExceeded limit) := by
  obtain ⟨root, scopes, h⟩ := exists_started eval limits
  have hprog := yields_program ⟨names, p.file, .script, p.strict⟩ hn (b := start scopes root p.id)
    h.draft h.root rfl rfl (by simp [start]) (fresh_start hn scopes root)
  unfold Yields at hprog
  split at hprog
  · next u b hb =>
    refine .inl ⟨b, ?_, hprog.1.1, hprog.1.2.trans h.limits, fun k => ?_⟩
    · rw [ofProgram_eq h.run, hb]
      rfl
    · rw [ofProgram_eq (h.run_slack k)]
      exact congrArg (Except.map Prod.snd) (hprog.2 k)
  · next e he =>
    obtain ⟨⟨limit, rfl⟩, hk⟩ := hprog
    refine .inr ⟨limit, ?_, fun k => ?_⟩
    · rw [ofProgram_eq h.run, he]
      rfl
    · rw [ofProgram_eq (h.run_slack k)]
      exact congrArg (Except.map Prod.snd) (hk k)

end ScopeChain.Binding
