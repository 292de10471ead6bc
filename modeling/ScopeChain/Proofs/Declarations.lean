import ScopeChain.Proofs.BindingSteps
import ScopeChain.Proofs.Parts

/-! The walk of a body for its declarations: names are added to the scope in which the declarations
land, the scopes of catch clauses are made, and all else stays as it was. -/
namespace ScopeChain

mutual

/-- What a statement declares in the body that it stands in, in the order of the text: the names of
its variables, and those of its functions with the functions. Blocks and catch clauses are included
and nested functions left out. -/
def Stmt.declarations : Stmt → List (Name × Option FunctionDef)
  | .var ds => ds.map fun d => (d.target.name, none)
  | .function f => f.self.toList.map fun i => (i.name, some f)
  | .if _ c none => c.declarations
  | .if _ c (some a) => c.declarations ++ a.declarations
  | .while _ b => b.declarations
  | .block b => Stmt.allDeclarations b
  | .try b h f =>
    Stmt.allDeclarations b ++ (Stmt.handlerDeclarations h ++ Stmt.finalizerDeclarations f)
  | .expr _ | .return _ _ | .throw _ | .empty => []

def Stmt.allDeclarations : List Stmt → List (Name × Option FunctionDef)
  | [] => []
  | s :: ss => s.declarations ++ Stmt.allDeclarations ss

def Stmt.handlerDeclarations : Option CatchClause → List (Name × Option FunctionDef)
  | none => []
  | some ⟨_, _, body⟩ => Stmt.allDeclarations body

def Stmt.finalizerDeclarations : Option (List Stmt) → List (Name × Option FunctionDef)
  | none => []
  | some body => Stmt.allDeclarations body

end

/-- The names that a function declares itself, before those that its body declares. -/
def FunctionDef.ownNames (f : FunctionDef) : List Name :=
  (f.self.map Identifier.name).toList ++ .this :: .arguments :: f.params.map Identifier.name

/-- The function that is declared last under a name, if one is. -/
def lastFunction (n : Name) (ds : List (Name × Option FunctionDef)) : Option FunctionDef :=
  (ds.filterMap fun d => if d.1 = n then d.2 else none).getLast?

theorem lastFunction_cons (n : Name) (d : Name × Option FunctionDef)
    (ds : List (Name × Option FunctionDef)) :
    lastFunction n (d :: ds) = (lastFunction n ds).or (if d.1 = n then d.2 else none) := by
  rw [lastFunction, List.filterMap_cons]
  cases if d.1 = n then d.2 else none with
  | none => rw [Option.or_none]; rfl
  | some f => rw [List.getLast?_cons]; exact (Option.or_some ..).symm

theorem mem_of_lastFunction {n : Name} {ds : List (Name × Option FunctionDef)} {f : FunctionDef}
    (h : lastFunction n ds = some f) : (n, some f) ∈ ds := by
  obtain ⟨⟨m, o⟩, hd, hf⟩ := List.mem_filterMap.mp (List.mem_of_getLast? h)
  dsimp only at hf
  split at hf
  · next hm =>
    rw [← hm, ← hf]
    exact hd
  · cases hf

/-- The functions that are declared are among some items of the program, each declared under its own
name. -/
def DeclaredAmong (xs : List Item) (ds : List (Name × Option FunctionDef)) : Prop :=
  ∀ d ∈ ds, ∀ f ∈ d.2, .function f ∈ xs ∧ f.self.map Identifier.name = some d.1

section DeclaredAmong

variable {xs ys : List Item} {ds es : List (Name × Option FunctionDef)}

theorem DeclaredAmong.nil : DeclaredAmong xs [] := nofun

theorem DeclaredAmong.mono (h : DeclaredAmong xs ds) (hsub : xs ⊆ ys) : DeclaredAmong ys ds :=
  fun d hd f hf => (h d hd f hf).imp_left fun hm => hsub hm

theorem DeclaredAmong.append (h : DeclaredAmong xs ds) (h' : DeclaredAmong ys es) :
    DeclaredAmong (xs ++ ys) (ds ++ es) := by
  intro d hd f hf
  rcases List.mem_append.mp hd with hd | hd
  · exact (h d hd f hf).imp_left (List.mem_append_left _)
  · exact (h' d hd f hf).imp_left (List.mem_append_right _)

end DeclaredAmong

theorem FunctionDef.mem_items (f : FunctionDef) : .function f ∈ f.items := by
  obtain ⟨id, self, params, body, strict, span⟩ := f
  exact List.mem_cons_self

theorem FunctionDef.id_mem_nodes (f : FunctionDef) : f.id ∈ f.nodes :=
  (FunctionDef.items_sublist f).subset (List.mem_map_of_mem (FunctionDef.mem_items f))

/-- Variables are declared as no functions. -/
theorem Stmt.not_mem_var {ds : List Declarator} {d : Name × Option FunctionDef} {f : FunctionDef}
    (hd : d ∈ Stmt.declarations (.var ds)) : f ∉ d.2 := by
  obtain ⟨_, -, rfl⟩ := List.mem_map.mp hd
  simp

mutual

theorem Stmt.declaredAmong : (s : Stmt) → DeclaredAmong s.items s.declarations
  | .var _ => fun _ hd _ hf => absurd hf (Stmt.not_mem_var hd)
  | .function f => by
    intro d hd g hg
    obtain ⟨i, hi, rfl⟩ := List.mem_map.mp hd
    cases hg
    refine ⟨FunctionDef.mem_items f, ?_⟩
    rw [Option.mem_toList.mp hi]
    rfl
  | .if _ c none => (Stmt.declaredAmong c).mono (List.subset_append_right _ _)
  | .if _ c (some a) =>
    ((Stmt.declaredAmong c).append (Stmt.declaredAmong a)).mono (List.subset_append_right _ _)
  | .while _ b => (Stmt.declaredAmong b).mono (List.subset_append_right _ _)
  | .block b => Stmt.allDeclaredAmong b
  | .try b h f => (Stmt.allDeclaredAmong b).append
      ((Stmt.handlerDeclaredAmong h).append (Stmt.finalizerDeclaredAmong f))
  | .expr _ | .return _ _ | .throw _ | .empty => .nil

theorem Stmt.allDeclaredAmong : (ss : List Stmt) →
    DeclaredAmong (Stmt.allItems ss) (Stmt.allDeclarations ss)
  | [] => .nil
  | s :: ss => (Stmt.declaredAmong s).append (Stmt.allDeclaredAmong ss)

theorem Stmt.handlerDeclaredAmong : (h : Option CatchClause) →
    DeclaredAmong (Stmt.handlerItems h) (Stmt.handlerDeclarations h)
  | none => .nil
  | some ⟨_, _, body⟩ => (Stmt.allDeclaredAmong body).mono fun _ hi =>
    List.mem_cons_of_mem _ (List.mem_cons_of_mem _ hi)

theorem Stmt.finalizerDeclaredAmong : (f : Option (List Stmt)) →
    DeclaredAmong (Stmt.finalizerItems f) (Stmt.finalizerDeclarations f)
  | none => .nil
  | some body => Stmt.allDeclaredAmong body

end

/-- The nodes of declared functions are among those of the items. -/
theorem DeclaredAmong.id_mem {xs : List Item} {ds : List (Name × Option FunctionDef)}
    {nodes : List NodeId} (h : DeclaredAmong xs ds) (hsub : (xs.map Item.id).Sublist nodes)
    {d : Name × Option FunctionDef} (hd : d ∈ ds) {f : FunctionDef} (hf : f ∈ d.2) : f.id ∈ nodes :=
  hsub.subset (List.mem_map_of_mem (h d hd f hf).1)

namespace Table

variable {t : Table} {n m : Name} {o : Option NodeId} {ds es : List (Name × Option FunctionDef)}

/-- Declares names one after the other, those of functions with the functions. -/
def declareEach (t : Table) (ds : List (Name × Option FunctionDef)) : Table :=
  ds.foldl (fun t d => (t.declareHoisted d.1 (d.2.map FunctionDef.id)).2) t

theorem declareEach_append :
    t.declareEach (ds ++ es) = (t.declareEach ds).declareEach es := List.foldl_append

theorem compact_sound_declareEach (h : t.Compact) (hs : t.Sound)
    (ds : List (Name × Option FunctionDef)) :
    (t.declareEach ds).Compact ∧ (t.declareEach ds).Sound := by
  induction ds generalizing t with
  | nil => exact ⟨h, hs⟩
  | cons d ds ih => exact ih h.declareHoisted (hs.declareHoisted d.1 _)

theorem Compact.mem_names_declareEach (h : t.Compact) :
    n ∈ (t.declareEach ds).names ↔ n ∈ t.names ∨ n ∈ ds.map Prod.fst := by
  induction ds generalizing t with
  | nil => simp [declareEach]
  | cons d ds ih =>
    change n ∈ ((t.declareHoisted d.1 _).2.declareEach ds).names ↔ _
    rw [ih h.declareHoisted, h.mem_names_declareHoisted, List.map_cons, List.mem_cons, or_assoc]

/-- A name holds the function that is declared last under it, or else the one that it held. -/
theorem Sound.initial?_declareEach (h : t.Sound) : (t.declareEach ds).initial? n =
    ((lastFunction n ds).map FunctionDef.id).or (t.initial? n) := by
  induction ds generalizing t with
  | nil => rfl
  | cons d ds ih =>
    refine (ih (h.declareHoisted d.1 _)).trans ?_
    rw [h.initial?_declareHoisted, lastFunction_cons]
    by_cases hn : n = d.1
    · rw [if_pos hn, if_pos hn.symm, Option.map_or, Option.or_assoc, hn]
    · rw [if_neg hn, if_neg (Ne.symm hn), Option.or_none]

/-- Where a table of mere names is extended by declarations, a name holds the function that is
declared last under it. -/
theorem initial?_declareEach_ofNames (ns : List Name) :
    ((ofNames ns).declareEach ds).initial? n = (lastFunction n ds).map FunctionDef.id := by
  rw [(sound_ofNames ns).initial?_declareEach, initial?_ofNames, Option.or_none]

end Table

/-- A scope with some declarations more. -/
def Scope.declaring (s : Scope Unit) (ds : List (Name × Option FunctionDef)) : Scope Unit :=
  { s with table := s.table.declareEach ds }

theorem Scope.declaring_append (s : Scope Unit) (ds es : List (Name × Option FunctionDef)) :
    s.declaring (ds ++ es) = (s.declaring ds).declaring es := by
  rw [declaring, Table.declareEach_append]
  rfl

theorem Scope.Draft.declareHoisted_eq {s : Scope Unit} (h : s.Draft) (slack : Nat) (n : Name)
    (f : Option FunctionDef) :
    (s.declareHoisted slack n (f.map FunctionDef.id)).2 = s.declaring [(n, f)] := by
  simp [Scope.declareHoisted, Scope.declaring, Table.declareEach, h.bare]

namespace Binding

variable {b c d : Binding} {scope t : ScopeId} {xs ys : List NodeId}
  {ds es : List (Name × Option FunctionDef)}

mutual

/-- Each catch clause of a statement has its scope, and none is recorded yet for the functions. -/
def Declared (b : Binding) (scope : ScopeId) : Stmt → Prop
  | .if e c none => b.Fresh e.nodes ∧ Declared b scope c
  | .if e c (some a) => b.Fresh e.nodes ∧ Declared b scope c ∧ Declared b scope a
  | .while e s => b.Fresh e.nodes ∧ Declared b scope s
  | .block ss => AllDeclared b scope ss
  | .try ss h f => AllDeclared b scope ss ∧ HandlerDeclared b scope h ∧ FinalizerDeclared b scope f
  | .var ds => b.Fresh (Declarator.allNodes ds)
  | .function f => b.Fresh f.nodes
  | .expr e | .throw e | .return (some e) _ => b.Fresh e.nodes
  | .return none _ | .empty => True

def AllDeclared (b : Binding) (scope : ScopeId) : List Stmt → Prop
  | [] => True
  | s :: ss => Declared b scope s ∧ AllDeclared b scope ss

def HandlerDeclared (b : Binding) (scope : ScopeId) : Option CatchClause → Prop
  | none => True
  | some ⟨id, param, body⟩ => ∃ inner, b.nodeScopes[id]? = some inner ∧
    b.scopes.find? inner = some (.ofTable .catch (some scope) (.ofNames [param.name])) ∧
    AllDeclared b inner body

def FinalizerDeclared (b : Binding) (scope : ScopeId) : Option (List Stmt) → Prop
  | none => True
  | some body => AllDeclared b scope body

end

section Steady

variable {T : ScopeId → Prop}

mutual

/-- What is declared stays so while the scopes of catch clauses stay and nothing is recorded for the
nodes of the statement. -/
theorem Declared.keeps (ht : ∀ id s, b.scopes.find? id = some s → s.kind = .catch → T id) :
    (s : Stmt) → (scope : ScopeId) → Keeps T (· ∈ s.nodes) b c → Declared b scope s →
      Declared c scope s
  | .if e s none, scope, hk, h => by
    simp only [Stmt.nodes] at hk
    exact ⟨h.1.keeps (hk.nodes fun i hi => List.mem_append_left _ hi),
      Declared.keeps ht s scope (hk.nodes fun i hi => List.mem_append_right _ hi) h.2⟩
  | .if e s (some a), scope, hk, h => by
    simp only [Stmt.nodes] at hk
    exact ⟨h.1.keeps (hk.nodes fun i hi => by simp [hi]),
      Declared.keeps ht s scope (hk.nodes fun i hi => by simp [hi]) h.2.1,
      Declared.keeps ht a scope (hk.nodes fun i hi => by simp [hi]) h.2.2⟩
  | .while e s, scope, hk, h => by
    simp only [Stmt.nodes] at hk
    exact ⟨h.1.keeps (hk.nodes fun i hi => List.mem_append_left _ hi),
      Declared.keeps ht s scope (hk.nodes fun i hi => List.mem_append_right _ hi) h.2⟩
  | .block ss, scope, hk, h => AllDeclared.keeps ht ss scope (by simpa only [Stmt.nodes] using hk) h
  | .try ss hd f, scope, hk, h => by
    simp only [Stmt.nodes] at hk
    exact ⟨AllDeclared.keeps ht ss scope (hk.nodes fun i hi => by simp [hi]) h.1,
      HandlerDeclared.keeps ht hd scope (hk.nodes fun i hi => by simp [hi]) h.2.1,
      FinalizerDeclared.keeps ht f scope (hk.nodes fun i hi => by simp [hi]) h.2.2⟩
  | .var _, _, hk, h | .function _, _, hk, h | .expr _, _, hk, h | .throw _, _, hk, h
  | .return (some _) _, _, hk, h => Fresh.keeps h hk
  | .return none _, _, _, _ | .empty, _, _, _ => trivial

theorem AllDeclared.keeps (ht : ∀ id s, b.scopes.find? id = some s → s.kind = .catch → T id) :
    (ss : List Stmt) → (scope : ScopeId) → Keeps T (· ∈ Stmt.allNodes ss) b c →
      AllDeclared b scope ss → AllDeclared c scope ss
  | [], _, _, _ => trivial
  | s :: ss, scope, hk, h => by
    simp only [Stmt.allNodes] at hk
    exact ⟨Declared.keeps ht s scope (hk.nodes fun i hi => List.mem_append_left _ hi) h.1,
      AllDeclared.keeps ht ss scope (hk.nodes fun i hi => List.mem_append_right _ hi) h.2⟩

theorem HandlerDeclared.keeps (ht : ∀ id s, b.scopes.find? id = some s → s.kind = .catch → T id) :
    (h : Option CatchClause) → (scope : ScopeId) → Keeps T (· ∈ Stmt.handlerNodes h) b c →
      HandlerDeclared b scope h → HandlerDeclared c scope h
  | none, _, _, _ => trivial
  | some ⟨id, param, body⟩, scope, hk, h => by
    simp only [Stmt.handlerNodes] at hk
    obtain ⟨inner, hn, hs, hb⟩ := h
    exact ⟨inner, (hk.nodeScopes id List.mem_cons_self).trans hn,
      hk.scopes inner _ (ht inner _ hs rfl) hs,
      AllDeclared.keeps ht body inner (hk.nodes fun i hi => by simp [hi]) hb⟩

theorem FinalizerDeclared.keeps (ht : ∀ id s, b.scopes.find? id = some s → s.kind = .catch → T id) :
    (f : Option (List Stmt)) → (scope : ScopeId) → Keeps T (· ∈ Stmt.finalizerNodes f) b c →
      FinalizerDeclared b scope f → FinalizerDeclared c scope f
  | none, _, _, _ => trivial
  | some body, scope, hk, h => AllDeclared.keeps ht body scope hk h

end

end Steady

/-- What a walk for declarations does that land in `t`: it adds them there, and records scopes for
nodes out of `xs`. -/
structure Adds (t : ScopeId) (ds : List (Name × Option FunctionDef)) (xs : List NodeId)
    (b c : Binding) : Prop where
  draft : c.scopes.Draft
  keeps : Keeps (· ≠ t) (· ∉ xs) b c
  adds : ∀ s, b.scopes.find? t = some s → c.scopes.find? t = some (s.declaring ds)

theorem Adds.refl (hd : b.scopes.Draft) (t : ScopeId) (xs : List NodeId) : Adds t [] xs b b :=
  ⟨hd, .refl _ _ b, fun _ hs => hs⟩

theorem Adds.trans (h : Adds t ds xs b c) (h' : Adds t es ys c d) :
    Adds t (ds ++ es) (xs ++ ys) b d := by
  refine ⟨h'.draft, ?_, fun s hs => ?_⟩
  · exact (h.keeps.nodes fun i hi hm => hi (List.mem_append_left _ hm)).trans
      (h'.keeps.nodes fun i hi hm => hi (List.mem_append_right _ hm))
  · rw [Scope.declaring_append]
    exact h'.adds _ (h.adds s hs)

/-- Declarations land in the same scope after more names are added to it. -/
theorem Adds.targets (h : Adds t ds xs b c) (ht : b.scopes.Targets scope t) :
    c.scopes.Targets scope t := by
  induction ht with
  | here hs hk => exact .here (h.adds _ hs) hk
  | outward hs hk hp ht ih =>
    exact .outward (h.keeps.scopes _ _ (ht.ne_of_catch hs hk) hs) hk hp (ih h)

theorem Keeps.targets {S : NodeId → Prop} (h : Keeps (fun _ => True) S b c)
    (ht : b.scopes.Targets scope t) : c.scopes.Targets scope t := by
  induction ht with
  | here hs hk => exact .here (h.scopes _ _ trivial hs) hk
  | outward hs hk hp _ ih => exact .outward (h.scopes _ _ trivial hs) hk hp ih

/-- A part of the walk for declarations that goes as it should from wherever it may start, and after
which `P` holds. -/
def Walks (scope t : ScopeId) (f : BindM Unit) (ds : List (Name × Option FunctionDef))
    (xs : List NodeId) (P : Binding → Prop) : Prop :=
  ∀ b, b.scopes.Draft → b.scopes.Targets scope t → b.Fresh xs →
    Yields f b fun _ c => Adds t ds xs b c ∧ P c

/-- `P` is about the scopes of catch clauses and what is recorded for the nodes in `xs`. -/
def Steady (t : ScopeId) (xs : List NodeId) (P : Binding → Prop) : Prop :=
  ∀ b c, b.scopes.Targets t t → Keeps (· ≠ t) (· ∈ xs) b c → P b → P c

section Walks

variable {f g : BindM Unit} {P Q : Binding → Prop}

theorem Walks.pure : Walks scope t (pure ()) [] xs (·.Fresh xs) :=
  fun _ hd _ hf => .pure ⟨.refl hd t xs, hf⟩

theorem Walks.imp {P' : Binding → Prop} (h : Walks scope t f ds xs P) (hp : ∀ b, P b → P' b) :
    Walks scope t f ds xs P' :=
  fun b hd ht hf => (h b hd ht hf).imp fun _ c hc => ⟨hc.1, hp c hc.2⟩

/-- Nodes that a walk passes by may be reckoned among those that it is about. -/
theorem Walks.over (h : Walks scope t f ds xs P) (hdis : List.Disjoint ys xs) :
    Walks scope t f ds (ys ++ xs) fun c => c.Fresh ys ∧ P c := by
  intro b hd ht hf
  refine (h b hd ht (hf.subset (List.subset_append_right _ _))).imp ?_
  rintro _ c ⟨ha, hp⟩
  refine ⟨⟨ha.draft, ha.keeps.nodes fun i hi hm => hi (List.mem_append_right _ hm), ha.adds⟩,
    ?_, hp⟩
  exact (hf.subset (List.subset_append_left _ _)).keeps (ha.keeps.nodes fun i hi hm => hdis hi hm)

/-- One part of the walk after another. -/
theorem Walks.seq (hf : Walks scope t f ds xs P) (hg : Walks scope t g es ys Q)
    (hdis : List.Disjoint xs ys) (hp : Steady t xs P) :
    Walks scope t (do f; g) (ds ++ es) (xs ++ ys) fun c => P c ∧ Q c := by
  intro b hd ht hfresh
  refine (hf b hd ht (hfresh.subset (List.subset_append_left _ _))).bind ?_
  rintro _ c ⟨hc, hpc⟩
  have hfc : c.Fresh ys := (hfresh.subset (List.subset_append_right _ _)).keeps
    (hc.keeps.nodes fun i hi hm => hdis hm hi)
  refine (hg c hc.draft (hc.targets ht) hfc).imp fun _ d ⟨hd', hq⟩ => ⟨hc.trans hd', ?_, hq⟩
  exact hp c d ((hc.targets ht).self) (hd'.keeps.nodes fun i hi hm => hdis hi hm) hpc

end Walks

theorem yields_declareHoisted (hd : b.scopes.Draft) (ht : b.scopes.Targets scope t) (n : Name)
    (f : Option FunctionDef) : Yields (onScopes (.declareHoisted scope n (f.map FunctionDef.id))) b
      fun _ c => Adds t [(n, f)] [] b c := by
  obtain ⟨s, hs, hk⟩ := ht.extensible
  have hdraft := hd t s hs
  rcases ht.declarationTarget with htar | htar
  · have hrun (k : Nat) := PoolM.run_declareHoisted (p := b.scopes.withSlack k) n
      (f.map FunctionDef.id) (by rwa [Pool.declarationTarget_withSlack]) hs
    refine yields_onScopes (PoolM.run_declareHoisted n _ htar hs) (fun k => ?_) ?_
    · rw [hrun, hdraft.declareHoisted_slack _ b.scopes.limits.growthSlack]
      rfl
    · refine ⟨?_, ⟨rfl, fun id u hid hu => ?_, fun _ _ => rfl, fun _ _ => rfl⟩, fun u hu => ?_⟩
      · exact hd.update fun _ _ => hdraft.declareHoisted b.scopes.limits.growthSlack n _
      · exact (Pool.find?_update_of_ne hid _).trans hu
      · cases hs.symm.trans hu
        rw [← hdraft.declareHoisted_eq b.scopes.limits.growthSlack]
        exact Pool.find?_update_self hs _
  · refine yields_onScopes_error (PoolM.run_declareHoisted_error n _ htar) ?_
    intro k
    rw [PoolM.run_declareHoisted_error n _ (by rwa [Pool.declarationTarget_withSlack])]

theorem walks_declareHoisted (n : Name) (f : Option FunctionDef) :
    Walks scope t (do let _ ← onScopes (.declareHoisted scope n (f.map FunctionDef.id))) [(n, f)] []
      fun _ => True :=
  fun _ hd ht _ => (yields_declareHoisted hd ht n f).bind fun _ _ hc => .pure ⟨hc, trivial⟩

/-- A new scope of the code, found beside all others. -/
theorem yields_newDescriptor {parent : ScopeId} {s : Scope Unit} (kind : ScopeKind)
    (names : List Name) (hd : b.scopes.Draft) (hs : b.scopes.find? parent = some s) :
    Yields (onScopes (.newDescriptor kind (some parent) names)) b fun id c =>
      Keeps (fun _ => True) (fun _ => True) b c ∧ c.scopes.Draft ∧ b.scopes.find? id = none ∧
      c.scopes.find? id = some (.ofTable kind (some parent) (.ofNames names)) := by
  refine yields_onScopes (PoolM.run_newDescriptor kind names hs) (fun k => ?_) ⟨?_, ?_,
    Pool.find?_insert_fst _ _, ?_⟩
  · rw [PoolM.run_newDescriptor (p := b.scopes.withSlack k) kind names hs, Pool.insert_withSlack]
  · refine ⟨Pool.limits_insert, fun id u _ hu => ?_, fun _ _ => rfl, fun _ _ => rfl⟩
    have hne : id ≠ (b.scopes.insert (.ofTable kind (some parent) (.ofNames names))).1 := by
      rintro rfl
      rw [Pool.find?_insert_fst] at hu
      cases hu
    rw [Pool.find?_insert, if_neg hne, hu]
  · exact hd.insert (Scope.draft_ofTable kind (some parent) names)
  · rw [Pool.find?_insert, if_pos rfl]

theorem yields_recordScope (node : NodeId) (id : ScopeId) :
    Yields (recordScope node id) b fun _ c =>
      Keeps (fun _ => True) (· ≠ node) b c ∧ c.scopes = b.scopes ∧
        c.nodeScopes[node]? = some id := by
  refine yields_modify (fun _ => rfl) ⟨⟨rfl, fun _ _ _ hs => hs, fun i hi => ?_, fun _ _ => rfl⟩,
    rfl, ?_⟩
  · simp [Std.HashMap.getElem?_insert, Ne.symm hi]
  · simp

/-- Asking for the scope of a catch clause a second time makes no other one. -/
theorem yields_catchScope_again {node : NodeId} {inner : ScopeId} (param : Identifier)
    (hn : b.nodeScopes[node]? = some inner) :
    Yields (catchScope scope node param) b fun a c => inner = a ∧ b = c := by
  refine .looking (fun _ => rfl) ?_
  rw [hn]
  exact .pure ⟨rfl, rfl⟩

/-- The first time, a scope is made that binds the name of the clause. -/
theorem yields_catchScope_first {node : NodeId} {s : Scope Unit} (param : Identifier)
    (hd : b.scopes.Draft) (hs : b.scopes.find? scope = some s) (hn : b.nodeScopes[node]? = none) :
    Yields (catchScope scope node param) b fun inner c =>
      Keeps (fun _ => True) (· ≠ node) b c ∧ c.scopes.Draft ∧ c.nodeScopes[node]? = some inner ∧
      c.scopes.find? inner = some (.ofTable .catch (some scope) (.ofNames [param.name])) := by
  refine .looking (fun _ => rfl) ?_
  rw [hn]
  refine (yields_newDescriptor .catch [param.name] hd hs).bind ?_
  rintro inner c ⟨hk, hdc, _, hin⟩
  refine (yields_recordScope node inner).bind fun _ d ⟨hk', hsc, hnode⟩ => .pure ⟨?_, ?_, hnode, ?_⟩
  · exact (hk.nodes fun _ _ => trivial).trans hk'
  · rwa [hsc]
  · rwa [hsc]

theorem walks_declareVars (ds : List Declarator) :
    Walks scope t (ds.forM fun d => do let _ ← onScopes (.declare scope d.target.name))
      (ds.map fun d => (d.target.name, none)) [] fun _ => True := by
  induction ds with
  | nil => exact Walks.pure.imp fun _ _ => trivial
  | cons d ds ih =>
    exact ((walks_declareHoisted d.target.name none).seq ih (List.disjoint_nil_left _)
      fun _ _ _ _ h => h).imp fun _ _ => trivial

theorem steady_declared (s : Stmt) (scope : ScopeId) :
    Steady t s.nodes (Declared · scope s) := fun _ _ ht hk =>
  Declared.keeps (fun _ _ => ht.ne_of_catch) s scope hk

theorem steady_allDeclared (ss : List Stmt) (scope : ScopeId) :
    Steady t (Stmt.allNodes ss) (AllDeclared · scope ss) := fun _ _ ht hk =>
  AllDeclared.keeps (fun _ _ => ht.ne_of_catch) ss scope hk

theorem steady_handlerDeclared (h : Option CatchClause) (scope : ScopeId) :
    Steady t (Stmt.handlerNodes h) (HandlerDeclared · scope h) := fun _ _ ht hk =>
  HandlerDeclared.keeps (fun _ _ => ht.ne_of_catch) h scope hk

mutual

/-- A walk of a statement for its declarations adds names where they land, and declares it. -/
theorem walks_declareStmt (t : ScopeId) : (s : Stmt) → (scope : ScopeId) → s.nodes.Nodup →
    Walks scope t (declareStmt scope s) s.declarations s.nodes (Declared · scope s)
  | .var ds, scope, _ => by
    rw [declareStmt, Stmt.declarations, Stmt.nodes, ← List.append_nil (Declarator.allNodes ds)]
    refine ((walks_declareVars ds).over (List.disjoint_nil_right _)).imp ?_
    intro b h
    simpa only [Declared] using h.1
  | .function ⟨id, none, ps, body, st, sp⟩, scope, _ => Walks.pure.imp fun _ h => h
  | .function ⟨id, some i, ps, body, st, sp⟩, scope, _ => by
    have hw : Walks scope t _ _ _ _ := walks_declareHoisted i.name
      (some ⟨id, some i, ps, body, st, sp⟩)
    have h := hw.over (List.disjoint_nil_right (FunctionDef.nodes ⟨id, some i, ps, body, st, sp⟩))
    rw [List.append_nil] at h
    exact h.imp fun b h => h.1
  | .expr e, scope, _ | .throw e, scope, _ | .return (some e) _, scope, _ =>
    Walks.pure.imp fun _ h => h
  | .return none _, scope, _ | .empty, scope, _ => Walks.pure.imp fun _ _ => trivial
  | .if e s none, scope, hn => by
    obtain ⟨-, hs, hdis⟩ := List.nodup_append'.mp hn
    exact (walks_declareStmt t s scope hs).over hdis
  | .if e s (some a), scope, hn => by
    simp only [Stmt.nodes, List.append_assoc] at hn ⊢
    obtain ⟨-, hsa, hdis⟩ := List.nodup_append'.mp hn
    obtain ⟨hs, ha, hdis'⟩ := List.nodup_append'.mp hsa
    exact ((walks_declareStmt t s scope hs).seq (walks_declareStmt t a scope ha) hdis'
      (steady_declared s scope)).over hdis
  | .while e s, scope, hn => by
    obtain ⟨-, hs, hdis⟩ := List.nodup_append'.mp hn
    exact (walks_declareStmt t s scope hs).over hdis
  | .block ss, scope, hn => walks_declareStmts t ss scope hn
  | .try ss h f, scope, hn => by
    simp only [Stmt.nodes, List.append_assoc] at hn ⊢
    obtain ⟨hs, hhf, hdis⟩ := List.nodup_append'.mp hn
    obtain ⟨hh, hf, hdis'⟩ := List.nodup_append'.mp hhf
    exact (walks_declareStmts t ss scope hs).seq ((walks_declareHandler t h scope hh).seq
      (walks_declareFinalizer t f scope hf) hdis' (steady_handlerDeclared h scope)) hdis
      (steady_allDeclared ss scope)

theorem walks_declareStmts (t : ScopeId) : (ss : List Stmt) → (scope : ScopeId) →
    (Stmt.allNodes ss).Nodup → Walks scope t (declareStmts scope ss) (Stmt.allDeclarations ss)
      (Stmt.allNodes ss) (AllDeclared · scope ss)
  | [], _, _ => Walks.pure.imp fun _ _ => trivial
  | s :: ss, scope, hn => by
    obtain ⟨hs, hss, hdis⟩ := List.nodup_append'.mp hn
    exact (walks_declareStmt t s scope hs).seq (walks_declareStmts t ss scope hss) hdis
      (steady_declared s scope)

theorem walks_declareHandler (t : ScopeId) : (h : Option CatchClause) → (scope : ScopeId) →
    (Stmt.handlerNodes h).Nodup → Walks scope t (declareHandler scope h)
      (Stmt.handlerDeclarations h) (Stmt.handlerNodes h) (HandlerDeclared · scope h)
  | none, _, _ => Walks.pure.imp fun _ _ => trivial
  | some ⟨id, param, body⟩, scope, hn => by
    intro b hd ht hf
    obtain ⟨s, hs⟩ := ht.live
    obtain ⟨hid, hparam⟩ := List.nodup_cons.mp hn
    obtain ⟨-, hbody⟩ := List.nodup_cons.mp hparam
    refine (yields_catchScope_first param hd hs (hf id List.mem_cons_self)).bind
      fun inner c ⟨hk, hdc, hnode, hin⟩ => ?_
    have htc : c.scopes.Targets inner t := .outward hin rfl rfl (hk.targets ht)
    have hfc : c.Fresh (Stmt.allNodes body) := by
      refine Fresh.keeps (hf.subset fun i hi => by simp [Stmt.handlerNodes, hi]) (hk.nodes ?_)
      rintro i hi rfl
      exact hid (List.mem_cons_of_mem _ hi)
    refine (walks_declareStmts t body inner hbody c hdc htc hfc).imp fun _ d ⟨ha, hb⟩ => ⟨?_, ?_⟩
    · refine ⟨ha.draft, ?_, fun u hu => ha.adds u (hk.scopes t u trivial hu)⟩
      refine (hk.mono (fun _ _ => trivial) fun i hi => ?_).trans (ha.keeps.nodes fun i hi => ?_)
      · exact fun he => hi (by simp [Stmt.handlerNodes, he])
      · exact fun hm => hi (by simp [Stmt.handlerNodes, hm])
    · refine ⟨inner, ?_, ha.keeps.scopes _ _ (htc.ne_of_catch hin rfl) hin, hb⟩
      exact (ha.keeps.nodeScopes id fun hm => hid (List.mem_cons_of_mem _ hm)).trans hnode

theorem walks_declareFinalizer (t : ScopeId) : (f : Option (List Stmt)) → (scope : ScopeId) →
    (Stmt.finalizerNodes f).Nodup → Walks scope t (declareFinalizer scope f)
      (Stmt.finalizerDeclarations f) (Stmt.finalizerNodes f) (FinalizerDeclared · scope f)
  | none, _, _ => Walks.pure.imp fun _ _ => trivial
  | some body, scope, hn => walks_declareStmts t body scope hn

end

end Binding

end ScopeChain
