import Mathlib.Data.List.Forall2
import ScopeChain.Proofs.Emission
import ScopeChain.Proofs.Hoisting

/-! What code is made from: each function and catch clause in it from one of the program, so that its
entry lists what the scope of that one declares, and each use of a name from an occurrence of it. -/
namespace ScopeChain

namespace Code

/-- An entry lists the names of a scope by their slots, each of them once, and the functions that some
of them hold from the start, which are of that name. -/
structure Entry.Lists (e : Entry) (s : Scope Unit) : Prop where
  nodup : e.names.Nodup
  slots : ∀ k, e.names[k]? = s.table.nameAt k
  hoisted : ∀ h ∈ e.hoisted, e.names[h.slot]? = some h.name ∧ h.code.name = some h.name

/-- Code made from a function. Each of the slots that it is to fill is that of the very name. -/
structure FunctionCode.Renders (b : Binding) (c : FunctionCode) (f : FunctionDef) : Prop where
  entry : ∃ s, b.scope? f.id = some s ∧ c.entry.Lists s
  mode : c.entry.mode = .template
  name : c.name = f.self.map Identifier.name
  params : List.Forall₂ (fun k i => c.entry.names[k]? = some i.name) c.params f.params
  selfSlot : Option.Rel (fun k i => c.entry.names[k]? = some i.name) c.selfSlot f.self
  thisSlot : c.thisSlot.bind (c.entry.names[·]?) = some .this
  argumentsSlot : c.argumentsSlot.bind (c.entry.names[·]?) = some .arguments

/-- Code made from a catch clause. -/
structure CatchCode.Renders (b : Binding) (c : CatchCode) (h : CatchClause) : Prop where
  entry : ∃ s, b.scope? h.id = some s ∧ c.entry.Lists s
  mode : c.entry.mode = .catch
  param : c.entry.names[c.paramSlot]? = some h.param.name

/-- Code that was made of a function. -/
def FunctionCode.IsOf (b : Binding) (c : FunctionCode) (f : FunctionDef) : Prop :=
  ∃ D D', (Emission.function b f).run D = .ok (c, D')

/-- The function that a declaration holds from the start, with its slot and name. -/
def hoisting? (d : Nat × Declaration) : Option (Nat × Name × NodeId) :=
  d.2.hoisted.map fun node => (d.1, d.2.name, node)

/-- A closure is made for a function that a declaration holds. -/
structure Hoisted.Holds (P : NodeId → FunctionCode → Prop) (h : Hoisted) (d : Nat × Name × NodeId) :
    Prop where
  slot : h.slot = d.1
  name : h.name = d.2.1
  code : P d.2.2 h.code

/-- An entry lists some names and those of some declarations, and gives each name the closure of the
function that is declared last under it, if one is. -/
structure Entry.Instantiates (b : Binding) (own : List Name)
    (ds : List (Name × Option FunctionDef)) (e : Entry) : Prop where
  mem_names : ∀ n, n ∈ e.names ↔ n ∈ own ∨ n ∈ ds.map Prod.fst
  nodup : (e.hoisted.map Hoisted.name).Nodup
  hoisted : ∀ h ∈ e.hoisted, ∃ g, lastFunction h.name ds = some g ∧ h.code.IsOf b g
  complete : ∀ n g, lastFunction n ds = some g → ∃ h ∈ e.hoisted, h.name = n

/-- Code made from a function, whose entry lists the function's names and what its body declares. -/
structure FunctionCode.Instantiates (b : Binding) (c : FunctionCode) (f : FunctionDef) : Prop where
  isOf : c.IsOf b f
  entry : c.entry.Instantiates b f.ownNames (ScopeChain.Stmt.allDeclarations f.body)

/-- A use of a name made from an occurrence of it. -/
structure Use.Renders (b : Binding) (u : Use) (i : Identifier) : Prop where
  name : u.name = i.name
  address : b.references[i.id]? = some u.address

/-- A function, a catch clause or a use of a name in code is made from one of the program. -/
def Part.Made (b : Binding) (xs : List Item) : Part → Prop
  | .function c => ∃ f, .function f ∈ xs ∧ c.Renders b f ∧ c.Instantiates b f
  | .catch c => ∃ h, .clause h ∈ xs ∧ c.Renders b h
  | .use u => ∃ i, .name i ∈ xs ∧ u.Renders b i
  | .stmt _ | .expr _ => True

/-- All that is within a part is made from something in the program. -/
abbrev Part.Sourced (b : Binding) (xs : List Item) : Part → Prop := Throughout (Made b xs)

/-- The code kept for a node is made from the function of that node. -/
def Declared.Made (b : Binding) (xs : List Item) (D : Declared) : Prop :=
  ∀ node c, D[node]? = some c → ∃ f, .function f ∈ xs ∧ f.id = node ∧
    (c.Renders b f ∧ c.Instantiates b f) ∧ (Part.function c).Sourced b xs

namespace Emission

variable {α β : Type} {b : Binding} {xs : List Item} {I : Declared → Prop}

/-- Making code, if it succeeds, answers as `Q` says and keeps what `I` says of the code kept. -/
def Guarantees (I : Declared → Prop) (f : EmitM α) (Q : α → Prop) : Prop :=
  ∀ D a D', f.run D = .ok (a, D') → I D → Q a ∧ I D'

section Rules

variable {f : EmitM α} {g : α → EmitM β} {Q Q' : α → Prop} {R : β → Prop}

theorem Guarantees.pure {a : α} (h : Q a) : Guarantees I (pure a) Q := by
  intro D _ _ hrun hD
  cases hrun
  exact ⟨h, hD⟩

theorem Guarantees.bind (hf : Guarantees I f Q) (hg : ∀ a, Q a → Guarantees I (g a) R) :
    Guarantees I (f >>= g) R := by
  intro D c D'' hrun hD
  rw [StateT.run_bind] at hrun
  cases hf' : f.run D with
  | error e =>
    rw [hf'] at hrun
    cases hrun
  | ok r =>
    rw [hf'] at hrun
    obtain ⟨hq, hD'⟩ := hf D r.1 r.2 hf' hD
    exact hg r.1 hq r.2 c D'' hrun hD'

theorem Guarantees.imp (hf : Guarantees I f Q) (h : ∀ a, Q a → Q' a) : Guarantees I f Q' :=
  fun D a D' hrun hD => (hf D a D' hrun hD).imp_left (h a)

theorem Guarantees.map {h : α → β} (hf : Guarantees I f Q) (hr : ∀ a, Q a → R (h a)) :
    Guarantees I (h <$> f) R := by
  rw [map_eq_pure_bind]
  exact hf.bind fun a hq => .pure (hr a hq)

/-- The code kept so far may be looked at. -/
theorem Guarantees.looking {g : Declared → EmitM β} (hg : ∀ D, I D → Guarantees I (g D) R) :
    Guarantees I (do g (← get)) R :=
  fun D c D' hrun hD => hg D hD D c D' hrun hD

/-- What is made was made from some code kept. -/
theorem Guarantees.traced (hf : Guarantees I f Q) :
    Guarantees I f fun a => Q a ∧ ∃ D D', f.run D = .ok (a, D') := by
  intro D a D' hrun hD
  obtain ⟨hq, hD'⟩ := hf D a D' hrun hD
  exact ⟨⟨hq, D, D', hrun⟩, hD'⟩

theorem guarantees_required (e : EmitError) (o : Option α) :
    Guarantees I (required e o) fun a => o = some a := by
  cases o with
  | none =>
    intro D _ _ hrun _
    cases hrun
  | some a => exact .pure rfl

/-- Answers that come one by one from the members of a list. -/
theorem guarantees_mapM {h : α → EmitM β} {S : β → α → Prop}
    (hh : ∀ a, Guarantees I (h a) fun x => S x a) (as : List α) :
    Guarantees I (as.mapM h) fun bs => List.Forall₂ S bs as := by
  induction as with
  | nil => exact .pure .nil
  | cons a as ih =>
    rw [List.mapM_cons]
    exact (hh a).bind fun x hx => ih.bind fun bs hbs => .pure (.cons hx hbs)

theorem guarantees_option_mapM {h : α → EmitM β} {S : β → α → Prop}
    (hh : ∀ a, Guarantees I (h a) fun x => S x a) (o : Option α) :
    Guarantees I (o.mapM h) fun x => Option.Rel S x o := by
  cases o with
  | none => exact .pure .none
  | some a =>
    rw [Option.mapM_some]
    exact (hh a).map fun _ => .some

/-- However it is found out whether a call is direct. -/
theorem guarantees_direct (b : Binding) (f : ScopeChain.Expr) {next : Bool → EmitM β}
    (hnext : ∀ direct, Guarantees I (next direct) R) :
    Guarantees I (match f.identifier? with
      | some i =>
        if i.name = .eval then do next (← (fun a => !a.isStatic) <$> address b i)
        else do next (← pure false)
      | none => do next (← pure false)) R := by
  have hno : Guarantees I (do next (← pure false)) R := by
    rw [pure_bind]
    exact hnext false
  cases f.identifier? with
  | none => exact hno
  | some i =>
    dsimp only
    split
    · have haddress : Guarantees I ((fun a => !a.isStatic) <$> address b i) fun _ => True :=
        (guarantees_required _ _).map fun _ _ => trivial
      exact haddress.bind fun direct _ => hnext direct
    · exact hno

/-- What is guaranteed of the code of a program when none is kept yet. -/
theorem Guarantees.of_ofProgram {b : Binding} {p : Program} {c : FunctionCode}
    {Q : FunctionCode → Prop} (h : Guarantees I (program b p) Q) (hI : I {})
    (hc : ofProgram b p = .ok c) : Q c := by
  rw [ofProgram, StateT.run'_eq] at hc
  cases hrun : (program b p).run {} with
  | error e =>
    rw [hrun] at hc
    cases hc
  | ok r =>
    rw [hrun] at hc
    cases hc
    exact (h {} r.1 r.2 hrun hI).1

end Rules

/-- The code kept for declared functions is made from the program. -/
abbrev Makes (b : Binding) (xs : List Item) (f : EmitM α) (Q : α → Prop) : Prop :=
  Guarantees (·.Made b xs) f Q

theorem makes_use {i : Identifier} (hi : .name i ∈ xs) :
    Makes b xs (use b i) fun u => (Part.use u).Sourced b xs :=
  (guarantees_required _ _).bind fun _ ha => .pure (.intro ⟨i, hi, rfl, ha⟩ nofun)

theorem guarantees_scopeOf (node : NodeId) :
    Guarantees I (scopeOf b node) fun id => b.nodeScopes[node]? = some id :=
  guarantees_required _ _

theorem guarantees_descriptor (id : ScopeId) :
    Guarantees I (descriptor b id) fun s => b.scopes.find? id = some s := by
  unfold descriptor
  cases hs : b.scopes.get id with
  | error e =>
    intro D _ _ hrun _
    cases hrun
  | ok s => exact .pure ((Pool.get_eq_ok_iff).mp hs)

theorem guarantees_ownSlot (s : Scope Unit) (node : NodeId) (n : Name) :
    Guarantees I (ownSlot s node n) fun k => s.table.nameAt k = some n :=
  (guarantees_required _ _).imp fun _ hk => Table.nameAt_of_slot? hk

/-- The code of a hoisted function is the code kept for the node of its declaration. -/
theorem guarantees_hoisted {P : NodeId → FunctionCode → Prop}
    (hP : ∀ D, I D → ∀ node c, D[node]? = some c → P node c) (ds : List (Nat × Declaration)) :
    Guarantees I (hoisted ds) fun hs => List.Forall₂ (Hoisted.Holds P) hs (ds.filterMap hoisting?) := by
  induction ds with
  | nil => exact .pure .nil
  | cons d ds ih =>
    obtain ⟨k, n, o⟩ := d
    cases o with
    | none => exact ih
    | some node =>
      exact .looking fun D hD => (guarantees_required _ _).bind fun c hc => ih.bind fun hs hall =>
        .pure (.cons ⟨rfl, rfl, hP D hD node c hc⟩ hall)

theorem exists_of_forall₂ {R : α → β → Prop} {as : List α} {bs : List β}
    (h : List.Forall₂ R as bs) {a : α} (ha : a ∈ as) : ∃ b ∈ bs, R a b := by
  induction h with
  | nil => cases ha
  | cons hab _ ih =>
    rcases List.mem_cons.mp ha with rfl | ha
    · exact ⟨_, List.mem_cons_self, hab⟩
    · obtain ⟨b, hb, hr⟩ := ih ha
      exact ⟨b, List.mem_cons_of_mem _ hb, hr⟩

theorem mem_hoisting?_iff {t : Table} {d : Nat × Name × NodeId} :
    d ∈ t.declarations.filterMap hoisting? ↔ t.get? d.1 = some ⟨d.2.1, some d.2.2⟩ := by
  obtain ⟨k, n, node⟩ := d
  rw [List.mem_filterMap, ← Table.mem_declarations_iff]
  constructor
  · rintro ⟨⟨j, m, o⟩, hmem, hd⟩
    obtain ⟨_, rfl, he⟩ := Option.map_eq_some_iff.mp hd
    cases he
    exact hmem
  · exact fun hmem => ⟨_, hmem, rfl⟩

/-- No name holds two functions. -/
theorem nodup_hoisting? {t : Table} (h : t.Sound) :
    ((t.declarations.filterMap hoisting?).map fun d => d.2.1).Nodup := by
  have hsub (ds : List (Nat × Declaration)) :
      ((ds.filterMap hoisting?).map fun d => d.2.1).Sublist (ds.map fun d => d.2.name) := by
    induction ds with
    | nil => exact .slnil
    | cons d ds ih =>
      obtain ⟨k, n, o⟩ := d
      cases o with
      | none => exact ih.cons _
      | some node => exact ih.cons_cons _
  exact (t.map_declarations ▸ h.nodup_names).sublist (hsub _)

/-- The binding of a program with some items is done. -/
structure Finished (b : Binding) (xs : List Item) : Prop where
  draft : b.scopes.Draft
  allScoped : b.AllScoped xs
  nodup : (xs.map Item.id).Nodup

section Entries

variable {id : ScopeId} {s : Scope Unit} {own : List Name} {ds : List (Name × Option FunctionDef)}
  {e : Entry}

/-- The functions that an entry is to give to names were kept for their declarations. -/
theorem hoisted_of_kept (hb : Finished b xs) (hs : s.table.Sound)
    (ht : s.table = (Table.ofNames own).declareEach ds) (hds : DeclaredAmong xs ds)
    (hall : List.Forall₂ (Hoisted.Holds fun node c => ∃ f, .function f ∈ xs ∧ f.id = node ∧
      (c.Renders b f ∧ c.Instantiates b f) ∧ (Part.function c).Sourced b xs)
      e.hoisted (s.table.declarations.filterMap hoisting?)) {h : Hoisted} (hm : h ∈ e.hoisted) :
    s.table.nameAt h.slot = some h.name ∧ ∃ g, lastFunction h.name ds = some g ∧
      (h.code.Renders b g ∧ h.code.Instantiates b g) ∧ g.self.map Identifier.name = some h.name ∧
      (Part.function h.code).Sourced b xs := by
  obtain ⟨⟨k, n, node⟩, hd, hslot, hname, f, hf, hid, hmade, hparts⟩ := exists_of_forall₂ hall hm
  dsimp only at hslot hname hid
  have hget := mem_hoisting?_iff.mp hd
  obtain ⟨-, hinitial⟩ := hs.get?_eq_some_iff.mp hget
  rw [ht, Table.initial?_declareEach_ofNames] at hinitial
  obtain ⟨g, hg, hgid⟩ := Option.map_eq_some_iff.mp hinitial
  obtain ⟨hgm, hself⟩ := hds _ (mem_of_lastFunction hg) g rfl
  -- There is only one function with the node that the name holds.
  have hfg : Item.function f = .function g :=
    List.inj_on_of_nodup_map hb.nodup hf hgm (hid.trans hgid.symm)
  cases hfg
  rw [hslot, hname, Table.nameAt, hget]
  exact ⟨rfl, f, hg, hmade, hself, hparts⟩

/-- An entry lists the names of its scope. -/
theorem makes_entry (hb : Finished b xs) (hs : b.scopes.find? id = some s)
    (ht : s.table = (Table.ofNames own).declareEach ds) (hds : DeclaredAmong xs ds)
    (mode : EntryMode) : Makes b xs (entry b id mode) fun e =>
      (e.Lists s ∧ e.Instantiates b own ds) ∧ e.mode = mode ∧
      ∀ h ∈ e.hoisted, (Part.function h.code).Sourced b xs := by
  refine (guarantees_descriptor id).bind fun s' hs' =>
    (guarantees_hoisted (fun _ hD => hD) _).bind fun hs'' hall => ?_
  obtain rfl : s = s' := Option.some.inj (hs.symm.trans hs')
  have hdraft := hb.draft id s hs
  have hkept := @hoisted_of_kept _ _ _ _ _ ⟨s.table.names, hs'', mode⟩ hb hdraft.sound ht hds hall
  have hnames := hdraft.compact.getElem?_names
  refine .pure ⟨⟨⟨hdraft.sound.nodup_names, hnames, fun h hm => ?_⟩, ?_⟩, rfl,
    fun h hm => ?_⟩
  · obtain ⟨hslot, g, -, ⟨hrenders, -⟩, hself, -⟩ := hkept hm
    exact ⟨(hnames _).trans hslot, hrenders.name.trans hself⟩
  · refine ⟨fun n => ?_, ?_, fun h hm => ?_, fun n g hg => ?_⟩
    · rw [ht, (Table.compact_ofNames _).mem_names_declareEach, Table.mem_names_ofNames]
    · have hsame : hs''.map Hoisted.name =
          (s.table.declarations.filterMap hoisting?).map fun d => d.2.1 :=
        List.forall₂_eq_eq_eq ▸ List.forall₂_map_left_iff.mpr (List.forall₂_map_right_iff.mpr
          (hall.imp fun h d hd => hd.name))
      exact hsame ▸ nodup_hoisting? hdraft.sound
    · obtain ⟨-, g, hg, ⟨-, hmade⟩, -, -⟩ := hkept hm
      exact ⟨g, hg, hmade.isOf⟩
    · have hinitial : s.table.initial? n = some g.id := by
        rw [ht, Table.initial?_declareEach_ofNames, hg]
        rfl
      obtain ⟨k, hk⟩ := Table.exists_slot?_of_initial? hinitial
      have hget := Table.get?_of_slot? hk
      rw [hinitial] at hget
      obtain ⟨h, hm, hholds⟩ := exists_of_forall₂ hall.flip
        (mem_hoisting?_iff (d := (k, n, g.id)).mpr hget)
      exact ⟨h, hm, hholds.name⟩
  · obtain ⟨-, _, -, -, -, hparts⟩ := hkept hm
    exact hparts

end Entries

/-- A body is made of statements and of the functions that its entry lists. -/
theorem throughout_body {P : Part → Prop} {ss : List Stmt} {hs : List Hoisted}
    (hss : ∀ s ∈ ss, (Part.stmt s).Throughout P)
    (hcodes : ∀ h ∈ hs, (Part.function h.code).Throughout P) :
    ∀ y ∈ ss.map Part.stmt ++ hs.map (Part.function ·.code), y.Throughout P := by
  intro y hy
  rcases List.mem_append.mp hy with hy | hy
  · obtain ⟨s, hs, rfl⟩ := List.mem_map.mp hy
    exact hss s hs
  · obtain ⟨h, hm, rfl⟩ := List.mem_map.mp hy
    exact hcodes h hm

theorem throughout_single {P : Part → Prop} (hP : ∀ s, P (.stmt s)) {ss : List Stmt}
    (h : ∀ s ∈ ss, (Part.stmt s).Throughout P) : (Part.stmt (single ss)).Throughout P := by
  unfold single
  split
  · exact h _ List.mem_cons_self
  · exact .intro (hP _) (by simpa [Part.parts] using h)

/-- A function and what its body is made of. -/
theorem makes_function_of_body (hb : Finished b xs) {f : FunctionDef} (hf : .function f ∈ xs)
    (hsub : Stmt.allItems f.body ⊆ xs) (hbody : Makes b xs (stmts b f.body) fun ss =>
      ∀ s ∈ ss, (Part.stmt s).Sourced b xs) :
    Makes b xs (function b f) fun c =>
      (c.Renders b f ∧ c.Instantiates b f) ∧ (Part.function c).Sourced b xs := by
  have hmade : Makes b xs (function b f) fun c => c.Renders b f ∧
      c.entry.Instantiates b f.ownNames (ScopeChain.Stmt.allDeclarations f.body) ∧
      ∀ y ∈ (Part.function c).parts, y.Sourced b xs := by
    obtain ⟨s, hnode, hscope⟩ := hb.allScoped _ hf
    have hds := (ScopeChain.Stmt.allDeclaredAmong f.body).mono hsub
    obtain ⟨id, self, params, body, strict, span⟩ := f
    rw [function]
    refine (guarantees_scopeOf id).bind fun scope hid => hbody.bind fun ss hss => ?_
    have hs : b.scopes.find? scope = some s := by rwa [Binding.scope?, hid] at hnode
    refine (makes_entry hb hs hscope.table hds .template).bind ?_
    rintro e ⟨⟨hlists, hinstantiates⟩, hmode, hcodes⟩
    refine (guarantees_descriptor scope).bind fun s' hs' => ?_
    obtain rfl : s = s' := Option.some.inj (hs.symm.trans hs')
    have hown (n : Name) : Makes b xs (ownSlot s id n) fun k => e.names[k]? = some n :=
      (guarantees_ownSlot s id n).imp fun k hk => (hlists.slots k).trans hk
    refine (guarantees_mapM (fun i : Identifier => hown i.name) params).bind fun ps hps =>
      (guarantees_option_mapM (fun i : Identifier => hown i.name) self).bind fun selfSlot hself =>
        (hown .this).bind fun thisSlot hthis =>
          (hown .arguments).bind fun argumentsSlot harguments => .pure ?_
    exact ⟨⟨⟨s, hnode, hlists⟩, hmode, rfl, hps, hself, hthis, harguments⟩, hinstantiates,
      throughout_body hss hcodes⟩
  refine hmade.traced.imp fun c hc => ?_
  obtain ⟨⟨hrenders, hentry, hparts⟩, hisOf⟩ := hc
  exact ⟨⟨hrenders, hisOf, hentry⟩, .intro ⟨f, hf, hrenders, hisOf, hentry⟩ hparts⟩

mutual

theorem makes_expr (hb : Finished b xs) : (e : ScopeChain.Expr) → e.items ⊆ xs →
    Makes b xs (expr b e) fun c => (Part.expr c).Sourced b xs
  | .number _, _ | .string _, _ | .bool _, _ | .null, _ => .pure (.intro trivial nofun)
  | .this i, hs | .identifier i, hs => by
    refine (makes_use (hs List.mem_cons_self)).bind fun u hu => .pure (.intro trivial ?_)
    simpa [Part.parts] using hu
  | .assign i e, hs => by
    obtain ⟨hi, he⟩ := List.cons_subset.mp hs
    refine (makes_use hi).bind fun u hu => (makes_expr hb e he).bind fun c hc =>
      .pure (.intro trivial ?_)
    simpa [Part.parts] using ⟨hu, hc⟩
  | .binary _ l r, hs => by
    obtain ⟨hl, hr⟩ := List.append_subset.mp hs
    refine (makes_expr hb l hl).bind fun c hc => (makes_expr hb r hr).bind fun d hd =>
      .pure (.intro trivial ?_)
    simpa [Part.parts] using ⟨hc, hd⟩
  | .unary _ e, hs => by
    refine (makes_expr hb e hs).bind fun c hc => .pure (.intro trivial ?_)
    simpa [Part.parts] using hc
  | .typeof e, hs => by
    rw [expr]
    split
    · next i hi =>
      obtain rfl := identifier?_eq_some hi
      refine (makes_use (hs List.mem_cons_self)).bind fun u hu => .pure (.intro trivial ?_)
      simpa [Part.parts] using hu
    · refine (makes_expr hb e hs).bind fun c hc => .pure (.intro trivial ?_)
      simpa [Part.parts] using hc
  | .delete e _, hs => by
    rw [expr]
    split
    · next i hi =>
      obtain rfl := identifier?_eq_some hi
      refine (makes_use (hs List.mem_cons_self)).bind fun u hu => .pure (.intro trivial ?_)
      simpa [Part.parts] using hu
    · refine (makes_expr hb e hs).bind fun c hc => .pure (.intro trivial ?_)
      simpa [Part.parts] using hc
  | .call f args _, hs => by
    obtain ⟨hf, ha⟩ := List.append_subset.mp hs
    refine (makes_exprs hb args ha).bind fun cs hcs => guarantees_direct b f fun direct => ?_
    split
    · refine .pure (.intro trivial ?_)
      simpa [Part.parts] using hcs
    · refine (makes_expr hb f hf).bind fun c hc => .pure (.intro trivial ?_)
      simpa [Part.parts] using ⟨hc, hcs⟩
  | .function f, hs => by
    refine (makes_function hb f hs).bind fun c hc => .pure (.intro trivial ?_)
    simpa [Part.parts] using hc.2

theorem makes_exprs (hb : Finished b xs) : (as : List ScopeChain.Expr) → Expr.allItems as ⊆ xs →
    Makes b xs (exprs b as) fun cs => ∀ c ∈ cs, (Part.expr c).Sourced b xs
  | [], _ => .pure nofun
  | e :: as, hs => by
    obtain ⟨he, has⟩ := List.append_subset.mp hs
    refine (makes_expr hb e he).bind fun c hc => (makes_exprs hb as has).bind fun cs hcs => .pure ?_
    simpa using ⟨hc, hcs⟩

theorem makes_declarators (hb : Finished b xs) : (ds : List Declarator) → Declarator.allItems ds ⊆ xs →
    Makes b xs (declarators b ds) fun ss => ∀ s ∈ ss, (Part.stmt s).Sourced b xs
  | [], _ => .pure nofun
  | ⟨_, none⟩ :: ds, hs => makes_declarators hb ds (List.cons_subset.mp hs).2
  | ⟨i, some e⟩ :: ds, hs => by
    obtain ⟨hi, hrest⟩ := List.cons_subset.mp hs
    obtain ⟨he, hds⟩ := List.append_subset.mp hrest
    refine (makes_use hi).bind fun u hu => (makes_expr hb e he).bind fun c hc =>
      (makes_declarators hb ds hds).bind fun ss hss => .pure ?_
    have hstore : (Part.expr (.store u c)).Sourced b xs :=
      .intro trivial (by simpa [Part.parts] using ⟨hu, hc⟩)
    have hinit : (Part.stmt (.init (.store u c))).Sourced b xs :=
      .intro trivial (by simpa [Part.parts] using hstore)
    simpa using ⟨hinit, hss⟩

theorem makes_stmt (hb : Finished b xs) : (s : ScopeChain.Stmt) → s.items ⊆ xs →
    Makes b xs (stmt b s) fun ss => ∀ s ∈ ss, (Part.stmt s).Sourced b xs
  | .var ds, hs => makes_declarators hb ds hs
  | .function f, hs => by
    refine (makes_function hb f hs).bind fun c hc => ?_
    intro D ss D' hrun hD
    cases hrun
    refine ⟨nofun, ?_⟩
    intro node d hd
    rw [Std.HashMap.getElem?_insert] at hd
    by_cases hnode : f.id = node
    · rw [if_pos (by simpa using hnode)] at hd
      cases hd
      obtain ⟨id, self, params, body, strict, span⟩ := f
      exact ⟨_, hs List.mem_cons_self, hnode, hc⟩
    · rw [if_neg (by simpa using hnode)] at hd
      exact hD node d hd
  | .expr e, hs => by
    refine (makes_expr hb e hs).bind fun c hc => .pure ?_
    simpa using .intro trivial (by simpa [Part.parts] using hc)
  | .throw e, hs => by
    refine (makes_expr hb e hs).bind fun c hc => .pure ?_
    simpa using .intro trivial (by simpa [Part.parts] using hc)
  | .return (some e) _, hs => by
    refine (makes_expr hb e hs).bind fun c hc => .pure ?_
    simpa using .intro trivial (by simpa [Part.parts] using hc)
  | .return none _, _ => .pure (by simpa using .intro trivial (by simp [Part.parts]))
  | .empty, _ => .pure nofun
  | .if t s none, hs => by
    obtain ⟨ht, hs⟩ := List.append_subset.mp hs
    refine (makes_expr hb t ht).bind fun c hc => (makes_stmt hb s hs).bind fun ss hss => .pure ?_
    have hone := throughout_single (fun _ => trivial) hss
    simpa using .intro trivial (by simpa [Part.parts] using ⟨hc, hone⟩)
  | .if t s (some a), hs => by
    obtain ⟨ht, hsa⟩ := List.append_subset.mp hs
    obtain ⟨hs, ha⟩ := List.append_subset.mp hsa
    refine (makes_expr hb t ht).bind fun c hc => (makes_stmt hb s hs).bind fun ss hss =>
      (makes_stmt hb a ha).bind fun as has => .pure ?_
    have hone := throughout_single (fun _ => trivial) hss
    have hother := throughout_single (fun _ => trivial) has
    simpa using .intro trivial (by simpa [Part.parts] using ⟨hc, hone, hother⟩)
  | .while t s, hs => by
    obtain ⟨ht, hs⟩ := List.append_subset.mp hs
    refine (makes_expr hb t ht).bind fun c hc => (makes_stmt hb s hs).bind fun ss hss => .pure ?_
    have hone := throughout_single (fun _ => trivial) hss
    simpa using .intro trivial (by simpa [Part.parts] using ⟨hc, hone⟩)
  | .block ss, hs => by
    refine (makes_stmts hb ss hs).bind fun ss hss => .pure ?_
    simpa using .intro trivial (by simpa [Part.parts] using hss)
  | .try ss c f, hs => by
    obtain ⟨hss, hcf⟩ := List.append_subset.mp hs
    obtain ⟨hc, hf⟩ := List.append_subset.mp hcf
    refine (makes_stmts hb ss hss).bind fun ss' hss' => (makes_handler hb c hc).bind fun o ho =>
      (makes_finalizer hb f hf).bind fun o' ho' => .pure ?_
    have hparts : ∀ y ∈ (Part.stmt (.try ss' o o')).parts, y.Sourced b xs := by
      simp only [Part.parts, List.mem_append, List.mem_map, Option.mem_toList]
      rintro y (⟨s, hs, rfl⟩ | ⟨c, hc, rfl⟩ | ⟨s, hs, rfl⟩)
      · exact hss' s hs
      · exact ho c hc
      · exact Part.forall_mem_getD ho' s hs
    simpa using .intro trivial hparts

theorem makes_stmts (hb : Finished b xs) : (ss : List ScopeChain.Stmt) → Stmt.allItems ss ⊆ xs →
    Makes b xs (stmts b ss) fun ss => ∀ s ∈ ss, (Part.stmt s).Sourced b xs
  | [], _ => .pure nofun
  | s :: ss, hs => by
    obtain ⟨hs, hss⟩ := List.append_subset.mp hs
    refine (makes_stmt hb s hs).bind fun cs hcs => (makes_stmts hb ss hss).bind fun cs' hcs' => .pure ?_
    intro c hc
    exact (List.mem_append.mp hc).elim (hcs c) (hcs' c)

theorem makes_handler (hb : Finished b xs) : (c : Option CatchClause) → Stmt.handlerItems c ⊆ xs →
    Makes b xs (handler b c) fun o => ∀ c ∈ o, (Part.catch c).Sourced b xs
  | none, _ => .pure nofun
  | some ⟨id, param, body⟩, hs => by
    obtain ⟨hclause, hrest⟩ := List.cons_subset.mp hs
    have hbody := (List.cons_subset.mp hrest).2
    obtain ⟨s, hnode, htable⟩ := hb.allScoped _ hclause
    refine (guarantees_scopeOf id).bind fun scope hid => (makes_stmts hb body hbody).bind
      fun ss hss => ?_
    have hs : b.scopes.find? scope = some s := by rwa [Binding.scope?, hid] at hnode
    have hmere : s.table = (Table.ofNames [param.name]).declareEach [] := htable
    refine (makes_entry hb hs hmere .nil .catch).bind ?_
    rintro e ⟨⟨hlists, -⟩, hmode, hcodes⟩
    refine (guarantees_descriptor scope).bind fun s' hs' => ?_
    obtain rfl : s = s' := Option.some.inj (hs.symm.trans hs')
    refine (guarantees_ownSlot s id param.name).bind fun k hk => .pure ?_
    have hrenders : CatchCode.Renders b ⟨e, k, ss⟩ ⟨id, param, body⟩ :=
      ⟨⟨s, hnode, hlists⟩, hmode, (hlists.slots k).trans hk⟩
    rintro _ ⟨⟩
    exact .intro ⟨_, hclause, hrenders⟩ (throughout_body hss hcodes)

theorem makes_finalizer (hb : Finished b xs) : (f : Option (List ScopeChain.Stmt)) →
    Stmt.finalizerItems f ⊆ xs →
    Makes b xs (finalizer b f) fun o => ∀ ss ∈ o, ∀ s ∈ ss, (Part.stmt s).Sourced b xs
  | none, _ => .pure nofun
  | some body, hs => by
    refine (makes_stmts hb body hs).bind fun ss hss => .pure ?_
    simpa using hss

theorem makes_function (hb : Finished b xs) : (f : FunctionDef) → f.items ⊆ xs →
    Makes b xs (function b f) fun c =>
      (c.Renders b f ∧ c.Instantiates b f) ∧ (Part.function c).Sourced b xs
  | ⟨id, self, params, body, strict, span⟩, hs => by
    obtain ⟨hf, hbody⟩ := List.cons_subset.mp hs
    exact makes_function_of_body hb hf hbody (makes_stmts hb body hbody)

end

end Emission

end Code

end ScopeChain
