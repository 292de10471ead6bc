import ScopeChain.Proofs.Conducts
import ScopeChain.Proofs.Disciplines

/-! Code under a conduct. Mindful code obeys it by itself: activations and scopes of catch clauses
are not the global scope, and what strict code evaluates has a scope of its own. -/
namespace ScopeChain

open Code (CatchCode Entry FunctionCode Part)

variable {C : Conduct} {p : Pool Value} {id : ScopeId} {names : List Name}

/-- A machine whose scopes are as a conduct asks. -/
structure Conduct.Holds (C : Conduct) (m : Machine) : Prop where
  depth : m.options.limits.maxDepth = C.limit
  options : C.strict = true → m.options.isStrict = true
  global : m.global = C.global
  names : .wellKnown ≤ m.names
  scopes : m.heap.pool.Obeys C

theorem Conduct.Holds.like {m m' : Machine} (h : C.Holds m) (hoptions : m'.options = m.options)
    (hglobal : m'.global = m.global) (hnames : m'.names = m.names)
    (hpool : m'.heap.pool = m.heap.pool) : C.Holds m' :=
  ⟨hoptions ▸ h.depth, hoptions ▸ h.options, hglobal ▸ h.global, hnames ▸ h.names,
    hpool ▸ h.scopes⟩

/-- Besides, the code that runs, if there is any, is strict where all code is. -/
structure Conduct.Ready (C : Conduct) (running : Bool) (m : Machine) : Prop where
  holds : C.Holds m
  strict : running = true → C.strict = true → m.strict = true

/-- While no code runs, none has to be strict. -/
theorem Conduct.Holds.ready {m : Machine} (h : C.Holds m) : C.Ready false m :=
  ⟨h, fun hr => Bool.noConfusion hr⟩

theorem Conduct.Ready.onPool {running : Bool} {m : Machine} (h : C.Ready running m)
    (hp : p.Obeys C) : C.Ready running { m with heap := { m.heap with pool := p } } :=
  ⟨⟨h.holds.depth, h.holds.options, h.holds.global, h.holds.names, hp⟩, h.strict⟩

/-- A conduct as a discipline. -/
def Conduct.discipline (C : Conduct) (running : Bool) : Discipline where
  machine := C.Ready running
  value := Value.Tame C.limit C.strict
  part := Part.Tame C.limit C.strict
  program c := c.FitsProgram C.limit .eval ∧ c.MindfulProgram C.strict

/-- A scope besides the global one, with some names in the first slots, that keeps what is declared
there if it is extensible. -/
structure Pool.Hosts (C : Conduct) (id : ScopeId) (extensible : Bool) (names : List Name)
    (p : Pool Value) : Prop where
  ne : id ≠ C.global
  scope : ∃ s, p.find? id = some s ∧ s.kind.extensible = extensible ∧
    ∀ k n, names[k]? = some n → s.slot? n = some k

namespace Exec

variable {α β : Type} {b : Bool} {P : Pool Value → Prop} {Q : α → Prop} {S : β → Prop}
  {f g : Exec α} {f' g' : α → Exec β} {m : Machine} {c : Change Value} {v : Value} {n : Name}

/-- Work that keeps to a conduct, and keeps what `P` says of the scopes. -/
def Keeps (C : Conduct) (b : Bool) (P : Pool Value → Prop) (Q : α → Prop) (f : Exec α) : Prop :=
  ∀ m, C.Ready b m → P m.heap.pool →
    MindsFrom (C.discipline b) Q m f f ∧ P (f.run m).2.heap.pool

theorem Keeps.pure {a : α} (h : Q a) : Keeps C b P Q (pure a) :=
  fun _ hm hp => ⟨⟨rfl, hm, h⟩, hp⟩

theorem Keeps.bind (h : Keeps C b P Q f) (h' : ∀ a, Q a → Keeps C b P S (f' a)) :
    Keeps C b P S (f >>= f') := by
  intro m hm hp
  obtain ⟨⟨-, hm', he⟩, hp'⟩ := h m hm hp
  rw [MindsFrom, run_bind]
  rcases hf : f.run m with ⟨r, m'⟩
  rw [hf] at hm' he hp'
  cases r with
  | ok a => exact h' a he m' hm' hp'
  | error e => exact ⟨⟨rfl, hm', by cases e <;> exact he⟩, hp'⟩

theorem Keeps.forM {ι : Type} {h : ι → Exec PUnit} (is : List ι)
    (hh : ∀ i ∈ is, Keeps C b P (fun _ => True) (h i)) :
    Keeps C b P (fun _ => True) (is.forM h) := by
  induction is with
  | nil => exact .pure trivial
  | cons i is ih =>
    refine (hh i List.mem_cons_self).bind fun _ _ => ih fun j hj => hh j ?_
    exact List.mem_cons_of_mem i hj

/-- What was kept need not be kept any longer. -/
theorem Keeps.followed (h : Keeps C b P Q f)
    (h' : ∀ a, Q a → Minds (C.discipline b) S (f' a) (g' a)) (hm : C.Ready b m)
    (hp : P m.heap.pool) : MindsFrom (C.discipline b) S m (f >>= f') (f >>= g') :=
  (h m hm hp).1.bind h'

theorem Keeps.minds (h : Keeps C b (fun _ => True) Q f) : Minds (C.discipline b) Q f f :=
  fun m hm => (h m hm trivial).1

theorem keeps_newObject : Keeps C b P (fun _ => True) newObject :=
  fun _ hm hp => ⟨⟨rfl, ⟨hm.holds.like rfl rfl rfl rfl,
    hm.strict⟩, trivial⟩, hp⟩

theorem keeps_closure {code : FunctionCode} (h : (Part.function code).Tame C.limit C.strict)
    (scope : ScopeId) : Keeps C b P (Value.Tame C.limit C.strict) (closure code scope) :=
  keeps_newObject.bind fun object _ => .pure (.function object h)

theorem minds_raise (kind : ErrorKind) (message : String) :
    Minds (C.discipline b) Q (raise kind message) (raise kind message) :=
  keeps_newObject.minds.bind fun object _ => minds_thrown (.error object kind message)

/-- Work that changes what some change does. -/
theorem mindsFrom_change {work : PoolM Value α} (hw : ∀ p, (work.run p).2 = ((c.run id).run p).2)
    (hm : C.Ready b m) (hc : ∀ t s, c.target m.heap.pool id = .ok t →
      m.heap.pool.find? t = some s → c.Tame C.limit C.strict s ∧ (t = C.global → C.Permits s c)) :
    MindsFrom (C.discipline b) (fun _ => True) m (onScopes work) (onScopes work) := by
  have hobeys := hm.holds.scopes.change hc
  rw [← hw] at hobeys
  refine ⟨rfl, hm.onPool hobeys, ?_⟩
  rw [run_onScopes]
  cases (work.run m.heap.pool).1 <;> trivial

theorem keeps_change {work : PoolM Value α} (hw : ∀ p, (work.run p).2 = ((c.run id).run p).2)
    (hc : ∀ (p : Pool Value) t s, P p → c.target p id = .ok t → p.find? t = some s →
      c.Tame C.limit C.strict s ∧ (t = C.global → C.Permits s c))
    (hP : ∀ p : Pool Value, p.Obeys C → P p → P ((c.run id).run p).2) :
    Keeps C b P (fun _ => True) (onScopes work) := by
  intro m hm hp
  refine ⟨mindsFrom_change hw hm fun t s => hc _ t s hp, ?_⟩
  rw [run_onScopes, hw]
  exact hP _ hm.holds.scopes hp

theorem snd_run_declare (id : ScopeId) (n : Name) (p : Pool Value) :
    ((PoolM.declare id n).run p).2 = (((Change.declare n none).run id).run p).2 :=
  (snd_run_return (PoolM.declare id n) (fun _ => ()) p).symm

theorem snd_run_delete (id : ScopeId) (n : Name) (p : Pool Value) :
    ((PoolM.delete id n).run p).2 = (((Change.delete n).run id).run p).2 :=
  (snd_run_return (PoolM.delete id n) (fun _ => ()) p).symm

end Exec

theorem Change.target_store {k : Nat} {v : Value} {t : ScopeId}
    (h : (Change.store k v).target p id = .ok t) : t = id := by
  rw [Change.target] at h
  cases hs : p.valuesOf id with
  | error => simp [hs, bind, Except.bind] at h
  | ok => simpa [hs, bind, Except.bind, pure, Except.pure, eq_comm] using h

namespace Pool.Hosts

variable {ext : Bool} {c : Change Value}

theorem declarationTarget (h : p.Hosts C id true names) : p.declarationTarget id = .ok id := by
  obtain ⟨s, hs, hk, -⟩ := h.scope
  rw [Pool.declarationTarget, Pool.reach, Pool.declarationTargetFrom_succ hs, if_pos hk]

theorem target_setValue (h : p.Hosts C id true names) {n : Name} {v : Value} {t : ScopeId}
    (ht : (Change.setValue n v).target p id = .ok t) : t = id := by
  rw [Change.target, h.declarationTarget] at ht
  cases hs : p.valuesOf id with
  | error =>
    rw [hs] at ht
    cases ht
  | ok =>
    simp only [hs, bind, Except.bind] at ht
    split at ht <;> exact (Except.ok.inj ht).symm

/-- The scope remains with its names whatever is declared or stored. -/
theorem change (h : p.Hosts C id ext names) (hp : p.Obeys C) (x : ScopeId)
    (hkind : ∀ (s : Scope Value) slack, (c.apply slack s).kind = s.kind)
    (hslots : ∀ (s : Scope Value) slack n k, s.Guarded → s.slot? n = some k →
      (c.apply slack s).slot? n = some k) : ((c.run x).run p).2.Hosts C id ext names := by
  obtain ⟨s, hs, hk, hnames⟩ := h.scope
  have hr := runs_change hp.guarded x c
  generalize (c.run x).run p = a at hr ⊢
  cases hr with
  | refused => exact h
  | @landed t u ht hu =>
    refine ⟨h.ne, ?_⟩
    by_cases hid : id = t
    · subst hid
      cases hs.symm.trans hu
      refine ⟨_, Pool.find?_update_self hs _, (congrArg _ (hkind s _)).trans hk, fun k n hn => ?_⟩
      exact hslots s _ n k (hp.guarded _ s hs) (hnames k n hn)
    · exact ⟨s, (Pool.find?_update_of_ne hid _).trans hs, hk, hnames⟩

end Pool.Hosts

namespace Exec

variable {α β : Type} {b ext : Bool} {m : Machine} {v : Value} {n : Name}

/-- A value is put into the slot of a name. -/
theorem keeps_storeHost {k : Nat} (hn : names[k]? = some n) (hv : v.Tame C.limit C.strict) :
    Keeps C b (Pool.Hosts C id ext names) (fun _ => True) (onScopes (.store id k v)) := by
  refine keeps_change (c := .store k v) (fun _ => rfl) (fun p t s hp ht hs => ?_)
    fun p hobeys hp => hp.change hobeys id (fun _ _ => rfl) fun _ _ _ _ _ h => h
  obtain rfl := Change.target_store ht
  obtain ⟨u, hu, -, hslots⟩ := hp.scope
  cases hs.symm.trans hu
  exact ⟨⟨hv, n, hslots k n hn⟩, fun hg => (hp.ne hg).elim⟩

/-- Declarations in a scope that keeps them. -/
theorem keeps_declareAll (ns : List Name) :
    Keeps C b (Pool.Hosts C id true names) (fun _ => True) (declareAll id ns) := by
  refine .forM ns fun n _ => Keeps.bind (Q := fun _ => True) ?_ fun _ _ => .pure trivial
  refine keeps_change (c := .declare n none) (snd_run_declare id n)
    (fun p t s hp ht hs => ?_) fun p hobeys hp => hp.change hobeys id (fun _ _ => rfl) ?_
  · cases hp.declarationTarget.symm.trans ht
    exact ⟨trivial, fun hg => (hp.ne hg).elim⟩
  · exact fun s _ m k hs hm => hs.sound.slot?_declareHoisted_of_some none hm

theorem keeps_setHost (n : Name) (hv : v.Tame C.limit C.strict) :
    Keeps C b (Pool.Hosts C id true names) (fun _ => True) (onScopes (.setValue id n v)) := by
  refine keeps_change (c := .setValue n v) (fun _ => rfl) (fun p t s hp ht hs => ?_)
    fun p hobeys hp => hp.change hobeys id (fun _ _ => rfl) ?_
  · obtain rfl := hp.target_setValue ht
    exact ⟨hv, fun hg => (hp.ne hg).elim⟩
  · exact fun s _ m k hs hm => hs.sound.slot?_declareHoisted_of_some none hm

/-- What becomes of an entry that makes a scope: whether that scope keeps declarations, and the names
that it has from the start. -/
inductive Opens (e : Entry) : (extensible : Bool) → List Name → Prop where
  | template : e.mode = .template → e.names.Nodup → Opens e true e.names
  | catch : e.mode = .catch → e.names.Nodup → Opens e false e.names
  | eval : e.mode = .eval → Opens e true []

variable {f g : ScopeId → Exec β} {S : β → Prop} {e : Entry}

theorem mindsFrom_make (maker : Maker) (names : List Name)
    (hparent : maker.parent.isSome = true)
    (hfilled : (maker.scope : Scope Value).values.isSome = true)
    (hkind : (maker.scope : Scope Value).kind.extensible = ext)
    (hslots : ∀ k n, names[k]? = some n → (maker.scope : Scope Value).slot? n = some k)
    (hm : C.Ready b m) (h : ∀ id m', C.Ready b m' → m'.heap.pool.Hosts C id ext names →
      MindsFrom (C.discipline b) S m' (f id) (g id)) :
    MindsFrom (C.discipline b) S m (onScopes maker.run >>= f) (onScopes maker.run >>= g) := by
  obtain ⟨e, hrun⟩ | ⟨hrun, hobeys⟩ := hm.holds.scopes.make (fun _ => hparent) hfilled
  · rw [MindsFrom, run_bind, run_bind, run_onScopes, hrun]
    exact ⟨rfl, hm, trivial⟩
  · rw [MindsFrom, run_bind_of_ok (run_onScopes_of_ok hrun),
      run_bind_of_ok (run_onScopes_of_ok hrun)]
    refine h _ _ (hm.onPool hobeys) ⟨hm.holds.scopes.next_ne, maker.scope, ?_, hkind, hslots⟩
    exact m.heap.pool.find?_insert_next _

/-- After a scope was made for a body, the work goes on with that scope there. -/
theorem mindsFrom_enter (he : Opens e ext names) (hm : C.Ready b m)
    (h : ∀ id m', C.Ready b m' → m'.heap.pool.Hosts C id ext names →
      MindsFrom (C.discipline b) S m' (f id) (g id)) :
    MindsFrom (C.discipline b) S m (enter e >>= f) (enter e >>= g) := by
  cases he with
  | template he hn =>
    have henter : enter e = (do onScopes (.newTemplate (some (← get).active) e.names)) := by
      rw [enter, he]
    rw [henter, bind_assoc, bind_assoc]
    exact .after (run_get m) (mindsFrom_make (.template (some m.active) e.names) e.names rfl rfl rfl
      (fun k n => Scope.slot?_ofNames hn) hm h)
  | «catch» he hn =>
    have henter : enter e = (do onScopes (.newCatchInstance (some (← get).active) e.names)) := by
      rw [enter, he]
    rw [henter, bind_assoc, bind_assoc]
    exact .after (run_get m) (mindsFrom_make (.catchInstance (some m.active) e.names) e.names rfl
      rfl rfl (fun k n => Scope.slot?_ofNames hn) hm h)
  | eval he =>
    have henter : enter e = (do
        let scope ← onScopes (.newEvalInstance (← get).active)
        declareAll scope e.names
        return scope) := by
      rw [enter, he]
    rw [henter]
    simp only [bind_assoc, pure_bind]
    have hnone (s : Scope Value) (k : Nat) (n : Name) (hk : ([] : List Name)[k]? = some n) :
        s.slot? n = some k := by cases hk
    refine .after (run_get m) (mindsFrom_make (.evalInstance m.active) [] rfl rfl rfl (hnone _) hm
      fun id m' hm' hhosts => ?_)
    obtain ⟨⟨-, hm'', he⟩, hhosts'⟩ := keeps_declareAll e.names m' hm' hhosts
    rw [MindsFrom, run_bind, run_bind]
    rcases hrun : (declareAll id e.names).run m' with ⟨r, m''⟩
    rw [hrun] at hm'' he hhosts'
    cases r with
    | ok => exact h id m'' hm'' hhosts'
    | error a => exact ⟨rfl, hm'', by cases a <;> exact he⟩

/-- The functions of a body are put where their names are. -/
theorem keeps_hoist (he : Opens e true names) (hslots : e.mode = .template →
      ∀ h ∈ e.hoisted, names[h.slot]? = some h.name)
    (hcodes : ∀ h ∈ e.hoisted, (Part.function h.code).Tame C.limit C.strict) :
    Keeps C b (Pool.Hosts C id true names) (fun _ => True) (hoist e id) := by
  have hmode : e.mode = .template ∨ e.mode = .eval := by
    cases he with
    | template he => exact .inl he
    | eval he => exact .inr he
  refine Keeps.bind (Q := fun _ => True) (.forM _ fun h hm => ?_) fun _ _ => ?_
  · refine (keeps_closure (hcodes h hm) id).bind fun v hv => ?_
    rcases hmode with hmode | hmode
    · rw [hmode]
      exact keeps_storeHost (hslots hmode h hm) hv
    · rw [hmode]
      exact keeps_setHost h.name hv
  · rw [if_neg (by rcases hmode with hmode | hmode <;> simp [hmode])]
    exact .pure trivial

theorem keeps_storeOwn {value : Exec Value} {slot : Option Nat}
    (hslot : ∀ k ∈ slot, k < names.length)
    (hv : Keeps C b (Pool.Hosts C id ext names) (Value.Tame C.limit C.strict) value) :
    Keeps C b (Pool.Hosts C id ext names) (fun _ => True) (storeOwn id slot value) := by
  cases slot with
  | none => exact .pure trivial
  | some k =>
    exact hv.bind fun v hv => keeps_storeHost (List.getElem?_eq_getElem (hslot k rfl)) hv

theorem keeps_storeParams {slots : List Nat} {args : List Value}
    (hslots : ∀ k ∈ slots, k < names.length) (hargs : ∀ v ∈ args, v.Tame C.limit C.strict) :
    Keeps C b (Pool.Hosts C id ext names) (fun _ => True) (storeParams id slots args) := by
  induction slots generalizing args with
  | nil => exact .pure trivial
  | cons k slots ih =>
    have hhead : (args.headD .undefined).Tame C.limit C.strict := by
      cases args with
      | nil => exact .undefined
      | cons v args => exact hargs v List.mem_cons_self
    obtain ⟨hk, hslots⟩ := List.forall_mem_cons.mp hslots
    exact (keeps_storeHost (List.getElem?_eq_getElem hk) hhead).bind fun _ _ =>
      ih hslots fun v hv => hargs v (List.mem_of_mem_tail hv)

theorem keeps_fillActivation {self : Value} {code : FunctionCode} {args : List Value}
    (hself : self.Tame C.limit C.strict) (hcode : (Part.function code).Tame C.limit C.strict)
    (hargs : ∀ v ∈ args, v.Tame C.limit C.strict) :
    Keeps C b (Pool.Hosts C id true code.entry.names) (fun _ => True)
      (fillActivation self code id args) := by
  have hparts {y : Part} := hcode.parts (y := y)
  obtain ⟨-, Φ, τ, hfits⟩ := hcode
  cases hfits with
  | intro isOpen hmode hnodup hparams hselfSlot hargumentsSlot hhoisted _ _ =>
    have harguments (object : Nat) : (Value.arguments object args).Tame C.limit C.strict :=
      .items (List.forall₂_same.mpr hargs)
    refine (keeps_storeOwn hselfSlot (.pure hself)).bind fun _ _ => ?_
    refine (keeps_storeOwn hargumentsSlot
      (keeps_newObject.bind fun object _ => .pure (harguments object))).bind fun _ _ => ?_
    refine (keeps_storeParams hparams hargs).bind fun _ _ => ?_
    refine keeps_hoist (.template hmode hnodup) (fun _ => hhoisted) fun h hm => hparts ?_
    exact List.mem_append_right _ (List.mem_map.mpr ⟨h, hm, rfl⟩)

/-- Code that runs in another scope, after which all is as it was but for the scopes. -/
theorem MindsFrom.inside {f g : Exec α} {Q : α → Prop} {scope : ScopeId} {strict : Bool}
    (hm : b = true → C.strict = true → m.strict = true)
    (h : MindsFrom (C.discipline true) Q
      { m with active := scope, strict, saved := m.active :: m.saved } f g) :
    MindsFrom (C.discipline b) Q m (within scope strict f) (within scope strict g) := by
  obtain ⟨hrun, hn, he⟩ := h
  refine ⟨?_, ⟨hn.holds.like rfl rfl rfl rfl, hm⟩, he⟩
  exact congrArg (fun x : Except Abrupt α × Machine =>
    (x.1, { x.2 with active := m.active, strict := m.strict, saved := x.2.saved.tail })) hrun

/-- It is strict if all code is. -/
theorem MindsFrom.within {f g : Exec α} {Q : α → Prop} {scope : ScopeId} {strict : Bool}
    (hm : C.Ready b m) (hs : C.strict = true → strict = true)
    (h : ∀ m', m'.heap = m.heap → C.Ready true m' → MindsFrom (C.discipline true) Q m' f g) :
    MindsFrom (C.discipline b) Q m (within scope strict f) (within scope strict g) :=
  .inside hm.strict (h _ rfl
    ⟨hm.holds.like rfl rfl rfl rfl, fun _ => hs⟩)

theorem MindsFrom.oneDeeper {f g : Exec α} {Q : α → Prop} (hm : C.Ready b m)
    (h : ∀ m', m'.heap = m.heap → C.Ready b m' → MindsFrom (C.discipline b) Q m' f g) :
    MindsFrom (C.discipline b) Q m (oneDeeper f) (oneDeeper g) := by
  let deeper : Machine := { m with callDepth := m.callDepth + 1 }
  have hdeeper : C.Ready b deeper :=
    ⟨hm.holds.like rfl rfl rfl rfl, hm.strict⟩
  obtain ⟨hrun, hn, he⟩ := h deeper rfl hdeeper
  refine ⟨?_, ⟨hn.holds.like rfl rfl rfl rfl, hn.strict⟩, he⟩
  exact congrArg (fun x : Except Abrupt α × Machine =>
    (x.1, { x.2 with callDepth := x.2.callDepth - 1 })) hrun

section Bodies

variable {f g : Exec Flow}

theorem minds_activate {self : Value} {code : FunctionCode} {args : List Value} (scope : ScopeId)
    (hself : self.Tame C.limit C.strict) (hcode : (Part.function code).Tame C.limit C.strict)
    (hargs : ∀ v ∈ args, v.Tame C.limit C.strict)
    (hbody : Minds (C.discipline true) (C.discipline true).flow f g) :
    Minds (C.discipline true) (Value.Tame C.limit C.strict) (activate self code scope args f)
      (activate self code scope args g) := by
  intro m hm
  obtain ⟨hmode, -, hstrict⟩ := hcode.minds
  have hnodup : code.entry.names.Nodup := by
    obtain ⟨Φ, τ, hfits⟩ := hcode.fits
    cases hfits with
    | intro _ _ hnodup => exact hnodup
  refine .within hm hstrict fun m₁ _ hm₁ => ?_
  refine mindsFrom_enter (.template hmode hnodup) hm₁ fun activation m₂ hm₂ hhosts => ?_
  refine .within hm₂ hstrict fun m₃ hheap₃ hm₃ => .oneDeeper hm₃ fun m₄ hheap₄ hm₄ => ?_
  rw [← hheap₃, ← hheap₄] at hhosts
  refine (keeps_fillActivation hself hcode hargs).followed (fun _ _ => ?_) hm₄ hhosts
  refine hbody.bind fun flow hflow => ?_
  cases flow with
  | normal => exact minds_pure .undefined
  | «return» => exact minds_pure hflow

theorem minds_handle {code : CatchCode} {v : Value} (hcode : (Part.catch code).Tame C.limit C.strict)
    (hv : v.Tame C.limit C.strict) (hbody : Minds (C.discipline true) (C.discipline true).flow f g) :
    Minds (C.discipline true) (C.discipline true).flow (handle code v f) (handle code v g) := by
  intro m hm
  obtain ⟨-, Φ, τ, hfits⟩ := hcode
  cases hfits with
  | intro hmode hnodup _ hparam _ =>
    refine mindsFrom_enter (.catch hmode hnodup) hm fun scope m₁ hm₁ hhosts => ?_
    refine (keeps_storeHost (List.getElem?_eq_getElem hparam) hv).followed (fun _ _ => ?_) hm₁ hhosts
    refine .looking fun m₂ hm₂ => ?_
    exact fun m₃ hm₃ => .within hm₃ (hm₂.strict rfl) fun m₄ _ hm₄ => hbody m₄ hm₄

/-- Declarations in whatever scope, where the global one is not closed. -/
theorem keeps_declareAnywhere (hclosed : C.closed = false) (scope : ScopeId) (ns : List Name) :
    Keeps C b (fun _ => True) (fun _ => True) (declareAll scope ns) := by
  refine .forM ns fun n _ => Keeps.bind (Q := fun _ => True) ?_ fun _ _ => .pure trivial
  exact keeps_change (c := .declare n none) (snd_run_declare scope n)
    (fun _ _ _ _ _ _ => ⟨trivial, fun _ => hclosed⟩) fun _ _ _ => trivial

theorem keeps_setAnywhere (hclosed : C.closed = false) (scope : ScopeId) (hn : n ≠ .this)
    (hv : v.Tame C.limit C.strict) :
    Keeps C b (fun _ => True) (fun _ => True) (onScopes (.setValue scope n v)) :=
  keeps_change (c := .setValue n v) (fun _ => rfl) (fun _ _ _ _ _ _ => ⟨hv, fun _ => ⟨hclosed, hn⟩⟩)
    fun _ _ _ => trivial

/-- A function that a program gives to a name. -/
theorem tame_hoisted {code : FunctionCode} {mode : Code.EntryMode}
    (hfits : code.FitsProgram C.limit mode) (hcode : code.MindfulProgram C.strict) {h : Code.Hoisted}
    (hm : h ∈ code.entry.hoisted) :
    (Part.function h.code).Tame C.limit C.strict ∧ h.name ≠ .this := by
  have hpart : Part.function h.code ∈ (Part.function code).parts :=
    List.mem_append_right _ (List.mem_map.mpr ⟨h, hm, rfl⟩)
  have htame : (Part.function h.code).Tame C.limit C.strict :=
    ⟨hcode.parts _ hpart, [], false, hfits.hoisted h hm⟩
  refine ⟨htame, fun hthis => ?_⟩
  obtain ⟨-, hname, -⟩ := htame.minds
  rw [hcode.hoisted h hm, hthis] at hname
  exact hname rfl

/-- The functions of a program go to whatever scope declares them, where the global one is not
closed. -/
theorem keeps_hoistAnywhere (hclosed : C.closed = false) {code : FunctionCode}
    (hfits : code.FitsProgram C.limit .eval) (hcode : code.MindfulProgram C.strict)
    (scope : ScopeId) :
    Keeps C b (fun _ => True) (fun _ => True) (hoist code.entry scope) := by
  rw [hoist, hfits.mode_eq]
  refine Keeps.bind (Q := fun _ => True) (.forM _ fun h hm => ?_) fun _ _ => .pure trivial
  obtain ⟨htame, hname⟩ := tame_hoisted hfits hcode hm
  exact (keeps_closure htame scope).bind fun v hv => keeps_setAnywhere hclosed scope hname hv

/-- The functions of a program go to the scope that was made for the program. -/
theorem keeps_hoistApart {code : FunctionCode} (hfits : code.FitsProgram C.limit .eval)
    (hcode : code.MindfulProgram C.strict) :
    Keeps C b (Pool.Hosts C id true []) (fun _ => True) (hoist code.entry id) := by
  refine keeps_hoist (.eval hfits.mode_eq) (fun hmode => ?_) fun h hm =>
    (tame_hoisted hfits hcode hm).1
  rw [hfits.mode_eq] at hmode
  cases hmode

theorem minds_evaluate {code : FunctionCode} (hfits : code.FitsProgram C.limit .eval)
    (hcode : code.MindfulProgram C.strict)
    (hbody : Minds (C.discipline true) (C.discipline true).flow f g) :
    Minds (C.discipline true) (C.discipline true).flow (evaluate code f) (evaluate code g) := by
  intro m hm
  unfold evaluate
  split
  · next hstrict =>
    refine mindsFrom_enter (.eval hfits.mode_eq) hm fun scope m₁ hm₁ hhosts => ?_
    refine .within hm₁ (fun _ => hstrict) fun m₂ hheap hm₂ => ?_
    rw [← hheap] at hhosts
    exact (keeps_hoistApart hfits hcode).followed (fun _ _ => hbody) hm₂ hhosts
  · next hsloppy =>
    have hclosed : C.closed = false := by
      rw [Bool.eq_false_iff]
      exact fun hc => hsloppy (hcode.inherits (C.strict_of_closed hc))
    refine Minds.looking (fun m₁ _ => ?_) m hm
    exact (keeps_declareAnywhere hclosed _ _).minds.bind fun _ _ =>
      (keeps_hoistAnywhere hclosed hfits hcode _).minds.bind fun _ _ => hbody

/-- What is compiled is mindful, and strict where all code is. -/
theorem minds_compileEval (text : String) :
    Minds (C.discipline true) (fun c => (C.discipline true).program c.code) (compileEval text)
      (compileEval text) := by
  intro m hm
  refine ⟨rfl, ?_⟩
  rw [run_compileEval]
  have hfits (c : Compiled) (hc : (Compilation.evalCode m.options text m.strict m.names).1 = .ok c) :
      (C.discipline true).program c.code := by
    refine ⟨hm.holds.depth ▸ Compilation.fitsProgram_ofText hc, ?_⟩
    refine Compilation.mindful_ofText hm.holds.names (fun hs => ?_) hc
    rw [hm.strict rfl hs, Bool.true_or]
  have hnames : .wellKnown ≤ (Compilation.evalCode m.options text m.strict m.names).2 :=
    Interner.laws.le_trans hm.holds.names (Parser.le_names_parse Compilation.evalFile text _ m.names)
  generalize Compilation.evalCode m.options text m.strict m.names = a at hfits hnames
  obtain ⟨r, names⟩ := a
  have hnamed : C.Ready true { m with names } :=
    ⟨⟨hm.holds.depth, hm.holds.options, hm.holds.global, hnames, hm.holds.scopes⟩, hm.strict⟩
  cases r with
  | ok c => exact ⟨hnamed, hfits c rfl⟩
  | error e =>
    cases e with
    | malformed d => exact (minds_raise .malformed d.text _ hnamed).2
    | scope | emit => exact ⟨hnamed, trivial⟩

end Bodies

theorem minds_unbound {Q : α → Prop} (n : Name) :
    Minds (C.discipline b) Q (unbound (.dynamic n)) (unbound (.dynamic n)) :=
  .looking fun _ _ => minds_raise _ _

theorem minds_locate (n : Name) :
    Minds (C.discipline b) (fun _ => True) (locate (.dynamic n)) (locate (.dynamic n)) :=
  .looking fun _ _ => minds_ask fun _ _ _ _ => trivial

theorem minds_loadSlot (scope : ScopeId) (slot : Nat) :
    Minds (C.discipline b) (Value.Tame C.limit C.strict) (ask (·.load scope slot))
      (ask (·.load scope slot)) := by
  refine minds_ask fun m hm v hv => ?_
  obtain ⟨s, hs, rfl⟩ := Pool.exists_of_load hv
  exact (hm.holds.scopes.each scope s hs).tame slot

theorem minds_load (n : Name) :
    Minds (C.discipline b) (Value.Tame C.limit C.strict) (load (.dynamic n)) (load (.dynamic n)) := by
  refine (minds_locate n).bind fun found _ => ?_
  cases found with
  | none => exact minds_unbound n
  | some found => exact minds_loadSlot _ _

theorem minds_store {n : Name} (hn : n ≠ .this) {v : Value} (hv : v.Tame C.limit C.strict) :
    Minds (C.discipline true) (fun _ => True) (store (.dynamic n) v) (store (.dynamic n) v) := by
  intro m hm
  cases hfound : m.heap.pool.lookup m.active n with
  | error e =>
    have hlocate : (locate (.dynamic n)).run m = (.error (.scope e), m) := by
      rw [run_locate, whereabouts, hfound]
      rfl
    rw [MindsFrom, store, run_bind_of_error hlocate]
    exact ⟨rfl, hm, trivial⟩
  | ok found =>
    have hlocate : (locate (.dynamic n)).run m = (.ok found, m) := by
      rw [run_locate, whereabouts, hfound]
      rfl
    refine .after hlocate ?_
    cases found with
    | some place =>
      obtain ⟨t, k⟩ := place
      obtain ⟨s, hs, hslot⟩ := Pool.slot?_of_lookupFrom hfound
      have hwork (p : Pool Value) : ((PoolM.store t k v).run p).2 =
          (((Change.store k v).run t).run p).2 := rfl
      refine mindsFrom_change hwork hm fun t' s' ht hs' => ?_
      obtain rfl := Change.target_store ht
      cases hs.symm.trans hs'
      exact ⟨⟨hv, n, hslot⟩, fun _ hthis => hn (Scope.eq_of_slot? hslot hthis)⟩
    | none =>
      -- Strict code fails here. Other code gives the name to the global scope.
      refine Minds.looking (fun m' hm' => ?_) m hm
      split
      · exact (minds_unbound (Q := fun _ => False) n).bind fun _ h => h.elim
      · next hsloppy =>
        have hclosed : C.closed = false := by
          rw [Bool.eq_false_iff]
          exact fun hc => hsloppy (hm'.strict rfl (C.strict_of_closed hc))
        exact .looking fun _ _ => (keeps_setAnywhere hclosed _ hn hv).minds

theorem minds_typeOfName (n : Name) :
    Minds (C.discipline b) (Value.Tame C.limit C.strict) (typeOfName (.dynamic n))
      (typeOfName (.dynamic n)) := by
  refine (minds_locate n).bind fun found _ => ?_
  cases found with
  | none => exact minds_pure (.string _)
  | some found => exact (minds_loadSlot _ _).bind fun _ _ => minds_pure (.string _)

theorem minds_deleteName (hclosed : C.closed = false) (n : Name) :
    Minds (C.discipline b) (Value.Tame C.limit C.strict) (deleteName (.dynamic n))
      (deleteName (.dynamic n)) := by
  have hrest (deleted : Bool) : Minds (C.discipline b) (Value.Tame C.limit C.strict)
      (do
        if !deleted && (← get).strict then raise .type "Cannot delete a declared binding"
        return Value.bool deleted)
      (do
        if !deleted && (← get).strict then raise .type "Cannot delete a declared binding"
        return Value.bool deleted) := by
    refine .looking fun m _ => ?_
    split
    · exact (minds_raise (Q := fun _ => True) _ _).bind fun _ _ => minds_pure (.bool _)
    · exact minds_pure (.bool _)
  refine .looking fun m _ => (minds_ask fun _ _ _ _ => trivial).bind fun found _ => ?_
  cases found with
  | none => exact hrest true
  | some found =>
    have hdelete : Keeps C b (fun _ => True) (fun _ => True) (onScopes (.delete found.1 n)) :=
      keeps_change (c := .delete n) (snd_run_delete found.1 n)
        (fun _ _ _ _ _ _ => ⟨trivial, fun _ => hclosed⟩) fun _ _ _ => trivial
    exact hdelete.minds.bind fun deleted _ => hrest deleted

/-- Mindful code keeps to a conduct. -/
theorem kept_byName (C : Conduct) : (C.discipline true).Kept .byName .byName where
  parts h hy := h.parts hy
  body h s hs := ⟨h.2.parts _ (List.mem_append_left _ (List.mem_map.mpr ⟨s, hs, rfl⟩)), [], _,
    h.1.body s hs⟩
  plain {v} hv := by
    cases v with
    | undefined | null | bool | number | string => constructor
    | function | arguments | error => cases hv
  called h := by
    cases h with
    | function _ hcode => exact hcode
  closure scope h := (keeps_closure h scope).minds
  raise := minds_raise
  loadSlot := minds_loadSlot
  load {u} _ := minds_load u.name
  store {u _ _} hu hv := minds_store (hu.minds : u.name ≠ .this) hv
  typeOfName {u} _ := minds_typeOfName u.name
  deleteName {u} hu := by
    have hclosed : C.closed = false := by
      rw [Bool.eq_false_iff]
      intro hc
      have hstrict : C.strict = false := hu.minds
      rw [C.strict_of_closed hc] at hstrict
      cases hstrict
    exact minds_deleteName hclosed u.name
  activate scope hself hcode hargs hbody := minds_activate scope hself hcode hargs hbody
  handle hcode hv hbody := minds_handle hcode hv hbody
  compileEval := minds_compileEval
  evaluate hc hbody := minds_evaluate hc.1 hc.2 hbody

end Exec

end ScopeChain
