import ScopeChain.Proofs.DeclaredNames
import ScopeChain.Proofs.Edits
import ScopeChain.Proofs.Fuel
import ScopeChain.Proofs.Uses

/-! How a function starts. Its body runs in a new scope, and what a name of that scope holds then is
settled by what the name stands for in the text: a function that the body declares comes before a
parameter, a parameter before the arguments and these before the function's own name. -/
namespace ScopeChain

open Code (Entry FunctionCode Hoisted Part)

/-- The position of the last parameter of a name. -/
structure LastParam (n : Name) (params : List Identifier) (i : Nat) : Prop where
  at_ : params[i]?.map Identifier.name = some n
  last : ∀ j, i < j → params[j]?.map Identifier.name ≠ some n

namespace LastParam

variable {n : Name} {p : Identifier} {params : List Identifier} {i : Nat}

theorem cons (h : LastParam n params i) : LastParam n (p :: params) (i + 1) := by
  refine ⟨h.at_, ?_⟩
  intro j hj
  obtain ⟨j, rfl⟩ := Nat.exists_eq_succ_of_ne_zero (Nat.ne_zero_of_lt hj)
  exact h.last j (Nat.lt_of_succ_lt_succ hj)

theorem head (h : n ∉ params.map Identifier.name) (hn : p.name = n) :
    LastParam n (p :: params) 0 := by
  refine ⟨congrArg some hn, ?_⟩
  intro j hj
  obtain ⟨j, rfl⟩ := Nat.exists_eq_succ_of_ne_zero (Nat.ne_zero_of_lt hj)
  intro he
  obtain ⟨q, hq, hname⟩ := Option.map_eq_some_iff.mp he
  exact h (List.mem_map.mpr ⟨q, List.mem_of_getElem? hq, hname⟩)

theorem mem (h : LastParam n params i) : n ∈ params.map Identifier.name := by
  obtain ⟨q, hq, hname⟩ := Option.map_eq_some_iff.mp h.at_
  exact List.mem_map.mpr ⟨q, List.mem_of_getElem? hq, hname⟩

end LastParam

/-- What a name of a function's scope holds when the body is about to run, where `self` is the closure
that was called and `scope` is the new scope. -/
inductive Initial (b : Binding) (f : FunctionDef) (self : Value) (scope : ScopeId)
    (args : List Value) (n : Name) : Value → Prop
  /-- A new closure of the function that the body declares last under the name. -/
  | function {g : FunctionDef} {code : FunctionCode} (object : Nat)
    (declared : lastFunction n (Stmt.allDeclarations f.body) = some g) (isOf : code.IsOf b g) :
    Initial b f self scope args n (.function object code scope)
  /-- The argument at the place of the last parameter of that name. -/
  | param {i : Nat} (declared : lastFunction n (Stmt.allDeclarations f.body) = none)
    (param : LastParam n f.params i) : Initial b f self scope args n (args.getD i .undefined)
  /-- All arguments that were passed. -/
  | arguments (object : Nat) (declared : lastFunction n (Stmt.allDeclarations f.body) = none)
    (param : n ∉ f.params.map Identifier.name) (arguments : n = .arguments) :
    Initial b f self scope args n (.arguments object args)
  /-- The closure that was called. -/
  | self (declared : lastFunction n (Stmt.allDeclarations f.body) = none)
    (param : n ∉ f.params.map Identifier.name) (arguments : n ≠ .arguments)
    (own : f.self.map Identifier.name = some n) : Initial b f self scope args n self
  | other (declared : lastFunction n (Stmt.allDeclarations f.body) = none)
    (param : n ∉ f.params.map Identifier.name) (arguments : n ≠ .arguments)
    (own : f.self.map Identifier.name ≠ some n) : Initial b f self scope args n .undefined

namespace Scope

variable {names : List Name} {value : Name → Option Value} {s : Scope Value} {n : Name} {k : Nat}

/-- A scope with room for values, in which some names have the slots in the order in which they are
listed, and which binds names to some values. -/
structure Shows (s : Scope Value) (names : List Name) (value : Name → Option Value) : Prop where
  tidy : s.Tidy
  room : ∃ vs, s.values = some vs
  slots : ∀ k n, names[k]? = some n → s.slot? n = some k
  value : s.cell.value = value

theorem shows_filled (h : names.Nodup) (parent : ScopeId) :
    (Scope.filled .template (some parent) names).Shows names fun n =>
      if n ∈ names then some .undefined else none := by
  refine ⟨tidy_filled nofun, ⟨_, rfl⟩, fun k n => slot?_ofNames h, ?_⟩
  rw [cell_filled]
  rfl

theorem Shows.setSlot (h : s.Shows names value) (hk : names[k]? = some n) (v : Value) :
    (s.setSlot k v).Shows names (Function.update value n (some v)) := by
  obtain ⟨vs, hvs⟩ := h.room
  have hslot := h.slots k n hk
  refine ⟨h.tidy.setSlot hvs hslot v, ⟨vs.setIfInBounds k v, ?_⟩, h.slots, ?_⟩
  · rw [Scope.setSlot, hvs, Option.map_some]
  · rw [h.tidy.cell_setSlot hvs hslot, Cell.put, h.value]

end Scope

namespace Exec

/-- A machine that has one more scope than another, and has made some more objects. -/
def opened (m : Machine) (s : Scope Value) (next : Nat) : Machine :=
  { m with
    heap := { m.heap with pool := (m.heap.pool.insert s).2 }
    nextObject := next }

/-- Work in a machine with a new scope changes nothing but the values that the scope binds to names,
from some values to such as `Q` describes, and makes objects. -/
def Fills (scope : ScopeId) (names : List Name) (f : Exec PUnit) (value : Name → Option Value)
    (Q : (Name → Option Value) → Prop) : Prop :=
  ∀ m s next, m.heap.pool.next = scope → s.Shows names value →
    ∃ s' next' value', f.run (opened m s next) = (.ok ⟨⟩, opened m s' next') ∧
      s'.Shows names value' ∧ Q value'

section Fills

variable {scope : ScopeId} {names : List Name} {f g : Exec PUnit} {value : Name → Option Value}
  {Q R : (Name → Option Value) → Prop} {n : Name} {k : Nat}

theorem Fills.pure (h : Q value) : Fills scope names (pure ⟨⟩) value Q :=
  fun _ s next _ hs => ⟨s, next, value, rfl, hs, h⟩

theorem Fills.imp (hf : Fills scope names f value Q) (h : ∀ value', Q value' → R value') :
    Fills scope names f value R := by
  intro m s next hnext hs
  obtain ⟨s', next', value', hrun, hs', hq⟩ := hf m s next hnext hs
  exact ⟨s', next', value', hrun, hs', h value' hq⟩

theorem Fills.bind (hf : Fills scope names f value Q)
    (hg : ∀ value', Q value' → Fills scope names g value' R) :
    Fills scope names (do f; g) value R := by
  intro m s next hnext hs
  obtain ⟨s', next', value', hrun, hs', hq⟩ := hf m s next hnext hs
  rw [run_bind_of_ok hrun]
  exact hg value' hq m s' next' hnext hs'

/-- An object is made first. -/
theorem Fills.object {f : Nat → Exec PUnit} (hf : ∀ object, Fills scope names (f object) value Q) :
    Fills scope names (do f (← newObject)) value Q :=
  fun m s next => hf next m s (next + 1)

theorem fills_store (hk : names[k]? = some n) (v : Value) :
    Fills scope names (onScopes (.store scope k v)) value
      (· = Function.update value n (some v)) := by
  intro m s next hnext hs
  obtain ⟨vs, hvs⟩ := hs.room
  have hfind : (m.heap.pool.insert s).2.find? scope = some s := by
    rw [← hnext, Pool.find?_insert_next]
  have hrun : (PoolM.store scope k v).run (m.heap.pool.insert s).2 =
      (.ok ⟨⟩, (m.heap.pool.insert (s.setSlot k v)).2) := by
    rw [PoolM.run_store v hfind hvs (hs.tidy.lt_size hvs (hs.slots k n hk)), ← hnext,
      ← Pool.fst_insert s, Pool.update_insert]
    rfl
  exact ⟨s.setSlot k v, next, _, run_onScopes_of_ok hrun, hs.setSlot hk v, rfl⟩

/-- The parameters get the arguments, a name that several of them have that of the last one. -/
theorem fills_storeParams {slots : List Nat} {params : List Identifier}
    (h : List.Forall₂ (fun k p => names[k]? = some p.name) slots params) (args : List Value)
    (value : Name → Option Value) : Fills scope names (storeParams scope slots args) value
      fun value' => ∀ n, (∃ i, LastParam n params i ∧ value' n = some (args.getD i .undefined)) ∨
        n ∉ params.map Identifier.name ∧ value' n = value n := by
  induction h generalizing args value with
  | nil => exact .pure fun n => .inr ⟨nofun, rfl⟩
  | @cons k p slots params hk _ ih =>
    refine (fills_store hk _).bind ?_
    rintro _ rfl
    refine (ih args.tail _).imp fun value' hvalue n => ?_
    rcases hvalue n with ⟨i, hi, hv⟩ | ⟨hn, hv⟩
    · exact .inl ⟨i + 1, hi.cons, by rw [hv]; cases args <;> rfl⟩
    · by_cases hp : p.name = n
      · refine .inl ⟨0, .head hn hp, ?_⟩
        rw [hv, hp, Function.update_self]
        cases args <;> rfl
      · refine .inr ⟨by simpa using ⟨Ne.symm hp, by simpa using hn⟩, ?_⟩
        rw [hv, Function.update_of_ne (Ne.symm hp)]

/-- Functions are given to names as new closures. -/
theorem fills_hoisted {hs : List Hoisted} (h : ∀ h ∈ hs, names[h.slot]? = some h.name) :
    Fills scope names (hs.forM fun h => do onScopes (.store scope h.slot (← closure h.code scope)))
      value fun value' => ∀ n,
        (∃ h ∈ hs, h.name = n ∧ ∃ object, value' n = some (.function object h.code scope)) ∨
          n ∉ hs.map Hoisted.name ∧ value' n = value n := by
  induction hs generalizing value with
  | nil => exact .pure fun n => .inr ⟨nofun, rfl⟩
  | cons h₀ hs ih =>
    obtain ⟨hslot, hrest⟩ := List.forall_mem_cons.mp h
    have hgive : Fills scope names (do onScopes (.store scope h₀.slot (← closure h₀.code scope)))
        value fun value' => ∃ object, value' =
          Function.update value h₀.name (some (.function object h₀.code scope)) :=
      .object fun object => (fills_store hslot (.function object h₀.code scope)).imp fun _ hv =>
        ⟨object, hv⟩
    refine hgive.bind ?_
    rintro _ ⟨object, rfl⟩
    refine (ih hrest).imp fun value' hvalue n => ?_
    rcases hvalue n with ⟨h, hm, hn, hv⟩ | ⟨hn, hv⟩
    · exact .inl ⟨h, List.mem_cons_of_mem _ hm, hn, hv⟩
    · by_cases hname : h₀.name = n
      · refine .inl ⟨h₀, List.mem_cons_self, hname, object, ?_⟩
        rw [hv, hname, Function.update_self]
      · refine .inr ⟨by simpa using ⟨Ne.symm hname, by simpa using hn⟩, ?_⟩
        rw [hv, Function.update_of_ne (Ne.symm hname)]

theorem fills_hoist {e : Entry} (hmode : e.mode = .template)
    (h : ∀ h ∈ e.hoisted, names[h.slot]? = some h.name) :
    Fills scope names (hoist e scope) value fun value' => ∀ n,
      (∃ h ∈ e.hoisted, h.name = n ∧ ∃ object, value' n = some (.function object h.code scope)) ∨
        n ∉ e.hoisted.map Hoisted.name ∧ value' n = value n := by
  have hglobal : e.mode ≠ .global := by simp [hmode]
  rw [hoist, if_neg hglobal, hmode]
  exact (fills_hoisted h).bind fun _ hv => .pure hv

/-- The names of a function's scope before the body runs. -/
theorem fills_fillActivation {b : Binding} {f : FunctionDef} {d : FunctionCode}
    (hd : d.Renders b f) (hmade : d.Instantiates b f) (self : Value) (args : List Value) :
    Fills scope d.entry.names (fillActivation self d scope args)
      (fun n => if n ∈ d.entry.names then some .undefined else none) fun value =>
        ∀ n ∈ d.entry.names, ∃ v, value n = some v ∧ Initial b f self scope args n v := by
  obtain ⟨s, -, hlists⟩ := hd.entry
  -- First the function's own name, if it has one.
  have hself : Fills scope d.entry.names (storeOwn scope d.selfSlot (return self))
      (fun n => if n ∈ d.entry.names then some .undefined else none) fun value =>
        ∀ n ∈ d.entry.names, value n =
          some (if f.self.map Identifier.name = some n then self else .undefined) := by
    have hslot := hd.selfSlot
    generalize f.self = own at hslot ⊢
    generalize d.selfSlot = slot at hslot ⊢
    cases hslot with
    | none => exact .pure fun n hn => by simp [hn]
    | @some k i hk =>
      refine (fills_store hk self).imp ?_
      rintro _ rfl n hn
      by_cases hi : i.name = n
      · simp [hi]
      · simp [hi, hn, Function.update_of_ne (Ne.symm hi)]
  -- Then the arguments object.
  have harguments (value : Name → Option Value) : Fills scope d.entry.names
      (storeOwn scope d.argumentsSlot do return .arguments (← newObject) args) value fun value' =>
        ∃ object, value' = Function.update value .arguments (some (.arguments object args)) := by
    obtain ⟨k, hslot, hk⟩ := Option.bind_eq_some_iff.mp hd.argumentsSlot
    rw [hslot]
    exact .object fun object => (fills_store hk (.arguments object args)).imp fun _ hv =>
      ⟨object, hv⟩
  refine hself.bind fun value₁ h₁ => (harguments value₁).bind ?_
  rintro _ ⟨object, rfl⟩
  refine (fills_storeParams hd.params args _).bind fun value₃ h₃ => ?_
  refine (fills_hoist hd.mode fun h hm => (hlists.hoisted h hm).1).imp fun value h₄ n hn => ?_
  rcases h₄ n with ⟨h, hm, rfl, object, hv⟩ | ⟨hno, hv⟩
  · obtain ⟨g, hg, hcode⟩ := hmade.entry.hoisted h hm
    exact ⟨_, hv, .function object hg hcode⟩
  · have hdeclared : lastFunction n (Stmt.allDeclarations f.body) = none := by
      by_contra hsome
      obtain ⟨g, hg⟩ := Option.ne_none_iff_exists'.mp hsome
      obtain ⟨h, hm, hname⟩ := hmade.entry.complete n g hg
      exact hno (List.mem_map.mpr ⟨h, hm, hname⟩)
    rcases h₃ n with ⟨i, hi, hv'⟩ | ⟨hparam, hv'⟩
    · exact ⟨_, hv.trans hv', .param hdeclared hi⟩
    · rw [hv, hv']
      by_cases harg : n = .arguments
      · rw [harg, Function.update_self]
        exact ⟨_, rfl, .arguments object (harg ▸ hdeclared) (harg ▸ hparam) rfl⟩
      · rw [Function.update_of_ne harg, h₁ n hn]
        by_cases hown : f.self.map Identifier.name = some n
        · rw [if_pos hown]
          exact ⟨_, rfl, .self hdeclared hparam harg hown⟩
        · rw [if_neg hown]
          exact ⟨_, rfl, .other hdeclared hparam harg hown⟩

end Fills

end Exec

/-- What a call answers when the body ends so. -/
def Flow.answer : Flow → Value
  | .return v => v
  | .normal _ => .undefined

/-- A machine after the body of a function has left it in some state: all that was put aside for the
call is as it was before. -/
def Machine.resumed (m after : Machine) : Machine :=
  { after with
    callDepth := after.callDepth - 1
    active := m.active
    strict := m.strict
    saved := after.saved.tail.tail }

namespace Exec

variable {b : Binding} {f : FunctionDef} {d : FunctionCode} {m : Machine} {scope : ScopeId}

/-- A function whose scope is live starts in a new scope, where each of its names holds its initial
value. What becomes of the call is up to the body from there on. -/
theorem run_activate (hd : d.Renders b f) (hmade : d.Instantiates b f)
    (hscope : m.heap.pool.contains scope = true) (self : Value) (args : List Value) :
    ∃ start : Machine, m.heap.pool.contains start.active = false ∧
      (∀ n ∈ d.entry.names, ∃ v, start.heap.pool.value? start.active n = .ok (some v) ∧
        Initial b f self start.active args n v) ∧
      ∀ body : Exec Flow, (activate self d scope args body).run m =
        (((body.run start).1.map Flow.answer), m.resumed (body.run start).2) := by
  obtain ⟨parent, hparent⟩ := Pool.contains_iff.mp hscope
  obtain ⟨_, -, hlists⟩ := hd.entry
  let base : Machine := { m with
    active := m.heap.pool.next
    strict := d.strict
    saved := scope :: m.active :: m.saved
    callDepth := m.callDepth + 1 }
  let made : Scope Value := .filled .template (some scope) d.entry.names
  obtain ⟨s, next, value, hfill, hs, hvalue⟩ :=
    fills_fillActivation hd hmade self args base made m.nextObject rfl
      (Scope.shows_filled hlists.nodup scope)
  refine ⟨opened base s next, ?_, ?_, ?_⟩
  · rw [Pool.contains, Option.isSome_eq_false_iff, Option.isNone_iff_eq_none]
    exact m.heap.pool.find?_next
  · intro n hn
    obtain ⟨v, hv, hinitial⟩ := hvalue n hn
    have hfind := m.heap.pool.find?_insert_next s
    obtain ⟨vs, hvs⟩ := hs.room
    exact ⟨v, (value?_of_find? hs.tidy hfind hvs n).trans (by rw [hs.value, hv]), hinitial⟩
  · intro body
    let outer : Machine := { m with
      active := scope, strict := d.strict, saved := m.active :: m.saved }
    have henter : (enter d.entry).run outer = (.ok m.heap.pool.next,
        { outer with heap := { m.heap with pool := (m.heap.pool.insert made).2 } }) := by
      rw [enter, run_bind_of_ok (run_get outer), hd.mode]
      refine run_onScopes_of_ok ?_
      rw [← Pool.fst_insert made]
      exact PoolM.run_newInstance .template d.entry.names hparent
    have hbody : (do
        fillActivation self d m.heap.pool.next args
        match ← body with
        | .return v => return v
        | .normal _ => return .undefined : Exec Value).run (opened base made m.nextObject) =
        ((body.run (opened base s next)).1.map Flow.answer, (body.run (opened base s next)).2) := by
      rw [run_bind_of_ok hfill, run_bind]
      rcases body.run (opened base s next) with ⟨_ | (_ | v), m'⟩ <;> rfl
    rw [activate, run_within, run_bind_of_ok henter, run_within, run_oneDeeper]
    exact congrArg (fun r => (r.1, m.resumed r.2)) hbody

/-- A call of a closure of some code, made from a function, comes to the first statement of the body in
some state: in a new scope, in which each name of the code's entry holds its initial value. The call
ends as the body does from there on. -/
structure Starts (b : Binding) (f : FunctionDef) (d : FunctionCode) (m : Machine) (object : Nat)
    (scope : ScopeId) (args : List Value) (start : Machine) : Prop where
  isNew : m.heap.pool.contains start.active = false
  values : ∀ n ∈ d.entry.names, ∃ v, start.heap.pool.value? start.active n = .ok (some v) ∧
    Initial b f (.function object d scope) start.active args n v
  ends : ∀ (access : Access) (fuel : Nat),
    let ended := (execAll access fuel none d.body).run start
    (call access (fuel + 1) (.function object d scope) args).run m =
      (ended.1.map Flow.answer, m.resumed ended.2)

/-- Whatever is passed to a compiled function, each of its names holds its initial value when the call
comes to the body. -/
theorem call_starts_with_initial_values {o : Options} {file text : String} {strict eval : Bool}
    {names : Interner} {c : Compiled}
    (hc : (Compilation.ofText o file text strict eval names).1 = .ok c) {Γ : List Entry}
    (hd : Code.Encloses c.code Γ (.function d)) (hΓ : Γ ≠ []) :
    ∃ f, .function f ∈ (Parser.parse file text strict names).program.items ∧
      d.IsOf c.binding f ∧ ∀ (m : Machine) (object : Nat) (scope : ScopeId) (args : List Value),
        m.heap.pool.contains scope = true → m.callDepth < Machine.maxCallDepth →
        ∃ start, Starts c.binding f d m object scope args start := by
  rcases (Compilation.sourced_ofText hc).made hd with ⟨hnil, -⟩ | ⟨f, hf, hrenders, hmade⟩
  · exact absurd hnil hΓ
  · refine ⟨f, hf, hmade.isOf, fun m object scope args hscope hdepth => ?_⟩
    obtain ⟨start, hnew, hvalues, hrun⟩ :=
      run_activate hrenders hmade hscope (.function object d scope) args
    refine ⟨start, hnew, hvalues, fun access fuel => ?_⟩
    rw [call, run_bind_of_ok (run_get m), if_neg (Nat.not_le.mpr hdepth)]
    exact hrun _

/-- A function in which the parameter is declared twice, and a function under the same name. -/
theorem call_starts_with_last_of_shadowing_names :
    let text := "function f(a, a) { function a() { } }"
    let pool : Pool Value := (Pool.empty .standard).edited [.make .globalInstance]
    let m : Machine := {
      names := .wellKnown, options := .unset, heap := ⟨pool, 0, 0⟩, global := ⟨0, 0⟩
      active := ⟨0, 0⟩, strict := false, saved := [], completion := .undefined, callDepth := 0
      nextObject := 0 }
    ∃ c d, (Compilation.ofText .unset "" text false false .wellKnown).1 = .ok c ∧
      Code.Encloses c.code [c.code.entry] (.function d) ∧
      ∃ f start, d.IsOf c.binding f ∧
        Starts c.binding f d m 0 ⟨0, 0⟩ [.bool true, .bool false] start := by
  intro text pool m
  let r := Parser.parse "" text false .wellKnown
  have herrors : r.diagnostics.firstError?.isNone = true := by decide +kernel
  have hbinds : (Binding.ofProgram r.program false Options.unset.limits r.names).toOption.isSome =
      true := by decide +kernel
  have hdeclared : (lastFunction ⟨4⟩ (Stmt.allDeclarations r.program.body)).isSome = true := by
    decide +kernel
  obtain ⟨c, hc, -⟩ :=
    Compilation.exists_ofText (o := .unset) (Option.isNone_iff_eq_none.mp herrors) hbinds
  obtain ⟨g, hg⟩ := Option.isSome_iff_exists.mp hdeclared
  obtain ⟨h, hm, -⟩ := (Compilation.sourced_ofText hc).instantiates.complete _ g hg
  have hd : Code.Encloses c.code [c.code.entry] (.function h.code) :=
    .inner .root (List.mem_append_right _ (List.mem_map.mpr ⟨h, hm, rfl⟩))
  obtain ⟨f, -, hisOf, hstarts⟩ := call_starts_with_initial_values hc hd (List.cons_ne_nil _ _)
  obtain ⟨start, hstart⟩ := hstarts m 0 ⟨0, 0⟩ [.bool true, .bool false]
    (by decide +kernel) (by decide)
  exact ⟨c, h.code, hc, hd, f, start, hisOf, hstart⟩

end Exec

end ScopeChain
