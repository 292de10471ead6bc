import ScopeChain.Proofs.Conducts
import ScopeChain.Proofs.DeclaredNames

/-! What sloppy code handed to `eval` has done to the scopes when its body starts. Its names are
declared in the nearest scope that keeps declarations. Its functions are put there too, unless the
scope that is active binds their name itself: that is how a function replaces a caught exception. -/
namespace ScopeChain

open Code (Entry FunctionCode Hoisted)

variable {p q r : Pool Value} {active t u x : ScopeId} {s : Scope Value} {n a : Name} {v : Value}

/-- A scope in order, with room for values. -/
structure Scope.Running (s : Scope Value) : Prop extends s.Tidy where
  filled : s.values.isSome = true

/-- So are all scopes of code that obeys a conduct. -/
theorem Pool.Obeys.running {C : Conduct} (h : p.Obeys C) : p.Each Scope.Running :=
  h.each.imp fun _ hs => ⟨hs.toTidy, hs.filled⟩

namespace Pool

/-- A walk to where declarations land does not depend on what the scopes bind. -/
theorem declarationTarget_update {f : Scope Value → Scope Value}
    (hf : ∀ s, (f s).kind = s.kind ∧ (f s).parent = s.parent) (x id : ScopeId) :
    (p.update x f).declarationTarget id = p.declarationTarget id := by
  have walk (reach : Nat) (id : ScopeId) :
      (p.update x f).declarationTargetFrom reach id = p.declarationTargetFrom reach id := by
    induction reach generalizing id with
    | zero => rfl
    | succ reach ih =>
      cases hs : p.find? id with
      | none =>
        have hu : (p.update x f).find? id = none := by
          rw [find?_update]
          split <;> simp [hs]
        simp only [declarationTargetFrom, get, hs, hu, bind, Except.bind]
      | some s =>
        by_cases hx : id = x
        · subst hx
          rw [declarationTargetFrom_succ hs, declarationTargetFrom_succ (find?_update_self hs f),
            (hf s).1, (hf s).2]
          cases s.parent <;> simp only [ih]
        · have hu : (p.update x f).find? id = some s := (find?_update_of_ne hx f).trans hs
          rw [declarationTargetFrom_succ hs, declarationTargetFrom_succ hu]
          cases s.parent <;> simp only [ih]
  exact walk p.reach id

/-- The value of a name in a scope itself, if the scope is there and binds the name. -/
def valueIn (p : Pool Value) (id : ScopeId) (n : Name) : Option Value :=
  (p.find? id).bind (·.cell.value n)

theorem valueIn_of_find? (h : p.find? x = some s) (n : Name) : p.valueIn x n = s.cell.value n := by
  rw [valueIn, h, Option.bind_some]

theorem isSome_valueIn (p : Pool Value) (x : ScopeId) (n : Name) :
    (p.valueIn x n).isSome = p.binds x n := by
  cases h : p.find? x with
  | none => rw [valueIn, binds, h, Option.bind_none, Option.any_none, Option.isSome_none]
  | some s => rw [valueIn_of_find? h, binds, h, Option.any_some, Scope.cell, Option.isSome_map]

theorem value?_eq_valueIn (h : p.Each Scope.Running) (hx : p.contains x = true) (n : Name) :
    p.value? x n = .ok (p.valueIn x n) := by
  obtain ⟨s, hs⟩ := contains_iff.mp hx
  have hrunning := h x s hs
  obtain ⟨vs, hvs⟩ := Option.isSome_iff_exists.mp hrunning.filled
  rw [value?_of_find? hrunning.toTidy hs hvs, valueIn_of_find? hs]

/-- Scopes of running code, in which what is declared in one of them lands in another. -/
structure Delivers (p : Pool Value) (active t : ScopeId) : Prop where
  each : p.Each Scope.Running
  target : p.declarationTarget active = .ok t

/-- A pool has one more value than another: that of a name in one of its scopes. -/
structure Wrote (p : Pool Value) (x : ScopeId) (n : Name) (v : Value) (q : Pool Value) : Prop where
  others : ∀ y, y ≠ x → q.find? y = p.find? y
  contains : ∀ y, q.contains y = p.contains y
  values : ∀ y a, q.valueIn y a = if y = x ∧ a = n then some v else p.valueIn y a

/-- A change of one scope that gives a value to a name. -/
theorem Delivers.write (h : p.Delivers active t) (hx : p.find? x = some s)
    {f : Scope Value → Scope Value} (hf : ∀ s, (f s).kind = s.kind ∧ (f s).parent = s.parent)
    (hrunning : (f s).Running)
    (hvalue : (f s).cell.value = Function.update s.cell.value n (some v)) :
    (p.update x f).Delivers active t ∧ p.Wrote x n v (p.update x f) := by
  refine ⟨⟨h.each.update hx hrunning, ?_⟩, ⟨?_, ?_, ?_⟩⟩
  · rw [declarationTarget_update hf]
    exact h.target
  · exact fun y hy => find?_update_of_ne hy f
  · intro y
    rw [Pool.contains, Pool.contains, find?_update]
    split <;> simp
  · intro y a
    by_cases hy : y = x
    · subst hy
      rw [valueIn_of_find? (find?_update_self hx f), valueIn_of_find? hx, hvalue]
      simp [Function.update_apply]
    · rw [if_neg (fun h => hy h.1), valueIn, find?_update_of_ne hy, valueIn]

/-- Declaring a name gives it the value that it has, or none in particular. -/
theorem Delivers.run_declare (h : p.Delivers active t) (n : Name) : ∃ k q,
    (PoolM.declare active n).run p = (.ok k, q) ∧ q.Delivers active t ∧
      p.Wrote t n ((p.valueIn t n).getD .undefined) q := by
  obtain ⟨s, hs, -⟩ := find?_declarationTarget h.target
  have hrunning := h.each t s hs
  have hvalue : (s.declareHoisted p.limits.growthSlack n none).2.cell.value =
      Function.update s.cell.value n (some ((p.valueIn t n).getD .undefined)) := by
    rw [hrunning.cell_declareHoisted, valueIn_of_find? hs, Cell.declare]
    cases hn : s.cell.value n with
    | none => rfl
    | some w => exact (Function.update_eq_self_iff.mpr hn.symm).symm
  have hfilled : (s.declareHoisted p.limits.growthSlack n none).2.values.isSome = true := by
    rw [Scope.isSome_values_declareHoisted]
    exact hrunning.filled
  have hwrite := h.write (f := fun s => (s.declareHoisted p.limits.growthSlack n none).2) hs
    (fun _ => ⟨rfl, rfl⟩) ⟨hrunning.toTidy.declareHoisted _ n none, hfilled⟩ hvalue
  rw [update_congr hs (g := fun _ => (s.declareHoisted p.limits.growthSlack n none).2) rfl]
    at hwrite
  exact ⟨_, _, PoolM.run_declareHoisted n none h.target hs, hwrite⟩

/-- The scope in which sloppy code handed to `eval` puts a function: the one that is active if it
binds the name itself, else the one where declarations land. -/
def home (p : Pool Value) (active t : ScopeId) (n : Name) : ScopeId :=
  if p.binds active n then active else t

/-- Setting a value gives it to the name where the name is at home. -/
theorem Delivers.run_setValue (h : p.Delivers active t) (ha : p.contains active = true) (n : Name)
    (v : Value) : ∃ q, (PoolM.setValue active n v).run p = (.ok ⟨⟩, q) ∧ q.Delivers active t ∧
      p.Wrote (p.home active t n) n v q := by
  obtain ⟨s, hs⟩ := contains_iff.mp ha
  obtain ⟨vs, hvs⟩ := Option.isSome_iff_exists.mp (h.each active s hs).filled
  have htarget : (Change.setValue n v).target p active = .ok (p.home active t n) := by
    simp only [Change.target, valuesOf_of_find? hs hvs, bind, Except.bind, home, binds, hs,
      Option.any_some, h.target]
    split <;> rfl
  have hguarded : p.Each Scope.Guarded :=
    h.each.imp fun _ hs => hs.toGuarded
  have hrun := Change.runs_setValue hguarded active n v
  rw [Change.run] at hrun
  generalize (PoolM.setValue active n v).run p = r at hrun ⊢
  cases hrun with
  | refused he => cases he.symm.trans htarget
  | @landed u w hu hw =>
    cases hu.symm.trans htarget
    have hrunning := h.each _ w hw
    -- The name has a slot once it is declared, and there is room for its value.
    have htidy := hrunning.toTidy.declareHoisted p.limits.growthSlack n none
    have hslot := hrunning.slot?_declareHoisted_self p.limits.growthSlack n
    have hfilled : (w.declareHoisted p.limits.growthSlack n none).2.values.isSome = true := by
      rw [Scope.isSome_values_declareHoisted]
      exact hrunning.filled
    obtain ⟨ws, hws⟩ := Option.isSome_iff_exists.mp hfilled
    have hvalue : ((Change.setValue n v).apply p.limits.growthSlack w).cell.value =
        Function.update w.cell.value n (some v) := by
      rw [Change.apply, htidy.cell_setSlot hws hslot, hrunning.cell_declareHoisted, Cell.declare]
      cases w.cell.value n with
      | none => exact Function.update_idem ..
      | some _ => rfl
    have hroom : ((Change.setValue n v).apply p.limits.growthSlack w).values.isSome = true := by
      simp only [Change.apply, Scope.setSlot, Option.isSome_map]
      exact hfilled
    refine ⟨_, Prod.ext ?_ rfl, h.write hw (fun _ => ⟨rfl, rfl⟩) ⟨?_, hroom⟩ hvalue⟩
    · rw [Change.verdict, hrunning.filled]
      rfl
    · exact htidy.setSlot hws hslot v

/-- After some writes declarations land where they did, names are at home where they were, and only
some scopes have changed. -/
structure Moves (p : Pool Value) (active t : ScopeId) (touched : ScopeId → Prop) (q : Pool Value) :
    Prop where
  delivers : q.Delivers active t
  contains : ∀ y, q.contains y = p.contains y
  home : ∀ a, q.home active t a = p.home active t a
  others : ∀ y, ¬ touched y → q.find? y = p.find? y

variable {T T' : ScopeId → Prop}

theorem Moves.refl (h : p.Delivers active t) : p.Moves active t T p :=
  ⟨h, fun _ => rfl, fun _ => rfl, fun _ _ => rfl⟩

theorem Moves.mono (h : p.Moves active t T q) (hT : ∀ y, T y → T' y) : p.Moves active t T' q :=
  ⟨h.delivers, h.contains, h.home, fun y hy => h.others y fun hty => hy (hT y hty)⟩

theorem Moves.trans (h : p.Moves active t T q) (h' : q.Moves active t T r) :
    p.Moves active t T r := by
  refine ⟨h'.delivers, fun y => ?_, fun a => ?_, fun y hy => ?_⟩
  · rw [h'.contains, h.contains]
  · rw [h'.home, h.home]
  · rw [h'.others y hy, h.others y hy]

theorem Wrote.binds (h : p.Wrote x n v q) (y : ScopeId) (a : Name) :
    q.binds y a = (p.binds y a || decide (y = x ∧ a = n)) := by
  rw [← isSome_valueIn, ← isSome_valueIn, h.values]
  split <;> simp [*]

/-- No write moves the home of a name: it binds a new name only where declarations land. -/
theorem Wrote.home_eq (h : p.Wrote x n v q) (hx : x = t ∨ x = active ∧ p.binds active n = true)
    (a : Name) : q.home active t a = p.home active t a := by
  rw [home, home, h.binds]
  by_cases hnew : active = x ∧ a = n
  · obtain ⟨rfl, rfl⟩ := hnew
    rcases hx with rfl | ⟨-, hbound⟩
    · rw [ite_self, ite_self]
    · rw [hbound, Bool.true_or]
  · rw [decide_eq_false hnew, Bool.or_false]

theorem Wrote.moves (h : p.Wrote x n v q) (hq : q.Delivers active t)
    (hx : x = t ∨ x = active ∧ p.binds active n = true) : p.Moves active t (· = x) q :=
  ⟨hq, h.contains, h.home_eq hx, h.others⟩

theorem home_cases (p : Pool Value) (active t : ScopeId) (n : Name) :
    p.home active t n = t ∨ p.home active t n = active ∧ p.binds active n = true := by
  rw [home]
  split
  · next h => exact .inr ⟨rfl, h⟩
  · exact .inl rfl

/-- Only names that the scope of a catch clause binds are at home elsewhere than where declarations
land. -/
theorem Delivers.catch_of_home_ne (h : p.Delivers active t) (hn : p.home active t n ≠ t) :
    ∃ s, p.find? active = some s ∧ s.kind = .catch ∧ (s.slot? n).isSome = true := by
  obtain ⟨hactive, hbinds⟩ := (home_cases p active t n).resolve_left hn
  rw [hactive] at hn
  cases hs : p.find? active with
  | none => simp [binds, hs] at hbinds
  | some s =>
    rw [binds, hs, Option.any_some] at hbinds
    refine ⟨s, rfl, ?_, hbinds⟩
    by_contra hkind
    have htarget := h.target
    rw [declarationTarget, reach, declarationTargetFrom_succ hs,
      if_pos (by simp [ScopeKind.extensible, hkind])] at htarget
    exact hn (Except.ok.inj htarget)

end Pool

/-- A machine with other scopes, which has made some more objects. -/
def Machine.remade (m : Machine) (q : Pool Value) (next : Nat) : Machine :=
  { m with heap := { m.heap with pool := q }, nextObject := next }

namespace Exec

variable {m : Machine} {e : Entry}

/-- Declared names keep the values that they have where declarations land. -/
theorem run_declareAll_delivers (h : m.heap.pool.Delivers active t) (ns : List Name) : ∃ q,
    (declareAll active ns).run m = (.ok ⟨⟩, m.remade q m.nextObject) ∧
    m.heap.pool.Moves active t (· = t) q ∧
    ∀ y a, q.valueIn y a = if y = t ∧ a ∈ ns then some ((m.heap.pool.valueIn y a).getD .undefined)
      else m.heap.pool.valueIn y a := by
  induction ns generalizing m with
  | nil => exact ⟨m.heap.pool, rfl, .refl h, fun y a => by simp⟩
  | cons n ns ih =>
    obtain ⟨k, q, hrun, hq, hwrote⟩ := h.run_declare n
    have hstep : (do let _ ← onScopes (.declare active n) : Exec Unit).run m =
        (.ok ⟨⟩, m.remade q m.nextObject) := run_bind_of_ok (run_onScopes_of_ok hrun)
    obtain ⟨r, hrest, hmoves, hvalues⟩ := ih (m := m.remade q m.nextObject) hq
    refine ⟨r, (run_bind_of_ok hstep).trans hrest, (hwrote.moves hq (.inl rfl)).trans hmoves, ?_⟩
    intro y a
    have hvalue := hwrote.values y a
    rw [hvalues, show (m.remade q m.nextObject).heap.pool = q from rfl, hvalue]
    by_cases hy : y = t
    · subst hy
      by_cases ha : a = n
      · subst ha
        simp
      · simp [ha]
    · simp [hy]

/-- Functions are given to their names as new closures, each where its name is at home. -/
theorem run_giveAll (h : m.heap.pool.Delivers active t) (ha : m.heap.pool.contains active = true)
    (hs : List Hoisted) : ∃ q next,
    (hs.forM fun h => do onScopes (.setValue active h.name (← closure h.code active))).run m =
      (.ok ⟨⟩, m.remade q next) ∧
    m.heap.pool.Moves active t (fun y => ∃ h ∈ hs, y = m.heap.pool.home active t h.name) q ∧
    ∀ y a,
      (∃ h ∈ hs, h.name = a ∧ m.heap.pool.home active t a = y ∧ ∃ object, m.nextObject ≤ object ∧
        q.valueIn y a = some (.function object h.code active)) ∨
      (a ∉ hs.map Hoisted.name ∨ m.heap.pool.home active t a ≠ y) ∧
        q.valueIn y a = m.heap.pool.valueIn y a := by
  induction hs generalizing m with
  | nil =>
    refine ⟨m.heap.pool, m.nextObject, rfl, .refl h, fun y a => .inr ⟨?_, rfl⟩⟩
    exact .inl List.not_mem_nil
  | cons h₀ hs ih =>
    let f : Value := .function m.nextObject h₀.code active
    obtain ⟨q, hrun, hq, hwrote⟩ := h.run_setValue ha h₀.name f
    have hstep : (do onScopes (.setValue active h₀.name (← closure h₀.code active)) :
        Exec Unit).run m = (.ok ⟨⟩, m.remade q (m.nextObject + 1)) :=
      run_onScopes_of_ok (m := { m with nextObject := m.nextObject + 1 }) hrun
    have hmoves := hwrote.moves hq (Pool.home_cases _ _ _ _)
    obtain ⟨r, next, hrest, hmoves', hvalues⟩ := ih (m := m.remade q (m.nextObject + 1)) hq
      ((hmoves.contains active).trans ha)
    change q.Moves active t (fun y => ∃ h ∈ hs, y = q.home active t h.name) r at hmoves'
    refine ⟨r, next, (run_bind_of_ok hstep).trans hrest, ?_, fun y a => ?_⟩
    · refine (hmoves.mono ?_).trans (hmoves'.mono ?_)
      · rintro y rfl
        exact ⟨h₀, List.mem_cons_self, rfl⟩
      · rintro y ⟨h, hm, rfl⟩
        exact ⟨h, List.mem_cons_of_mem _ hm, hmoves.home h.name⟩
    · have hvalue := hvalues y a
      rw [show (m.remade q (m.nextObject + 1)).heap.pool = q from rfl, hmoves.home] at hvalue
      rcases hvalue with ⟨h, hm, hn, hy, object, hle, hv⟩ | ⟨hno, hv⟩
      · exact .inl ⟨h, List.mem_cons_of_mem _ hm, hn, hy, object, Nat.le_of_succ_le hle, hv⟩
      · rw [hwrote.values] at hv
        by_cases hhere : y = m.heap.pool.home active t h₀.name ∧ a = h₀.name
        · obtain ⟨rfl, rfl⟩ := hhere
          rw [if_pos ⟨rfl, rfl⟩] at hv
          exact .inl ⟨h₀, List.mem_cons_self, rfl, rfl, m.nextObject, Nat.le_refl _, hv⟩
        · rw [if_neg hhere] at hv
          refine .inr ⟨?_, hv⟩
          rw [List.map_cons, List.mem_cons]
          by_cases hname : a = h₀.name
          · subst hname
            exact .inr fun hy => hhere ⟨hy.symm, rfl⟩
          · exact hno.imp_left fun hno h => h.elim hname hno

end Exec

/-- What a scope `x` binds to a name once the names and functions that a program declares are there,
from what it bound before. Code runs in the active scope, declarations land in `t`, and objects are
new from some number on. -/
inductive Instantiated (b : Binding) (ds : List (Name × Option FunctionDef)) (p : Pool Value)
    (active t : ScopeId) (next : Nat) (x : ScopeId) (n : Name) (before : Option Value) :
    Option Value → Prop
  /-- A new closure of the function that is declared last under the name, if the name is at home in
  the scope. -/
  | function {g : FunctionDef} {code : FunctionCode} (object : Nat)
    (declared : lastFunction n ds = some g) (home : p.home active t n = x) (isOf : code.IsOf b g)
    (isNew : next ≤ object) :
    Instantiated b ds p active t next x n before (some (.function object code active))
  /-- Any other declared name keeps its value where declarations land, if it has one. -/
  | variable (declared : n ∈ ds.map Prod.fst) (target : x = t)
    (function : lastFunction n ds = none ∨ p.home active t n ≠ x) :
    Instantiated b ds p active t next x n before (some (before.getD .undefined))
  | other (declared : n ∉ ds.map Prod.fst ∨ x ≠ t)
    (function : lastFunction n ds = none ∨ p.home active t n ≠ x) :
    Instantiated b ds p active t next x n before before

/-- What a program handed to `eval` answers when its body ends so. -/
def Flow.completion : Flow → Value
  | .return v => v
  | .normal v => v.getD .undefined

/-- A call of `eval` on a text in sloppy code comes to the first statement of the program in some
state: one in which what the program declares has been done to the scopes, and which is the same
otherwise but for the names known and the objects made. The call ends as the body does from there
on. -/
structure Exec.StartsEval (c : Compiled) (ds : List (Name × Option FunctionDef)) (m : Machine)
    (text : String) (args : List Value) (t : ScopeId) (start : Machine) : Prop where
  values : ∀ x n, m.heap.pool.contains x = true → ∃ before after,
    m.heap.pool.value? x n = .ok before ∧ start.heap.pool.value? x n = .ok after ∧
    Instantiated c.binding ds m.heap.pool m.active t m.nextObject x n before after
  /-- No other scopes have changed than the one where declarations land, and the active one if it
  binds the name of a function. -/
  others : ∀ x, x ≠ t →
    (x = m.active → ∀ n, (lastFunction n ds).isSome = true → m.heap.pool.binds x n = false) →
    start.heap.pool.find? x = m.heap.pool.find? x
  /-- A name is at home elsewhere than where declarations land only if a catch clause is active that
  binds it. -/
  homes : ∀ n, m.heap.pool.home m.active t n ≠ t →
    ∃ s, m.heap.pool.find? m.active = some s ∧ s.kind = .catch ∧ (s.slot? n).isSome = true
  context : start = { m.remade start.heap.pool start.nextObject with names := start.names }
  ends : ∀ (access : Access) (fuel : Nat),
    let ended := (execAll access fuel none c.code.body).run start
    (directEval access (fuel + 1) (.string text :: args)).run m =
      (ended.1.map Flow.completion, ended.2)

namespace Exec

variable {m : Machine} {e : Entry} {b : Binding} {ds : List (Name × Option FunctionDef)}

theorem contains_active (h : p.declarationTarget active = .ok t) : p.contains active = true := by
  rw [Pool.contains_iff]
  cases hs : p.find? active with
  | some s => exact ⟨s, rfl⟩
  | none =>
    simp [Pool.declarationTarget, Pool.reach, Pool.declarationTargetFrom, Pool.get, hs, bind,
      Except.bind] at h

/-- The names of an entry are declared and its functions given to theirs. -/
theorem run_instantiate (h : m.heap.pool.Delivers m.active t) (he : e.Instantiates b [] ds)
    (hmode : e.mode = .eval) : ∃ q next,
    (do declareAll m.active e.names; hoist e m.active).run m = (.ok ⟨⟩, m.remade q next) ∧
    m.heap.pool.Moves m.active t
      (fun x => x = t ∨ ∃ h ∈ e.hoisted, x = m.heap.pool.home m.active t h.name) q ∧
    ∀ x n, Instantiated b ds m.heap.pool m.active t m.nextObject x n (m.heap.pool.valueIn x n)
      (q.valueIn x n) := by
  obtain ⟨q, hdeclare, hq, hdeclared⟩ := run_declareAll_delivers h e.names
  obtain ⟨r, next, hgive, hr, hgiven⟩ := run_giveAll (m := m.remade q m.nextObject) hq.delivers
    ((hq.contains _).trans (contains_active h.target)) e.hoisted
  change q.Moves m.active t (fun x => ∃ h ∈ e.hoisted, x = q.home m.active t h.name) r at hr
  have hhoist : (hoist e m.active).run (m.remade q m.nextObject) = (.ok ⟨⟩, m.remade r next) := by
    have hglobal : e.mode ≠ .global := by simp [hmode]
    rw [hoist, if_neg hglobal, hmode]
    exact run_bind_of_ok hgive
  refine ⟨r, next, (run_bind_of_ok hdeclare).trans hhoist, (hq.mono ?_).trans (hr.mono ?_), ?_⟩
  · exact fun x hx => .inl hx
  · rintro x ⟨h, hm, rfl⟩
    exact .inr ⟨h, hm, hq.home h.name⟩
  · intro x n
    have hnames : n ∈ e.names ↔ n ∈ ds.map Prod.fst := by
      rw [he.mem_names]
      exact or_iff_right List.not_mem_nil
    have hvalue := hgiven x n
    rw [show (m.remade q m.nextObject).heap.pool = q from rfl, hq.home] at hvalue
    rcases hvalue with ⟨h, hm, rfl, hx, object, hle, hv⟩ | ⟨hno, hv⟩
    · obtain ⟨g, hg, hcode⟩ := he.hoisted h hm
      rw [hv]
      exact .function object hg hx hcode hle
    · have hfunction : lastFunction n ds = none ∨ m.heap.pool.home m.active t n ≠ x := by
        refine hno.imp_left fun hnot => ?_
        by_contra hsome
        obtain ⟨g, hg⟩ := Option.ne_none_iff_exists'.mp hsome
        obtain ⟨h, hm, hname⟩ := he.complete n g hg
        exact hnot (List.mem_map.mpr ⟨h, hm, hname⟩)
      rw [hv, hdeclared]
      simp only [hnames]
      by_cases hhere : x = t ∧ n ∈ ds.map Prod.fst
      · rw [if_pos hhere]
        exact .variable hhere.2 hhere.1 hfunction
      · rw [if_neg hhere]
        exact .other (by tauto) hfunction

/-- Where the name `eval` is not bound, a text handed to it that is a program is run. -/
theorem run_directEval_text {access : Access} {fuel : Nat} {text : String} {args : List Value}
    {c : Compiled} (heval : m.heap.pool.lookup m.active .eval = .ok none)
    (hc : (Compilation.evalCode m.options text m.strict m.names).1 = .ok c)
    (hsloppy : c.code.strict = false) {start : Machine}
    (hstart : (do declareAll m.active c.code.entry.names; hoist c.code.entry m.active).run
      { m with names := (Compilation.evalCode m.options text m.strict m.names).2 } =
        (.ok ⟨⟩, start)) :
    let ended := (execAll access fuel none c.code.body).run start
    (directEval access (fuel + 1) (.string text :: args)).run m =
      (ended.1.map Flow.completion, ended.2) := by
  have hfound : (ask (·.lookup m.active .eval)).run m = (.ok none, m) := run_ask_of_ok heval
  have hcompile : (compileEval text).run m = (.ok c, { m with
      names := (Compilation.evalCode m.options text m.strict m.names).2 }) := by
    rw [run_compileEval]
    generalize Compilation.evalCode m.options text m.strict m.names = a at hc ⊢
    obtain ⟨_, _⟩ := a
    cases hc
    rfl
  have hevaluate : (evaluate c.code (execAll access fuel none c.code.body)).run
      { m with names := (Compilation.evalCode m.options text m.strict m.names).2 } =
        (execAll access fuel none c.code.body).run start := by
    rw [evaluate, hsloppy, if_neg Bool.false_ne_true, run_bind_of_ok (run_get _), ← bind_assoc]
    exact run_bind_of_ok hstart
  rw [directEval, run_bind_of_ok (run_get m), run_bind_of_ok hfound]
  dsimp only
  rw [run_bind_of_ok hcompile, run_bind, hevaluate]
  generalize (execAll access fuel none c.code.body).run start = r
  rcases r with ⟨_ | (_ | v), m'⟩ <;> rfl

/-- When the body of a sloppy program handed to `eval` starts, each name that the program declares
is bound where declarations made in the active scope land: one of a function to a new closure of it,
any other one to the value that it had. No other scope has changed, unless a catch clause is active
that binds the name of a function itself. The function is put there then, in place of what was
caught. -/
theorem sloppy_eval_starts_with_declarations {text : String} {c : Compiled} (args : List Value)
    (hm : m.heap.pool.Each Scope.Running)
    (ht : m.heap.pool.declarationTarget m.active = .ok t)
    (heval : m.heap.pool.lookup m.active .eval = .ok none)
    (hc : (Compilation.evalCode m.options text m.strict m.names).1 = .ok c)
    (hsloppy : c.code.strict = false) :
    let program := (Parser.parse Compilation.evalFile text (m.strict || m.options.isStrict)
      m.names).program
    ∃ start, StartsEval c (Stmt.allDeclarations program.body) m text args t start := by
  intro program
  have hmode : c.code.entry.mode = .eval := (Compilation.fitsProgram_ofText hc).mode_eq
  have hmade := (Compilation.sourced_ofText hc).instantiates
  have hdelivers : m.heap.pool.Delivers m.active t := ⟨hm, ht⟩
  let named : Machine :=
    { m with names := (Compilation.evalCode m.options text m.strict m.names).2 }
  obtain ⟨q, next, hrun, hq, hvalues⟩ := run_instantiate (m := named) hdelivers hmade hmode
  refine ⟨named.remade q next, ?_, ?_, fun n => hdelivers.catch_of_home_ne, rfl,
    fun access fuel => run_directEval_text heval hc hsloppy hrun⟩
  · intro x n hx
    exact ⟨_, _, Pool.value?_eq_valueIn hm hx n,
      Pool.value?_eq_valueIn hq.delivers.each ((hq.contains x).trans hx) n, hvalues x n⟩
  · intro x hx hbound
    refine hq.others x ?_
    rintro (rfl | ⟨h, hmem, rfl⟩)
    · exact hx rfl
    · obtain ⟨g, hg, -⟩ := hmade.hoisted h hmem
      obtain ⟨hactive, hbinds⟩ := (Pool.home_cases _ _ _ _).resolve_left hx
      have hfree := hbound hactive h.name (Option.isSome_iff_exists.mpr ⟨g, hg⟩)
      rw [show named.heap.pool.home named.active t h.name = m.active from hactive] at hfree
      cases hfree.symm.trans hbinds

/-- A catch clause is active that binds the name of a function of the program. -/
theorem eval_starts_in_catch_clause :
    let text := "function f() { } var x;"
    let scopes : List Maker := [.globalInstance, .catchInstance (some ⟨0, 0⟩) [⟨4⟩]]
    let m : Machine := {
      names := .wellKnown, options := .unset
      heap := ⟨scopes.foldl (fun p k => (p.insert k.scope).2) (.empty .standard), 0, 0⟩
      global := ⟨0, 0⟩, active := ⟨1, 0⟩, strict := false, saved := [], completion := .undefined
      callDepth := 0, nextObject := 0 }
    ∃ c start, (Compilation.evalCode m.options text m.strict m.names).1 = .ok c ∧
      c.code.strict = false ∧
      StartsEval c (Stmt.allDeclarations
        (Parser.parse Compilation.evalFile text false .wellKnown).program.body) m text [] ⟨0, 0⟩
        start := by
  intro text scopes m
  let r := Parser.parse Compilation.evalFile text false .wellKnown
  have herrors : r.diagnostics.firstError?.isNone = true := by decide +kernel
  have hbinds : (Binding.ofProgram r.program true Options.unset.limits r.names).toOption.isSome =
      true := by decide +kernel
  have hsloppy : r.program.strict = false := by decide +kernel
  obtain ⟨c, hc, hstrict⟩ :=
    Compilation.exists_ofText (o := .unset) (Option.isNone_iff_eq_none.mp herrors) hbinds
  have hrunning : m.heap.pool.Each Scope.Running :=
    ((Pool.each_empty .standard).insert ⟨Maker.globalInstance.tidy_scope nofun, rfl⟩).insert
      ⟨(Maker.catchInstance (some ⟨0, 0⟩) [⟨4⟩]).tidy_scope fun _ => rfl, rfl⟩
  have htarget : m.heap.pool.declarationTarget m.active = .ok ⟨0, 0⟩ := by
    with_unfolding_all rfl
  have heval : m.heap.pool.lookup m.active .eval = .ok none := by with_unfolding_all rfl
  obtain ⟨start, hstart⟩ := sloppy_eval_starts_with_declarations [] hrunning htarget heval hc
    (hstrict.trans hsloppy)
  exact ⟨c, start, hc, hstrict.trans hsloppy, hstart⟩

/-- A function takes the place of the exception that a catch clause of the same name holds, and is
not bound where it was declared. -/
theorem eval_function_replaces_exception :
    let answering : FunctionCode :=
      ⟨none, [], none, none, none, ⟨[.this, .arguments], [], .template⟩, [], false, ⟨0, 0⟩⟩
    let code : FunctionCode :=
      ⟨none, [], none, none, none, ⟨[⟨4⟩], [⟨⟨4⟩, 0, answering⟩], .eval⟩, [], false, ⟨0, 0⟩⟩
    let pool : Pool Value := (Pool.empty .standard).edited [.make .globalInstance,
      .make (.catchInstance (some ⟨0, 0⟩) [⟨4⟩]), .change ⟨1, 0⟩ (.setValue ⟨4⟩ (.bool true))]
    let m : Machine := {
      names := .wellKnown, options := .unset, heap := ⟨pool, 0, 0⟩, global := ⟨0, 0⟩
      active := ⟨1, 0⟩, strict := false, saved := [], completion := .undefined, callDepth := 0
      nextObject := 0 }
    let start := ((evaluate code (return .normal none)).run m).2
    let typeIn (m : Machine) (id : ScopeId) : Option (Option String) :=
      (m.heap.pool.value? id ⟨4⟩).toOption.map (Option.map Value.typeName)
    (m.heap.pool.declarationTarget m.active).toOption = some ⟨0, 0⟩ ∧
      typeIn m ⟨1, 0⟩ = some (some "boolean") ∧ typeIn start ⟨1, 0⟩ = some (some "function") ∧
      typeIn start ⟨0, 0⟩ = some (some "undefined") := by
  decide +kernel

end Exec

end ScopeChain
