import ScopeChain.Proofs.Refinement

/-! What an operation can do to the maps, and so what it leaves alone and when it fails. -/
namespace ScopeChain

variable {V : Type} [Inhabited V] {α β : Type} {σ τ : Store V} {limit : Nat}
  {id fresh x : ScopeId} {c : Cell V} {n : Name} {op : Op V}

/-- The scope that an operation may change. What is declared in a scope, and what is set under a name
absent from it, goes to the nearest scope that keeps declarations. -/
def Op.acts (limit : Nat) (fresh : ScopeId) (σ : Store V) : Op V → ScopeId
  | .make _ => fresh
  | .declare id _ _ => (σ.target limit id).toOption.getD id
  | .setValue id n _ =>
    if ((σ id).bind fun c => c.value n).isSome then id else (σ.target limit id).toOption.getD id
  | .markDirectEval id | .materialize id | .freeze id | .value id _ | .hasValue id _ | .delete id _
  | .load id _ | .store id _ _ | .lookup id _ | .remove id => id

/-- The scope that an operation on a name starts from. -/
def Op.subject : Op V → Option ScopeId
  | .declare id _ _ | .value id _ | .hasValue id _ | .setValue id _ _ | .delete id _ | .load id _
  | .store id _ _ | .lookup id _ => some id
  | .make _ | .markDirectEval _ | .materialize _ | .freeze _ | .remove _ => none

/-- A change after which a scope still has room for values and the same names bound for good. -/
structure Cell.Gentle (f : Cell V → Cell V) : Prop where
  isSealed : ∀ c, (f c).isSealed = c.isSealed
  filled : ∀ c, c.filled = true → (f c).filled = true

namespace Cell

omit [Inhabited V]

theorem gentle_id : Gentle fun c : Cell V => c := ⟨fun _ => rfl, fun _ h => h⟩

theorem gentle_put (n : Name) (v : V) : Gentle (·.put n v) := ⟨fun _ => rfl, fun _ h => h⟩

theorem gentle_unbind (n : Name) : Gentle (V := V) (·.unbind n) := ⟨fun _ => rfl, fun _ h => h⟩

theorem gentle_fill : Gentle (V := V) (·.fill) := ⟨fun _ => rfl, fun _ _ => rfl⟩

theorem gentle_declare [Inhabited V] (n : Name) : Gentle (V := V) (·.declare n) := by
  constructor
  · intro c
    unfold declare
    cases c.value n <;> rfl
  · intro c h
    unfold declare
    cases c.value n <;> exact h

theorem Gentle.comp {f g : Cell V → Cell V} (hg : Gentle g) (hf : Gentle f) :
    Gentle fun c => g (f c) :=
  ⟨fun c => (hg.isSealed (f c)).trans (hf.isSealed c), fun c h => hg.filled _ (hf.filled c h)⟩

end Cell

/-- What can come of an operation: nothing, a gentle change of one scope, a new scope, a scope whose
names are now bound for good, or a scope gone. -/
inductive Effect (limit : Nat) (fresh : ScopeId) (σ : Store V) (op : Op V) : Store V → Prop where
  | none : Effect limit fresh σ op σ
  | changed {f : Cell V → Cell V} : Cell.Gentle f →
    Effect limit fresh σ op (σ.change (op.acts limit fresh σ) f)
  | made (m : Maker) : op = .make m →
    Effect limit fresh σ op (Function.update σ fresh (some m.cell))
  | frozen (id : ScopeId) : op = .freeze id → Effect limit fresh σ op (σ.change id .freeze)
  | removed (id : ScopeId) : op = .remove id →
    Effect limit fresh σ op (Function.update σ id Option.none)

theorem Effect.changed_at (hacts : op.acts limit fresh σ = id) {f : Cell V → Cell V}
    (hf : Cell.Gentle f) : Effect limit fresh σ op (σ.change id f) := hacts ▸ .changed hf

section Steps

omit [Inhabited V]

theorem StoreM.run_query_bind (f : Store V → Except ScopeError α) (g : α → StoreM V β)
    (σ : Store V) : (StoreM.query f >>= g).run σ = match f σ with
      | .ok a => (g a).run σ
      | .error e => (.error e, σ) := by
  rw [run_bind, StoreM.run_query]
  cases f σ <;> rfl

theorem Store.opened_eq_ok (h : σ.opened id = .ok c) : σ id = some c ∧ c.filled = true := by
  unfold opened get at h
  cases hc : σ id with
  | none =>
    rw [hc] at h
    cases h
  | some d =>
    simp only [hc, bind, Except.bind] at h
    by_cases hd : d.filled = true
    · rw [if_pos hd] at h
      cases h
      exact ⟨rfl, hd⟩
    · rw [if_neg hd] at h
      cases h

theorem Store.change_change (σ : Store V) (id : ScopeId) (f g : Cell V → Cell V) :
    (σ.change id f).change id g = σ.change id fun c => g (f c) := by
  unfold change
  rw [Function.update_self, Function.update_idem, Option.map_map]
  rfl

theorem Store.change_of_ne (hx : x ≠ id) (f : Cell V → Cell V) : σ.change id f x = σ x :=
  Function.update_of_ne hx _ σ

theorem Store.change_self (h : σ id = some c) (f : Cell V → Cell V) :
    σ.change id f id = some (f c) := by
  rw [change, Function.update_self, h]
  rfl

end Steps


/-- The effect of asking first: none if the question fails. -/
theorem effect_query {f : Store V → Except ScopeError α} {g : α → StoreM V β}
    (hrest : ∀ a, f σ = .ok a → Effect limit fresh σ op ((g a).run σ).2) :
    Effect limit fresh σ op ((StoreM.query f >>= g).run σ).2 := by
  rw [StoreM.run_query_bind]
  cases hf : f σ with
  | error e => exact .none
  | ok a => exact hrest a hf

theorem effect_alter {a : α} {f : Cell V → Cell V}
    (h : Effect limit fresh σ op (σ.change id f)) :
    Effect limit fresh σ op ((StoreM.alter id f >>= fun _ => pure a).run σ).2 := by
  rw [StoreM.alter, bind_assoc]
  exact effect_query fun _ _ => h

theorem effect_assign {a : α} {v : V}
    (h : Effect limit fresh σ op (σ.change id (·.put n v))) :
    Effect limit fresh σ op ((StoreM.assign id n v >>= fun _ => pure a).run σ).2 := by
  rw [StoreM.assign, bind_assoc]
  exact effect_query fun _ _ => h

theorem effect_step (limit : Nat) (fresh : ScopeId) (σ : Store V) (op : Op V) :
    Effect limit fresh σ op ((StoreM.step limit fresh op).run σ).2 := by
  cases op with
  | make m =>
    rw [StoreM.step, StoreM.make, bind_assoc]
    apply effect_query
    intro _ _
    exact .made m rfl
  | markDirectEval id => exact effect_alter (.changed Cell.gentle_id)
  | declare id n o =>
    rw [StoreM.step, StoreM.declare, bind_assoc]
    apply effect_query
    intro t ht
    have hacts : (Op.declare id n o).acts limit fresh σ = t := by simp [Op.acts, ht, Except.toOption]
    exact .changed_at hacts (Cell.gentle_declare n)
  | materialize id => exact effect_alter (.changed Cell.gentle_fill)
  | freeze id => exact effect_alter (.frozen id rfl)
  | value id n => exact effect_query fun _ _ => .none
  | hasValue id n => exact effect_query fun _ _ => .none
  | setValue id n v =>
    rw [StoreM.step, StoreM.setValue, bind_assoc]
    apply effect_query
    intro c hc
    have hid := (Store.opened_eq_ok hc).1
    cases hn : c.value n with
    | some _ =>
      have hacts : (Op.setValue id n v).acts limit fresh σ = id := by simp [Op.acts, hid, hn]
      exact effect_assign (.changed_at hacts (Cell.gentle_put n v))
    | none =>
      change Effect _ _ _ _ (((StoreM.declare limit id n >>= fun t =>
        StoreM.assign t n v) >>= fun _ => pure Answer.done).run σ).2
      rw [bind_assoc, StoreM.declare, bind_assoc]
      apply effect_query
      intro t ht
      have hacts : (Op.setValue id n v).acts limit fresh σ = t := by
        simp [Op.acts, hid, hn, ht, Except.toOption]
      change Effect _ _ _ _ ((StoreM.assign t n v >>= fun _ => pure Answer.done).run
        (σ.change t (·.declare n))).2
      -- What is declared stays even if there is no room for the value.
      rw [StoreM.assign, bind_assoc, StoreM.run_query_bind]
      cases (σ.change t (·.declare n)).opened t with
      | error e => exact .changed_at hacts (Cell.gentle_declare n)
      | ok _ =>
        change Effect _ _ _ _ ((σ.change t (·.declare n)).change t (·.put n v))
        rw [Store.change_change]
        exact .changed_at hacts ((Cell.gentle_put n v).comp (Cell.gentle_declare n))
  | delete id n =>
    rw [StoreM.step, StoreM.delete, bind_assoc]
    apply effect_query
    intro c _
    cases c.isSealed n with
    | true => exact .none
    | false => exact .changed (Cell.gentle_unbind n)
  | load id n =>
    apply effect_query
    intro c _
    cases (c.value n).isSome with
    | true => exact effect_query fun _ _ => .none
    | false => exact .none
  | store id n v =>
    rw [StoreM.step]
    apply effect_query
    intro c _
    cases (c.value n).isSome with
    | true => exact effect_assign (.changed (Cell.gentle_put n v))
    | false => exact .none
  | lookup id n => exact effect_query fun _ _ => .none
  | remove id => exact .removed id rfl

/-- An operation leaves all maps but one as they are. -/
theorem step_of_ne (hx : x ≠ op.acts limit fresh σ) :
    ((StoreM.step limit fresh op).run σ).2 x = σ x := by
  have heffect := effect_step limit fresh σ op
  generalize ((StoreM.step limit fresh op).run σ).2 = τ at heffect
  cases heffect with
  | none => rfl
  | changed _ => exact Store.change_of_ne hx _
  | made m hop =>
    subst hop
    exact Function.update_of_ne hx _ σ
  | frozen id hop =>
    subst hop
    exact Store.change_of_ne hx _
  | removed id hop =>
    subst hop
    exact Function.update_of_ne hx _ σ

/-- A name is not bound for good in a scope that has room for values. -/
def Store.Deletable (σ : Store V) (id : ScopeId) (n : Name) : Prop :=
  ∃ c, σ id = some c ∧ c.filled = true ∧ c.isSealed n = false

/-- A name stays deletable until its scope is frozen or goes. -/
theorem deletable_step (h : σ.Deletable id n) (hfresh : σ fresh = none) (hfreeze : op ≠ .freeze id)
    (hremove : op ≠ .remove id) : ((StoreM.step limit fresh op).run σ).2.Deletable id n := by
  obtain ⟨c, hc, hfilled, hsealed⟩ := h
  have heffect := effect_step limit fresh σ op
  generalize ((StoreM.step limit fresh op).run σ).2 = τ at heffect
  cases heffect with
  | none => exact ⟨c, hc, hfilled, hsealed⟩
  | @changed f hf =>
    by_cases hid : id = op.acts limit fresh σ
    · rw [← hid]
      refine ⟨f c, Store.change_self hc f, hf.filled c hfilled, ?_⟩
      rw [hf.isSealed, hsealed]
    · exact ⟨c, (Store.change_of_ne hid f).trans hc, hfilled, hsealed⟩
  | made m hop =>
    have hid : id ≠ fresh := by
      rintro rfl
      rw [hc] at hfresh
      cases hfresh
    exact ⟨c, (Function.update_of_ne hid _ σ).trans hc, hfilled, hsealed⟩
  | frozen x hop =>
    have hid : id ≠ x := fun h => hfreeze (h ▸ hop)
    exact ⟨c, (Store.change_of_ne hid _).trans hc, hfilled, hsealed⟩
  | removed x hop =>
    have hid : id ≠ x := fun h => hremove (h ▸ hop)
    exact ⟨c, (Function.update_of_ne hid _ σ).trans hc, hfilled, hsealed⟩

theorem deletable_runs {ops : List (Op V)} {rs : List (Except ScopeError (Answer V))}
    (hrun : Runs limit σ ops rs τ) (h : σ.Deletable id n) (hfreeze : .freeze id ∉ ops)
    (hremove : .remove id ∉ ops) : τ.Deletable id n := by
  induction hrun with
  | nil => exact h
  | @cons σ τ υ fresh op ops r rs hfresh hstep _ ih =>
    rw [List.mem_cons, not_or] at hfreeze hremove
    have hnext : ((StoreM.step limit fresh op).run σ).2.Deletable id n :=
      deletable_step h hfresh (Ne.symm hfreeze.1) (Ne.symm hremove.1)
    rw [hstep] at hnext
    exact ih hnext hfreeze.2 hremove.2

/-- So many scopes from a scope to the outermost one, all there and with room for values. -/
inductive Store.Roomy (σ : Store V) : (depth : Nat) → ScopeId → Prop where
  | outermost {id : ScopeId} {c : Cell V} : σ id = some c → c.filled = true → c.parent = none →
    Roomy σ 1 id
  | within {id parent : ScopeId} {c : Cell V} {depth : Nat} : σ id = some c → c.filled = true →
    c.parent = some parent → Roomy σ depth parent → Roomy σ (depth + 1) id

/-- Scopes that pass on what is declared have a parent to pass it to. -/
def Store.Rooted (σ : Store V) : Prop :=
  ∀ id c, σ id = some c → c.forwards = true → c.parent.isSome = true

theorem Pool.Tidy.rooted {p : Pool V} (h : p.Tidy) : p.store.Rooted := by
  intro id c hc hforwards
  obtain ⟨s, hs, rfl⟩ := Option.map_eq_some_iff.mp hc
  apply (h id s hs).parent
  simpa [Scope.cell, ScopeKind.extensible] using hforwards

section Failures

variable {depth : Nat} {R : ScopeError → Prop} {f : Store V → Except ScopeError α}
  {g : α → StoreM V β}

/-- Work on the maps fails with such errors only. -/
def FailsAs (R : ScopeError → Prop) (σ : Store V) (g : StoreM V α) : Prop :=
  ∀ e, (g.run σ).1 = .error e → R e

omit [Inhabited V]

theorem failsAs_pure (a : α) : FailsAs R σ (pure a) := by
  rintro e ⟨⟩

/-- Asking a question that has an answer. -/
theorem failsAs_query {a : α} (hf : f σ = .ok a) (hrest : FailsAs R σ (g a)) :
    FailsAs R σ (StoreM.query f >>= g) := by
  intro e he
  rw [StoreM.run_query_bind, hf] at he
  exact hrest e he

theorem failsAs_query_error {e : ScopeError} (hf : f σ = .error e) (he : R e) :
    FailsAs R σ (StoreM.query f >>= g) := by
  intro e' he'
  rw [StoreM.run_query_bind, hf] at he'
  cases he'
  exact he

theorem failsAs_modify {f : Store V → Store V} {g : StoreM V α} (h : FailsAs R (f σ) g) :
    FailsAs R σ (modify f >>= fun _ => g) := by
  intro e he
  rw [run_bind_of_ok (run_modify f σ)] at he
  exact h e he

theorem failsAs_assign {a : α} {v : V} (h : σ.opened id = .ok c) :
    FailsAs R σ (StoreM.assign id n v >>= fun _ => pure a) := by
  rw [StoreM.assign, bind_assoc]
  exact failsAs_query (f := (·.opened id)) h (failsAs_pure _)

theorem Store.Roomy.exists_cell (h : σ.Roomy depth id) : ∃ c, σ id = some c ∧ c.filled = true := by
  cases h with
  | outermost hc hfilled _ => exact ⟨_, hc, hfilled⟩
  | within hc hfilled _ _ => exact ⟨_, hc, hfilled⟩

theorem Store.get_of_some (h : σ id = some c) : σ.get id = .ok c := by
  rw [get, h]

theorem Store.opened_of_some (h : σ id = some c) (hc : c.filled = true) : σ.opened id = .ok c := by
  rw [opened, get_of_some h]
  simp only [bind, Except.bind, hc, if_true]
  rfl

/-- The way to where a declaration goes fails only by being too long. -/
theorem Store.Roomy.targetFrom (hσ : σ.Rooted) (h : σ.Roomy depth id) (limit reach : Nat) :
    (∃ t c, σ.targetFrom limit reach id = .ok t ∧ σ t = some c ∧ c.filled = true) ∨
    σ.targetFrom limit reach id = .error (.depthExceeded limit) ∧ reach < depth := by
  induction h generalizing reach with
  | @outermost id c hc hfilled hparent =>
    cases reach with
    | zero => exact .inr ⟨rfl, Nat.one_pos⟩
    | succ reach =>
      have hforwards : ¬ c.forwards = true := by
        intro h
        have hsome := hσ id c hc h
        rw [hparent] at hsome
        cases hsome
      rw [Pool.targetFrom_succ (get_of_some hc), if_neg hforwards]
      exact .inl ⟨id, c, rfl, hc, hfilled⟩
  | @within id parent c depth hc hfilled hparent _ ih =>
    cases reach with
    | zero => exact .inr ⟨rfl, Nat.succ_pos depth⟩
    | succ reach =>
      rw [Pool.targetFrom_succ (get_of_some hc)]
      by_cases hforwards : c.forwards = true
      · rw [if_pos hforwards, hparent]
        rcases ih reach with hfound | ⟨herror, hlt⟩
        · exact .inl hfound
        · exact .inr ⟨herror, Nat.succ_lt_succ hlt⟩
      · rw [if_neg hforwards]
        exact .inl ⟨id, c, rfl, hc, hfilled⟩

/-- So does the way to where a name is bound. -/
theorem Store.Roomy.lookupFrom (h : σ.Roomy depth id) (limit reach : Nat) (n : Name) :
    (∃ found, σ.lookupFrom limit n reach (some id) = .ok found) ∨
    σ.lookupFrom limit n reach (some id) = .error (.depthExceeded limit) ∧ reach < depth := by
  induction h generalizing reach with
  | @outermost id c hc hfilled hparent =>
    cases reach with
    | zero => exact .inr ⟨rfl, Nat.one_pos⟩
    | succ reach =>
      simp only [Store.lookupFrom, get_of_some hc, bind, Except.bind, hparent]
      by_cases hn : (c.value n).isSome = true
      · rw [if_pos hn]
        exact .inl ⟨_, rfl⟩
      · rw [if_neg hn]
        exact .inl ⟨_, by cases reach <;> rfl⟩
  | @within id parent c depth hc hfilled hparent _ ih =>
    cases reach with
    | zero => exact .inr ⟨rfl, Nat.succ_pos depth⟩
    | succ reach =>
      simp only [Store.lookupFrom, get_of_some hc, bind, Except.bind, hparent]
      by_cases hn : (c.value n).isSome = true
      · rw [if_pos hn]
        exact .inl ⟨_, rfl⟩
      · rw [if_neg hn]
        rcases ih reach with hfound | ⟨herror, hlt⟩
        · exact .inl hfound
        · exact .inr ⟨herror, Nat.succ_lt_succ hlt⟩

end Failures

/-- An operation on a name fails only if there are more scopes in a row than may be visited. -/
theorem failsAs_step (hσ : σ.Rooted) {depth : Nat} (hsubject : op.subject = some id)
    (h : σ.Roomy depth id) :
    FailsAs (fun e => e = .depthExceeded limit ∧ limit + 1 < depth) σ
      (StoreM.step limit fresh op) := by
  obtain ⟨c, hc, hfilled⟩ := h.exists_cell
  have hget : σ.get id = .ok c := Store.get_of_some hc
  have hopened : σ.opened id = .ok c := Store.opened_of_some hc hfilled
  have htarget := h.targetFrom hσ limit (limit + 1)
  cases op with
  | declare x n o =>
    cases hsubject
    rw [StoreM.step, StoreM.declare, bind_assoc]
    rcases htarget with ⟨t, _, ht, -⟩ | ⟨ht, hlt⟩
    · exact failsAs_query (f := (·.target limit id)) ht (failsAs_pure _)
    · exact failsAs_query_error (f := (·.target limit id)) ht ⟨rfl, hlt⟩
  | value x n =>
    cases hsubject
    exact failsAs_query (f := (·.opened id)) hopened (failsAs_pure _)
  | hasValue x n =>
    cases hsubject
    exact failsAs_query (f := (·.opened id)) hopened (failsAs_pure _)
  | setValue x n v =>
    cases hsubject
    rw [StoreM.step, StoreM.setValue, bind_assoc]
    refine failsAs_query (f := (·.opened id)) hopened ?_
    cases c.value n with
    | some _ => exact failsAs_assign hopened
    | none =>
      change FailsAs _ _ ((StoreM.declare limit id n >>= fun t =>
        StoreM.assign t n v) >>= fun _ => pure Answer.done)
      rw [bind_assoc, StoreM.declare, bind_assoc]
      rcases htarget with ⟨t, d, ht, hd, hroom⟩ | ⟨ht, hlt⟩
      · have hd' : (σ.change t (·.declare n)).opened t = .ok (d.declare n) :=
          Store.opened_of_some (Store.change_self hd _) ((Cell.gentle_declare n).filled d hroom)
        refine failsAs_query (f := (·.target limit id)) ht ?_
        rw [bind_assoc]
        refine failsAs_modify ?_
        rw [pure_bind]
        exact failsAs_assign hd'
      · exact failsAs_query_error (f := (·.target limit id)) ht ⟨rfl, hlt⟩
  | delete x n =>
    cases hsubject
    rw [StoreM.step, StoreM.delete, bind_assoc]
    refine failsAs_query (f := (·.opened id)) hopened ?_
    cases c.isSealed n <;> exact failsAs_pure _
  | load x n =>
    cases hsubject
    refine failsAs_query (f := (·.get id)) hget ?_
    cases (c.value n).isSome with
    | true => exact failsAs_query (f := (·.opened id)) hopened (failsAs_pure _)
    | false => exact failsAs_pure _
  | store x n v =>
    cases hsubject
    rw [StoreM.step]
    refine failsAs_query (f := (·.get id)) hget ?_
    cases (c.value n).isSome with
    | true => exact failsAs_assign hopened
    | false => exact failsAs_pure _
  | lookup x n =>
    cases hsubject
    rw [StoreM.step]
    rcases h.lookupFrom limit (limit + 1) n with ⟨_, hl⟩ | ⟨hl, hlt⟩
    · exact failsAs_query (f := (·.lookup limit id n)) hl (failsAs_pure _)
    · exact failsAs_query_error (f := (·.lookup limit id n)) hl ⟨rfl, hlt⟩
  | make | markDirectEval | materialize | freeze | remove => cases hsubject

/-- A scope that keeps what is declared keeps it itself. -/
theorem run_declare_here (hc : σ id = some c) (hforwards : c.forwards = false) (n : Name)
    (o : Option NodeId) : (StoreM.step limit fresh (.declare id n o)).run σ =
      (.ok (.scope id), σ.change id (·.declare n)) := by
  have htarget : σ.target limit id = .ok id := by
    rw [Store.target, Pool.targetFrom_succ (Store.get_of_some hc), hforwards]
    rfl
  rw [StoreM.step, StoreM.declare, bind_assoc, StoreM.run_query_bind, htarget]
  rfl

theorem run_value (hc : σ id = some c) (hfilled : c.filled = true) (n : Name) :
    (StoreM.step limit fresh (.value id n)).run σ = (.ok (.value (c.value n)), σ) := by
  rw [StoreM.step, StoreM.run_query_bind, Store.opened_of_some hc hfilled]
  rfl

theorem run_delete_deletable (h : σ.Deletable id n) :
    ((StoreM.step limit fresh (.delete id n)).run σ).1 = .ok (.truth true) := by
  obtain ⟨c, hc, hfilled, hsealed⟩ := h
  rw [StoreM.step, StoreM.delete, bind_assoc, StoreM.run_query_bind,
    Store.opened_of_some hc hfilled]
  dsimp only
  rw [hsealed]
  rfl

section Pools

variable {p : Pool V}

/-- An absent name is not bound for good. -/
theorem isSealed_of_absent (hc : p.store id = some c) (hn : c.value n = none) :
    c.isSealed n = false := by
  obtain ⟨s, -, rfl⟩ := Option.map_eq_some_iff.mp hc
  have hslot := Scope.value_eq_none_iff.mp hn
  simp [Scope.cell, hslot]

theorem answer_perform (h : p.Tidy) (op : Op V) : ((PoolM.perform op).run p).1 =
    ((StoreM.step p.limits.maxDepth p.next op).run p.store).1 :=
  (congrArg Prod.fst (stepped_perform h op).maps).symm

theorem store_perform (h : p.Tidy) (op : Op V) : ((PoolM.perform op).run p).2.store =
    ((StoreM.step p.limits.maxDepth p.next op).run p.store).2 :=
  (congrArg Prod.snd (stepped_perform h op).maps).symm

theorem performAll_cons (p : Pool V) (op : Op V) (ops : List (Op V)) :
    PoolM.performAll p (op :: ops) =
      (((PoolM.perform op).run p).1 :: (PoolM.performAll ((PoolM.perform op).run p).2 ops).1,
        (PoolM.performAll ((PoolM.perform op).run p).2 ops).2) := rfl

theorem performAll_append (p : Pool V) (ops rest : List (Op V)) :
    PoolM.performAll p (ops ++ rest) =
      ((PoolM.performAll p ops).1 ++ (PoolM.performAll (PoolM.performAll p ops).2 rest).1,
        (PoolM.performAll (PoolM.performAll p ops).2 rest).2) := by
  induction ops generalizing p with
  | nil => rfl
  | cons op ops ih => simp only [List.cons_append, performAll_cons, ih]

/-- A name declared anew has the default value, whatever its slot held before, and can be unbound. -/
theorem perform_declare_absent (h : p.Tidy) (hc : p.store id = some c) (hfilled : c.filled = true)
    (hforwards : c.forwards = false) (hn : c.value n = none) (o : Option NodeId) :
    ∃ q : Pool V, (PoolM.perform (.declare id n o)).run p = (.ok (.scope id), q) ∧
      q.Tidy ∧ q.store.Deletable id n ∧
      ((PoolM.perform (.value id n)).run q).1 = .ok (.value (some default)) := by
  have htidy := (stepped_perform h (.declare id n o)).tidy
  have hanswer := answer_perform h (.declare id n o)
  have hstore := store_perform h (.declare id n o)
  rw [run_declare_here hc hforwards] at hanswer hstore
  generalize (PoolM.perform (.declare id n o)).run p = r at htidy hanswer hstore ⊢
  obtain ⟨a, q⟩ := r
  dsimp only at htidy hanswer hstore
  subst hanswer
  have hd : q.store id = some (c.declare n) := by
    rw [hstore, Store.change_self hc]
  have hroom := (Cell.gentle_declare n).filled c hfilled
  have hsealed : (c.declare n).isSealed n = false := by
    rw [(Cell.gentle_declare n).isSealed, isSealed_of_absent hc hn]
  have hvalue : (c.declare n).value n = some default := by simp [Cell.declare, hn, Cell.put]
  have hread := answer_perform htidy (.value id n)
  rw [run_value hd hroom, hvalue] at hread
  exact ⟨q, rfl, htidy, ⟨_, hd, hroom, hsealed⟩, hread⟩

theorem perform_delete_after (h : p.Tidy) (hn : p.store.Deletable id n) {ops : List (Op V)}
    (hfreeze : .freeze id ∉ ops) (hremove : .remove id ∉ ops) :
    (PoolM.performAll p (ops ++ [.delete id n])).1.getLast? = some (.ok (.truth true)) := by
  obtain ⟨hrun, htidy, hlimits⟩ := runs_performAll h ops
  have hstays := deletable_runs hrun hn hfreeze hremove
  rw [performAll_append]
  generalize (PoolM.performAll p ops).2 = q at htidy hlimits hstays ⊢
  have hdelete := answer_perform htidy (.delete id n)
  rw [run_delete_deletable hstays] at hdelete
  rw [performAll_cons, hdelete]
  exact List.getLast?_concat

end Pools

/-- Scopes refine maps. From an empty pool on, each operation answers as it would on the maps that
the scopes stand for, and does to the scopes what it would do to those maps (`StoreM.step`). No
operation changes a scope other than the one it acts on. An operation on a name of a scope whose
chain is there and has room for values fails only if that chain is too long. A name declared anew
has the default value, and can be deleted as long as its scope is not frozen. -/
theorem Pool.scopes_refine_maps (limits : Limits) (ops : List (Op V)) :
    let (answers, p) := PoolM.performAll (.empty limits) ops
    Runs limits.maxDepth (fun _ => none) ops answers p.store ∧
    (∀ op x, x ≠ op.acts limits.maxDepth p.next p.store →
      ((PoolM.perform op).run p).2.store x = p.store x) ∧
    (∀ op id depth e, op.subject = some id → p.store.Roomy depth id →
      ((PoolM.perform op).run p).1 = .error e →
      e = .depthExceeded limits.maxDepth ∧ limits.maxDepth + 1 < depth) ∧
    ∀ id c n hoisted between, p.store id = some c → c.filled = true → c.forwards = false →
      c.value n = none → .freeze id ∉ between → .remove id ∉ between →
      (PoolM.performAll p [.declare id n hoisted, .value id n]).1 =
        [.ok (.scope id), .ok (.value (some default))] ∧
      (PoolM.performAll p (.declare id n hoisted :: between ++ [.delete id n])).1.getLast? =
        some (.ok (.truth true)) := by
  have hempty : (Pool.empty limits : Pool V).store = fun _ => none := by
    funext x
    simp [store, find?, empty]
  obtain ⟨hrun, htidy, hlimits⟩ := runs_performAll (each_empty limits) ops
  rw [hempty] at hrun
  generalize PoolM.performAll (.empty limits) ops = r at hrun htidy hlimits ⊢
  obtain ⟨answers, p⟩ := r
  dsimp only at hrun htidy hlimits ⊢
  have hdepth : limits.maxDepth = p.limits.maxDepth := by rw [hlimits]; rfl
  rw [hdepth]
  refine ⟨hdepth ▸ hrun, ?_, ?_, ?_⟩
  · intro op x hx
    rw [store_perform htidy]
    exact step_of_ne hx
  · intro op id depth e hsubject hroomy he
    rw [answer_perform htidy] at he
    exact failsAs_step htidy.rooted hsubject hroomy e he
  · intro id c n hoisted between hc hfilled hforwards hn hfreeze hremove
    obtain ⟨q, hdeclare, hq, hdeletable, hvalue⟩ :=
      perform_declare_absent htidy hc hfilled hforwards hn hoisted
    constructor
    · simp only [performAll_cons, hdeclare, hvalue]
      rfl
    · have hlast := perform_delete_after hq hdeletable hfreeze hremove
      simp only [List.cons_append, performAll_cons, hdeclare]
      rw [List.getLast?_cons, hlast]
      rfl

/-- What is declared in a catch scope goes to the scope around it even if the catch scope binds the
name itself. -/
theorem Pool.catch_forwards_own_name :
    let p := (PoolM.performAll (.empty .standard : Pool Nat)
      [.make .globalInstance, .make (.catchInstance (some ⟨0, 0⟩) [⟨4⟩])]).2
    let q := ((PoolM.perform (.declare ⟨1, 0⟩ ⟨4⟩ none)).run p).2
    (p.store ⟨1, 0⟩).bind (·.value ⟨4⟩) = some 0 ∧ (p.store ⟨0, 0⟩).bind (·.value ⟨4⟩) = none ∧
      (q.store ⟨0, 0⟩).bind (·.value ⟨4⟩) = some 0 := by
  decide +kernel

end ScopeChain
