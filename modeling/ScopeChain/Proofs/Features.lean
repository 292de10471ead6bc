import ScopeChain.Proofs.Grammar

/-! What the rules of strict code are about, wherever it stands in a program: functions, names that
are declared or assigned, deletions and returns. -/
namespace ScopeChain

/-- What kind of code a part of a program belongs to. -/
structure Site where
  strict : Bool
  /-- Whether it is in the body of a function. -/
  inside : Bool

inductive Feature where
  | function (f : FunctionDef)
  /-- A name that is declared or assigned. -/
  | binding (i : Identifier)
  | deletion (operand : Expr)
  | return

mutual

/-- The features of an expression, each with the code that it belongs to. -/
def Expr.features (c : Site) : Expr → List (Site × Feature)
  | .number _ | .string _ | .bool _ | .null | .this _ | .identifier _ => []
  | .assign i e => (c, .binding i) :: e.features c
  | .binary _ l r => l.features c ++ r.features c
  | .unary _ e | .typeof e => e.features c
  | .delete e _ => (c, .deletion e) :: e.features c
  | .call f args _ => f.features c ++ Expr.listFeatures c args
  | .function f => f.features c

def Expr.listFeatures (c : Site) : List Expr → List (Site × Feature)
  | [] => []
  | e :: es => e.features c ++ Expr.listFeatures c es

def Declarator.listFeatures (c : Site) : List Declarator → List (Site × Feature)
  | [] => []
  | ⟨i, none⟩ :: ds => (c, .binding i) :: Declarator.listFeatures c ds
  | ⟨i, some e⟩ :: ds => (c, .binding i) :: (e.features c ++ Declarator.listFeatures c ds)

def Stmt.features (c : Site) : Stmt → List (Site × Feature)
  | .var ds => Declarator.listFeatures c ds
  | .function f => f.features c
  | .expr e | .throw e => e.features c
  | .return none _ => [(c, .return)]
  | .return (some e) _ => (c, .return) :: e.features c
  | .if t s none => t.features c ++ s.features c
  | .if t s (some a) => t.features c ++ (s.features c ++ a.features c)
  | .while t b => t.features c ++ b.features c
  | .block b => Stmt.listFeatures c b
  | .try b h f =>
    Stmt.listFeatures c b ++ (Stmt.handlerFeatures c h ++ Stmt.finalizerFeatures c f)
  | .empty => []

def Stmt.listFeatures (c : Site) : List Stmt → List (Site × Feature)
  | [] => []
  | s :: ss => s.features c ++ Stmt.listFeatures c ss

def Stmt.handlerFeatures (c : Site) : Option CatchClause → List (Site × Feature)
  | none => []
  | some ⟨_, param, body⟩ => (c, .binding param) :: Stmt.listFeatures c body

def Stmt.finalizerFeatures (c : Site) : Option (List Stmt) → List (Site × Feature)
  | none => []
  | some body => Stmt.listFeatures c body

/-- A function belongs to the code around it; its own name and its parameters, to its own. -/
def FunctionDef.features (c : Site) : FunctionDef → List (Site × Feature)
  | ⟨id, self, params, body, strict, span⟩ =>
    (c, .function ⟨id, self, params, body, strict, span⟩) ::
      ((self.toList ++ params).map (fun i => (⟨strict, true⟩, .binding i)) ++
        Stmt.listFeatures ⟨strict, true⟩ body)

end

/-- All features of a program. -/
def Program.features (p : Program) : List (Site × Feature) :=
  Stmt.listFeatures ⟨p.strict, false⟩ p.body

theorem Stmt.listFeatures_append (c : Site) (ss ts : List Stmt) :
    Stmt.listFeatures c (ss ++ ts) = Stmt.listFeatures c ss ++ Stmt.listFeatures c ts := by
  induction ss with
  | nil => rfl
  | cons s ss ih => rw [List.cons_append, listFeatures, listFeatures, ih, List.append_assoc]

/-- What code may contain: strict code neither declares nor assigns a reserved name, deletes no
bare name and repeats no parameter; and returns are in functions only. -/
def Feature.Permitted (names : Interner) (c : Site) : Feature → Prop
  | .function f => f.strict = true → (f.params.map fun p => names.text p.name).Nodup
  | .binding i => c.strict = true → names.text i.name ≠ "eval" ∧ names.text i.name ≠ "arguments"
  | .deletion e => c.strict = true → e.identifier? = none
  | .return => c.inside = true

section Permissions

variable {t : Interner}

/-- Some features are permitted where they stand. -/
abbrev Permitted (t : Interner) (xs : List (Site × Feature)) : Prop :=
  ∀ x ∈ xs, x.2.Permitted t x.1

theorem Permitted.append {xs ys : List (Site × Feature)} (hx : Permitted t xs)
    (hy : Permitted t ys) : Permitted t (xs ++ ys) := List.forall_mem_append.2 ⟨hx, hy⟩

theorem Permitted.cons {c : Site} {x : Feature} {xs : List (Site × Feature)} (hx : x.Permitted t c)
    (h : Permitted t xs) : Permitted t ((c, x) :: xs) := List.forall_mem_cons.2 ⟨hx, h⟩

mutual

theorem Expr.permitted : (e : Expr) → {c : Site} → (e.source t).Grammatical c.strict →
    Permitted t (e.features c)
  | .number _, _, _ | .string _, _, _ | .bool _, _, _ | .null, _, _ | .this _, _, _
  | .identifier _, _, _ => nofun
  | .assign _ e, _, h => .cons h.1.unreserved (e.permitted h.2)
  | .binary _ l r, _, h => .append (l.permitted h.1) (r.permitted h.2)
  | .unary _ e, _, h => e.permitted h
  | .typeof e, _, h => e.permitted h
  | .delete e _, _, h => .cons (fun hs => Option.isNone_iff_eq_none.1
      (by simpa using (Parser.isIdentifier_source e).symm.trans (h.2 hs))) (e.permitted h.1)
  | .call f args _, _, h => .append (f.permitted h.1) (Expr.listPermitted args h.2)
  | .function f, _, h => f.permitted h

theorem Expr.listPermitted : (es : List Expr) → {c : Site} →
    Source.Expr.AllGrammatical c.strict (Expr.sources t es) → Permitted t (Expr.listFeatures c es)
  | [], _, _ => nofun
  | e :: es, _, h => .append (e.permitted h.1) (Expr.listPermitted es h.2)

theorem Declarator.listPermitted : (ds : List Declarator) → {c : Site} →
    Source.Declarator.AllGrammatical c.strict (Declarator.sources t ds) →
    Permitted t (Declarator.listFeatures c ds)
  | [], _, _ => nofun
  | ⟨_, none⟩ :: ds, _, h => .cons h.1.unreserved (Declarator.listPermitted ds h.2)
  | ⟨_, some e⟩ :: ds, _, h =>
    .cons h.1.unreserved (.append (e.permitted h.2.1) (Declarator.listPermitted ds h.2.2))

theorem Stmt.permitted : (s : Stmt) → {c : Site} → (s.source t).Grammatical c.strict c.inside →
    Permitted t (s.features c)
  | .var ds, _, h => Declarator.listPermitted ds h.2
  | .function f, _, h => f.permitted h.2
  | .expr e, _, h => e.permitted h
  | .throw e, _, h => e.permitted h
  | .return none _, _, h => .cons h nofun
  | .return (some e) _, _, h => .cons h.1 (e.permitted h.2)
  | .if t s none, _, h => .append (t.permitted h.1) (s.permitted h.2)
  | .if t s (some a), _, h =>
    .append (t.permitted h.1) (.append (s.permitted h.2.1) (a.permitted h.2.2.2))
  | .while t b, _, h => .append (t.permitted h.1) (b.permitted h.2)
  | .block b, _, h => Stmt.listPermitted b h
  | .try b h f, _, hs => .append (Stmt.listPermitted b hs.2.1)
      (.append (Stmt.handlerPermitted h hs.2.2.1) (Stmt.finalizerPermitted f hs.2.2.2))
  | .empty, _, _ => nofun

theorem Stmt.listPermitted : (ss : List Stmt) → {c : Site} →
    Source.Stmt.AllGrammatical c.strict c.inside (Stmt.sources t ss) →
    Permitted t (Stmt.listFeatures c ss)
  | [], _, _ => nofun
  | s :: ss, _, h => .append (s.permitted h.1) (Stmt.listPermitted ss h.2)

theorem Stmt.handlerPermitted : (h : Option CatchClause) → {c : Site} →
    Source.Stmt.HandlerGrammatical c.strict c.inside (Stmt.handlerSource t h) →
    Permitted t (Stmt.handlerFeatures c h)
  | none, _, _ => nofun
  | some ⟨_, _, body⟩, _, h => .cons h.1.unreserved (Stmt.listPermitted body h.2)

theorem Stmt.finalizerPermitted : (f : Option (List Stmt)) → {c : Site} →
    Source.Stmt.FinalizerGrammatical c.strict c.inside (Stmt.finalizerSource t f) →
    Permitted t (Stmt.finalizerFeatures c f)
  | none, _, _ => nofun
  | some body, _, h => Stmt.listPermitted body h

theorem FunctionDef.permitted : (f : FunctionDef) → {c : Site} → (f.source t).Grammatical c.strict →
    Permitted t (f.features c)
  | ⟨_, self, params, body, strict, _⟩, _, ⟨_, _, hself, hparams, hnodup, hbody⟩ => by
    refine .cons hnodup (.append ?_ (Stmt.listPermitted body hbody))
    intro x hx
    obtain ⟨i, hi, rfl⟩ := List.mem_map.1 hx
    rcases List.mem_append.1 hi with hi | hi
    · exact (hself _ (Option.mem_map_of_mem _ (Option.mem_toList.1 hi))).unreserved
    · exact (hparams _ (List.mem_map_of_mem hi)).unreserved

end

/-- What a grammatical program contains is permitted. -/
theorem Program.permitted {p : Program} {strict : Bool} (h : (p.source t).Grammatical strict) :
    Permitted t p.features := Stmt.listPermitted p.body h.body

end Permissions

end ScopeChain
