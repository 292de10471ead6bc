import ScopeChain.Proofs.DeclaredNames
import ScopeChain.Proofs.Grammar

/-! What compiled code never does. No code stores to `this`, or gives that name to a function; and
code compiled under strict options is strict to its innermost functions, and deletes no name. -/
namespace ScopeChain

namespace Code

namespace Part

/-- A part of code, seen alone, does nothing that code never does. -/
def Minds (strict : Bool) : Part → Prop
  | .function c =>
    c.entry.mode = .template ∧ c.name ≠ some .this ∧ (strict = true → c.strict = true)
  | .catch c => c.entry.mode = .catch
  | .expr (.store u _) => u.name ≠ .this
  | .expr (.deleteName _) => strict = false
  | .stmt _ | .expr _ | .use _ => True

/-- Neither does anything within the part. -/
abbrev Mindful (strict : Bool) : Part → Prop := Throughout (Minds strict)

end Part

/-- A program does nothing that code never does. -/
structure FunctionCode.MindfulProgram (strict : Bool) (c : FunctionCode) : Prop where
  inherits : strict = true → c.strict = true
  parts : ∀ y ∈ (Part.function c).parts, y.Mindful strict
  hoisted : ∀ h ∈ c.entry.hoisted, h.code.name = some h.name

/-- All code kept for declared functions is mindful. -/
def Declared.Mindful (strict : Bool) (D : Declared) : Prop :=
  ∀ (node : NodeId) c, D[node]? = some c → (Part.function c).Mindful strict

end Code

namespace Source

/-- The word for the receiver is no name. -/
theorem not_isWord_this : ¬ IsWord "this" := by
  intro h
  have hkinds := (h 0 []).symm.trans (Lexer.spells_keyword .thisKw 0 [])
  cases hkinds

theorem IsWord.ne_this {t : Interner} {n : Name} (h : IsWord (t.text n)) (ht : .wellKnown ≤ t) :
    n ≠ .this := by
  rintro rfl
  rw [Interner.laws.text_of_le ht Interner.find?_this] at h
  exact not_isWord_this h

end Source

namespace Code.Emission

variable {b : Binding} {t : Interner} {strict : Bool}

theorem guarantees_use {I : Declared → Prop} (i : Identifier) :
    Guarantees I (use b i) fun u => u.name = i.name :=
  (guarantees_required _ _).bind fun _ _ => .pure rfl

theorem guarantees_entry (id : ScopeId) (mode : EntryMode) :
    Guarantees (·.Mindful strict) (entry b id mode) fun e =>
      e.mode = mode ∧ ∀ h ∈ e.hoisted, (Part.function h.code).Mindful strict := by
  have hkept (D : Declared) (hD : D.Mindful strict) (node : NodeId) (c : FunctionCode)
      (hc : D[node]? = some c) : (Part.function c).Mindful strict := hD node c hc
  refine (guarantees_descriptor id).bind fun _ _ => (guarantees_hoisted hkept _).bind
    fun hs hall => .pure ⟨rfl, fun h hm => ?_⟩
  obtain ⟨_, -, hholds⟩ := exists_of_forall₂ hall hm
  exact hholds.code

/-- A use of a name does nothing by itself. -/
theorem mindful_use (u : Use) : (Part.use u).Mindful strict := .intro trivial nofun

theorem mindful_store (ht : .wellKnown ≤ t) {i : Identifier} {u : Use} {c : Expr}
    (hi : Source.IsWord (t.text i.name)) (hu : u.name = i.name)
    (hc : (Part.expr c).Mindful strict) : (Part.expr (.store u c)).Mindful strict := by
  refine .intro ?_ (by simpa [Part.parts] using ⟨mindful_use u, hc⟩)
  rw [Part.Minds, hu]
  exact hi.ne_this ht

theorem mindful_one {s : Stmt} (h : ∀ y ∈ (Part.stmt s).parts, y.Mindful strict) :
    ∀ s' ∈ [s], (Part.stmt s').Mindful strict :=
  List.forall_mem_singleton.2 (.intro trivial h)

/-- A function and what its body is made of. -/
theorem mindful_function_of_body (ht : .wellKnown ≤ t) {f : FunctionDef} {outer : Bool}
    (hs : strict = true → outer = true) (hf : (f.source t).Grammatical outer)
    (hbody : Guarantees (·.Mindful strict) (stmts b f.body) fun ss =>
      ∀ s ∈ ss, (Part.stmt s).Mindful strict) :
    Guarantees (·.Mindful strict) (function b f) fun c => (Part.function c).Mindful strict := by
  obtain ⟨id, self, params, body, own, span⟩ := f
  obtain ⟨hinherits, -, hself, -, -, -⟩ := hf
  have hname : self.map Identifier.name ≠ some .this := by
    rw [Ne, Option.map_eq_some_iff]
    rintro ⟨i, rfl, hi⟩
    exact (hself (t.text i.name) rfl).word.ne_this ht hi
  rw [function]
  refine (guarantees_scopeOf id).bind fun scope _ => hbody.bind fun ss hss =>
    (guarantees_entry scope .template).bind ?_
  rintro e ⟨hmode, hcodes⟩
  have hown (s : Scope Unit) (n : Name) :
      Guarantees (Declared.Mindful strict) (ownSlot s id n) fun _ => True :=
    (guarantees_ownSlot s id n).imp fun _ _ => trivial
  refine (guarantees_descriptor scope).bind fun s _ =>
    (guarantees_mapM (S := fun (_ : Nat) (_ : Identifier) => True)
      (fun i => hown s i.name) params).bind fun ps _ =>
      (guarantees_option_mapM (S := fun (_ : Nat) (_ : Identifier) => True)
        (fun i => hown s i.name) self).bind fun selfSlot _ =>
        (hown s .this).bind fun thisSlot _ =>
          (hown s .arguments).bind fun argumentsSlot _ => .pure ?_
  exact .intro ⟨hmode, hname, fun h => hinherits (hs h)⟩ (throughout_body hss hcodes)

mutual

/-- Code made of what is grammatical is mindful. -/
theorem mindful_expr (ht : .wellKnown ≤ t) : (e : ScopeChain.Expr) → {outer : Bool} →
    (strict = true → outer = true) → (e.source t).Grammatical outer →
    Guarantees (·.Mindful strict) (expr b e) fun c => (Part.expr c).Mindful strict
  | .number _, _, _, _ | .string _, _, _, _ | .bool _, _, _, _ | .null, _, _, _ =>
    .pure (.intro trivial nofun)
  | .this i, _, _, _ | .identifier i, _, _, _ =>
    (guarantees_use i).bind fun u _ => .pure (.intro trivial (by simpa [Part.parts] using mindful_use u))
  | .assign i e, _, hs, hg => by
    exact (guarantees_use i).bind fun u hu => (mindful_expr ht e hs hg.2).bind fun c hc =>
      .pure (mindful_store ht hg.1.word hu hc)
  | .binary _ l r, _, hs, hg =>
    (mindful_expr ht l hs hg.1).bind fun c hc => (mindful_expr ht r hs hg.2).bind fun d hd =>
      .pure (.intro trivial (by simpa [Part.parts] using ⟨hc, hd⟩))
  | .unary _ e, _, hs, hg =>
    (mindful_expr ht e hs hg).bind fun c hc =>
      .pure (.intro trivial (by simpa [Part.parts] using hc))
  | .typeof e, _, hs, hg => by
    rw [expr]
    split
    · next i _ =>
      exact (guarantees_use i).bind fun u _ =>
        .pure (.intro trivial (by simpa [Part.parts] using mindful_use u))
    · exact (mindful_expr ht e hs hg).bind fun c hc =>
        .pure (.intro trivial (by simpa [Part.parts] using hc))
  | .delete e _, outer, hs, hg => by
    rw [expr]
    split
    · next i hi =>
      obtain rfl := identifier?_eq_some hi
      refine (guarantees_use i).bind fun u _ =>
        .pure (.intro ?_ (by simpa [Part.parts] using mindful_use u))
      exact Bool.eq_false_iff.2 fun h => Bool.noConfusion (hg.2 (hs h))
    · exact (mindful_expr ht e hs hg.1).bind fun c hc =>
        .pure (.intro trivial (by simpa [Part.parts] using hc))
  | .call f args _, _, hs, hg => by
    refine (mindful_exprs ht args hs hg.2).bind fun cs hcs => guarantees_direct b f fun direct => ?_
    split
    · exact .pure (.intro trivial (by simpa [Part.parts] using hcs))
    · exact (mindful_expr ht f hs hg.1).bind fun c hc =>
        .pure (.intro trivial (by simpa [Part.parts] using ⟨hc, hcs⟩))
  | .function f, _, hs, hg =>
    (mindful_function ht f hs hg).bind fun c hc =>
      .pure (.intro trivial (by simpa [Part.parts] using hc))

theorem mindful_exprs (ht : .wellKnown ≤ t) : (es : List ScopeChain.Expr) → {outer : Bool} →
    (strict = true → outer = true) →
    Source.Expr.AllGrammatical outer (ScopeChain.Expr.sources t es) →
    Guarantees (·.Mindful strict) (exprs b es) fun cs => ∀ c ∈ cs, (Part.expr c).Mindful strict
  | [], _, _, _ => .pure nofun
  | e :: es, _, hs, hg =>
    (mindful_expr ht e hs hg.1).bind fun _ hc => (mindful_exprs ht es hs hg.2).bind fun _ hcs =>
      .pure (List.forall_mem_cons.2 ⟨hc, hcs⟩)

theorem mindful_declarators (ht : .wellKnown ≤ t) : (ds : List Declarator) → {outer : Bool} →
    (strict = true → outer = true) →
    Source.Declarator.AllGrammatical outer (Declarator.sources t ds) →
    Guarantees (·.Mindful strict) (declarators b ds) fun ss =>
      ∀ s ∈ ss, (Part.stmt s).Mindful strict
  | [], _, _, _ => .pure nofun
  | ⟨_, none⟩ :: ds, _, hs, hg => mindful_declarators ht ds hs hg.2
  | ⟨i, some e⟩ :: ds, _, hs, hg => by
    refine (guarantees_use i).bind fun u hu => (mindful_expr ht e hs hg.2.1).bind fun c hc =>
      (mindful_declarators ht ds hs hg.2.2).bind fun ss hss => .pure ?_
    have hstore := mindful_store ht hg.1.word hu hc
    exact List.forall_mem_cons.2
      ⟨.intro trivial (by simpa [Part.parts] using hstore), hss⟩

theorem mindful_stmt (ht : .wellKnown ≤ t) : (s : ScopeChain.Stmt) → {outer inside : Bool} →
    (strict = true → outer = true) → (s.source t).Grammatical outer inside →
    Guarantees (·.Mindful strict) (stmt b s) fun ss => ∀ s ∈ ss, (Part.stmt s).Mindful strict
  | .var ds, _, _, hs, hg => mindful_declarators ht ds hs hg.2
  | .function f, _, _, hs, hg => by
    refine (mindful_function ht f hs hg.2).bind fun c hc => ?_
    intro D ss D' hrun hD
    cases hrun
    refine ⟨nofun, ?_⟩
    intro node d hd
    rw [Std.HashMap.getElem?_insert] at hd
    split at hd
    · cases hd
      exact hc
    · exact hD node d hd
  | .expr e, _, _, hs, hg | .throw e, _, _, hs, hg =>
    (mindful_expr ht e hs hg).bind fun c hc =>
      .pure (mindful_one (by simpa [Part.parts] using hc))
  | .return (some e) _, _, _, hs, hg =>
    (mindful_expr ht e hs hg.2).bind fun c hc =>
      .pure (mindful_one (by simpa [Part.parts] using hc))
  | .return none _, _, _, _, _ => .pure (mindful_one (by simp [Part.parts]))
  | .empty, _, _, _, _ => .pure nofun
  | .if e s none, _, _, hs, hg => by
    refine (mindful_expr ht e hs hg.1).bind fun c hc => (mindful_stmt ht s hs hg.2).bind
      fun ss hss => .pure (mindful_one ?_)
    simpa [Part.parts] using ⟨hc, throughout_single (fun _ => trivial) hss⟩
  | .if e s (some a), _, _, hs, hg => by
    refine (mindful_expr ht e hs hg.1).bind fun c hc => (mindful_stmt ht s hs hg.2.1).bind
      fun ss hss => (mindful_stmt ht a hs hg.2.2.2).bind fun as has => .pure (mindful_one ?_)
    simpa [Part.parts] using ⟨hc, throughout_single (fun _ => trivial) hss,
      throughout_single (fun _ => trivial) has⟩
  | .while e s, _, _, hs, hg => by
    refine (mindful_expr ht e hs hg.1).bind fun c hc => (mindful_stmt ht s hs hg.2).bind
      fun ss hss => .pure (mindful_one ?_)
    simpa [Part.parts] using ⟨hc, throughout_single (fun _ => trivial) hss⟩
  | .block ss, _, _, hs, hg =>
    (mindful_stmts ht ss hs hg).bind fun ss hss =>
      .pure (mindful_one (by simpa [Part.parts] using hss))
  | .try ss c f, _, _, hs, hg => by
    obtain ⟨-, hss, hc, hf⟩ := hg
    refine (mindful_stmts ht ss hs hss).bind fun cs hcs => (mindful_handler ht c hs hc).bind
      fun o ho => (mindful_finalizer ht f hs hf).bind fun o' ho' => .pure (mindful_one ?_)
    simp only [Part.parts, List.mem_append, List.mem_map, Option.mem_toList]
    rintro y (⟨s, hs, rfl⟩ | ⟨c, hc, rfl⟩ | ⟨s, hs, rfl⟩)
    · exact hcs s hs
    · exact ho c hc
    · exact Part.forall_mem_getD ho' s hs

theorem mindful_stmts (ht : .wellKnown ≤ t) : (ss : List ScopeChain.Stmt) →
    {outer inside : Bool} → (strict = true → outer = true) →
    Source.Stmt.AllGrammatical outer inside (ScopeChain.Stmt.sources t ss) →
    Guarantees (·.Mindful strict) (stmts b ss) fun ss => ∀ s ∈ ss, (Part.stmt s).Mindful strict
  | [], _, _, _, _ => .pure nofun
  | s :: ss, _, _, hs, hg =>
    (mindful_stmt ht s hs hg.1).bind fun _ hc => (mindful_stmts ht ss hs hg.2).bind fun _ hcs =>
      .pure (List.forall_mem_append.2 ⟨hc, hcs⟩)

theorem mindful_handler (ht : .wellKnown ≤ t) : (c : Option CatchClause) →
    {outer inside : Bool} → (strict = true → outer = true) →
    Source.Stmt.HandlerGrammatical outer inside (ScopeChain.Stmt.handlerSource t c) →
    Guarantees (·.Mindful strict) (handler b c) fun o => ∀ c ∈ o, (Part.catch c).Mindful strict
  | none, _, _, _, _ => .pure nofun
  | some ⟨id, param, body⟩, _, _, hs, hg => by
    refine (guarantees_scopeOf id).bind fun scope _ => (mindful_stmts ht body hs hg.2).bind
      fun ss hss => (guarantees_entry scope .catch).bind ?_
    rintro e ⟨hmode, hcodes⟩
    refine (guarantees_descriptor scope).bind fun s _ =>
      (guarantees_ownSlot s id param.name).bind fun k _ => .pure ?_
    rintro _ ⟨⟩
    exact .intro hmode (throughout_body hss hcodes)

theorem mindful_finalizer (ht : .wellKnown ≤ t) : (f : Option (List ScopeChain.Stmt)) →
    {outer inside : Bool} → (strict = true → outer = true) →
    Source.Stmt.FinalizerGrammatical outer inside (ScopeChain.Stmt.finalizerSource t f) →
    Guarantees (·.Mindful strict) (finalizer b f) fun o =>
      ∀ ss ∈ o, ∀ s ∈ ss, (Part.stmt s).Mindful strict
  | none, _, _, _, _ => .pure nofun
  | some body, _, _, hs, hg => by
    refine (mindful_stmts ht body hs hg).bind fun ss hss => .pure ?_
    rintro _ ⟨⟩
    exact hss

theorem mindful_function (ht : .wellKnown ≤ t) : (f : FunctionDef) → {outer : Bool} →
    (strict = true → outer = true) → (f.source t).Grammatical outer →
    Guarantees (·.Mindful strict) (function b f) fun c => (Part.function c).Mindful strict
  | ⟨_, _, _, body, _, _⟩, _, hs, hg =>
    mindful_function_of_body ht hs hg
      (mindful_stmts ht body (fun h => hg.1 (hs h)) hg.2.2.2.2.2)

end

theorem mindful_program (ht : .wellKnown ≤ t) {p : Program} {outer : Bool}
    (hs : strict = true → outer = true) (hg : (p.source t).Grammatical outer) :
    Guarantees (·.Mindful strict) (program b p) fun c =>
      (strict = true → c.strict = true) ∧ ∀ y ∈ (Part.function c).parts, y.Mindful strict := by
  have hstrict (h : strict = true) : p.strict = true := hg.inherits (hs h)
  exact (guarantees_scopeOf p.id).bind fun scope _ => (guarantees_descriptor scope).bind fun s _ =>
    (mindful_stmts ht p.body hstrict hg.body).bind fun ss hss =>
      (guarantees_entry scope (modeOf s)).bind fun e ⟨_, hcodes⟩ =>
        .pure ⟨hstrict, throughout_body hss hcodes⟩

end Code.Emission

namespace Compilation

/-- All code that is made of a text is mindful. -/
theorem mindful_ofText {o : Options} {file text : String} {strict outer eval : Bool}
    {names : Interner} {c : Compiled} (hnames : .wellKnown ≤ names)
    (hs : strict = true → outer = true)
    (h : (ofText o file text outer eval names).1 = .ok c) : c.code.MindfulProgram strict := by
  obtain ⟨herrors, -, hcode⟩ := of_ofParse h
  have hknown : .wellKnown ≤ (Parser.parse file text outer names).names :=
    Interner.laws.le_trans hnames (Parser.le_names_parse file text outer names)
  have hnone : Code.Declared.Mindful strict {} := by
    intro node d hd
    simp at hd
  obtain ⟨hinherits, hparts⟩ := (Code.Emission.mindful_program hknown hs
    (Parser.grammatical_parse hnames herrors)).of_ofProgram hnone hcode
  have hwell := wellAddressed_ofParse (Parser.nodup_nodes_parse file text outer names) eval o.limits
  rw [show ofParse _ eval o.limits = .ok c from h] at hwell
  obtain ⟨s, -, hlists⟩ := hwell.entry
  exact ⟨hinherits, hparts, fun f hf => (hlists.hoisted f hf).2⟩

end Compilation

end ScopeChain
