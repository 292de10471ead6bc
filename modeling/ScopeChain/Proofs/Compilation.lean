import ScopeChain.Compilation
import ScopeChain.Proofs.Emission

/-! What compiling a text comes to: code that fits, an error in the text, or scopes nested too deep;
and the same under options that differ in how value arrays grow. -/
namespace ScopeChain.Compilation

open Code (EntryMode)

variable {o o' : Options} {r : Parser.Result} {eval : Bool}

/-- Compiling comes to the same twice. If it comes to code, that fits within no known frames. -/
inductive Alike (limit : Nat) (mode : EntryMode) (strict : Bool) :
    Except CompileError Compiled → Except CompileError Compiled → Prop where
  | compiled {c c' : Compiled} : c.code = c'.code → c.code.FitsProgram limit mode →
    (strict = true → c.code.strict = true) → Alike limit mode strict (.ok c) (.ok c')
  | malformed (d : Diagnostic) :
    Alike limit mode strict (.error (.malformed d)) (.error (.malformed d))
  | deep (n : Nat) : Alike limit mode strict (.error (.scope (.depthExceeded n)))
    (.error (.scope (.depthExceeded n)))

theorem alike_ofParse {strict : Bool} (hn : r.program.nodes.Nodup)
    (hs : strict = true → r.program.strict = true) (hd : o.limits.maxDepth = o'.limits.maxDepth) :
    Alike o.limits.maxDepth (Code.Emission.rootMode eval) strict
      (ofParse r eval o.limits) (ofParse r eval o'.limits) := by
  have hlim : o'.limits = { o.limits with growthSlack := o'.limits.growthSlack } := by
    simp only [hd]
  unfold ofParse
  cases r.diagnostics.firstError? with
  | some d => exact .malformed d
  | none =>
    rcases Binding.ofProgram_spec hn eval o.limits r.names with
      ⟨b, hb, hbound, hbl, hk⟩ | ⟨l, hb, hk⟩
    · obtain ⟨c, hc, hfits, hstrict, hck⟩ := Code.ofProgram_spec hn hbound
      rw [hlim, hb, hk]
      simp only [Except.mapError, bind, Except.bind, hc, hck]
      refine .compiled rfl ?_ ?_
      · rwa [hbl] at hfits
      · rwa [hstrict]
    · rw [hlim, hb, hk]
      exact .deep l

/-- A text comes to the same under options that differ in the growth of value arrays. -/
theorem alike_ofText (hd : o.limits.maxDepth = o'.limits.maxDepth) (file text : String)
    (strict eval : Bool) (names : Interner) :
    Alike o.limits.maxDepth (Code.Emission.rootMode eval) strict
      (ofText o file text strict eval names).1 (ofText o' file text strict eval names).1 := by
  refine alike_ofParse (Parser.nodup_nodes_parse file text strict names) ?_ hd
  rintro rfl
  exact Parser.strict_parse file text names

/-- A text without errors has code, if its scopes can be bound. It is strict if the program is. -/
theorem exists_ofText {file text : String} {strict : Bool} {names : Interner}
    (hd : (Parser.parse file text strict names).diagnostics.firstError? = none)
    (hb : (Binding.ofProgram (Parser.parse file text strict names).program eval o.limits
      (Parser.parse file text strict names).names).toOption.isSome = true) :
    ∃ c, (ofText o file text strict eval names).1 = .ok c ∧
      c.code.strict = (Parser.parse file text strict names).program.strict := by
  have hn := Parser.nodup_nodes_parse file text strict names
  unfold ofText ofParse
  generalize Parser.parse file text strict names = r at hd hb hn ⊢
  rcases Binding.ofProgram_spec hn eval o.limits r.names with ⟨b, hb', hbound, -⟩ | ⟨_, hb', -⟩
  · obtain ⟨code, hcode, -, hstrict, -⟩ := Code.ofProgram_spec hn hbound
    simp only [hd, hb', hcode, Except.mapError, bind, Except.bind]
    exact ⟨_, rfl, hstrict⟩
  · rw [hb'] at hb
    cases hb

theorem fitsProgram_ofText {file text : String} {strict : Bool} {names : Interner} {c : Compiled}
    (h : (ofText o file text strict eval names).1 = .ok c) :
    c.code.FitsProgram o.limits.maxDepth (Code.Emission.rootMode eval) := by
  have halike := alike_ofText (o := o) rfl file text strict eval names
  rw [h] at halike
  cases halike with
  | compiled _ hfits _ => exact hfits

theorem names_ofText (o o' : Options) (file text : String) (strict eval : Bool) (names : Interner) :
    (ofText o file text strict eval names).2 = (ofText o' file text strict eval names).2 := rfl

/-- Whatever the parser makes of a text, errors in it or not, can be bound unless it nests scopes
deeper than the limit, and what was bound always has code. -/
theorem parsed_program_has_code (file text : String) (strict eval : Bool) (limits : Limits)
    (names : Interner) :
    let r := Parser.parse file text strict names
    match Binding.ofProgram r.program eval limits r.names with
    | .ok b => ∃ c, Code.ofProgram b r.program = .ok c
    | .error e => ∃ limit, e = .depthExceeded limit := by
  intro r
  have hn : r.program.nodes.Nodup := Parser.nodup_nodes_parse file text strict names
  rcases Binding.ofProgram_spec hn eval limits r.names with ⟨b, hb, hbound, -, -⟩ | ⟨limit, hb, -⟩
  · obtain ⟨c, hc, -, -, -⟩ := Code.ofProgram_spec hn hbound
    rw [hb]
    exact ⟨c, hc⟩
  · rw [hb]
    exact ⟨limit, rfl⟩

end ScopeChain.Compilation
