import ScopeChain.Proofs.Sources

/-! Programs written out, with parentheses only where the text would else be read as something
else, a semicolon behind each statement that takes one and a blank behind each token. -/
namespace ScopeChain

def BinaryOp.punctuator : BinaryOp → Punctuator
  | .add => .plus
  | .subtract => .minus
  | .multiply => .star
  | .divide => .slash
  | .remainder => .percent
  | .less => .less
  | .greater => .greater
  | .lessEq => .lessEq
  | .greaterEq => .greaterEq
  | .looseEq => .eqEq
  | .looseNe => .bangEq
  | .strictEq => .eqEqEq
  | .strictNe => .bangEqEq
  | .logicalAnd => .andAnd
  | .logicalOr => .barBar

/-- How tightly an operator binds. -/
def BinaryOp.strength : BinaryOp → Nat
  | .logicalOr => 1
  | .logicalAnd => 2
  | .looseEq | .looseNe | .strictEq | .strictNe => 3
  | .less | .greater | .lessEq | .greaterEq => 4
  | .add | .subtract => 5
  | .multiply | .divide | .remainder => 6

def UnaryOp.punctuator : UnaryOp → Punctuator
  | .not => .bang
  | .minus => .minus
  | .plus => .plus

namespace Source

open Token (Kind)

/-- How tightly the parts of an expression hold together: an assignment is the loosest, then come
the binary operators, then the unary ones. -/
def Expr.level : Expr → Nat
  | .assign .. => 0
  | .binary op _ _ => op.strength
  | .unary .. | .typeof _ | .delete _ => 7
  | _ => 8

/-- How numbers and strings are written. -/
structure Spelling where
  number : Float → String
  string : String → String
  spells_number : ∀ x, Denoted x → Lexer.Spells (number x) (.number (number x))
  ofLiteral_number : ∀ x, Denoted x → Numeral.ofLiteral (number x).toList = x
  spells_string : ∀ s, Lexer.Spells (string s) (.string s)

open Classical in
/-- Each number by some literal that stands for it, each string between double quotes. -/
noncomputable def Spelling.standard : Spelling where
  number x := if h : Denoted x then h.choose else ""
  string := Lexer.literal
  spells_number x h := by
    rw [dif_pos h]
    exact h.choose_spec.1
  ofLiteral_number x h := by
    rw [dif_pos h]
    exact h.choose_spec.2
  spells_string := Lexer.spells_literal

/-- Some tokens between parentheses. -/
def parens (ks : List Kind) : List Kind :=
  .punctuator .openParen :: (ks ++ [.punctuator .closeParen])

def braces (ks : List Kind) : List Kind :=
  .punctuator .openBrace :: (ks ++ [.punctuator .closeBrace])

/-- An operand of a level, between parentheses if it is looser than its place allows. -/
def operand (least level : Nat) (ks : List Kind) : List Kind :=
  if level < least then parens ks else ks

/-- Names with commas between them. -/
def nameTokens : List String → List Kind
  | [] => []
  | [n] => [.identifier n]
  | n :: m :: ns => .identifier n :: .punctuator .comma :: nameTokens (m :: ns)

/-- Whether the text of an expression begins with a function. -/
def Expr.opensFunction : Expr → Bool
  | .function _ => true
  | .binary op l _ => op.strength ≤ l.level && l.opensFunction
  | .call f _ => f.level = 8 && f.opensFunction
  | _ => false

/-- Whether an expression would be read as something else where a statement begins: as a
declaration, or in sloppy code as a directive. -/
def Expr.misleads (strict : Bool) : Expr → Bool
  | .string _ => !strict
  | e => e.opensFunction

section Tokens

variable (σ : Spelling)

mutual

def Expr.tokens : Expr → List Kind
  | .number x => [.number (σ.number x)]
  | .string s => [.string s]
  | .bool b => [.keyword (if b then .trueKw else .falseKw)]
  | .null => [.keyword .nullKw]
  | .this => [.keyword .thisKw]
  | .identifier n => [.identifier n]
  | .assign n e => .identifier n :: .punctuator .assign :: e.tokens
  | .binary op l r => operand op.strength l.level l.tokens ++
      .punctuator op.punctuator :: operand (op.strength + 1) r.level r.tokens
  | .unary op e => .punctuator op.punctuator :: operand 7 e.level e.tokens
  | .typeof e => .keyword .typeofKw :: operand 7 e.level e.tokens
  | .delete e => .keyword .deleteKw :: operand 7 e.level e.tokens
  | .call f args => operand 8 f.level f.tokens ++ parens (Expr.listTokens args)
  | .function f => .keyword .functionKw :: f.tokens

/-- Expressions with commas between them. -/
def Expr.listTokens : List Expr → List Kind
  | [] => []
  | [e] => e.tokens
  | e :: e' :: es => e.tokens ++ .punctuator .comma :: Expr.listTokens (e' :: es)

def Stmt.tokens (strict : Bool) : Stmt → List Kind
  | .var ds => .keyword .varKw :: (Declarator.listTokens ds ++ [.punctuator .semicolon])
  | .function f => .keyword .functionKw :: f.tokens
  | .expr e =>
    (if e.misleads strict then parens e.tokens else e.tokens) ++ [.punctuator .semicolon]
  | .return none => [.keyword .returnKw, .punctuator .semicolon]
  | .return (some e) => .keyword .returnKw :: (e.tokens ++ [.punctuator .semicolon])
  | .if t c none => .keyword .ifKw :: (parens t.tokens ++ c.tokens strict)
  | .if t c (some a) => .keyword .ifKw ::
      (parens t.tokens ++ (c.tokens strict ++ .keyword .elseKw :: a.tokens strict))
  | .while t b => .keyword .whileKw :: (parens t.tokens ++ b.tokens strict)
  | .block b => braces (Stmt.listTokens strict b)
  | .try b h f => .keyword .tryKw :: (braces (Stmt.listTokens strict b) ++
      (Stmt.handlerTokens strict h ++ Stmt.finalizerTokens strict f))
  | .throw e => .keyword .throwKw :: (e.tokens ++ [.punctuator .semicolon])
  | .empty => [.punctuator .semicolon]

def Stmt.listTokens (strict : Bool) : List Stmt → List Kind
  | [] => []
  | s :: ss => s.tokens strict ++ Stmt.listTokens strict ss

def Declarator.listTokens : List Declarator → List Kind
  | [] => []
  | [⟨n, none⟩] => [.identifier n]
  | [⟨n, some e⟩] => .identifier n :: .punctuator .assign :: e.tokens
  | ⟨n, none⟩ :: d :: ds =>
    .identifier n :: .punctuator .comma :: Declarator.listTokens (d :: ds)
  | ⟨n, some e⟩ :: d :: ds => .identifier n :: .punctuator .assign ::
      (e.tokens ++ .punctuator .comma :: Declarator.listTokens (d :: ds))

def Stmt.handlerTokens (strict : Bool) : Option CatchClause → List Kind
  | none => []
  | some ⟨param, body⟩ => .keyword .catchKw ::
      (parens [.identifier param] ++ braces (Stmt.listTokens strict body))

def Stmt.finalizerTokens (strict : Bool) : Option (List Stmt) → List Kind
  | none => []
  | some body => .keyword .finallyKw :: braces (Stmt.listTokens strict body)

/-- A function behind its keyword. -/
def Function.tokens : Function → List Kind
  | ⟨self, params, body, strict⟩ => self.toList.map .identifier ++
      (parens (nameTokens params) ++ braces (Stmt.listTokens strict body))

end

/-- How a token is written. -/
def Spelling.word : Kind → String
  | .number w | .identifier w => w
  | .string s => σ.string s
  | .keyword k => k.text
  | .punctuator p => p.text
  | .unknown | .endOfFile => ""

/-- Tokens with a blank behind each of them. -/
def Spelling.chars (ks : List Kind) : List Char := ks.flatMap fun k => (σ.word k).toList ++ [' ']

def Program.text (p : Program) : String :=
  String.ofList (σ.chars (Stmt.listTokens σ p.strict p.body))

end Tokens

/-- How many levels an expression opens where any may stand, `n` of them inside of it. Each statement,
each expression and each operand of a unary operator opens a level; a parenthesis adds the levels of
the expression inside. -/
def wholeNesting (level n : Nat) : Nat := 1 + if 7 ≤ level then 1 + n else n

/-- How many levels the callee of a call opens. -/
def calleeNesting (level n : Nat) : Nat := if level < 8 then wholeNesting level n else n

/-- How many levels an operand opens where it may be no looser than `least`. -/
def operandNesting (least level n : Nat) : Nat :=
  if level < least then 1 + wholeNesting level n else if 7 ≤ level then 1 + n else n

mutual

def Expr.nesting : Expr → Nat
  | .number _ | .string _ | .bool _ | .null | .this | .identifier _ => 0
  | .assign _ e => max 1 (wholeNesting e.level e.nesting)
  | .binary op l r => max (operandNesting op.strength l.level l.nesting)
      (operandNesting (op.strength + 1) r.level r.nesting)
  | .unary _ e | .typeof e | .delete e => operandNesting 7 e.level e.nesting
  | .call f args => max (calleeNesting f.level f.nesting) (Expr.listNesting args)
  | .function f => f.nesting

def Expr.listNesting : List Expr → Nat
  | [] => 0
  | e :: es => max (wholeNesting e.level e.nesting) (Expr.listNesting es)

def Stmt.nesting (strict : Bool) : Stmt → Nat
  | .var ds => 1 + Declarator.listNesting ds
  | .function f => 1 + f.nesting
  | .expr e =>
    let n := wholeNesting e.level e.nesting
    1 + if e.misleads strict then wholeNesting 8 n else n
  | .return none | .empty => 1
  | .return (some e) | .throw e => 1 + wholeNesting e.level e.nesting
  | .if t c none => 1 + max (wholeNesting t.level t.nesting) (c.nesting strict)
  | .if t c (some a) =>
    1 + max (wholeNesting t.level t.nesting) (max (c.nesting strict) (a.nesting strict))
  | .while t b => 1 + max (wholeNesting t.level t.nesting) (b.nesting strict)
  | .block b => 1 + Stmt.listNesting strict b
  | .try b h f => 1 + max (Stmt.listNesting strict b)
      (max (Stmt.handlerNesting strict h) (Stmt.finalizerNesting strict f))

def Stmt.listNesting (strict : Bool) : List Stmt → Nat
  | [] => 0
  | s :: ss => max (s.nesting strict) (Stmt.listNesting strict ss)

def Declarator.listNesting : List Declarator → Nat
  | [] => 0
  | ⟨_, none⟩ :: ds => Declarator.listNesting ds
  | ⟨_, some e⟩ :: ds => max (wholeNesting e.level e.nesting) (Declarator.listNesting ds)

def Stmt.handlerNesting (strict : Bool) : Option CatchClause → Nat
  | none => 0
  | some ⟨_, body⟩ => Stmt.listNesting strict body

def Stmt.finalizerNesting (strict : Bool) : Option (List Stmt) → Nat
  | none => 0
  | some body => Stmt.listNesting strict body

def Function.nesting : Function → Nat
  | ⟨_, _, body, strict⟩ => Stmt.listNesting strict body

end

/-- How many levels the text of a program opens one inside the other. -/
def Program.nesting (p : Program) : Nat := Stmt.listNesting p.strict p.body

section Words

variable {σ : Spelling} {ks ls : List Kind}

/-- Each token is what its text is read as. -/
def Written (σ : Spelling) (ks : List Kind) : Prop := ∀ k ∈ ks, Lexer.Spells (σ.word k) k

theorem written_nil : Written σ [] := nofun

theorem Written.cons {k : Kind} (hk : Lexer.Spells (σ.word k) k) (h : Written σ ks) :
    Written σ (k :: ks) := List.forall_mem_cons.2 ⟨hk, h⟩

theorem Written.append (h : Written σ ks) (h' : Written σ ls) : Written σ (ks ++ ls) :=
  List.forall_mem_append.2 ⟨h, h'⟩

theorem Written.keyword (k : Keyword) (h : Written σ ks) : Written σ (.keyword k :: ks) :=
  h.cons (Lexer.spells_keyword k)

theorem Written.punctuator (p : Punctuator) (h : Written σ ks) :
    Written σ (.punctuator p :: ks) := h.cons (Lexer.spells_punctuator p)

theorem Written.ended (p : Punctuator) (h : Written σ ks) : Written σ (ks ++ [.punctuator p]) :=
  h.append (written_nil.punctuator p)

theorem Written.parens (h : Written σ ks) : Written σ (parens ks) := (h.ended _).punctuator _

theorem Written.braces (h : Written σ ks) : Written σ (braces ks) := (h.ended _).punctuator _

theorem Written.operand (h : Written σ ks) (least level : Nat) :
    Written σ (operand least level ks) := by
  unfold Source.operand
  split
  · exact h.parens
  · exact h

theorem Written.identifier {n : String} (hn : IsWord n) (h : Written σ ks) :
    Written σ (.identifier n :: ks) := h.cons hn

theorem written_nameTokens {ns : List String} (h : ∀ n ∈ ns, IsWord n) :
    Written σ (nameTokens ns) := by
  fun_induction nameTokens ns with
  | case1 => exact written_nil
  | case2 n => exact written_nil.identifier (h n (by simp))
  | case3 n m ns ih =>
    exact ((ih fun n hn => h n (List.mem_cons_of_mem _ hn)).punctuator _).identifier (h n (by simp))

mutual

theorem Expr.written_tokens {strict : Bool} : (e : Expr) → e.Grammatical strict → Written σ (e.tokens σ)
  | .number x, h => written_nil.cons (σ.spells_number x h)
  | .string s, _ => written_nil.cons (σ.spells_string s)
  | .bool _, _ | .null, _ | .this, _ => written_nil.keyword _
  | .identifier _, h => written_nil.identifier h
  | .assign _ e, h => ((e.written_tokens h.2).punctuator _).identifier h.1.word
  | .binary _ l r, h => ((l.written_tokens h.1).operand _ _).append
      (((r.written_tokens h.2).operand _ _).punctuator _)
  | .unary _ e, h => ((e.written_tokens h).operand _ _).punctuator _
  | .typeof e, h => ((e.written_tokens h).operand _ _).keyword _
  | .delete e, h => ((e.written_tokens h.1).operand _ _).keyword _
  | .call f args, h =>
    ((f.written_tokens h.1).operand _ _).append (Expr.written_listTokens args h.2).parens
  | .function f, h => (f.written_tokens h).keyword _

theorem Expr.written_listTokens {strict : Bool} : (es : List Expr) → Expr.AllGrammatical strict es →
    Written σ (Expr.listTokens σ es)
  | [], _ => written_nil
  | [e], h => e.written_tokens h.1
  | e :: e' :: es, h =>
    (e.written_tokens h.1).append ((Expr.written_listTokens (e' :: es) h.2).punctuator _)

theorem Stmt.written_tokens {strict inside : Bool} : (s : Stmt) → s.Grammatical strict inside →
    Written σ (s.tokens σ strict)
  | .var ds, h => ((Declarator.written_listTokens ds h.2).ended _).keyword _
  | .function f, h => (f.written_tokens h.2).keyword _
  | .expr e, h => by
    have he : Written σ (e.tokens σ) := e.written_tokens h
    rw [Stmt.tokens]
    split
    · exact he.parens.ended _
    · exact he.ended _
  | .return none, _ => (written_nil.punctuator _).keyword _
  | .return (some e), h => ((e.written_tokens h.2).ended _).keyword _
  | .if t c none, h =>
    ((t.written_tokens h.1).parens.append (c.written_tokens h.2)).keyword _
  | .if t c (some a), h => ((t.written_tokens h.1).parens.append
      ((c.written_tokens h.2.1).append ((a.written_tokens h.2.2.2).keyword _))).keyword _
  | .while t b, h => ((t.written_tokens h.1).parens.append (b.written_tokens h.2)).keyword _
  | .block b, h => (Stmt.written_listTokens b h).braces
  | .try b c f, h => ((Stmt.written_listTokens b h.2.1).braces.append
      ((Stmt.written_handlerTokens c h.2.2.1).append
        (Stmt.written_finalizerTokens f h.2.2.2))).keyword _
  | .throw e, h => ((e.written_tokens h).ended _).keyword _
  | .empty, _ => written_nil.punctuator _

theorem Stmt.written_listTokens {strict inside : Bool} : (ss : List Stmt) →
    Stmt.AllGrammatical strict inside ss → Written σ (Stmt.listTokens σ strict ss)
  | [], _ => written_nil
  | s :: ss, h => (s.written_tokens h.1).append (Stmt.written_listTokens ss h.2)

theorem Declarator.written_listTokens {strict : Bool} : (ds : List Declarator) →
    Declarator.AllGrammatical strict ds → Written σ (Declarator.listTokens σ ds)
  | [], _ => written_nil
  | [⟨_, none⟩], h => written_nil.identifier h.1.word
  | [⟨_, some e⟩], h => ((e.written_tokens h.2.1).punctuator _).identifier h.1.word
  | ⟨_, none⟩ :: d :: ds, h =>
    ((Declarator.written_listTokens (d :: ds) h.2).punctuator _).identifier h.1.word
  | ⟨_, some e⟩ :: d :: ds, h => (((e.written_tokens h.2.1).append
      ((Declarator.written_listTokens (d :: ds) h.2.2).punctuator _)).punctuator _).identifier
        h.1.word

theorem Stmt.written_handlerTokens {strict inside : Bool} : (c : Option CatchClause) →
    Stmt.HandlerGrammatical strict inside c → Written σ (Stmt.handlerTokens σ strict c)
  | none, _ => written_nil
  | some ⟨_, body⟩, h => ((written_nil.identifier h.1.word).parens.append
      (Stmt.written_listTokens body h.2).braces).keyword _

theorem Stmt.written_finalizerTokens {strict inside : Bool} : (f : Option (List Stmt)) →
    Stmt.FinalizerGrammatical strict inside f → Written σ (Stmt.finalizerTokens σ strict f)
  | none, _ => written_nil
  | some body, h => (Stmt.written_listTokens body h).braces.keyword _

theorem Function.written_tokens {strict : Bool} : (f : Function) → f.Grammatical strict →
    Written σ (f.tokens σ)
  | ⟨self, params, body, strict⟩, ⟨_, _, hself, hparams, _, hbody⟩ => by
    have hname : Written σ (self.toList.map .identifier) := by
      cases self with
      | none => exact written_nil
      | some n => exact written_nil.identifier (hself n rfl).word
    exact hname.append ((written_nameTokens fun n hn => (hparams n hn).word).parens.append
      (Stmt.written_listTokens body hbody).braces)

end

end Words

end Source

namespace Lexer

variable {σ : Source.Spelling} {ks : List Token.Kind}

theorem Spells.ne_endOfFile {w : String} {k : Token.Kind} (h : Spells w k) : k ≠ .endOfFile := by
  rintro rfl
  have hstep := h 0 []
  have hkind := congrArg (fun s => s.token.kind) hstep
  have hrest := congrArg (fun s => s.next.rest) hstep
  simp only [step] at hkind hrest
  rw [lexeme_kind_eq_endOfFile hkind] at hrest
  exact absurd hrest (by simp [lexeme])

theorem step_blank (pos : Nat) (cs : List Char) : step ⟨pos, ' ' :: cs⟩ = step ⟨pos + 1, cs⟩ := by
  have hgap : gap .outside false pos (' ' :: cs) = gap .outside false (pos + 1) cs := rfl
  simp only [step, hgap]

theorem readFrom_blank (fuel pos : Nat) (cs : List Char) :
    readFrom fuel ⟨pos, ' ' :: cs⟩ = readFrom fuel ⟨pos + 1, cs⟩ := by
  cases fuel with
  | zero => simp only [readFrom, step_blank]
  | succ fuel => simp only [readFrom, step_blank]

/-- What reading some written tokens from a position on gives: one behind the other, with no line
break between them and the end of the file behind them. -/
structure Restored (pos : Nat) (ks : List Token.Kind) (r : Reading) : Prop where
  problems : r.problems = []
  kinds : r.tokens.map Token.kind = ks ++ [.endOfFile]
  ascending : r.tokens.Pairwise fun t u => t.span.start < u.span.start
  behind : ∀ t ∈ r.tokens, pos ≤ t.span.start
  unbroken : ∀ t ∈ r.tokens, t.afterLineBreak = false

theorem restored_readFrom (h : Source.Written σ ks) (fuel pos : Nat) (hfuel : ks.length ≤ fuel) :
    Restored pos ks (readFrom fuel ⟨pos, σ.chars ks⟩) := by
  induction ks generalizing fuel pos with
  | nil =>
    have hread : readFrom fuel ⟨pos, []⟩ = ⟨[⟨.endOfFile, ⟨pos, pos⟩, false⟩], []⟩ := by
      cases fuel <;> rfl
    rw [show σ.chars [] = [] from rfl, hread]
    exact ⟨rfl, rfl, List.pairwise_singleton _ _, by simp, by simp⟩
  | cons k ks ih =>
    have hk := h k List.mem_cons_self
    obtain ⟨fuel, rfl⟩ := Nat.exists_eq_add_of_le' hfuel
    have hrest := ih (fun k hk => h k (List.mem_cons_of_mem _ hk)) (fuel + ks.length)
      (pos + (σ.word k).length + 1) (Nat.le_add_left _ _)
    have hchars : σ.chars (k :: ks) = (σ.word k).toList ++ ' ' :: σ.chars ks := by
      simp [Source.Spelling.chars]
    rw [hchars, List.length_cons, ← Nat.add_assoc, readFrom, hk, if_neg hk.ne_endOfFile]
    simp only [readFrom_blank, List.nil_append]
    exact {
      problems := hrest.problems
      kinds := by rw [List.map_cons, hrest.kinds, List.cons_append]
      ascending := List.pairwise_cons.2 ⟨fun t ht => by
        have := hrest.behind t ht
        dsimp only
        omega, hrest.ascending⟩
      behind := List.forall_mem_cons.2 ⟨Nat.le_refl _, fun t ht => by
        have := hrest.behind t ht
        omega⟩
      unbroken := List.forall_mem_cons.2 ⟨rfl, hrest.unbroken⟩ }

/-- The text of some tokens is read as these tokens. -/
theorem restored_read (h : Source.Written σ ks) :
    Restored 0 ks (read (String.ofList (σ.chars ks))) := by
  have hlength : ks.length ≤ (σ.chars ks).length := by
    clear h
    induction ks with
    | nil => exact Nat.zero_le _
    | cons k ks ih =>
      rw [Source.Spelling.chars, List.flatMap_cons, List.length_append, List.length_append,
        List.length_singleton, List.length_cons]
      have : ks.length ≤ (ks.flatMap fun k => (σ.word k).toList ++ [' ']).length := ih
      omega
  rw [read, String.toList_ofList]
  exact restored_readFrom h _ 0 (by rwa [String.length_ofList])

end Lexer

end ScopeChain
