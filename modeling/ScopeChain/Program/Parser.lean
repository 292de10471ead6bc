import ScopeChain.Numeral
import ScopeChain.Program
import ScopeChain.Token.Lexer

/-! From tokens to programs, by recursive descent. A faulty text gives a program too: what is
missing is reported and replaced, and a token that fits nowhere is dropped. -/
namespace ScopeChain.Parser

/-- How deep statements and expressions may nest before the innermost is given up. -/
def maxDepth : Nat := 200

structure State where
  /-- The token to be read next. -/
  token : Token
  rest : List Token
  names : Interner
  nextId : NodeId
  /-- How many statements and expressions are being read, one inside the other. -/
  depth : Nat
  /-- How many function bodies are being read, one inside the other. -/
  functionDepth : Nat
  /-- What was reported so far, the latest first. -/
  problems : Diagnostics

abbrev ParseM := StateM State

def kind : ParseM Token.Kind := return (← get).token.kind

def span : ParseM Span := return (← get).token.span

/-- Goes on to the next token; the last one stays. -/
def advance : ParseM Unit := modify fun s =>
  match s.rest with
  | [] => s
  | t :: ts => { s with token := t, rest := ts }

def reportAt (at_ : Span) (m : Message) (args : List String) : ParseM Unit :=
  modify fun s => { s with problems := .located "" at_ m args :: s.problems }

/-- Reports something about the token to be read next. -/
def report (m : Message) (args : List String) : ParseM Unit := do reportAt (← span) m args

def freshId : ParseM NodeId := modifyGet fun s => (s.nextId, { s with nextId := s.nextId + 1 })

def intern (text : String) : ParseM Name := modifyGet fun s =>
  let (n, names) := s.names.intern text
  (n, { s with names })

/-- Reads a token of the given kind if it comes next. -/
def accept (k : Token.Kind) : ParseM Bool := do
  if (← kind) = k then
    advance
    return true
  return false

/-- Reads a punctuator, or reports that it is missing. -/
def expect (p : Punctuator) : ParseM Bool := do
  if ← accept (.punctuator p) then return true
  report .tokenExpected [p.text]
  return false

/-- Whether a block ends here. -/
def atBlockEnd (k : Token.Kind) : Bool := k = .punctuator .closeBrace || k = .endOfFile

/-- Reads the end of a statement. The semicolon may be missing before a closing brace, at the end
of the file and at a line break. -/
def endStatement : ParseM Unit := do
  unless ← accept (.punctuator .semicolon) do
    let t := (← get).token
    unless atBlockEnd t.kind || t.afterLineBreak do
      report .tokenExpected [Punctuator.semicolon.text]

/-- Reads a name. A missing one is the empty name, and the token in its place stays. -/
def identifier : ParseM Identifier := do
  let at_ ← span
  let name ← match ← kind with
    | .identifier text => do
      let n ← intern text
      advance
      pure n
    | _ => do
      report .identifierExpected []
      intern ""
  return ⟨← freshId, name, at_⟩

/-- The names that strict code may neither bind nor assign. -/
def isReserved (n : Name) : Bool := n = .eval || n = .arguments

def checkBinding (strict : Bool) (i : Identifier) : ParseM Unit := do
  if strict && isReserved i.name then
    reportAt i.span .strictName [(← get).names.text i.name]

/-- Checks the parameters of a function; `earlier` holds those before them. -/
def checkParams (strict : Bool) (earlier : List Name) : List Identifier → ParseM Unit
  | [] => return
  | p :: ps => do
    checkBinding strict p
    if strict && earlier.contains p.name then
      reportAt p.span .duplicateParameter [(← get).names.text p.name]
    checkParams strict (p.name :: earlier) ps

/-- The operator that a token stands for between two operands, and how tightly it binds. -/
def binaryOp? : Token.Kind → Option (BinaryOp × Nat)
  | .punctuator .barBar => some (.logicalOr, 1)
  | .punctuator .andAnd => some (.logicalAnd, 2)
  | .punctuator .eqEq => some (.looseEq, 3)
  | .punctuator .bangEq => some (.looseNe, 3)
  | .punctuator .eqEqEq => some (.strictEq, 3)
  | .punctuator .bangEqEq => some (.strictNe, 3)
  | .punctuator .less => some (.less, 4)
  | .punctuator .greater => some (.greater, 4)
  | .punctuator .lessEq => some (.lessEq, 4)
  | .punctuator .greaterEq => some (.greaterEq, 4)
  | .punctuator .plus => some (.add, 5)
  | .punctuator .minus => some (.subtract, 5)
  | .punctuator .star => some (.multiply, 6)
  | .punctuator .slash => some (.divide, 6)
  | .punctuator .percent => some (.remainder, 6)
  | _ => none

def unaryOp? : Token.Kind → Option UnaryOp
  | .punctuator .bang => some .not
  | .punctuator .minus => some .minus
  | .punctuator .plus => some .plus
  | _ => none

/-- Runs `inner` one level deeper, or reports `m` and answers `instead` where that is too deep. -/
def nested {α : Type} (m : Message) (instead : α) (inner : ParseM α) : ParseM α := do
  if maxDepth ≤ (← get).depth then
    report m []
    return instead
  modify fun s => { s with depth := s.depth + 1 }
  let a ← inner
  modify fun s => { s with depth := s.depth - 1 }
  return a

/-- Runs `body` as the body of a function. -/
def inFunction {α : Type} (body : ParseM α) : ParseM α := do
  modify fun s => { s with functionDepth := s.functionDepth + 1 }
  let a ← body
  modify fun s => { s with functionDepth := s.functionDepth - 1 }
  return a

/-- The span from `start` to the token to be read next. -/
def spanFrom (start : Nat) : ParseM Span := return ⟨start, max (← span).start start⟩

/-- Reads parameter names up to one that no comma follows. -/
def params : (fuel : Nat) → ParseM (List Identifier)
  | 0 => return []
  | fuel + 1 => do
    let p ← identifier
    if ← accept (.punctuator .comma) then return p :: (← params fuel)
    return [p]

/-- Whether a statement can belong to a directive prologue. -/
def isDirective : Stmt → Bool
  | .expr (.string _) => true
  | _ => false

/- Every reader below takes fuel, of which each call within it gets one unit less. Between two
tokens read there is only a bounded number of calls, so a multiple of the number of tokens is
enough. `strict` tells whether the code being read is strict. -/
mutual

def statement : (fuel : Nat) → (strict : Bool) → ParseM Stmt
  | 0, _ => return .empty
  | fuel + 1, strict => nested .statementExpected .empty do
    match ← kind with
    | .keyword .varKw =>
      advance
      let ds ← declarators fuel strict
      endStatement
      return .var ds
    | .keyword .functionKw =>
      advance
      return .function (← functionRest fuel strict true)
    | .keyword .returnKw =>
      let at_ ← span
      if (← get).functionDepth = 0 then report .returnOutsideFunction []
      advance
      let t := (← get).token
      let argument ←
        if t.kind = .punctuator .semicolon || atBlockEnd t.kind || t.afterLineBreak then pure none
        else some <$> expression fuel strict
      endStatement
      return .return argument at_
    | .keyword .ifKw =>
      advance
      let test ← condition fuel strict
      let consequent ← statement fuel strict
      if ← accept (.keyword .elseKw) then
        return .if test consequent (some (← statement fuel strict))
      return .if test consequent none
    | .keyword .whileKw =>
      advance
      let test ← condition fuel strict
      return .while test (← statement fuel strict)
    | .punctuator .openBrace => return .block (← block fuel strict)
    | .keyword .tryKw =>
      advance
      let body ← block fuel strict
      let handler ←
        if ← accept (.keyword .catchKw) then some <$> catchRest fuel strict else pure none
      let finalizer ←
        if ← accept (.keyword .finallyKw) then some <$> block fuel strict else pure none
      if handler.isNone && finalizer.isNone then report .catchOrFinallyExpected []
      return .try body handler finalizer
    | .keyword .throwKw =>
      advance
      let argument ← expression fuel strict
      endStatement
      return .throw argument
    | .punctuator .semicolon =>
      advance
      return .empty
    | .punctuator .closeBrace | .endOfFile =>
      report .statementExpected []
      return .empty
    | _ =>
      let e ← expression fuel strict
      endStatement
      return .expr e

/-- Reads a parenthesised condition. -/
def condition : (fuel : Nat) → (strict : Bool) → ParseM Expr
  | 0, _ => return .null
  | fuel + 1, strict => do
    let _ ← expect .openParen
    let test ← expression fuel strict
    let _ ← expect .closeParen
    return test

def declarators : (fuel : Nat) → (strict : Bool) → ParseM (List Declarator)
  | 0, _ => return []
  | fuel + 1, strict => do
    let target ← identifier
    checkBinding strict target
    let value ←
      if ← accept (.punctuator .assign) then some <$> expression fuel strict else pure none
    if ← accept (.punctuator .comma) then return ⟨target, value⟩ :: (← declarators fuel strict)
    return [⟨target, value⟩]

/-- Reads statements up to a token at which they end, and drops a token at which no statement can
begin. -/
def statements : (fuel : Nat) → (ends : Token.Kind → Bool) → (strict : Bool) → ParseM (List Stmt)
  | 0, _, _ => return []
  | fuel + 1, ends, strict => do
    if ends (← kind) then return []
    let start := (← span).start
    let s ← statement fuel strict
    if (← span).start = start && (← kind) ≠ .endOfFile then advance
    return s :: (← statements fuel ends strict)

def block : (fuel : Nat) → (strict : Bool) → ParseM (List Stmt)
  | 0, _ => return []
  | fuel + 1, strict => do
    if ← expect .openBrace then
      let body ← statements fuel atBlockEnd strict
      let _ ← expect .closeBrace
      return body
    return []

/-- Reads a catch clause behind its keyword. -/
def catchRest : (fuel : Nat) → (strict : Bool) → ParseM CatchClause
  | 0, _ => return ⟨← freshId, ⟨← freshId, default, default⟩, []⟩
  | fuel + 1, strict => do
    let id ← freshId
    let _ ← expect .openParen
    let param ← identifier
    checkBinding strict param
    let _ ← expect .closeParen
    return ⟨id, param, ← block fuel strict⟩

/-- Reads the statements at the head of a body that may be directives, the last of which need not
be one, and tells whether the body is strict. -/
def directives : (fuel : Nat) → (strict : Bool) → ParseM (List Stmt × Bool)
  | 0, strict => return ([], strict)
  | fuel + 1, strict => do
    match ← kind with
    | .string value =>
      let s ← statement fuel strict
      if isDirective s then
        let (ss, strict) ← directives fuel (strict || value = "use strict")
        return (s :: ss, strict)
      return ([s], strict)
    | _ => return ([], strict)

/-- Reads a function behind its keyword. Its own directives govern its name and its parameters
too, so these are checked last. -/
def functionRest : (fuel : Nat) → (strict : Bool) → (declaration : Bool) → ParseM FunctionDef
  | 0, strict, _ => return ⟨← freshId, none, [], [], strict, default⟩
  | fuel + 1, outer, declaration => do
    let start := (← span).start
    let id ← freshId
    let named := match ← kind with
      | .identifier _ => true
      | _ => declaration
    let self ← if named then some <$> identifier else pure none
    let _ ← expect .openParen
    let ps ← if (← kind) = .punctuator .closeParen then pure [] else params fuel
    let _ ← expect .closeParen
    let (body, strict) ← inFunction do
      if ← expect .openBrace then
        let (ds, strict) ← directives fuel outer
        let ss ← statements fuel atBlockEnd strict
        let _ ← expect .closeBrace
        return (ds ++ ss, strict)
      return ([], outer)
    if let some i := self then checkBinding strict i
    checkParams strict [] ps
    return ⟨id, self, ps, body, strict, ← spanFrom start⟩

/-- Reads an expression, which may be an assignment. -/
def expression : (fuel : Nat) → (strict : Bool) → ParseM Expr
  | 0, _ => return .null
  | fuel + 1, strict => nested .expressionExpected .null do
    let at_ ← span
    let left ← binary fuel strict 0
    if ← accept (.punctuator .assign) then
      let value ← expression fuel strict
      match left.identifier? with
      | some target =>
        checkBinding strict target
        return .assign target value
      | none =>
        reportAt at_ .assignmentTarget []
        return value
    return left

/-- Reads operands joined by operators that bind at least as tightly as `least`. -/
def binary : (fuel : Nat) → (strict : Bool) → (least : Nat) → ParseM Expr
  | 0, _, _ => return .null
  | fuel + 1, strict, least => do binaryRest fuel strict least (← unary fuel strict)

/-- Reads the operators and operands behind a left operand. -/
def binaryRest : (fuel : Nat) → (strict : Bool) → (least : Nat) → Expr → ParseM Expr
  | 0, _, _, left => return left
  | fuel + 1, strict, least, left => do
    match binaryOp? (← kind) with
    | some (op, strength) =>
      if strength < least then return left
      advance
      let right ← binary fuel strict (strength + 1)
      binaryRest fuel strict least (.binary op left right)
    | none => return left

def unary : (fuel : Nat) → (strict : Bool) → ParseM Expr
  | 0, _ => return .null
  | fuel + 1, strict => nested .expressionExpected .null do
    let at_ ← span
    match ← kind with
    | .keyword .typeofKw =>
      advance
      return .typeof (← unary fuel strict)
    | .keyword .deleteKw =>
      advance
      let operand ← unary fuel strict
      if strict && operand.identifier?.isSome then reportAt at_ .strictDelete []
      return .delete operand (← spanFrom at_.start)
    | k =>
      match unaryOp? k with
      | some op =>
        advance
        return .unary op (← unary fuel strict)
      | none => callRest fuel strict at_.start (← primary fuel strict)

/-- Reads the argument lists behind a callee that starts at `start`. -/
def callRest : (fuel : Nat) → (strict : Bool) → (start : Nat) → Expr → ParseM Expr
  | 0, _, _, callee => return callee
  | fuel + 1, strict, start, callee => do
    if ← accept (.punctuator .openParen) then
      let args ← if (← kind) = .punctuator .closeParen then pure [] else arguments fuel strict
      let stop := (← span).stop
      let _ ← expect .closeParen
      callRest fuel strict start (.call callee args ⟨start, stop⟩)
    else return callee

/-- Reads arguments up to one that no comma follows. -/
def arguments : (fuel : Nat) → (strict : Bool) → ParseM (List Expr)
  | 0, _ => return []
  | fuel + 1, strict => do
    let e ← expression fuel strict
    if ← accept (.punctuator .comma) then return e :: (← arguments fuel strict)
    return [e]

def primary : (fuel : Nat) → (strict : Bool) → ParseM Expr
  | 0, _ => return .null
  | fuel + 1, strict => do
    let at_ ← span
    match ← kind with
    | .number text =>
      advance
      return .number (Numeral.ofLiteral text.toList)
    | .string value =>
      advance
      return .string value
    | .keyword .trueKw =>
      advance
      return .bool true
    | .keyword .falseKw =>
      advance
      return .bool false
    | .keyword .nullKw =>
      advance
      return .null
    | .keyword .thisKw =>
      advance
      return .this ⟨← freshId, .this, at_⟩
    | .identifier _ => return .identifier (← identifier)
    | .keyword .functionKw =>
      advance
      return .function (← functionRest fuel strict false)
    | .punctuator .openParen =>
      advance
      let e ← expression fuel strict
      let _ ← expect .closeParen
      return e
    | _ =>
      report .expressionExpected []
      return .null

end

def program (fuel : Nat) (file : String) (strict : Bool) : ParseM Program := do
  let id ← freshId
  let (ds, strict) ← directives fuel strict
  let ss ← statements fuel (· = .endOfFile) strict
  return ⟨id, file, ds ++ ss, strict, ⟨0, (← span).stop⟩⟩

/-- The state before the first of some tokens. -/
def State.start (tokens : List Token) (names : Interner) : State where
  token := tokens.headD ⟨.endOfFile, ⟨0, 0⟩, false⟩
  rest := tokens.tail
  names := names
  nextId := 0
  depth := 0
  functionDepth := 0
  problems := []

/-- Fuel for reading some tokens. -/
def fuelFor (tokens : List Token) : Nat := 16 * tokens.length + 16

/-- A program with all that was reported while reading it. -/
structure Result where
  program : Program
  diagnostics : Diagnostics
  nodeCount : Nat
  names : Interner

/-- Reads a text as the program of a file. -/
def parse (file text : String) (strict : Bool) (names : Interner) : Result :=
  let reading := Lexer.read text
  let (p, s) := (program (fuelFor reading.tokens) file strict).run (.start reading.tokens names)
  { program := p
    diagnostics := (Diagnostics.attributeTo file (reading.problems ++ s.problems.reverse)).sort
    nodeCount := s.nextId
    names := s.names }

end ScopeChain.Parser
