import ScopeChain.Diagnostic
import ScopeChain.Text.Hexadecimal
import ScopeChain.Token
import ScopeChain.Unicode.Blank
import ScopeChain.Unicode.Identifier

/-! From characters to tokens. White space and comments separate tokens and leave nothing behind
but the mark of a line break. -/
namespace ScopeChain.Lexer

def isLineBreak (c : Char) : Bool :=
  c = '\n' || c = '\r' || c = '\u2028' || c = '\u2029'

/-- White space, the byte order mark included. -/
def isBlank (c : Char) : Bool := Unicode.isWhiteSpace c || c = '\ufeff'

def isIdentifierStart (c : Char) : Bool := c = '$' || c = '_' || Unicode.xid.start c

def isIdentifierPart (c : Char) : Bool := c = '$' || Unicode.xid.part c

/-- The comment that a position lies in, a block comment with the place where it opens. -/
inductive Comment where
  | outside
  | line
  | block (start : Nat)
deriving DecidableEq, Repr

/-- What stands between two tokens: where it ends, the characters behind it, whether it breaks
the line and where a comment opens that is never closed. -/
structure Gap where
  stop : Nat
  rest : List Char
  lineBreak : Bool
  unclosed? : Option Nat
deriving DecidableEq, Repr

/-- The gap that reaches from `pos` to the next token. -/
def gap : Comment → (lineBreak : Bool) → (pos : Nat) → List Char → Gap
  | .outside, lb, pos, [] => ⟨pos, [], lb, none⟩
  | .line, lb, pos, [] => ⟨pos, [], lb, none⟩
  | .block start, lb, pos, [] => ⟨pos, [], lb, some start⟩
  | .outside, lb, pos, '/' :: '/' :: cs => gap .line lb (pos + 2) cs
  | .outside, lb, pos, '/' :: '*' :: cs => gap (.block pos) lb (pos + 2) cs
  | .outside, lb, pos, c :: cs =>
    if isLineBreak c then gap .outside true (pos + 1) cs
    else if isBlank c then gap .outside lb (pos + 1) cs
    else ⟨pos, c :: cs, lb, none⟩
  | .line, lb, pos, c :: cs =>
    if isLineBreak c then gap .outside true (pos + 1) cs else gap .line lb (pos + 1) cs
  | .block _, lb, pos, '*' :: '/' :: cs => gap .outside lb (pos + 2) cs
  | .block start, lb, pos, c :: cs => gap (.block start) (lb || isLineBreak c) (pos + 1) cs

/-- One token's share of the text. -/
structure Lexeme where
  kind : Token.Kind
  width : Nat
  rest : List Char
  problem? : Option Message
deriving DecidableEq, Repr

/-- The first `width` characters as a token of some kind. -/
def Lexeme.ofWidth (kind : String → Token.Kind) (width : Nat) (cs : List Char) : Lexeme :=
  ⟨kind (String.ofList (cs.take width)), width, cs.drop width, none⟩

/-- How many characters an exponent takes, none if no digit follows its sign. -/
def exponentWidth : List Char → Nat
  | [] => 0
  | c :: cs =>
    if c = 'e' ∨ c = 'E' then
      let sign := match cs with
        | '+' :: _ | '-' :: _ => 1
        | _ => 0
      let digits := ((cs.drop sign).takeWhile Char.isDigit).length
      if digits = 0 then 0 else 1 + sign + digits
    else 0

/-- How many characters a point and the digits behind it take. -/
def fractionWidth : List Char → Nat
  | '.' :: cs => 1 + (cs.takeWhile Char.isDigit).length
  | _ => 0

def decimalWidth (cs : List Char) : Nat :=
  let whole := (cs.takeWhile Char.isDigit).length
  let mantissa := whole + fractionWidth (cs.drop whole)
  mantissa + exponentWidth (cs.drop mantissa)

def numberWidth : List Char → Nat
  | '0' :: x :: cs =>
    if x = 'x' ∨ x = 'X' then 2 + (cs.takeWhile Text.isHexDigit).length
    else decimalWidth ('0' :: x :: cs)
  | cs => decimalWidth cs

/-- The character written as four hexadecimal digits, the first of which may be a plus sign. -/
def escapedUnit? (digits : List Char) : Option Char :=
  (Text.hexValue? UInt32.size digits).bind fun n =>
    if n.isValidChar then some (Char.ofNat n) else none

/-- What a backslash and one more character stand for, if not for that character itself. -/
def escapedLetter? : Char → Option Char
  | 'n' => some '\n'
  | 't' => some '\t'
  | 'r' => some '\r'
  | '0' => some '\x00'
  | _ => none

/-- The inside of a string literal up to its closing quote, with the characters decoded so far in
reverse and the number of characters read. -/
def stringBody (quote : Char) (value : List Char) (width : Nat) : List Char → Lexeme
  | [] => ⟨.string (String.ofList value.reverse), width, [], some .unterminatedString⟩
  | c :: cs =>
    if c = quote then ⟨.string (String.ofList value.reverse), width + 1, cs, none⟩
    else if isLineBreak c then
      ⟨.string (String.ofList value.reverse), width, c :: cs, some .unterminatedString⟩
    else if c = '\\' then
      match cs with
      | [] => ⟨.string (String.ofList value.reverse), width + 1, [], some .unterminatedString⟩
      | '\n' :: ds => stringBody quote value (width + 2) ds
      | 'u' :: a :: b :: d :: e :: ds =>
        match escapedUnit? [a, b, d, e] with
        | some u => stringBody quote (u :: value) (width + 6) ds
        | none => stringBody quote ('u' :: value) (width + 2) (a :: b :: d :: e :: ds)
      | x :: ds => stringBody quote ((escapedLetter? x).getD x :: value) (width + 2) ds
    else stringBody quote (c :: value) (width + 1) cs

def startsNumber : List Char → Bool
  | '.' :: c :: _ => c.isDigit
  | c :: _ => c.isDigit
  | [] => false

def wordKind (s : String) : Token.Kind :=
  match Keyword.ofText? s with
  | some k => .keyword k
  | none => .identifier s

/-- The token at the head of a text that starts with no blank, no line break and no comment. -/
def lexeme : List Char → Lexeme
  | [] => ⟨.endOfFile, 0, [], none⟩
  | c :: cs =>
    match Punctuator.atHead? (c :: cs) with
    | some p => .ofWidth (fun _ => .punctuator p) p.text.length (c :: cs)
    | none =>
      if c = '"' ∨ c = '\'' then stringBody c [] 1 cs
      else if startsNumber (c :: cs) then .ofWidth .number (numberWidth (c :: cs)) (c :: cs)
      else if isIdentifierStart c then
        .ofWidth wordKind ((c :: cs).takeWhile isIdentifierPart).length (c :: cs)
      else ⟨.unknown, 1, cs, some .invalidCharacter⟩

/-- A place in a text: the characters still to be read and the position of the first of them. -/
structure Cursor where
  pos : Nat
  rest : List Char
deriving DecidableEq, Repr

/-- A token, the place behind it and what is wrong with it and with the gap before it. -/
structure Step where
  token : Token
  next : Cursor
  problems : Diagnostics
deriving DecidableEq, Repr

/-- Reads the next token. -/
def step (at_ : Cursor) : Step :=
  let g := gap .outside false at_.pos at_.rest
  let l := lexeme g.rest
  let span : Span := ⟨g.stop, g.stop + l.width⟩
  { token := ⟨l.kind, span, g.lineBreak⟩
    next := ⟨span.stop, l.rest⟩
    problems :=
      (g.unclosed?.map fun start =>
        Diagnostic.located "" ⟨start, g.stop⟩ .commentEndExpected []).toList ++
      (l.problem?.map fun m => Diagnostic.located "" span m []).toList }

/-- The tokens of a text, the end of the file last, and what is wrong with its spelling. -/
structure Reading where
  tokens : List Token
  problems : Diagnostics
deriving DecidableEq, Repr

/-- Reads tokens until the end of the file, at most one more than `fuel`. -/
def readFrom : (fuel : Nat) → Cursor → Reading
  | 0, c => let s := step c; ⟨[s.token], s.problems⟩
  | fuel + 1, c =>
    let s := step c
    if s.token.kind = .endOfFile then ⟨[s.token], s.problems⟩
    else
      let r := readFrom fuel s.next
      ⟨s.token :: r.tokens, s.problems ++ r.problems⟩

/-- Reads a whole text; each token but the last takes a character, so the fuel is enough. -/
def read (text : String) : Reading := readFrom text.length ⟨0, text.toList⟩

end ScopeChain.Lexer
