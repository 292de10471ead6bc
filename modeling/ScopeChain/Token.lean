import ScopeChain.Span

/-! The words of the language: punctuators, keywords and tokens with their place in the text. -/
namespace ScopeChain

inductive Punctuator where
  | openBrace | closeBrace | openParen | closeParen | semicolon | comma
  | less | greater | lessEq | greaterEq
  | eqEq | bangEq | eqEqEq | bangEqEq
  | plus | minus | star | slash | percent | bang | andAnd | barBar | assign
deriving DecidableEq, Repr

namespace Punctuator

def text : Punctuator → String
  | openBrace => "\x7b"
  | closeBrace => "\x7d"
  | openParen => "("
  | closeParen => ")"
  | semicolon => ";"
  | comma => ","
  | less => "<"
  | greater => ">"
  | lessEq => "<="
  | greaterEq => ">="
  | eqEq => "=="
  | bangEq => "!="
  | eqEqEq => "==="
  | bangEqEq => "!=="
  | plus => "+"
  | minus => "-"
  | star => "*"
  | slash => "/"
  | percent => "%"
  | bang => "!"
  | andAnd => "&&"
  | barBar => "||"
  | assign => "="

/-- Every punctuator, none before a longer one that it begins. -/
def longestFirst : List Punctuator :=
  [eqEqEq, bangEqEq, eqEq, bangEq, lessEq, greaterEq, andAnd, barBar,
    openBrace, closeBrace, openParen, closeParen, semicolon, comma, less, greater,
    plus, minus, star, slash, percent, bang, assign]

/-- The longest punctuator at the head of a text. -/
def atHead? (cs : List Char) : Option Punctuator :=
  longestFirst.find? fun p => p.text.toList.isPrefixOf cs

end Punctuator

inductive Keyword where
  | catchKw | deleteKw | elseKw | falseKw | finallyKw | functionKw | ifKw | nullKw
  | returnKw | thisKw | throwKw | trueKw | tryKw | typeofKw | varKw | whileKw
deriving DecidableEq, Repr

namespace Keyword

def text : Keyword → String
  | catchKw => "catch"
  | deleteKw => "delete"
  | elseKw => "else"
  | falseKw => "false"
  | finallyKw => "finally"
  | functionKw => "function"
  | ifKw => "if"
  | nullKw => "null"
  | returnKw => "return"
  | thisKw => "this"
  | throwKw => "throw"
  | trueKw => "true"
  | tryKw => "try"
  | typeofKw => "typeof"
  | varKw => "var"
  | whileKw => "while"

def all : List Keyword :=
  [catchKw, deleteKw, elseKw, falseKw, finallyKw, functionKw, ifKw, nullKw,
    returnKw, thisKw, throwKw, trueKw, tryKw, typeofKw, varKw, whileKw]

def ofText? (s : String) : Option Keyword := all.find? fun k => k.text = s

end Keyword

/-- What a token is, with the text or the decoded value it carries. -/
inductive Token.Kind where
  | unknown
  | endOfFile
  | number (text : String)
  | string (value : String)
  | identifier (name : String)
  | keyword (k : Keyword)
  | punctuator (p : Punctuator)
deriving DecidableEq, Repr

namespace Token.Kind

/-- The name of a word, the decoded string, the spelling of a number, else nothing. -/
def value : Kind → String
  | number s | string s | identifier s => s
  | keyword k => k.text
  | unknown | endOfFile | punctuator _ => ""

/-- The fixed spelling of the kind, if all its tokens are spelt alike. -/
def symbol? : Kind → Option String
  | keyword k => some k.text
  | punctuator p => some p.text
  | _ => none

end Token.Kind

structure Token where
  kind : Token.Kind
  span : Span
  /-- Whether a line break stands between this token and the one before. -/
  afterLineBreak : Bool
deriving DecidableEq, Repr

end ScopeChain
