import ScopeChain.Span
import ScopeChain.Text.Substitution

/-! What is reported to the author of a script: message templates and located diagnostics. -/
namespace ScopeChain

inductive Severity where
  | warning
  | error
  | message
deriving DecidableEq, Repr

namespace Severity

instance : ToString Severity where
  toString
    | .warning => "warning"
    | .error => "error"
    | .message => "message"

end Severity

/-- A numbered text whose places for arguments are written as numbers in braces. -/
structure Message where
  code : Nat
  severity : Severity
  template : String
deriving DecidableEq, Repr

namespace Message

/-- Fills the places one number after the other, so a later number is also found in the text of
an earlier argument. -/
def fill (template : String) (args : List String) : String :=
  args.zipIdx.foldl (fun text (arg, i) => Text.substitute s!"\x7b{i}\x7d" arg text) template

def unterminatedString : Message := ⟨1002, .error, "Unterminated string literal."⟩
def identifierExpected : Message := ⟨1003, .error, "Identifier expected."⟩
def tokenExpected : Message := ⟨1005, .error, "'\x7b0\x7d' expected."⟩
def commentEndExpected : Message := ⟨1010, .error, "'*/' expected."⟩
def invalidCharacter : Message := ⟨1027, .error, "Invalid character."⟩
def strictName : Message := ⟨1100, .error, "Invalid use of '\x7b0\x7d' in strict mode."⟩
def strictDelete : Message :=
  ⟨1102, .error, "'delete' cannot be called on an identifier in strict mode."⟩
def returnOutsideFunction : Message :=
  ⟨1108, .error, "A 'return' statement can only be used within a function body."⟩
def expressionExpected : Message := ⟨1109, .error, "Expression expected."⟩
def statementExpected : Message := ⟨1128, .error, "Declaration or statement expected."⟩
def catchOrFinallyExpected : Message := ⟨1472, .error, "'catch' or 'finally' expected."⟩
def duplicateParameter : Message :=
  ⟨2300, .error, "Duplicate parameter '\x7b0\x7d' in strict mode."⟩
def assignmentTarget : Message :=
  ⟨2364, .error, "The left-hand side of an assignment expression must be a variable."⟩
def dynamicReference : Message :=
  ⟨6001, .message, "Reference to '\x7b0\x7d' is resolved by name at run time."⟩
def sloppyEval : Message :=
  ⟨6002, .message, "Direct eval in '\x7b0\x7d' may declare variables in its scope; " ++
    "names not declared there are resolved by name."⟩
def strictEval : Message :=
  ⟨6003, .message,
    "Strict direct eval in '\x7b0\x7d' declares its variables in a separate extensible scope."⟩

end Message

structure Diagnostic where
  file : Option String
  span : Option Span
  text : String
  code : Nat
  severity : Severity
deriving DecidableEq, Repr

namespace Diagnostic

/-- A filled-in message that stands nowhere. -/
def ofMessage (m : Message) (args : List String) : Diagnostic :=
  ⟨none, none, Message.fill m.template args, m.code, m.severity⟩

def located (file : String) (span : Span) (m : Message) (args : List String) : Diagnostic :=
  { ofMessage m args with file := some file, span := some span }

def isError (d : Diagnostic) : Bool := d.severity = .error

/-- Where a diagnostic stands in the order of its file, first if it has no span. -/
def position (d : Diagnostic) : Nat := (d.span.map Span.start).getD 0

/-- Where a diagnostic stands, as written before its text. -/
def place (d : Diagnostic) : String :=
  match d.file, d.span with
  | none, _ => ""
  | some f, none => s!"{f}: "
  | some f, some s => s!"{f}({s.stored.start}): "

instance : ToString Diagnostic where
  toString d := s!"{d.place}{d.severity} RS{d.code}: {d.text}"

/-- A diagnostic on a line of its own, with its place in lines and columns. -/
def line (d : Diagnostic) (lines : LineMap) : String :=
  let place := match d.file, d.span with
    | none, _ => ""
    | some f, none => s!"{f}: "
    | some f, some s => s!"{f}({lines.place s.stored.start}): "
  s!"{place}{d.severity} RS{d.code}: {d.text}\n"

/-- No file comes first, then files by the bytes of their names, then the position. -/
def precedes (a b : Diagnostic) : Bool :=
  match a.file, b.file with
  | none, some _ => true
  | some _, none => false
  | none, none => a.position ≤ b.position
  | some f, some g => f < g || (f = g && a.position ≤ b.position)

/-- Gives the diagnostic a file unless it names one. -/
def attributeTo (file : String) (d : Diagnostic) : Diagnostic :=
  if d.file.getD "" = "" then { d with file := some file } else d

end Diagnostic

/-- Diagnostics in the order of their report. -/
abbrev Diagnostics := List Diagnostic

namespace Diagnostics

def hasErrors (ds : Diagnostics) : Bool := ds.any Diagnostic.isError

def errorCount (ds : Diagnostics) : Nat := ds.countP Diagnostic.isError

def firstError? (ds : Diagnostics) : Option Diagnostic := ds.find? Diagnostic.isError

def attributeTo (file : String) (ds : Diagnostics) : Diagnostics :=
  ds.map (Diagnostic.attributeTo file)

/-- Orders by file and position and keeps the order of report among equals. -/
def sort (ds : Diagnostics) : Diagnostics := ds.mergeSort Diagnostic.precedes

end Diagnostics

end ScopeChain
