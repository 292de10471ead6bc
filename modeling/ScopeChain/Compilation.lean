import ScopeChain.Code.Emission
import ScopeChain.Options
import ScopeChain.Program.Parser

/-! From source text to code. All texts share their names, so that code compiled while a program
runs means the same names as the code that runs it. -/
namespace ScopeChain

inductive CompileError where
  /-- The text is no program; the first error in it. -/
  | malformed (d : Diagnostic)
  | scope (e : ScopeError)
  | emit (e : Code.EmitError)
deriving DecidableEq, Repr

instance : ToString CompileError where
  toString
    | .malformed d => toString d
    | .scope e => toString e
    | .emit e => toString e

/-- A program with its code and with the messages about it in the order of the source. -/
structure Compiled where
  code : Code.FunctionCode
  binding : Binding
  diagnostics : Diagnostics

namespace Compilation

/-- Binds a program without errors and makes its code. -/
def ofParse (r : Parser.Result) (eval : Bool) (limits : Limits) : Except CompileError Compiled := do
  if let some d := r.diagnostics.firstError? then throw (.malformed d)
  let binding ← (Binding.ofProgram r.program eval limits r.names).mapError .scope
  let code ← (Code.ofProgram binding r.program).mapError .emit
  let diagnostics := (r.diagnostics ++ binding.reports.toList : Diagnostics).sort
  return ⟨code, binding, diagnostics⟩

/-- Compiles a text; names first seen in it stay known even if it is refused. -/
def ofText (o : Options) (file text : String) (strict eval : Bool) (names : Interner) :
    Except CompileError Compiled × Interner :=
  let r := Parser.parse file text strict names
  (ofParse r eval o.limits, r.names)

/-- Compiles a script, whose declarations become globals. -/
def script (o : Options) (file text : String) (names : Interner) :
    Except CompileError Compiled × Interner :=
  ofText o file text o.isStrict false names

/-- The file in which code for `eval` is said to stand. -/
def evalFile : String := "<eval>"

/-- Compiles code handed to `eval`, which is strict if its caller is. -/
def evalCode (o : Options) (text : String) (strict : Bool) (names : Interner) :
    Except CompileError Compiled × Interner :=
  ofText o evalFile text (strict || o.isStrict) true names

end Compilation

end ScopeChain
