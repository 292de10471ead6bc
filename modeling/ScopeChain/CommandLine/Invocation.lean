/-! What the arguments of the command line ask for. -/
namespace ScopeChain

inductive Command where
  /-- Runs a script and prints its value. -/
  | run (file : String)
  /-- Prints the scopes of a script and how its names are found. -/
  | scopes (file : String)
  /-- Creates a file of standard options. -/
  | init
deriving DecidableEq, Repr

/-- Options that may stand anywhere among the arguments. -/
structure Flags where
  config : Option String
  strict : Bool
  verbose : Bool
deriving DecidableEq, Repr

namespace Flags

def none : Flags := ⟨.none, false, false⟩

/-- Whether an argument is no option. -/
def isWord (arg : String) : Bool := arg ≠ "" && (arg = "-" || !arg.startsWith "-")

/-- Reads options up to the first argument that is none of them; none may occur twice. -/
def read? (f : Flags) : List String → Option (Flags × List String)
  | [] => some (f, [])
  | "--strict" :: rest => if f.strict then .none else read? { f with strict := true } rest
  | "--verbose" :: rest | "-v" :: rest =>
    if f.verbose then .none else read? { f with verbose := true } rest
  | "--config" :: file :: rest =>
    if f.config.isSome || !isWord file then .none else read? { f with config := some file } rest
  | arg :: rest =>
    match arg.dropPrefix? "--config=" with
    | some file =>
      if f.config.isSome || file.isEmpty then .none
      else read? { f with config := some file.copy } rest
    | .none => some (f, arg :: rest)

/-- The options before the command with those behind it, which win. -/
def merge (f later : Flags) : Flags :=
  ⟨later.config.or f.config, f.strict || later.strict, f.verbose || later.verbose⟩

end Flags

/-- A command with its options. -/
structure Invocation where
  command : Command
  flags : Flags
deriving DecidableEq, Repr

namespace Invocation

/-- Whether no argument is left. The mark behind which all arguments are words asks for nothing by
itself. -/
def isEnd : List String → Bool
  | [] | ["--"] => true
  | _ => false

/-- Reads the file that a command works on, with options on either side. -/
def readFile? (f : Flags) : List String → Option (String × Flags)
  | ["--", file] => if file = "" then none else some (file, f)
  | file :: rest => do
    if !Flags.isWord file then none
    let (f, rest) ← f.read? rest
    if isEnd rest then some (file, f) else none
  | [] => none

def ofArgs? (args : List String) : Option Invocation := do
  match ← Flags.none.read? args with
  | (outer, name :: rest) =>
    let (inner, rest) ← Flags.none.read? rest
    match name with
    | "run" =>
      let (file, inner) ← readFile? inner rest
      return ⟨.run file, outer.merge inner⟩
    | "scopes" =>
      let (file, inner) ← readFile? inner rest
      return ⟨.scopes file, outer.merge inner⟩
    | "init" => if isEnd rest then some ⟨.init, outer.merge inner⟩ else none
    | _ => none
  | _ => none

end Invocation

end ScopeChain
