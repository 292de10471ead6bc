import ScopeChain.Binding.Listing
import ScopeChain.CommandLine.Invocation
import ScopeChain.Machine.Evaluation
import ScopeChain.Options.Config

/-! Commands carried out: what is written in answer to one, given what is found in the files. -/
namespace ScopeChain

/-- What is found where a file may be. -/
inductive Found where
  | nothing
  | unreadable
  | text (s : String)
deriving DecidableEq, Repr

/-- What a command comes to. -/
structure Outcome where
  code : Nat
  output : String
  errors : String
  /-- A failure, reported behind all other errors: what failed, and then why. -/
  report : Option (List String)
  /-- The text to write into the file of options. -/
  config : Option String
deriving DecidableEq, Repr

namespace Outcome

def success (output : String) : Outcome := ⟨0, output, "", none, none⟩

def refused (code : Nat) (errors : String) : Outcome := ⟨code, "", errors, none, none⟩

def failed (reasons : List String) : Outcome := ⟨1, "", "", some reasons, none⟩

/-- The text of the report, if there is one. -/
def reportText (o : Outcome) : String :=
  match o.report with
  | some reasons => "Error: " ++ "\n  ".intercalate reasons ++ "\n"
  | none => ""

/-- An outcome with more errors before its own. -/
def after (errors : String) (o : Outcome) : Outcome := { o with errors := errors ++ o.errors }

end Outcome

def errorLine (text : String) : String := s!"error: {text}\n"

namespace Invocation

/-- The files that a command may look at. -/
def inputs (i : Invocation) : List String :=
  match i.command with
  | .run file | .scopes file => [i.flags.config.getD Config.fileName, file]
  | .init => [Config.fileName]

def parseConfig (what text : String) : Except (List String) Config :=
  (Config.parse text).mapError fun e => [s!"failed to read {what}", toString e]

/-- The file of options that the command line names, or else the usual one if there is one. -/
def readConfig (files : String → Found) (f : Flags) : Except (List String) Config :=
  let path := f.config.getD Config.fileName
  let what := match f.config with
    | none => Config.fileName
    | some path => s!"config '{path}'"
  match files path, f.config with
  | .text text, _ => parseConfig what text
  | .nothing, none => .ok ⟨none, none⟩
  | _, _ => .error [s!"failed to read {what}", s!"failed to read {path}"]

/-- The options from the file, with those of the command line in their place. -/
def loadOptions (files : String → Found) (f : Flags) : Except (List String) Options := do
  let config ← readConfig files f
  let o := if f.strict then config.options.merge { Options.unset with strict := some true }
    else config.options
  o.validate.mapError fun e => ["invalid compiler options", toString e]
  return o

/-- Compiles the script in a file and goes on with its code. -/
def withScript (files : String → Found) (file : String) (o : Options)
    (next : LineMap → Compiled → Interner → Outcome) : Outcome :=
  match files file with
  | .text text =>
    let lines := LineMap.ofText text
    match Compilation.script o file text .wellKnown with
    | (.ok c, names) =>
      (next lines c names).after (String.join (c.diagnostics.map fun d => d.line lines))
    | (.error (.malformed d), _) => .refused 2 (d.line lines)
    | (.error e, _) => .failed [s!"failed to compile '{file}': {e}"]
  | _ => .failed [s!"failed to read '{file}'"]

def runScript (m : Machine) (c : Compiled) (names : Interner) : Outcome :=
  match ({ m with names } : Machine).execute Machine.amplyFuelled c.code with
  | (.ok v, _) => .success s!"{v}\n"
  | (.error (.thrown v), _) => .refused 1 (errorLine s!"Uncaught {v}")
  | (.error e, _) => .failed [toString e]

def run (files : String → Found) (file : String) (o : Options) : Outcome :=
  match Machine.start o with
  | .ok m => withScript files file o fun _ c names => runScript m c names
  | .error e => .failed [toString e]

def listScopes (files : String → Found) (file : String) (o : Options) : Outcome :=
  withScript files file o fun lines c names => .success (c.binding.listing names lines)

def createConfig (files : String → Found) : Outcome :=
  match files Config.fileName with
  | .nothing =>
    { Outcome.success s!"Successfully created a {Config.fileName} file.\n" with
      config := some Config.standard.write }
  | _ =>
    .refused 1 (errorLine s!"A {Config.fileName} file already exists in the current directory.")

/-- Carries out a command on what is found in the files. -/
def perform (files : String → Found) (i : Invocation) : Outcome :=
  let withOptions (work : Options → Outcome) : Outcome :=
    match loadOptions files i.flags with
    | .ok o => work o
    | .error reasons => .failed reasons
  match i.command with
  | .run file => withOptions (run files file)
  | .scopes file => withOptions (listScopes files file)
  | .init => createConfig files

end Invocation

end ScopeChain
