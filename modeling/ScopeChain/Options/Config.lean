import ScopeChain.Options
import ScopeChain.Text.Json
import ScopeChain.Text.Quoted

/-! The file in which options are kept. -/
namespace ScopeChain

open Text (Json quoted)

structure Config where
  compilerOptions : Option Options
  /-- The scripts to run where none is named. -/
  files : Option (List String)
deriving DecidableEq, Repr, Inhabited

namespace Options

def ofJson? (j : Json) : Option Options := do
  match ← j.fields? ["strict", "growthSlack", "maxScopeDepth", "gcThreshold"] with
  | [strict, growthSlack, maxScopeDepth, gcThreshold] =>
    return {
      strict := ← strict.optional? Json.bool?
      growthSlack := ← growthSlack.optional? (Json.natural? UInt32.size)
      maxScopeDepth := ← maxScopeDepth.optional? (Json.natural? UInt32.size)
      gcThreshold := ← gcThreshold.optional? (Json.natural? UInt64.size) }
  | _ => none

end Options

namespace Config

/-- The file's name where no other is given. -/
def fileName : String := "rscope.json"

def options (c : Config) : Options := c.compilerOptions.getD .unset

def ofJson? (j : Json) : Option Config := do
  match ← j.fields? ["compilerOptions", "files"] with
  | [options, files] =>
    return {
      compilerOptions := ← options.optional? Options.ofJson?
      files := ← files.optional? (Json.list? Json.string?) }
  | _ => none

/-- Reads the text of the file. -/
def parse (text : String) : Except OptionsError Config := do
  match (Json.parse? text).bind ofJson? with
  | some c =>
    c.options.validate
    return c
  | none => throw .malformed

/-- Lines between two brackets, each with two blanks more before it than the brackets have. -/
def block (indent : String) (opening closing : String) (lines : List String) : String :=
  if lines.isEmpty then opening ++ closing
  else opening ++ "\n" ++ ",\n".intercalate (lines.map fun l => indent ++ "  " ++ l)
    ++ "\n" ++ indent ++ closing

def field (key value : String) : String := quoted key ++ ": " ++ value

def orNull {α : Type} (write : α → String) : Option α → String
  | none => "null"
  | some a => write a

def writeOptions (o : Options) : String :=
  block "  " "\x7b" "\x7d" [field "strict" (orNull toString o.strict),
    field "growthSlack" (orNull toString o.growthSlack),
    field "maxScopeDepth" (orNull toString o.maxScopeDepth),
    field "gcThreshold" (orNull toString o.gcThreshold)]

/-- The text of the file, with a line for each option. -/
def write (c : Config) : String :=
  block "" "\x7b" "\x7d" [field "compilerOptions" (orNull writeOptions c.compilerOptions),
    field "files" (orNull (fun fs => block "  " "[" "]" (fs.map quoted)) c.files)] ++ "\n"

/-- Every option at its standard value. -/
def standard : Config where
  compilerOptions := some {
    strict := some false
    growthSlack := some Limits.standard.growthSlack
    maxScopeDepth := some Limits.standard.maxDepth
    gcThreshold := some Options.standardThreshold }
  files := none

end Config

end ScopeChain
