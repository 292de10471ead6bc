import ScopeChain.CommandLine

/-! The program: reads the files that a command asks for and writes its outcome. -/
namespace ScopeChain

def look (path : String) : IO Found := do
  try
    return .text (← IO.FS.readFile path)
  catch
    | .noFileOrDirectory .. => return .nothing
    | _ => return .unreadable

def usage : String :=
  "usage: rscope [--config FILE] [--strict] [-v] run FILE\n" ++
  "       rscope [--config FILE] [--strict] [-v] scopes FILE\n" ++
  "       rscope init\n"

/-- Writes what a command came to, and answers the exit code. -/
def deliver (o : Outcome) : IO UInt32 := do
  if let some text := o.config then IO.FS.writeFile Config.fileName text
  IO.print o.output
  IO.eprint (o.errors ++ o.reportText)
  return UInt32.ofNat o.code

end ScopeChain

open ScopeChain in
def main (args : List String) : IO UInt32 := do
  match Invocation.ofArgs? args with
  | none =>
    IO.eprint usage
    return 2
  | some i =>
    let found ← i.inputs.mapM fun path => return (path, ← look path)
    deliver (i.perform fun path => (found.lookup path).getD .nothing)
