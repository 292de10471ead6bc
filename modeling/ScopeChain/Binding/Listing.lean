import ScopeChain.Binding

/-! A binding as lines of text: one for each scope with the names that it declares, and one for
each occurrence of a name with the way it is found. -/
namespace ScopeChain

namespace Binding

def scopeLine (b : Binding) (names : Interner) (id : ScopeId) (s : Scope Unit) : String :=
  let parent := (s.parent.map ScopeId.shortName).getD "-"
  let mark := if b.evalScopes.contains id then " (direct eval)" else ""
  let declared := ", ".intercalate (s.table.names.map names.text)
  s!"{id.shortName} {s.kind} parent={parent}{mark}: [{declared}]\n"

def referenceLine (names : Interner) (lines : LineMap) (r : Reference) : String :=
  let way := match r.address with
    | .static .. => toString r.address
    | .dynamic _ => s!"dynamic (by name from {r.scope.shortName})"
  s!"{names.text r.name}({lines.place r.span.stored.start}) -> {way}\n"

/-- The lines of the scopes, an empty line, and the lines of the occurrences. -/
def listing (b : Binding) (names : Interner) (lines : LineMap) : String :=
  String.join (b.scopes.toList.map fun (id, s) => b.scopeLine names id s) ++ "\n" ++
    String.join (b.log.toList.map (referenceLine names lines))

end Binding

end ScopeChain
