/-! Replacing every occurrence of one text inside another, from left to right. -/
namespace ScopeChain.Text

/-- Replaces the occurrences of `pat` after dropping `skip` characters of an occurrence already
replaced. -/
def substituteFrom (pat new : List Char) : (skip : Nat) → List Char → List Char
  | _, [] => []
  | skip + 1, _ :: cs => substituteFrom pat new skip cs
  | 0, c :: cs =>
    if pat.isPrefixOf (c :: cs) then new ++ substituteFrom pat new (pat.length - 1) cs
    else c :: substituteFrom pat new 0 cs

/-- Replaces each occurrence of the nonempty `pat`; occurrences do not overlap. -/
def substitute (pat new text : String) : String :=
  String.ofList (substituteFrom pat.toList new.toList 0 text.toList)

end ScopeChain.Text
