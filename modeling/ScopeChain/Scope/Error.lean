import ScopeChain.Scope

/-! Why an operation on scopes cannot be carried out. -/
namespace ScopeChain

inductive ScopeError where
  /-- A value is asked for in a scope without room for values. -/
  | unmaterialized (scope : ScopeId)
  | missingParent (kind : ScopeKind)
  | staleHandle (scope : ScopeId)
  | slotOutOfRange (scope : ScopeId) (slot : Nat)
  | missingAncestor (scope : ScopeId) (depth : Nat)
  /-- More scopes in a row than may be visited. -/
  | depthExceeded (limit : Nat)
deriving DecidableEq, Repr

/-- The name of a scope in messages, which leaves its generation out. -/
def ScopeId.shortName (id : ScopeId) : String := s!"#{id.stored.index}"

instance : ToString ScopeError where
  toString
    | .unmaterialized s => s!"value access on scope {s.shortName} which has no backing value array"
    | .missingParent k => s!"{k} scope constructed without a parent scope"
    | .staleHandle s => s!"scope handle {s.shortName} is stale or was never allocated"
    | .slotOutOfRange s slot =>
      s!"slot {storedSlot slot} is outside the value array of scope {s.shortName}"
    | .missingAncestor s depth => s!"scope {s.shortName} has no ancestor at depth {depth}"
    | .depthExceeded limit => s!"scope chain exceeds the maximum depth of {limit}"

end ScopeChain
