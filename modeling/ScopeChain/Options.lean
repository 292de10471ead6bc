import ScopeChain.Scope.Pool

/-! Options of compiling and running. An option that is not set takes its standard value where it
is used. -/
namespace ScopeChain

structure Options where
  /-- Whether every script is strict. -/
  strict : Option Bool
  growthSlack : Option Nat
  maxScopeDepth : Option Nat
  /-- How many scopes may be live before garbage is collected. -/
  gcThreshold : Option Nat
deriving DecidableEq, Repr, Inhabited

/-- Why options are refused. -/
inductive OptionsError where
  /-- The file that holds them cannot be read. -/
  | malformed
  /-- An option must be at least one. -/
  | zero (option : String)
deriving DecidableEq, Repr

instance : ToString OptionsError where
  toString
    | .malformed => "invalid rscope.json"
    | .zero option => s!"invalid value for '{option}': must be at least 1"

namespace Options

def unset : Options := ⟨none, none, none, none⟩

/-- The options with those that `later` sets in their place. -/
def merge (o later : Options) : Options where
  strict := later.strict.or o.strict
  growthSlack := later.growthSlack.or o.growthSlack
  maxScopeDepth := later.maxScopeDepth.or o.maxScopeDepth
  gcThreshold := later.gcThreshold.or o.gcThreshold

def isStrict (o : Options) : Bool := o.strict.getD false

def limits (o : Options) : Limits where
  growthSlack := o.growthSlack.getD Limits.standard.growthSlack
  maxDepth := o.maxScopeDepth.getD Limits.standard.maxDepth

/-- How many scopes may be live before garbage is collected, where no option says so. -/
def standardThreshold : Nat := 256

def threshold (o : Options) : Nat := o.gcThreshold.getD standardThreshold

/-- Refuses values that no chain of scopes and no collector can work with. -/
def validate (o : Options) : Except OptionsError Unit :=
  if o.maxScopeDepth = some 0 then .error (.zero "maxScopeDepth")
  else if o.gcThreshold = some 0 then .error (.zero "gcThreshold")
  else .ok ()

end Options

end ScopeChain
