import ScopeChain.Code.Outline
import ScopeChain.Main
import ScopeChain.Proofs.Contexts
import ScopeChain.Proofs.Deletions
import ScopeChain.Proofs.Effects
import ScopeChain.Proofs.Handles
import ScopeChain.Proofs.Conducts
import ScopeChain.Proofs.Operands
import ScopeChain.Proofs.RoundTrip
import ScopeChain.Proofs.GlobalNames
import ScopeChain.Proofs.ChainLengths
import ScopeChain.Proofs.CatchScopes
import ScopeChain.Proofs.Indexes
import ScopeChain.Proofs.Independence
import ScopeChain.Proofs.Fuel
import ScopeChain.Proofs.Calls
import ScopeChain.Proofs.Activations
import ScopeChain.Proofs.Depth
import ScopeChain.Proofs.Endings
import ScopeChain.Proofs.Strictness
import ScopeChain.Proofs.EvalCalls
import ScopeChain.Proofs.EvalDeclarations
import ScopeChain.Proofs.Spans
import ScopeChain.Proofs.Literals
import ScopeChain.Proofs.Numerals
import ScopeChain.Proofs.Lines
import ScopeChain.Proofs.Conversions
import ScopeChain.Proofs.Growth
import ScopeChain.Proofs.Reports
