import Formula.Expr.Equivalence
import Formula.Graph.Workspace
import Formula.Main
import Formula.Proofs.Grammar
import Formula.Proofs.Graph.Cells
import Formula.Proofs.Graph.Copying
import Formula.Proofs.Graph.Exactness
import Formula.Proofs.Graph.RealPowers
import Formula.Proofs.Graph.Performing
import Formula.Proofs.Graph.Reachable
import Formula.Proofs.Graph.Validity
import Formula.Proofs.NumberToken
import Formula.Proofs.Parser
import Formula.Proofs.Graph.Idempotence
import Formula.Proofs.Graph.Incremental
import Formula.Proofs.Decimal.Nearest
import Formula.Proofs.Graph.Termination
import Formula.Proofs.Lexing
import Formula.Proofs.Written
import Formula.Proofs.Graph.Folding
import Formula.Proofs.Graph.NotANumber
import Formula.Proofs.Graph.Tolerance
import Formula.Proofs.LexicalGrammar
import Formula.Proofs.Separation
import Formula.Proofs.Columns
import Formula.Proofs.CommandLine.Tracing
import Formula.Proofs.Reading
import Formula.Proofs.Graph.Links
import Formula.Proofs.Graph.Sizes
import Formula.Proofs.Graph.Checking
import Formula.Proofs.Graph.Replacing
import Formula.Proofs.Graph.Growth
import Formula.Proofs.Solver.Atomicity
import Formula.Proofs.Kinds.Magnitude
import Formula.Proofs.Simplify.Tame
import Formula.Proofs.Simplify.Steady
import Formula.Proofs.Graph.Overflow
import Formula.Proofs.Solver.Session
import Formula.Proofs.Simplify.Places
import Formula.Proofs.Simplify.Interpretation
import Formula.Proofs.Simplify.Laws
import Formula.Proofs.Graph.Chains
import Formula.Proofs.Graph.Logarithms
import Formula.Proofs.Graph.Powers
import Formula.Proofs.Graph.Variables
import Formula.Proofs.Graph.Removal
import Formula.Proofs.Similarity
import Formula.Proofs.Solver.Changes
import Formula.Proofs.Decimal.ReadingBack
import Formula.Proofs.Graph.Independence
import Formula.Proofs.Graph.Terms
import Formula.Proofs.Graph.Traversal
import Formula.Proofs.Graph.Traversal
