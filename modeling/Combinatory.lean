import Combinatory.Main
import Combinatory.Equality
import Combinatory.Proofs.Calculus
import Combinatory.Proofs.Conversion
import Combinatory.Proofs.Building
import Combinatory.Proofs.Meaning.Bracket
import Combinatory.Proofs.Meaning.LambdaForm
import Combinatory.Proofs.Preservation
import Combinatory.Proofs.Combination
import Combinatory.Proofs.Combination.Confluence
import Combinatory.Proofs.Combination.Leftmost
import Combinatory.Proofs.Settled.Strategy
import Combinatory.Proofs.Settled.Twins
import Combinatory.Proofs.Settled.Building
import Combinatory.Proofs.Settled.Reduction
import Combinatory.Proofs.Settled.Canonical
import Combinatory.Proofs.Settled.Declarations
import Combinatory.Proofs.Workspace
import Combinatory.Proofs.Descent
import Combinatory.Proofs.Settled
import Combinatory.Proofs.Combination.Terms
import Combinatory.Proofs.Combination.Runs
import Combinatory.Proofs.Normalization
import Combinatory.Proofs.Tower
import Combinatory.Proofs.Tower.Runs
import Combinatory.Proofs.CanonicalBehavior
import Combinatory.Proofs.Combination.Bracket
import Combinatory.Proofs.Elimination
import Combinatory.Proofs.Expansion
import Combinatory.Proofs.Compilation
import Combinatory.Proofs.Completeness
import Combinatory.Proofs.Regular
import Combinatory.Proofs.Renaming
import Combinatory.Proofs.Skeleton
import Combinatory.Proofs.Equality
import Combinatory.Proofs.Assembly
import Combinatory.Proofs.Core
import Combinatory.Proofs.Core.Compilation
import Combinatory.Proofs.Gradual
import Combinatory.Proofs.Nameless
import Combinatory.Proofs.Indistinguishable
import Combinatory.Proofs.Hygiene
import Combinatory.Proofs.Snapshots
import Combinatory.Proofs.Termination
import Combinatory.Proofs.Transparent
import Combinatory.Proofs.WellFormed
import Combinatory.Proofs.Worklist
import Combinatory.Proofs.Worklist.Substitution
import Combinatory.Proofs.Worklist.Equality
import Combinatory.Proofs.Irrelevance
import Combinatory.Proofs.CompiledBehavior
import Combinatory.Proofs.Halves
import Combinatory.Proofs.Profile
import Combinatory.Proofs.SpentBudget
import Combinatory.Proofs.ExpandedEquality
import Combinatory.Proofs.Definitions
import Combinatory.Proofs.Idempotence
import Combinatory.Proofs.LightForms
import Combinatory.Proofs.Renumbering
import Combinatory.Proofs.Repetition
import Combinatory.Proofs.LargerBudgets
import Combinatory.Proofs.ProbeLimit
import Combinatory.Proofs.HeadVariable
import Combinatory.Proofs.CanonicalFlags
import Combinatory.Proofs.NamedCanonical
import Combinatory.Proofs.Counting
import Combinatory.Proofs.Arithmetic
import Combinatory.Proofs.Rounds
import Combinatory.Proofs.Successor
import Combinatory.Proofs.Answers
import Combinatory.Proofs.Leftovers
import Combinatory.Proofs.Recompilation.Again
import Combinatory.Proofs.Recompilation
import Combinatory.Proofs.ReadBack
import Combinatory.Proofs.Putting
import Combinatory.Proofs.Exposure
import Combinatory.Proofs.Replacement
import Combinatory.Proofs.ListedBinders
import Combinatory.Proofs.LastSnapshot
import Combinatory.Proofs.Measures
import Combinatory.Proofs.Containment
import Combinatory.Proofs.Drawing
import Combinatory.Proofs.NumeralCoercion
import Combinatory.Proofs.Grouping
