import SolutionFlow.Evaluation
import SolutionFlow.Algebra.Names
import SolutionFlow.Algebra.Projection
import SolutionFlow.Pool.Basic
import SolutionFlow.Settings.Load
import SolutionFlow.Solution.Order
import SolutionFlow.Solution.Printer
import SolutionFlow.Proofs.Contract.Completeness
import SolutionFlow.Proofs.Meaning.Optional
import SolutionFlow.Proofs.Meaning.Totality
import SolutionFlow.Proofs.Spill.Members
import SolutionFlow.Proofs.Meaning.Sieving
import SolutionFlow.Proofs.Flow.Ensures
import SolutionFlow.Proofs.Flow.Serving
import SolutionFlow.Proofs.Flow.Reading
import SolutionFlow.Proofs.Expression.Results
import SolutionFlow.Proofs.Meaning.Overwriting
import SolutionFlow.Proofs.Meaning.Stable
import SolutionFlow.Proofs.Meaning.Firsts
import SolutionFlow.Proofs.Meaning.Modifiers
import SolutionFlow.Proofs.Meaning.Gathering
import SolutionFlow.Proofs.Meaning.Chains
import SolutionFlow.Proofs.Bridge.Delivery
import SolutionFlow.Proofs.Bridge.Stopping
import SolutionFlow.Proofs.Bridge.Turns
import SolutionFlow.Proofs.Bridge.Waiting
import SolutionFlow.Proofs.Contract.Refusal
import SolutionFlow.Proofs.Meaning.Naming
import SolutionFlow.Proofs.Meaning.Scoping
import SolutionFlow.Proofs.Meaning.Capping
import SolutionFlow.Proofs.Flow.Reporting
import SolutionFlow.Proofs.Window.Missing
import SolutionFlow.Proofs.Meaning.Conditions
import SolutionFlow.Proofs.Spill.Histories
import SolutionFlow.Proofs.Spill.Membership
import SolutionFlow.Proofs.Contract.Silence
import SolutionFlow.Proofs.Solution.Order
import SolutionFlow.Proofs.Expression.Exactness
import SolutionFlow.Proofs.Meaning.Ordering
import SolutionFlow.Proofs.Expression.Summing
import SolutionFlow.Proofs.Meaning.Rewriting
import SolutionFlow.Proofs.Meaning.SetFilters
import SolutionFlow.Proofs.Solution.Merging
import SolutionFlow.Proofs.Meaning.Slicing
import SolutionFlow.Proofs.Meaning.Repeats
import SolutionFlow.Proofs.Pool.Progress
import SolutionFlow.Proofs.Meaning.GraphVariables
import SolutionFlow.Proofs.Contract.Services
