import ScopeGraphs.Confirm.Fixed
import ScopeGraphs.Resolution.Static
import ScopeGraphs.Task.Workbench
import ScopeGraphs.Text.Documents
import ScopeGraphs.Script.Interpreter
import ScopeGraphs.Wait.Index
import ScopeGraphs.Proofs.Confirm.Repetition
import ScopeGraphs.Proofs.Confirm.Soundness
import ScopeGraphs.Proofs.Engine.Arrivals
import ScopeGraphs.Proofs.Engine.Closing
import ScopeGraphs.Proofs.Engine.Crowds
import ScopeGraphs.Proofs.Engine.Finality
import ScopeGraphs.Proofs.Engine.Hearing
import ScopeGraphs.Proofs.Engine.Orderliness
import ScopeGraphs.Proofs.Engine.Posting
import ScopeGraphs.Proofs.Engine.Progress
import ScopeGraphs.Proofs.Engine.Rebuilding
import ScopeGraphs.Proofs.Engine.Regaining
import ScopeGraphs.Proofs.Engine.Regularity
import ScopeGraphs.Proofs.Engine.Settling
import ScopeGraphs.Proofs.Engine.Unions
import ScopeGraphs.Proofs.Units.Resuming
import ScopeGraphs.Proofs.Units.Reusing
import ScopeGraphs.Proofs.Wait.Clusters
import ScopeGraphs.Proofs.Resolution.Verdicts
import ScopeGraphs.Proofs.Resolution.Renamed
import ScopeGraphs.Proofs.Confirm.Predicates
import ScopeGraphs.Proofs.Diff.Comparing
import ScopeGraphs.Proofs.Diff.Spreading
import ScopeGraphs.Proofs.Units.Searching
import ScopeGraphs.Proofs.Engine.Exploring
import ScopeGraphs.Proofs.Diff.Candidates
import ScopeGraphs.Proofs.Engine.Assembly
import ScopeGraphs.Proofs.Units.Hesitating
import ScopeGraphs.Proofs.Engine.Freshness
import ScopeGraphs.Proofs.Diff.Judging
import ScopeGraphs.Proofs.Diff.Counting
import ScopeGraphs.Proofs.Diff.Exhausting
import ScopeGraphs.Proofs.Confirm.Unchanged
import ScopeGraphs.Proofs.Units.Clearing
import ScopeGraphs.Proofs.Engine.Resolving
import ScopeGraphs.Proofs.Resolution.Recursion
import ScopeGraphs.Proofs.Resolution.ShortCuts
import ScopeGraphs.Proofs.Engine.Refusals
import ScopeGraphs.Proofs.Engine.Vigilance
import ScopeGraphs.Proofs.Resolution.Shadowing
import ScopeGraphs.Proofs.Renaming.Directions
import ScopeGraphs.Proofs.Renaming.Collisions
import ScopeGraphs.Proofs.Confirm.Agreeing
import ScopeGraphs.Proofs.Graph.Uniting
import ScopeGraphs.Proofs.Query.Closing
import ScopeGraphs.Proofs.Renaming.Copying
import ScopeGraphs.Proofs.Engine.Contributing
import ScopeGraphs.Proofs.Wait.Indexing
import ScopeGraphs.Proofs.Wait.Balancing
import ScopeGraphs.Checkpoint.Storable
import ScopeGraphs.Proofs.Checkpoint.Rereading
import ScopeGraphs.Proofs.Task.Dispatching
import ScopeGraphs.Proofs.Task.Instructing
import ScopeGraphs.Proofs.Task.Promising
import ScopeGraphs.Proofs.Task.Sharing
import ScopeGraphs.Proofs.Task.Working
