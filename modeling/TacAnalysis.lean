import TacAnalysis.CallGraph.ByHierarchy
import TacAnalysis.Config
import TacAnalysis.Constants.Program
import TacAnalysis.DeadCode
import TacAnalysis.Format.Facts
import TacAnalysis.Format.Flow
import TacAnalysis.Format.PointsTo
import TacAnalysis.GenKill
import TacAnalysis.Json.Parse
import TacAnalysis.Json.Render
import TacAnalysis.Program.Validation
import TacAnalysis.Proofs.Constants.Coverage
import TacAnalysis.Proofs.Constants.Schedules
import TacAnalysis.Proofs.Constants.Termination
import TacAnalysis.Proofs.DeadCode.Unreachable
import TacAnalysis.Proofs.PointsTo.Least
import TacAnalysis.Proofs.Solver.Least
import TacAnalysis.Proofs.SuperGraph
import TacAnalysis.Proofs.Solver.Inter
import TacAnalysis.Proofs.Solver.InterLeast
import TacAnalysis.Proofs.Program.Lookup
import TacAnalysis.Proofs.PointsTo.Returns
import TacAnalysis.Proofs.PointsTo.Termination
import TacAnalysis.Proofs.Program.Callees
import TacAnalysis.Proofs.Program.Climbs
import TacAnalysis.Proofs.CallGraph.Grounded
import TacAnalysis.Proofs.Program.Queries
import TacAnalysis.Proofs.Solver.InterOrder
import TacAnalysis.Proofs.Constants.Program
import TacAnalysis.Proofs.Constants.ProgramSchedules
import TacAnalysis.Proofs.Constants.SingleMethod
import TacAnalysis.Proofs.Liveness
import TacAnalysis.Proofs.DeadCode.Removal
import TacAnalysis.Proofs.Solver.Equations
import TacAnalysis.Proofs.SuperGraph.Exact
import TacAnalysis.Proofs.Format.RoundTrip
import TacAnalysis.Proofs.Strict.Accepted
import TacAnalysis.Proofs.Liveness.Exact
import TacAnalysis.Proofs.Constants.Monotone
import TacAnalysis.Proofs.Program.Targets
import TacAnalysis.Proofs.Program.Closed
import TacAnalysis.Proofs.Program.References
import TacAnalysis.Proofs.DeadCode.Branches
import TacAnalysis.Proofs.DeadCode.Report
import TacAnalysis.Proofs.CallGraph.Discovery
import TacAnalysis.Proofs.Program.Subtypes
import TacAnalysis.Proofs.ControlFlow.Exact
import TacAnalysis.Proofs.Program.Bodies
import TacAnalysis.Proofs.Program.Validity
import TacAnalysis.Proofs.Constants.TwosComplement
import TacAnalysis.Proofs.Constants.Join
import TacAnalysis.Proofs.Constants.Obtainable
import TacAnalysis.Proofs.Constants.Locality
import TacAnalysis.Proofs.PointsTo.Growth
import TacAnalysis.Proofs.PointsTo.InReach
import TacAnalysis.Proofs.CallGraph.Tables
import TacAnalysis.Proofs.PointsTo.Tables
import TacAnalysis.Proofs.PointsTo.Lossless
import TacAnalysis.Proofs.Worklist.History
