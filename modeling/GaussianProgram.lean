import GaussianProgram.Error.Message
import GaussianProgram.Linear
import GaussianProgram.Proofs.Agreement
import GaussianProgram.Proofs.Blocks
import GaussianProgram.Proofs.Checked
import GaussianProgram.Proofs.Classification
import GaussianProgram.Proofs.Constants
import GaussianProgram.Proofs.Consultation
import GaussianProgram.Proofs.Derivative
import GaussianProgram.Proofs.Distance
import GaussianProgram.Proofs.Edits
import GaussianProgram.Proofs.EliminationOrder
import GaussianProgram.Proofs.InRange
import GaussianProgram.Proofs.LongestStep
import GaussianProgram.Proofs.Movement
import GaussianProgram.Proofs.Multipliers
import GaussianProgram.Proofs.Opening
import GaussianProgram.Proofs.Progress
import GaussianProgram.Proofs.Rank
import GaussianProgram.Proofs.RenamedRun
import GaussianProgram.Proofs.Restart
import GaussianProgram.Proofs.Segments
import GaussianProgram.Proofs.Selection
import GaussianProgram.Proofs.Shapes
import GaussianProgram.Proofs.SharedRows
import GaussianProgram.Proofs.Stall
import GaussianProgram.Proofs.Termination
import GaussianProgram.Proofs.Trajectory
import GaussianProgram.Proofs.Verification
import GaussianProgram.Solver.Observer
import GaussianProgram.Solver.Optimize
import GaussianProgram.Solver.Report
import GaussianProgram.Text.Quoted
