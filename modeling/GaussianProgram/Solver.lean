import GaussianProgram.Multiplier.Dual
import GaussianProgram.Solver.Run
import GaussianProgram.Solver.Step

/-! The active-set method, one iteration at a time. An iteration solves the working problem and
moves towards its solution as far as the inactive rows allow; a point that is stationary already
either drops a row with a negative multiplier or is optimal. -/
namespace GaussianProgram

/-- A quadratic program with the settings and the numerical parts of its solver. -/
structure Solver (κ α σ : Type) [Key κ] where
  graph : Graph κ α
  config : Config α
  eliminator : Eliminator κ α σ
  singularValues : Matrix α → Option (Vec α)

namespace Solver
variable {κ α σ : Type} [Key κ] [Scalar α]

def checkRank (s : Solver κ α σ) (w : WorkingSet) : Result (SolverError α) Unit :=
  s.graph.checkActiveRank s.singularValues w s.config.rankTolerance

/-- The dual graph, with the causes reported that a graph reports and not those of its factors. -/
def dualGraph (s : Solver κ α σ) (w : WorkingSet) (x : Assignment κ α) :
    Run κ α σ (SolverError α) (Graph Nat α) := do
  let dual ← match s.graph.dualGraph w x with
    | .error (.cause (.graph (.factor e))) => Run.quietly (Result.fail (.graph (.factor e)))
    | r => Run.announcing r
  let participating := s.graph.participating w
  if !participating.isEmpty then Run.report (.dualGraph dual.size participating.length)
  return dual

/-- Multipliers of the active rows, none if no constraint factor takes part. -/
def computeDuals (s : Solver κ α σ) (w : WorkingSet) (x : Assignment κ α) :
    Run κ α σ (SolverError α) (Assignment Nat α) := do
  Run.announcing (s.checkRank w)
  let dual ← s.dualGraph w x
  if dual.isEmpty then return SortedMap.empty
  else Run.ask (s.eliminator.dual dual)

def workingGraph (s : Solver κ α σ) (w : WorkingSet) : Result (SolverError α) (Graph κ α) :=
  (Result.ofExcept (s.graph.workingGraph w)).mapCause .factor

def stepSize (s : Solver κ α σ) (w : WorkingSet) (current candidate : Assignment κ α) :
    Result (SolverError α) (Option (ConstraintRow × α)) :=
  (s.graph.stepSize w s.config.feasibilityTolerance current candidate).mapCause .factor

def worstRow? (s : Solver κ α σ) (w : WorkingSet) (duals : Assignment Nat α) :
    Option ConstraintRow :=
  s.graph.worstRow? w duals s.config.dualTolerance

def takeBlockedStep (candidate : Assignment κ α) (row : ConstraintRow) (fraction : α) :
    Run κ α σ (SolverError α) (Outcome α) := do
  let (moved, x) := (← Run.point).stepTowards candidate fraction
  Run.setPoint x
  Run.quietly ((Result.ofExcept moved).mapCause .graph)
  Run.setWorkingSet ((← Run.workingSet).insert row).2
  Run.report (.blocked row fraction)
  return .stepTaken fraction (some row)

/-- At a stationary point: drops the row with the worst multiplier, or has converged. -/
def resolveStationary (s : Solver κ α σ) : Run κ α σ (SolverError α) (Outcome α) := do
  let w ← Run.workingSet
  let duals ← s.computeDuals w (← Run.point)
  match s.worstRow? w duals with
  | none => return .converged duals
  | some row =>
    Run.setWorkingSet (w.remove row).2
    Run.report (.dropped row)
    return .dropped row

def takeFullStep (s : Solver κ α σ) (candidate : Assignment κ α) :
    Run κ α σ (SolverError α) (Outcome α) := do
  let current ← Run.point
  let distance ← Run.quietly ((Result.ofExcept (current.maxAbsDiff candidate)).mapCause .graph)
  Run.setPoint (current.update candidate)
  if distance ≤ s.config.solutionTolerance then s.resolveStationary
  else return .stepTaken 1 none

def iterate (s : Solver κ α σ) : Run κ α σ (SolverError α) (Outcome α) := do
  let w ← Run.workingSet
  Run.announcing (s.checkRank w)
  let working ← Run.announcing (s.workingGraph w)
  let solution ← Run.ask (s.eliminator.primal working)
  let current ← Run.point
  let candidate := current.update solution
  match ← Run.quietly (s.stepSize w current candidate) with
  | some (row, fraction) => takeBlockedStep candidate row fraction
  | none => s.takeFullStep candidate

end Solver

end GaussianProgram
