import GaussianProgram.Assignment
import GaussianProgram.Solver.Config

/-! What a run shows to the outside while it works: reports for a log, and after every iteration a
notification of observers. Events are values, in the order in which they happen. -/
namespace GaussianProgram

/-- What one iteration did. -/
inductive Outcome (α : Type) where
  /-- The point is optimal, with these multipliers. -/
  | converged (duals : Assignment Nat α)
  /-- The point moved by a fraction of the way, up to the blocking row if there is one. -/
  | stepTaken (fraction : α) (blocking : Option ConstraintRow)
  /-- A row with a negative multiplier left the working set. -/
  | dropped (row : ConstraintRow)

namespace Outcome
variable {α : Type}

def isConverged : Outcome α → Bool
  | converged _ => true
  | _ => false

def stepFraction? : Outcome α → Option α
  | stepTaken fraction _ => some fraction
  | _ => none

/-- What happened to the working set, in words. -/
def action : Outcome α → String
  | converged _ => "converged"
  | stepTaken _ (some row) => "add " ++ row.text
  | stepTaken _ none => "full step"
  | dropped row => "drop " ++ row.text

end Outcome

/-- How a finished run ended. -/
inductive Status where
  /-- Some constraint row is active at the optimum. -/
  | converged
  /-- No constraint row is active. -/
  | interiorOptimum
  deriving DecidableEq, Repr

def Status.text : Status → String
  | converged => "Converged"
  | interiorOptimum => "Interior optimum"

/-- Result of a finished run. -/
structure Optimum (κ α : Type) [Key κ] where
  solution : Assignment κ α
  /-- Multipliers under the indices of their constraint factors. -/
  duals : Assignment Nat α
  workingSet : WorkingSet
  status : Status
  initialCost : α
  finalCost : α
  iterations : Nat

/-- Figures of one iteration. -/
structure Progress (α : Type) where
  iteration : Nat
  cost : α
  /-- Cost before the iteration minus cost after it. -/
  costChange : α
  fraction : Option α
  workingSetSize : Nat
  action : String

/-- A message of a run. -/
inductive Report (κ α : Type) [Key κ] where
  | failure (e : Error α)
  /-- So many entries of the start assignment have keys outside the graph. -/
  | outsideKeys (count : Nat)
  | configuration (config : Config α)
  | tableHeader
  | progress (line : Progress α)
  | blocked (row : ConstraintRow) (fraction : α)
  | dropped (row : ConstraintRow)
  | dualGraph (factors constraints : Nat)
  | optimum (result : Optimum κ α)

/-- A report, or one of the two notifications of observers. -/
inductive Event (κ α : Type) [Key κ] where
  | report (r : Report κ α)
  /-- Figures of an iteration, before its point is shown. -/
  | metrics (cost : α) (fraction : Option α)
  /-- Point and working set after an iteration. -/
  | visited (point : Assignment κ α) (workingSet : WorkingSet) (iteration : Nat)

end GaussianProgram
