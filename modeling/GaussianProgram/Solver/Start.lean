import GaussianProgram.Solver

/-! Start of a run: the working set names inequality rows only, the point has exactly the keys of
the graph, and, if asked for, it satisfies all rows. -/
namespace GaussianProgram.Solver

variable {κ α σ : Type} [Key κ] [Scalar α]

def checkWorkingSet (g : Graph κ α) (w : WorkingSet) : Result (SolverError α) Unit :=
  match w.rows.find? fun r => !g.isInequality r with
  | some r => Result.fail (.invalidWorkingSet (.notInequality r))
  | none => .ok ()

def initialEntry (initial : Assignment κ α) (k : κ) (dim : Nat) :
    Except (GraphError α) (κ × Vec α) :=
  match initial.get? k with
  | none => .error (.missingValue (Key.text k))
  | some v =>
    if v.length = dim then .ok (k, v)
    else .error (.dimensionMismatch (.initial (Key.text k) v.length dim))

def restrict (g : Graph κ α) (initial : Assignment κ α) :
    Result (SolverError α) (Assignment κ α) := do
  let dims ← g.dimensions.mapCause .graph
  let entries ← dims.toList.mapM fun (k, dim) =>
    (Result.ofExcept (initialEntry initial k dim)).mapCause .graph
  return SortedMap.ofList entries

/-- Amount by which a row with the given residual is violated, none for a row of no kind. -/
def violation? (kind : Option RowKind) (residual : α) : Option α :=
  match kind with
  | some .equality => some (Scalar.abs residual)
  | some .inequality => some residual
  | none => none

/-- Passes the rows of one constraint factor if none is violated by more than `tolerance`. -/
def checkFactorFeasible (tolerance : α) (x : Assignment κ α) (index : Nat) (f : LinearRows κ α) :
    Result (SolverError α) Unit := do
  let residual ← (Result.ofExcept (f.residual x)).mapCause .factor
  residual.zipIdx.forM fun (value, row) =>
    match violation? (f.rowKind? row) value with
    | none => .ok ()
    | some violation =>
      if tolerance < violation then Result.fail (.infeasibleStart ⟨index, row⟩ violation)
      else .ok ()

def checkFeasible (g : Graph κ α) (tolerance : α) (x : Assignment κ α) :
    Result (SolverError α) Unit :=
  g.constraints.forM fun (i, f) => checkFactorFeasible tolerance x i f

/-- A residual that cannot be computed is a failure without a report, a violated row one with
a report. -/
def announceInfeasible (r : Result (SolverError α) Unit) : Run κ α σ (SolverError α) Unit :=
  match r with
  | .error (.cause (.factor e)) => Run.quietly (Result.fail (.factor e))
  | r => Run.announcing r

/-- Checks the working set, restricts the point to the graph and checks it if asked for. -/
def start (s : Solver κ α σ) (initial : Assignment κ α) : Run κ α σ (SolverError α) Unit := do
  Run.announcing (checkWorkingSet s.graph (← Run.workingSet))
  let x ← Run.announcing (restrict s.graph initial)
  Run.setPoint x
  let outside := initial.size - x.size
  if 0 < outside then Run.report (.outsideKeys outside)
  if s.config.checkInitialFeasibility then
    announceInfeasible (checkFeasible s.graph s.config.feasibilityTolerance x)

end GaussianProgram.Solver
