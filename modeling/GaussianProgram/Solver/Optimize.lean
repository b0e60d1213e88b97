import GaussianProgram.Solver.Start

/-! Runs of the active-set method: iterations until the point is optimal, one fails, a row is
dropped from the same working set twice, or the limit is reached. -/
namespace GaussianProgram.Solver

variable {κ α σ : Type} [Key κ] [Scalar α]

def currentCost (s : Solver κ α σ) : Run κ α σ (Error α) α := do
  Run.quietly ((s.graph.cost (← Run.point)).mapCause .graph)

/-- Without any active row the optimum is that of the cost alone. -/
def statusOf (g : Graph κ α) (w : WorkingSet) : Status :=
  if w.isEmpty && g.equalityIndices.isEmpty then .interiorOptimum else .converged

def stop {β : Type} (e : SolverError α) : Run κ α σ (Error α) β :=
  Run.mapCause .solver (Run.announcing (Result.fail e))

/-- Iterates at most `fuel` times. `droppedFrom` holds the working sets from which a row has been
dropped, and `previous` the cost before the iteration. -/
def loop (s : Solver κ α σ) (initialCost : α) :
    (fuel iteration : Nat) → (previous : α) → (droppedFrom : List WorkingSet) →
      Run κ α σ (Error α) (Optimum κ α)
  | 0, _, _, _ => stop (.iterationLimit s.config.maxIterations)
  | fuel + 1, iteration, previous, droppedFrom => do
    let before ← Run.workingSet
    let outcome ← Run.mapCause .solver s.iterate
    let cost ← s.currentCost
    let x ← Run.point
    let w ← Run.workingSet
    Run.report (.progress {
      iteration, cost
      costChange := previous - cost
      fraction := outcome.stepFraction?
      workingSetSize := w.size
      action := outcome.action })
    Run.emit (.metrics cost outcome.stepFraction?)
    Run.emit (.visited x w iteration)
    match outcome with
    | .converged duals =>
      let result : Optimum κ α := {
        solution := x, duals, workingSet := w, status := statusOf s.graph w
        initialCost, finalCost := cost, iterations := iteration + 1 }
      Run.report (.optimum result)
      return result
    | .dropped _ =>
      if s.config.detectCycling then
        if before ∈ droppedFrom then stop (.cycling iteration)
        else s.loop initialCost fuel (iteration + 1) cost (before :: droppedFrom)
      else s.loop initialCost fuel (iteration + 1) cost droppedFrom
    | .stepTaken _ _ => s.loop initialCost fuel (iteration + 1) cost droppedFrom

/-- A run from `initial`, on a state that holds the working set of the start. -/
def optimizeRun (s : Solver κ α σ) (initial : Assignment κ α) :
    Run κ α σ (Error α) (Optimum κ α) := do
  Run.mapCause .solver (s.start initial)
  let initialCost ← s.currentCost
  Run.report (.configuration s.config)
  Run.report .tableHeader
  s.loop initialCost s.config.maxIterations 0 initialCost []

/-- Minimizes the cost subject to all constraint rows, from `initial` and the working set `w`. Gives
the optimum or a failure, with the state in which the run ended. -/
def optimize (s : Solver κ α σ) (initial : Assignment κ α) (w : WorkingSet) (eliminator : σ) :
    Result (Error α) (Optimum κ α) × RunState κ α σ :=
  (s.optimizeRun initial).run.run ⟨w, initial, eliminator, []⟩

end GaussianProgram.Solver
