import GaussianProgram.Elimination
import GaussianProgram.Solver.Event

/-! State of a run, which lies below its failures: a run that fails leaves the working set, the
point, the eliminator and the events as they were at the failure. -/
namespace GaussianProgram

structure RunState (κ α σ : Type) [Key κ] where
  workingSet : WorkingSet
  point : Assignment κ α
  eliminator : σ
  events : List (Event κ α)

abbrev Run (κ α σ ε : Type) [Key κ] := ExceptT (Failure ε) (StateM (RunState κ α σ))

namespace Run
variable {κ α σ ε ε' β : Type} [Key κ]

def emit (e : Event κ α) : Run κ α σ ε Unit :=
  modify fun s => { s with events := s.events ++ [e] }

def report (r : Report κ α) : Run κ α σ ε Unit := emit (.report r)

def workingSet : Run κ α σ ε WorkingSet := return (← get).workingSet

def point : Run κ α σ ε (Assignment κ α) := return (← get).point

def setWorkingSet (w : WorkingSet) : Run κ α σ ε Unit := modify fun s => { s with workingSet := w }

def setPoint (x : Assignment κ α) : Run κ α σ ε Unit := modify fun s => { s with point := x }

/-- Takes over a result without a report. -/
def quietly (r : Result ε β) : Run κ α σ ε β :=
  match r with
  | .ok b => pure b
  | .error e => throw e

/-- Takes over a result and reports the cause of a failure, as it first arose. -/
def announcing (r : Result (SolverError α) β) : Run κ α σ (SolverError α) β :=
  match r with
  | .ok b => pure b
  | .error (.cause e) => do
    report (.failure e.origin)
    throw (.cause e)
  | .error .outOfRange => throw .outOfRange

def mapCause (f : ε → ε') (r : Run κ α σ ε β) : Run κ α σ ε' β :=
  ExceptT.mk do return Result.mapCause f (← r.run)

/-- Asks the eliminator, and takes over its reports before its answer. -/
def ask {κ' : Type} [Key κ'] (answer : σ → Reply κ' α × σ) :
    Run κ α σ (SolverError α) (Assignment κ' α) := do
  let (reply, eliminator) := answer (← get).eliminator
  modify fun s => { s with eliminator }
  reply.reports.forM fun e => report (.failure e)
  quietly (reply.result.mapCause .linear)

end Run

end GaussianProgram
