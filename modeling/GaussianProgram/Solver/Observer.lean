import GaussianProgram.Solver.Event

/-! Observers of a run. An observer folds the notifications of a run into a state; several observers
are notified in the order in which they are registered. -/
namespace GaussianProgram

/-- What an observer makes of the two notifications of an iteration. -/
structure Observer (κ α τ : Type) [Key κ] where
  metrics (cost : α) (fraction : Option α) (state : τ) : τ
  visited (point : Assignment κ α) (workingSet : WorkingSet) (iteration : Nat) (state : τ) : τ

/-- An iteration as a recorder keeps it. -/
structure TraceEntry (κ α : Type) [Key κ] where
  iteration : Nat
  point : Assignment κ α
  workingSet : WorkingSet

namespace Observer
variable {κ α τ : Type} [Key κ]

/-- Shows one event to one observer; reports are not for observers. -/
def handle (o : Observer κ α τ) (state : τ) : Event κ α → τ
  | .report _ => state
  | .metrics cost fraction => o.metrics cost fraction state
  | .visited point workingSet iteration => o.visited point workingSet iteration state

/-- Shows every event to all observers, one event after the other. -/
def replay (observers : List (Observer κ α τ)) (events : List (Event κ α)) (state : τ) : τ :=
  events.foldl (fun state e => observers.foldl (fun state o => o.handle state e) state) state

/-- Keeps every point and working set, and passes over the figures. -/
def recorder : Observer κ α (List (TraceEntry κ α)) where
  metrics _ _ entries := entries
  visited point workingSet iteration entries := entries ++ [⟨iteration, point, workingSet⟩]

end Observer

end GaussianProgram
