import GaussianProgram.Graph.Rows
import GaussianProgram.Solver.Config

/-! One step of the active-set method: the problem with the working set held fast, and the ratio
test that tells how far the point may move towards its solution. -/
namespace GaussianProgram.Graph

variable {κ α : Type} [Key κ] [Scalar α]

/-- Rows of a constraint factor that the working problem enforces: its equality rows and its rows in
the working set, ascending and without repetition. -/
def enforcedRows (w : WorkingSet) (index : Nat) (f : LinearRows κ α) : List Nat :=
  (SortedSet.ofKeys (f.equalityRows ++ w.rowsOf index)).keys

/-- The part of a factor in the working problem: a cost as it is, a constraint with its enforced
rows as equalities, or nothing if it has none. -/
def workingFactor? (w : WorkingSet) (index : Nat) (f : Factor κ α) :
    Except (FactorError α) (Option (Factor κ α)) :=
  match f.constraint? with
  | none => return some f
  | some constraint =>
    let rows := enforcedRows w index constraint
    if rows.isEmpty then return none
    else return some (.linear (← constraint.selectRows rows .equality))

def workingGraph (g : Graph κ α) (w : WorkingSet) : Except (FactorError α) (Graph κ α) := do
  let factors ← g.indexed.mapM fun (i, f) => workingFactor? w i f
  return ⟨factors.filterMap id⟩

/-- Where the segment from a point with slack `before` to one with slack `after` reaches the row. -/
def stepFraction (before after : α) : α :=
  let denominator := before - after
  if 0 < denominator then Scalar.clampUnit (before / denominator) else 0

/-- Fraction of the way from `current` to `candidate` at which a row blocks, none if the candidate
satisfies the row. -/
def blockingFraction? (f : LinearRows κ α) (row : Nat) (tolerance : α)
    (current candidate : Assignment κ α) : Result (FactorError α) (Option α) := do
  let b ← Result.inRange f.rhs[row]?
  let after := b - (← f.rowValue row candidate)
  if -tolerance ≤ after then return none
  let before := b - (← f.rowValue row current)
  return some (stepFraction before after)

/-- Keeps the row with the least fraction, the first of several. -/
def earlier (best : Option (ConstraintRow × α)) (r : ConstraintRow) (fraction : α) :
    Option (ConstraintRow × α) :=
  if best.all fun (_, least) => decide (fraction < least) then some (r, fraction) else best

/-- Ratio test: the inequality row outside the working set that is reached first on the way
from `current` to `candidate`, with the fraction of the way. None if the candidate satisfies
all of them. -/
def stepSize (g : Graph κ α) (w : WorkingSet) (tolerance : α)
    (current candidate : Assignment κ α) :
    Result (FactorError α) (Option (ConstraintRow × α)) :=
  g.inequalityRows.foldlM (fun best r =>
    if w.contains r then .ok best
    else match g.constraintAt? r.factor with
    | none => .ok best
    | some f => do
      match ← blockingFraction? f r.row tolerance current candidate with
      | none => return best
      | some fraction => return earlier best r fraction) none

end GaussianProgram.Graph
