import GaussianProgram.Graph.Layout
import GaussianProgram.Graph.Rows

/-! Active rows: all equality rows of a graph and the inequality rows in the working
set. Multipliers are unique where the active rows are linearly independent, which
their singular values decide. -/
namespace GaussianProgram

variable {κ α : Type} [Key κ]

/-- Sign of a row's multiplier in the stationarity condition, none for a row that is not active. -/
def rowSign [Scalar α] (kind : Option RowKind) (inWorkingSet : Bool) : Option α :=
  match kind, inWorkingSet with
  | some .equality, _ => some (-1)
  | some .inequality, true => some 1
  | _, _ => none

namespace Graph

/-- Constraint factors with an equality row or a row in the working set, with their indices. -/
def participating (g : Graph κ α) (w : WorkingSet) : List (Nat × LinearRows κ α) :=
  let active := w.factors
  g.constraints.filter fun (i, f) => f.hasEquality || active.contains i

variable [Scalar α]

def signOf (w : WorkingSet) (index : Nat) (f : LinearRows κ α) (row : Nat) : Option α :=
  rowSign (f.rowKind? row) (w.contains ⟨index, row⟩)

/-- Indices of the active rows of one constraint factor, ascending. -/
def activeRowsOf (w : WorkingSet) (index : Nat) (f : LinearRows κ α) : List Nat :=
  (List.range f.rows).filter fun row => (signOf w index f row).isSome

def activeRows (g : Graph κ α) (w : WorkingSet) : List ConstraintRow :=
  (g.participating w).flatMap fun (i, f) => (activeRowsOf w i f).map (ConstraintRow.mk i)

/-- One row over the stacked variables: its coefficients in the segments of its keys,
zero elsewhere. -/
def denseRow (layout : Layout κ) (f : LinearRows κ α) (row : Nat) :
    Result (SolverError α) (Vec α) := do
  let start ← Result.inRange (Vec.zeros? layout.total)
  f.keys.zipIdx.foldlM (fun dense (k, position) =>
    match layout.offset? k with
    | none => Result.fail (.invalidParameters s!"key {Key.text k} has no dimension")
    | some offset => do
      let coefficients ← Result.inRange (f.rowCoefficients? row position)
      Result.inRange (Vec.overwrite dense offset coefficients)) start

def denseActiveRows (g : Graph κ α) (w : WorkingSet) (layout : Layout κ) :
    Result (SolverError α) (List (Vec α)) := do
  let rows ← (g.participating w).mapM fun (i, f) => (activeRowsOf w i f).mapM (denseRow layout f)
  return rows.flatten

/-- Count of the singular values above `tolerance`, relative to the largest of them or to one. -/
def numericalRank (tolerance : α) (singularValues : Vec α) : Nat :=
  let largest := singularValues.foldl Scalar.max 0
  let threshold := tolerance * Scalar.max largest 1
  singularValues.countP fun s => decide (threshold < s)

/-- Passes linearly independent active rows. A matrix without columns has no singular values, and
values that do not compare have no order. -/
def checkActiveRank (singularValues : Matrix α → Option (Vec α)) (g : Graph κ α) (w : WorkingSet)
    (tolerance : α) : Result (SolverError α) Unit := do
  let layout := Layout.ofDimensions (← g.dimensions.mapCause .graph)
  let rows ← g.denseActiveRows w layout
  if rows.isEmpty then return
  if layout.total = 0 then throw .outOfRange
  let matrix := Matrix.ofFn rows.length layout.total fun i j => Vec.get (rows.getD i []) j
  let rank := numericalRank tolerance (← Result.inRange (singularValues matrix))
  if rank < rows.length then Result.fail (.degenerateActiveSet rank rows.length)

end Graph

end GaussianProgram
