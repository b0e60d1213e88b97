import GaussianProgram.Multiplier.Active

/-! Multipliers of the active rows. At a stationary point the derivative of the cost, plus the
active inequality rows and minus the equality rows by their multipliers, is zero for every variable.
The dual graph states this as a least-squares problem whose keys are indices of constraint factors,
each with one multiplier for every row; rows that are not active are pinned to zero. -/
namespace GaussianProgram.Graph

variable {κ α : Type} [Key κ] [Scalar α]

/-- Coefficients of the multipliers of one constraint factor in the condition for variable `k` of
dimension `dim`: one column for each row, with its sign. None if the factor does not touch `k`. -/
def stationarityTerm? (w : WorkingSet) (k : κ) (dim : Nat) (index : Nat) (f : LinearRows κ α) :
    Result (SolverError α) (Option (Nat × Matrix α)) :=
  match f.keys.findIdx? fun k' => decide (k' = k) with
  | none => .ok none
  | some position => do
    let columns ← (List.range f.rows).mapM fun row =>
      match signOf w index f row with
      | none => .ok (Vec.zeros dim)
      | some sign => do
        let coefficients ← Result.inRange (f.rowCoefficients? row position)
        if coefficients.length = dim then .ok (Vec.scale coefficients sign)
        else .error .outOfRange
    return some (index, Matrix.ofColumns dim columns)

/-- Stationarity for one variable, none if no participating factor touches it. -/
def stationarityFactor? (w : WorkingSet) (participating : List (Nat × LinearRows κ α)) (k : κ)
    (gradient : Vec α) : Result (SolverError α) (Option (LinearRows Nat α)) := do
  let terms ← participating.mapM fun (i, f) => stationarityTerm? w k gradient.length i f
  let terms := terms.filterMap id
  if terms.isEmpty then return none
  else
    let condition := LinearRows.leastSquares terms (Vec.neg gradient)
    some <$> (Result.ofExcept condition).mapCause .factor

def pin (index rows row : Nat) : Result (SolverError α) (LinearRows Nat α) :=
  let selector := Matrix.ofFn 1 rows fun _ j => if j = row then 1 else 0
  (Result.ofExcept (LinearRows.leastSquares [(index, selector)] (Vec.zeros 1))).mapCause .factor

/-- Conditions that the multipliers of all rows that are not active are zero. -/
def pins (w : WorkingSet) (participating : List (Nat × LinearRows κ α)) :
    Result (SolverError α) (List (LinearRows Nat α)) := do
  let pinned ← participating.mapM fun (i, f) =>
    ((List.range f.rows).filter fun row => (signOf w i f row).isNone).mapM (pin i f.rows)
  return pinned.flatten

/-- The least-squares graph of the multipliers at `x`. It is empty if no constraint factor
takes part. -/
def dualGraph (g : Graph κ α) (w : WorkingSet) (x : Assignment κ α) :
    Result (SolverError α) (Graph Nat α) := do
  let participating := g.participating w
  if participating.isEmpty then return empty
  let gradient ← (g.gradient x).mapCause .graph
  let conditions ← gradient.toList.mapM fun (k, part) => stationarityFactor? w participating k part
  let pinned ← pins w participating
  return ⟨(conditions.filterMap id ++ pinned).map .linear⟩

/-- Multiplier of an inequality row, if there is one. -/
def multiplier? (g : Graph κ α) (duals : Assignment Nat α) (r : ConstraintRow) : Option α :=
  if g.isInequality r then (duals.get? r.factor).bind (·[r.row]?) else none

/-- The row of the working set with the least multiplier below `-tolerance`, the first
of several. -/
def worstRow? (g : Graph κ α) (w : WorkingSet) (duals : Assignment Nat α) (tolerance : α) :
    Option ConstraintRow :=
  let worst := w.rows.foldl (fun (worst : Option (ConstraintRow × α)) r =>
    match g.multiplier? duals r with
    | none => worst
    | some multiplier =>
      if multiplier < -tolerance ∧ worst.all fun (_, least) => decide (multiplier < least) then
        some (r, multiplier)
      else worst) none
  worst.map (·.1)

/-- Coordinates of a row as signed words, minus one twice where there is no row or no such word. -/
def signedCoordinates : Option ConstraintRow → Int × Int
  | some r =>
    if r.factor < UInt64.size / 2 ∧ r.row < UInt64.size / 2 then (r.factor, r.row) else (-1, -1)
  | none => (-1, -1)

end GaussianProgram.Graph
