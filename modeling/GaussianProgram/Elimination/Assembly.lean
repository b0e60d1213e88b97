import GaussianProgram.Graph
import GaussianProgram.Graph.Layout
import GaussianProgram.Linear.Backend

/-! Linear systems of a graph over its stacked variables. Least-squares factors stack to `Jx ≈ b`.
Costs of either kind add up to `Hx = g`, equality rows stack to `Cx = d`, and both together are the
stationarity system `[H Cᵀ; C 0] (x, ν) = (g, d)`. Inequality rows take no part. -/
namespace GaussianProgram

/-- Stacked least-squares factors: `jacobian · x ≈ rhs`. -/
structure LeastSquaresSystem (α : Type) where
  jacobian : SparseMatrix α
  rhs : Vec α

/-- Minimize `½ xᵀHx - xᵀg` where `constraints · x = rhs`. -/
structure ConstrainedSystem (α : Type) where
  hessian : SparseMatrix α
  linear : Vec α
  constraints : SparseMatrix α
  rhs : Vec α

variable {κ α : Type} [Key κ] [Scalar α]

def Layout.columnOf (layout : Layout κ) (k : κ) : Result LinearError Nat :=
  match layout.offset? k with
  | some offset => .ok offset
  | none => Result.fail (.systemAssembly (.unplacedKey (Key.text k)))

namespace LeastSquaresSystem

/-- Appends the rows of one factor below the rows that are there. -/
def addRows (layout : Layout κ) (s : LeastSquaresSystem α) (f : LinearRows κ α) :
    Result LinearError (LeastSquaresSystem α) := do
  let jacobian ← f.terms.foldlM (fun (jacobian : SparseMatrix α) (k, block) => do
    let column ← layout.columnOf k
    return jacobian.addBlock s.rhs.length column block) s.jacobian
  let rhs := s.rhs ++ f.rhs
  return { jacobian := { jacobian with rows := rhs.length }, rhs }

def ofGraph (layout : Layout κ) (g : Graph κ α) : Result LinearError (LeastSquaresSystem α) :=
  (g.factors.filterMap Factor.linear?).foldlM (addRows layout)
    ⟨SparseMatrix.empty 0 layout.total, []⟩

end LeastSquaresSystem

namespace ConstrainedSystem

def addLinear (s : ConstrainedSystem α) (offset : Nat) (v : Vec α) :
    Result LinearError (ConstrainedSystem α) := do
  return { s with linear := ← Result.inRange (Vec.addAt s.linear offset v) }

def addQuadratic (layout : Layout κ) (s : ConstrainedSystem α) (f : QuadraticCost κ α) :
    Result LinearError (ConstrainedSystem α) :=
  f.keys.zipIdx.foldlM (fun s (k, i) => do
    let row ← layout.columnOf k
    let hessian ← f.keys.zipIdx.foldlM (fun (hessian : SparseMatrix α) (k', j) => do
      let column ← layout.columnOf k'
      return hessian.addBlock row column (← Result.inRange (f.block? i j))) s.hessian
    { s with hessian }.addLinear row (← Result.inRange (f.linearTerm? i))) s

/-- A block wider than its segment is out of range before any product is taken. -/
def addLeastSquares (layout : Layout κ) (s : ConstrainedSystem α) (f : LinearRows κ α) :
    Result LinearError (ConstrainedSystem α) :=
  f.terms.foldlM (fun s (k, block) => do
    let row ← layout.columnOf k
    let _ ← Result.inRange (Vec.slice s.linear row block.cols)
    let hessian ← f.terms.foldlM (fun (hessian : SparseMatrix α) (k', block') => do
      let column ← layout.columnOf k'
      return hessian.addBlock row column (← Result.inRange (block.transpose.mul? block'))) s.hessian
    { s with hessian }.addLinear row (block.transpose.mulVec f.rhs)) s

/-- Appends the equality rows of one factor below the constraint rows that are there. -/
def addEqualities (layout : Layout κ) (s : ConstrainedSystem α) (f : LinearRows κ α) :
    Result LinearError (ConstrainedSystem α) :=
  f.equalityRows.foldlM (fun s row => do
    let constraints ← f.terms.foldlM (fun (constraints : SparseMatrix α) (k, block) => do
      let column ← layout.columnOf k
      return constraints.addRow s.rhs.length column (← Result.inRange (block.row? row)))
      s.constraints
    let b ← Result.inRange f.rhs[row]?
    let rhs := s.rhs ++ [b]
    return { s with constraints := { constraints with rows := rhs.length }, rhs }) s

def addFactor (layout : Layout κ) (s : ConstrainedSystem α) :
    Factor κ α → Result LinearError (ConstrainedSystem α)
  | .quadratic f => s.addQuadratic layout f
  | .linear f => if f.isLeastSquares then s.addLeastSquares layout f else s.addEqualities layout f

def ofGraph (layout : Layout κ) (g : Graph κ α) : Result LinearError (ConstrainedSystem α) := do
  let linear ← Result.inRange (Vec.zeros? layout.total)
  g.factors.foldlM (addFactor layout) {
    hessian := SparseMatrix.empty layout.total layout.total
    linear
    constraints := SparseMatrix.empty 0 layout.total
    rhs := [] }

def unconstrained (s : ConstrainedSystem α) : LinearSystem α := ⟨s.hessian, s.linear⟩

/-- The stationarity system of the minimum and the multipliers of its constraint rows. -/
def stationarity (s : ConstrainedSystem α) : LinearSystem α where
  matrix :=
    let n := s.linear.length
    let size := n + s.rhs.length
    s.constraints.entries.toList.foldl
      (fun m e => (m.addEntry (n + e.1.1) e.1.2 e.2).addEntry e.1.2 (n + e.1.1) e.2)
      { s.hessian with rows := size, cols := size }
  rhs := s.linear ++ s.rhs

end ConstrainedSystem

end GaussianProgram
