import GaussianProgram.Error
import GaussianProgram.Failure
import GaussianProgram.Linear.Sparse

/-! Solvers of linear systems. How they solve is left open: a backend is any pair of functions that
answer with a vector of the right length or fail. -/
namespace GaussianProgram

/-- Which factorization serves systems without constraint rows. -/
inductive SolverKind where
  | cholesky
  | qr
  deriving DecidableEq, Repr

def SolverKind.text : SolverKind → String
  | cholesky => "Sparse Cholesky"
  | qr => "Sparse QR"

/-- An answer to a system, as long as the matrix is wide. -/
abbrev SystemSolution (α : Type) (m : SparseMatrix α) := { x : Vec α // x.length = m.cols }

/-- A solver for positive definite systems and one for square systems. -/
structure Backend (α : Type) where
  cholesky (m : SparseMatrix α) (rhs : Vec α) : Result LinearError (SystemSolution α m)
  qr (m : SparseMatrix α) (rhs : Vec α) : Result LinearError (SystemSolution α m)

namespace Backend
variable {α : Type}

/-- Factors the matrix and solves, whatever its shape. -/
def solve (b : Backend α) (kind : SolverKind) (m : SparseMatrix α) (rhs : Vec α) :
    Result LinearError (SystemSolution α m) :=
  match kind with
  | .cholesky => b.cholesky m rhs
  | .qr => b.qr m rhs

/-- Solves `m · x = rhs` by the triangular factor of a square matrix, in the place of the right-hand
sides. Right-hand sides after the last row stay as they are. -/
def solveInPlace (b : Backend α) (m : SparseMatrix α) (rhs : Vec α) :
    Result LinearError { x : Vec α // x.length = rhs.length } :=
  if hm : m.rows = m.cols then do
    let x ← b.cholesky m (rhs.take m.rows)
    if hr : m.rows ≤ rhs.length then
      return ⟨x.val ++ rhs.drop m.rows, by
        have := x.property
        simp only [List.length_append, List.length_drop]; omega⟩
    else throw .outOfRange
  else throw .outOfRange

/-- Solves `m · x = rhs` by the orthogonal factorization, which refuses a matrix that is not square
and needs one right-hand side for each row. -/
def solveSquare (b : Backend α) (m : SparseMatrix α) (rhs : Vec α) :
    Result LinearError { x : Vec α // x.length = rhs.length } :=
  if hm : m.rows = m.cols then do
    let x ← b.qr m rhs
    if hr : rhs.length = m.rows then
      return ⟨x.val, x.property.trans (hm.symm.trans hr.symm)⟩
    else throw .outOfRange
  else Result.fail (.systemAssembly (.notSquare m.rows m.cols))

def solveSystem (b : Backend α) (kind : SolverKind) (m : SparseMatrix α) (rhs : Vec α) :
    Result LinearError { x : Vec α // x.length = rhs.length } :=
  match kind with
  | .cholesky => b.solveInPlace m rhs
  | .qr => b.solveSquare m rhs

/-- Minimizes `‖m · x - rhs‖` by its normal equation `mᵀm · x = mᵀ rhs`. The transpose takes one
number more to store than it has columns. -/
def solveNormal [Scalar α] (b : Backend α) (kind : SolverKind) (m : SparseMatrix α)
    (rhs : Vec α) : Result LinearError (SystemSolution α m.gram) :=
  if maxLength ≤ m.rows then Result.fail (.matrixConversion .transpose)
  else if rhs.length = m.rows then b.solve kind m.gram (m.transposeMulVec rhs)
  else throw .outOfRange

end Backend

end GaussianProgram
