import GaussianProgram.Linear.Backend
import GaussianProgram.Linear.SparseRow
import GaussianProgram.Linear.SymmetricOrder
import GaussianProgram.Linear.Triangular

/-! Triangular factor `L` with `L Lᵀ = A` of a symmetric matrix, of which the lower triangle alone
is read and whose unknowns are put into the order of their elimination. There is none unless every
pivot is positive. The factor has an entry where the matrix has one or where earlier columns fill it
in, so unknowns that are not coupled do not meet. -/
namespace GaussianProgram.Cholesky

variable {α : Type} [Scalar α]

/-- Solves with the rows of the factor so far: the entries of the next row, or of a solution of
`L y = b`, as far as `a` gives right-hand sides. -/
def forward (factor : List (SparseRow α)) (a : Nat → Option α) : SparseRow α :=
  factor.foldl (fun done row =>
    let i := done.length
    let products := row.products done
    done ++ [if products.isEmpty ∧ (a i).isNone then none
      else some (products.foldl (· - ·) ((a i).getD 0) * (1 / row.get i))]) []

/-- The factor with one more row, whose pivot must be positive. Row and column of the matrix are
given by `entry`. -/
def extend (entry : Nat → Nat → Option α) (factor : List (SparseRow α)) (i : Nat) :
    Option (List (SparseRow α)) :=
  let row := forward factor (entry i)
  let pivot := (row.filterMap id).foldl (fun rest a => rest - a * a) ((entry i i).getD 0)
  if 0 < pivot then some (factor ++ [row ++ [some (Scalar.sqrt pivot)]]) else none

/-- The factor of the matrix with its unknowns in the given order. -/
def factor? (m : SparseMatrix α) (order : List Nat) : Option (List (SparseRow α)) :=
  let entry (i j : Nat) : Option α :=
    let (k, l) := (order.getD i 0, order.getD j 0)
    m.entries.get? (max k l, min k l)
  (List.range order.length).foldlM (extend entry) []

/-- Solves by the triangular factor; a matrix without one counts as singular. -/
def solve (m : SparseMatrix α) (rhs : Vec α) : Result LinearError (SystemSolution α m) :=
  let order := m.symmetricOrder
  match factor? m order with
  | none => Result.fail .singularMatrix
  | some factor =>
    let y := forward factor fun i => some (Vec.get rhs (order.getD i 0))
    let ordered := backSubstitute order.length fun j later =>
      let column := (factor.drop (j + 1)).map (·.entryAt j)
      let products := SparseRow.products column (later.map some)
      products.foldl (· - ·) (y.get j) * (1 / (factor.getD j []).get j)
    .ok ⟨(List.range m.cols).map fun i => Vec.get ordered (order.idxOf i), by simp⟩

end GaussianProgram.Cholesky
