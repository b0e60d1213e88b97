import GaussianProgram.Matrix
import GaussianProgram.Sorted.Map
import GaussianProgram.Sorted.Pair

/-! Sparse matrices as maps from positions to entries, by rows and then by columns. Entries added at
one position add up, and zeros of a block that is added leave no entry. Positions are 64-bit words,
and entries can come to lie outside of the shape. -/
namespace GaussianProgram

/-- A matrix of the given shape with entries at finitely many positions. -/
structure SparseMatrix (α : Type) where
  rows : Nat
  cols : Nat
  entries : SortedMap (Nat × Nat) α

def SparseMatrix.columnsOfRow {α : Type} (m : SparseMatrix α) (i : Nat) : List Nat :=
  (m.entries.keys.filter (·.1 == i)).map (·.2)

def SparseMatrix.rowsOfColumn {α : Type} (m : SparseMatrix α) (j : Nat) : List Nat :=
  (m.entries.keys.filter (·.2 == j)).map (·.1)

namespace SparseMatrix
variable {α : Type} [Scalar α]

def empty (rows cols : Nat) : SparseMatrix α := ⟨rows, cols, SortedMap.empty⟩

/-- Entry at row `i` and column `j`, zero where there is none. -/
def get (m : SparseMatrix α) (i j : Nat) : α := (m.entries.get? (i, j)).getD 0

def addEntry (m : SparseMatrix α) (i j : Nat) (a : α) : SparseMatrix α :=
  { m with entries := m.entries.insert (i, j) (m.get i j + a) }

def ofTriplets (rows cols : Nat) (triplets : List (Nat × Nat × α)) : SparseMatrix α :=
  triplets.foldl (fun m (i, j, a) => m.addEntry i j a) (empty rows cols)

/-- Adds the entries of `v` other than zero to row `i`, from column `j` on. -/
def addRow (m : SparseMatrix α) (i j : Nat) (v : Vec α) : SparseMatrix α :=
  v.zipIdx.foldl (fun m (a, k) =>
    if a == 0 then m else m.addEntry i ((j + k) % UInt64.size) a) m

/-- Adds the entries of `block` other than zero, its corner at row `i` and column `j`. -/
def addBlock (m : SparseMatrix α) (i j : Nat) (block : Matrix α) : SparseMatrix α :=
  block.rowList.zipIdx.foldl (fun m (v, k) => m.addRow ((i + k) % UInt64.size) j v) m

def isInside (m : SparseMatrix α) : Bool :=
  m.entries.keys.all fun (i, j) => decide (i < m.rows ∧ j < m.cols)

def mulVec (m : SparseMatrix α) (x : Vec α) : Vec α :=
  (List.range m.rows).map fun i =>
    Vec.sum ((m.entries.toList.filter (·.1.1 == i)).map fun e => e.2 * Vec.get x e.1.2)

def transposeMulVec (m : SparseMatrix α) (y : Vec α) : Vec α :=
  (List.range m.cols).map fun j =>
    Vec.sum ((m.entries.toList.filter (·.1.2 == j)).map fun e => e.2 * Vec.get y e.1.1)

def gramRow (m : SparseMatrix α) (i : Nat) : SortedMap Nat α :=
  (m.entries.toList.filter (·.1.2 == i)).foldl (fun row e =>
    (m.entries.toList.filter (·.1.1 == e.1.1)).foldl (fun row e' =>
      row.insert e'.1.2 ((row.get? e'.1.2).getD 0 + e.2 * e'.2)) row) SortedMap.empty

/-- Product of the transpose with the matrix itself. -/
def gram (m : SparseMatrix α) : SparseMatrix α :=
  let products := (List.range m.cols).flatMap fun i =>
    (m.gramRow i).toList.map fun (j, a) => ((i, j), a)
  ⟨m.cols, m.cols, SortedMap.ofList products.reverse⟩

def frobenius (m : SparseMatrix α) : α :=
  Scalar.sqrt (Vec.sum (m.entries.values.map fun a => a * a))

end SparseMatrix

/-- Equations `matrix · x = rhs`. -/
structure LinearSystem (α : Type) where
  matrix : SparseMatrix α
  rhs : Vec α

end GaussianProgram
