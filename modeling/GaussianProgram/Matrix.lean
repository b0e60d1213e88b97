import GaussianProgram.Vec

/-! Dense matrices as a shape and its entries, row by row. The shape stands by itself, so that a
matrix without rows still has a width, and one without columns a height. -/
namespace GaussianProgram

/-- A shape with an entry for every place, row by row. -/
structure Matrix (α : Type) where
  rows : Nat
  cols : Nat
  entries : Array α
  size_eq : entries.size = rows * cols

namespace Matrix
variable {α : Type}

instance [BEq α] : BEq (Matrix α) :=
  ⟨fun m n => m.rows == n.rows && m.cols == n.cols && m.entries == n.entries⟩

/-- Equal shapes and entries make equal matrices. -/
theorem ext_entries {m n : Matrix α} (hr : m.rows = n.rows) (hc : m.cols = n.cols)
    (he : m.entries = n.entries) : m = n := by
  cases m; cases n; simp_all

def ofFn (rows cols : Nat) (f : Nat → Nat → α) : Matrix α where
  rows := rows
  cols := cols
  entries := Array.ofFn fun (k : Fin (rows * cols)) => f (k / cols) (k % cols)
  size_eq := Array.size_ofFn

@[simp] theorem rows_ofFn (rows cols : Nat) (f : Nat → Nat → α) : (ofFn rows cols f).rows = rows :=
  rfl

@[simp] theorem cols_ofFn (rows cols : Nat) (f : Nat → Nat → α) : (ofFn rows cols f).cols = cols :=
  rfl

variable [Scalar α]

/-- Entry at row `i` and column `j`, zero outside. -/
def get (m : Matrix α) (i j : Nat) : α :=
  if j < m.cols then m.entries.getD (i * m.cols + j) 0 else 0

/-- The place of an entry determines its row and its column. -/
@[simp] theorem get_ofFn {rows cols i j : Nat} (f : Nat → Nat → α) (hi : i < rows) (hj : j < cols) :
    (ofFn rows cols f).get i j = f i j := by
  have hlt : i * cols + j < rows * cols := by
    have := Nat.mul_le_mul_right cols (Nat.succ_le_of_lt hi)
    rw [Nat.succ_mul] at this
    omega
  have hdiv : (i * cols + j) / cols = i := by
    rw [Nat.mul_comm, Nat.mul_add_div (by omega), Nat.div_eq_of_lt hj, Nat.add_zero]
  have hmod : (i * cols + j) % cols = j := by
    rw [Nat.mul_comm, Nat.mul_add_mod, Nat.mod_eq_of_lt hj]
  simp [get, ofFn, hj, hlt, hdiv, hmod]

def row (m : Matrix α) (i : Nat) : Vec α := (List.range m.cols).map (m.get i)

def row? (m : Matrix α) (i : Nat) : Option (Vec α) := if i < m.rows then some (m.row i) else none

def column (m : Matrix α) (j : Nat) : Vec α := (List.range m.rows).map (m.get · j)

def rowList (m : Matrix α) : List (Vec α) := (List.range m.rows).map m.row

def columnList (m : Matrix α) : List (Vec α) := (List.range m.cols).map m.column

@[simp] theorem length_row (m : Matrix α) (i : Nat) : (m.row i).length = m.cols := by simp [row]

@[simp] theorem length_column (m : Matrix α) (j : Nat) : (m.column j).length = m.rows := by
  simp [column]

@[simp] theorem length_rowList (m : Matrix α) : m.rowList.length = m.rows := by simp [rowList]

@[simp] theorem length_columnList (m : Matrix α) : m.columnList.length = m.cols := by
  simp [columnList]

/-- The part of `height` rows and `width` columns at the given place, if it lies inside. -/
def block? (m : Matrix α) (row col height width : Nat) : Option (Matrix α) :=
  if row + height ≤ m.rows ∧ col + width ≤ m.cols then
    some (ofFn height width fun i j => m.get (row + i) (col + j))
  else none

def transpose (m : Matrix α) : Matrix α := ofFn m.cols m.rows fun i j => m.get j i

@[simp] theorem rows_transpose (m : Matrix α) : m.transpose.rows = m.cols := rfl

@[simp] theorem cols_transpose (m : Matrix α) : m.transpose.cols = m.rows := rfl

/-- The rows at the given indices, in their order; zeros where there is no such row. -/
def selectRows (m : Matrix α) (indices : List Nat) : Matrix α :=
  ofFn indices.length m.cols fun i j => m.get (indices.getD i m.rows) j

def ofColumns (rows : Nat) (columns : List (Vec α)) : Matrix α :=
  ofFn rows columns.length fun i j => Vec.get (columns.getD j []) i

def sub (m n : Matrix α) : Matrix α := ofFn m.rows m.cols fun i j => m.get i j - n.get i j

/-- The symmetric matrix with diagonal blocks `a` and `c`, `b` to the right of `a` and its
transpose below. -/
def symmetricBlocks (a b c : Matrix α) : Matrix α :=
  let n := a.rows
  ofFn (n + c.rows) (n + c.rows) fun i j =>
    if i < n then
      if j < n then a.get i j else b.get i (j - n)
    else
      if j < n then b.get j (i - n) else c.get (i - n) (j - n)

def mulVec (m : Matrix α) (v : Vec α) : Vec α := m.rowList.map (Vec.combine · v)

def mul? (m n : Matrix α) : Option (Matrix α) :=
  if maxLength < m.rows * n.cols then none else
  let rows := m.rowList.toArray
  let columns := n.columnList.toArray
  some <| ofFn m.rows n.cols fun i j => Vec.combine (rows.getD i []) (columns.getD j [])

/-- Largest magnitude of an entry, zero for an empty matrix. Entries are taken column by column. -/
def amax (m : Matrix α) : α := Vec.amax m.transpose.entries.toList

end Matrix

end GaussianProgram
