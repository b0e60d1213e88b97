import GaussianProgram.Linear.Backend
import GaussianProgram.Linear.ColumnForest

/-! Square systems by reflections, which need no positive pivots. Column after column is led through
the reflections before it and then cleared below one row by its own. A reflection moves only the
rows in which the column can have entries, and a column passes by the reflections that share no such
row with it. Where the columns depend on each other a pivot is zero or next to it, so a solution is
to be checked by whoever asks for it. -/
namespace GaussianProgram.Orthogonal

variable {α : Type} [Scalar α]

/-- The least number that is stored with full precision. -/
def leastNormal : α := 2.2250738585072014e-308

/-- Its square root: shorter vectors have squares that vanish. -/
def shortUnit : α := 1.4916681462400413e-154

/-- Euclidean length. The squares are taken in the unit that keeps them in range: a large one where
the length in it is one at least, a small one where the length in it is one at most. -/
def length (v : Vec α) : α :=
  let squareIn (unit : α) := Vec.normSq (v.map (· / unit))
  let longUnit := 1 / shortUnit
  if 1 ≤ squareIn longUnit then Scalar.sqrt (squareIn longUnit) * longUnit
  else if squareIn shortUnit ≤ 1 then Scalar.sqrt (squareIn shortUnit) * shortUnit
  else Scalar.sqrt (Vec.normSq v)

/-- Reflection that leaves `pivot` in row `head` of a column and nothing in the rows below. Its
normal is one in row `head` and has the given entries in the rows below; `weight` is two over its
squared length. -/
structure Reflection (α : Type) where
  head : Nat
  pivot : α
  below : List (Nat × α)
  weight : α

namespace Reflection

/-- The reflection of a column. One that vanishes below `head` stays as it is, and a first entry
that vanishes counts as zero. -/
def ofColumn (column : Array α) (head : Nat) (below : List Nat) : Reflection α :=
  let entry (i : Nat) := column.getD i 0
  let first := if Scalar.abs (entry head) < leastNormal then 0 else entry head
  let size := length (below.map entry)
  let scaled (inverse : α) := below.map fun i => (i, entry i * inverse)
  if size < leastNormal then ⟨head, first, scaled 0, 0⟩
  else
    let sign := if first == 0 then 1 else first * (1 / Scalar.abs first)
    let pivot := -(sign * length [Scalar.abs first, size])
    let inverse := 1 / (first - pivot)
    let ratio := size * Scalar.abs inverse
    ⟨head, pivot, scaled inverse, 1 / ((1 + ratio * ratio) / (1 + 1))⟩

def rows (r : Reflection α) : List Nat := r.head :: r.below.map (·.1)

def apply (r : Reflection α) (column : Array α) : Array α :=
  let image := r.below.foldl (fun sum (i, a) => sum + column.getD i 0 * a) (column.getD r.head 0)
  let change := image * -r.weight
  r.below.foldl (fun column (i, a) => column.modify i (· + change * a))
    (column.modify r.head (· + change))

end Reflection

/-- A column that is cleared. `above` has the entries of the triangular factor over its pivot, each
with the position of its row. A column that had no row left has no reflection. -/
structure Cleared (α : Type) where
  above : List (Nat × α)
  reflection : Option (Reflection α)

def Cleared.extent (c : Cleared α) : Nat := (c.reflection.map (·.rows.length)).getD 0

/-- The reflections that a column with entries in `rows` meets, each with its position, and the rows
in which it can have entries when it has met them all. A reflection that moves one of its rows can
leave entries in each row that it moves. -/
def meetings (columns : List (Cleared α)) (rows : List Nat) :
    List (Nat × Reflection α) × List Nat :=
  columns.zipIdx.foldl (fun (met, rows) (c, k) =>
    match c.reflection.filter (·.rows.any rows.contains) with
    | some r => (met ++ [(k, r)], rows ++ r.rows.filter fun i => !rows.contains i)
    | none => (met, rows)) ([], rows)

/-- Clears one more column with the given entries, of a matrix with `height` rows. Of the rows that
no column has kept it keeps the first, its own before those that others leave to it. -/
def clear (height : Nat) (columns : List (Cleared α)) (entries : List (Nat × α)) :
    List (Cleared α) :=
  let (met, rows) := meetings columns (entries.map (·.1))
  let start := entries.foldl (fun column (i, a) => column.setIfInBounds i a)
    (Array.replicate height 0)
  let (column, above) := met.foldl (fun (column, above) (k, r) =>
    let column := r.apply column
    (column, above ++ [(k, column.getD r.head 0)])) (start, [])
  let kept := columns.filterMap fun c => c.reflection.map (·.head)
  let reflection := match rows.filter fun i => !kept.contains i with
    | [] => none
    | head :: below => some (Reflection.ofColumn column head below)
  columns ++ [⟨above, reflection⟩]

/-- Solves with the triangular factor, the last unknown first, by taking the multiple of each column
from the right-hand sides before. A pivot that is zero divides as any other; where there is none the
unknown is no number. -/
def backward (columns : List (Cleared α)) (rhs : Array α) : Array α :=
  columns.zipIdx.foldr (fun (c, k) rhs =>
    let value := match c.reflection with
      | some r => rhs.getD k 0 * (1 / r.pivot)
      | none => 0 / 0
    c.above.foldl (fun rhs (j, a) => rhs.modify j (· - a * value)) (rhs.setIfInBounds k value)) rhs

/-- Clears the columns in the order of their elimination, and solves the triangle that is left. The
reflections have the room that the trees of the columns leave them, and more is out of range. -/
def solve (m : SparseMatrix α) (rhs : Vec α) : Result LinearError (SystemSolution α m) :=
  let forest := m.columnForest
  let columns := forest.columns.foldl (fun columns j =>
    clear m.rows columns ((m.entries.toList.filter (·.1.2 == j)).map fun e => (e.1.1, e.2))) []
  if forest.room < sumDims (columns.map (·.extent)) then .error .outOfRange
  else
    let reflected := columns.foldl (fun y c => (c.reflection.map (·.apply y)).getD y)
      ((List.range m.rows).map (Vec.get rhs)).toArray
    let heads := columns.map fun c =>
      (c.reflection.map fun r => reflected.getD r.head 0).getD 0
    let ordered := backward columns heads.toArray
    .ok ⟨(List.range m.cols).map fun j => ordered.getD (forest.columns.idxOf j) 0, by simp⟩

end GaussianProgram.Orthogonal
