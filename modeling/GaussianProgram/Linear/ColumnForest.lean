import GaussianProgram.Linear.ColumnOrder

/-! Trees of columns. A column that is cleared keeps one of the rows that reach it and leaves the
others to the next column that one of them touches. So the columns form trees, and what is cleared
in one tree does not concern the others. The order of elimination takes the columns tree by tree. -/
namespace GaussianProgram

/-- A column behind all columns whose rows reach it. The rows that reached them touch the columns
`ahead` as well, and `left` of them go to the first of these. -/
structure Branch where
  columns : List Nat
  ahead : List Nat
  left : Nat

/-- Branches that have not met, and the rows that touch none of their columns, each by the columns
that it touches. The columns are reached by `room` rows in all, where a row counts once for each
column that it reaches. Clearing takes more of them only where a column is left without a row. -/
structure ColumnForest where
  branches : List Branch
  rows : List (List Nat)
  room : Nat

namespace ColumnForest

/-- Adds the next column, which joins the branches that have it ahead. -/
def push (f : ColumnForest) (j : Nat) : ColumnForest :=
  let (joined, others) := f.branches.partition (·.ahead.contains j)
  let (own, rows) := f.rows.partition (·.contains j)
  let reaching := own.length + sumDims (joined.map (·.left))
  let ahead := ((own ++ joined.map (·.ahead)).flatten.eraseDups).erase j
  let branch := Branch.mk (joined.flatMap (·.columns) ++ [j]) ahead (reaching - 1)
  ⟨others ++ [branch], rows, f.room + reaching⟩

def columns (f : ColumnForest) : List Nat := f.branches.flatMap (·.columns)

end ColumnForest

/-- The trees of all columns. -/
def SparseMatrix.columnForest {α : Type} (m : SparseMatrix α) : ColumnForest :=
  m.columnOrder.foldl ColumnForest.push ⟨[], (List.range m.rows).map m.columnsOfRow, 0⟩

end GaussianProgram
