import GaussianProgram.Linear.Bundle
import GaussianProgram.Linear.Sparse

/-! Order in which the columns of a sparse matrix are eliminated. To eliminate a column merges all
rows that touch it into one row, so columns whose rows touch few others come first. How many others
a column meets is bounded by what its rows touch outside of the merged row. Columns that have come
to have the same rows are taken together. Rows and columns with many entries say little about an
order: such rows are left out of account, and such columns wait for the others. -/
namespace GaussianProgram.ColumnOrder

/-- A row of the matrix, or several that are merged. It is known by one of them and touches the
bundles with the given leaders, which have `degree` columns in all. -/
structure Row where
  name : Nat
  leaders : List Nat
  degree : Nat

/-- Columns that are eliminated, and the bundles and rows that are left. A bundle is linked to rows
by their names. Bundles whose cost was found later stand before the others. -/
structure State where
  done : List Nat
  bundles : List (Bundle (List Nat))
  rows : List Row

/-- Whether so many entries are many where there is room for `width` of them: more than sixteen, and
more than half the square root of `width`. -/
def isDense (width entries : Nat) : Bool :=
  decide (16 < entries ∧ width < 4 * (entries * entries))

def hasDenseColumn {α : Type} (m : SparseMatrix α) (j : Nat) : Bool :=
  isDense (min m.rows m.cols) (m.rowsOfColumn j).length

/-- The columns with few entries, each by itself, and the rows that have few entries in them.
Columns that no such row touches stay out. -/
def start {α : Type} (m : SparseMatrix α) : State :=
  let columns := (List.range m.cols).filter fun j => !hasDenseColumn m j
  let rows := (List.range m.rows).filterMap fun i =>
    let touched := (m.columnsOfRow i).filter columns.contains
    if isDense m.cols touched.length then none else some (Row.mk i touched touched.length)
  let bundles := columns.map fun j =>
    let met := rows.filter (·.leaders.contains j)
    Bundle.mk j [] (min m.cols (sumDims (met.map fun r => r.degree - 1))) (met.map (·.name))
  ⟨[], bundles.filter fun b => !b.links.isEmpty, rows⟩

/-- Eliminates a bundle of a matrix with `cols` columns. Its rows merge into one, which takes in
each row that touches nothing else. Bundles that only this row touches follow at once, and the
others that it touches are given a new cost. -/
def eliminate (cols : Nat) (s : State) (pivot : Bundle (List Nat)) : State :=
  let rest := Bundle.without s.bundles [pivot]
  let merged := pivot.links.flatMap fun name =>
    (s.rows.filter (·.name == name)).flatMap (·.leaders)
  let touched := Bundle.named rest merged
  let outside := (s.rows.filter fun r => !pivot.links.contains r.name).filterMap fun r =>
    let inside := Bundle.totalSize (touched.filter (·.links.contains r.name))
    if inside = r.degree then none else some (r, r.degree - inside)
  let reduced := touched.map fun b =>
    let own := b.links.filter fun name => outside.any (·.1.name == name)
    let met := outside.filter fun (r, _) => own.contains r.name
    { b with links := own, cost := min cols (sumDims (met.map (·.2))) }
  let (finished, left) := reduced.partition (·.links.isEmpty)
  let done := s.done ++ pivot.unknowns [] ++ finished.flatMap (Bundle.unknowns · [])
  let width := Bundle.totalSize left
  let priced := (Bundle.joinAlike (· == ·) left).map fun b =>
    { b with
      links := b.links ++ pivot.links.take 1
      cost := min (b.cost + width - b.size) (cols - done.length - b.size) }
  let row := (pivot.links.take 1).map fun name => Row.mk name (priced.map (·.leader)) width
  ⟨done, priced.reverse ++ Bundle.without rest touched, row ++ outside.map (·.1)⟩

/-- Eliminates bundles until none is left, at most `fuel` of them. -/
def run (cols : Nat) : Nat → State → State
  | 0, s => s
  | fuel + 1, s =>
    match Bundle.cheapest? s.bundles with
    | none => s
    | some pivot => run cols fuel (eliminate cols s pivot)

end ColumnOrder

/-- Every column once, in the order of its elimination. Columns that only rows with many entries
touch come after those that are ordered, then columns with many entries, then those without any. -/
def SparseMatrix.columnOrder {α : Type} (m : SparseMatrix α) : List Nat :=
  let ordered := (ColumnOrder.run m.cols m.cols (ColumnOrder.start m)).done
  let rest := (List.range m.cols).filter fun j => !ordered.contains j
  let (empty, filled) := rest.partition fun j => (m.rowsOfColumn j).isEmpty
  let (dense, sparse) := filled.partition (ColumnOrder.hasDenseColumn m)
  ordered ++ sparse ++ dense ++ empty

end GaussianProgram
