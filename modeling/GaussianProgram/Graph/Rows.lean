import GaussianProgram.Graph

/-! Constraint rows of a graph, by factor index and row index. -/
namespace GaussianProgram

namespace Graph
variable {κ α : Type} [Key κ]

/-- Every constraint factor with its index, in graph order. -/
def constraints (g : Graph κ α) : List (Nat × LinearRows κ α) :=
  g.indexed.filterMap fun (i, f) => f.constraint?.map (i, ·)

def constraintAt? (g : Graph κ α) (index : Nat) : Option (LinearRows κ α) :=
  (g.at? index).bind Factor.constraint?

def inequalityIndices (g : Graph κ α) : List Nat :=
  (g.constraints.filter fun (_, f) => f.hasInequality).map (·.1)

def equalityIndices (g : Graph κ α) : List Nat :=
  (g.constraints.filter fun (_, f) => f.hasEquality).map (·.1)

def inequalityRows (g : Graph κ α) : List ConstraintRow :=
  g.constraints.flatMap fun (i, f) => f.inequalityRows.map (ConstraintRow.mk i)

/-- Kind of a row, none if the graph has no such constraint row. -/
def rowKind? (g : Graph κ α) (r : ConstraintRow) : Option RowKind :=
  (g.constraintAt? r.factor).bind (·.rowKind? r.row)

def isInequality (g : Graph κ α) (r : ConstraintRow) : Bool := g.rowKind? r == some .inequality

end Graph

end GaussianProgram
