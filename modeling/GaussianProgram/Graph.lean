import GaussianProgram.Factor

/-! Factor graphs: factors in a fixed order over shared keys. A factor's index in its graph names it
in working sets and multipliers. The cost of a graph is the sum of the costs of its factors. -/
namespace GaussianProgram

structure Graph (κ α : Type) [Key κ] where
  factors : List (Factor κ α)

namespace Graph
variable {κ α : Type} [Key κ]

def empty : Graph κ α := ⟨[]⟩

def push (g : Graph κ α) (f : Factor κ α) : Nat × Graph κ α :=
  (g.factors.length, ⟨g.factors ++ [f]⟩)

def size (g : Graph κ α) : Nat := g.factors.length

def isEmpty (g : Graph κ α) : Bool := g.factors.isEmpty

def at? (g : Graph κ α) (index : Nat) : Option (Factor κ α) := g.factors[index]?

def reverse (g : Graph κ α) : Graph κ α := ⟨g.factors.reverse⟩

def indexed (g : Graph κ α) : List (Nat × Factor κ α) := g.factors.zipIdx.map fun (f, i) => (i, f)

def keys (g : Graph κ α) : SortedSet κ := SortedSet.ofKeys (g.factors.flatMap Factor.keys)

/-- Records the dimension that the factor with the given index asks for a key. -/
def recordDimension (index : Nat) (dims : SortedMap κ Nat) (entry : κ × Nat) :
    Except DimensionMismatch (SortedMap κ Nat) :=
  match dims.get? entry.1 with
  | none => .ok (dims.insert entry.1 entry.2)
  | some known =>
    if known = entry.2 then .ok dims
    else .error (.factors index (Key.text entry.1) entry.2 known)

/-- Dimension of every key, or the first factor that disagrees with an earlier one. -/
def keyDimensions (g : Graph κ α) : Except DimensionMismatch (SortedMap κ Nat) :=
  g.indexed.foldlM (fun dims (index, f) => f.keyDims.foldlM (recordDimension index) dims)
    SortedMap.empty

/-- The same dimensions, with a mismatch as a cause in the graph. -/
def dimensions (g : Graph κ α) : Result (GraphError α) (SortedMap κ Nat) :=
  (Result.ofExcept g.keyDimensions).mapCause .dimensionMismatch

def isLeastSquares (g : Graph κ α) : Bool :=
  g.factors.all fun f => (f.linear?.map (·.isLeastSquares)).getD false

/-- The quadratic costs that share a key with a constraint, without their constants. -/
def freeCosts [Scalar α] (g : Graph κ α) : Graph κ α :=
  let constrained := (g.factors.filterMap Factor.constraint?).flatMap LinearRows.keys
  let sharing := g.factors.filter fun f => constrained.any f.involves
  ⟨(sharing.filterMap Factor.quadratic?).map fun cost => .quadratic (cost.withConstant 0)⟩

variable [Scalar α]

def cost (g : Graph κ α) (x : Assignment κ α) : Result (GraphError α) α :=
  g.factors.foldlM (fun total f => do
    return total + (← (f.cost x).mapCause .factor)) 0

def accumulate (total : Assignment κ α) (contribution : κ × Vec α) :
    Result (GraphError α) (Assignment κ α) :=
  match total.get? contribution.1 with
  | none => Result.fail (.missingValue (Key.text contribution.1))
  | some v =>
    if v.length = contribution.2.length then
      .ok (total.insert contribution.1 (Vec.add v contribution.2))
    else .error .outOfRange

/-- Derivative of the cost over keys of the given dimensions. A key that only constraints touch
has a zero derivative. -/
def gradientOver (g : Graph κ α) (dims : SortedMap κ Nat) (x : Assignment κ α) :
    Result (GraphError α) (Assignment κ α) := do
  let start ← Result.inRange (Assignment.zeros? dims.toList)
  g.factors.foldlM (fun total f => do
    let parts ← (f.gradient x).mapCause .factor
    parts.foldlM accumulate total) start

def gradient (g : Graph κ α) (x : Assignment κ α) : Result (GraphError α) (Assignment κ α) := do
  g.gradientOver (← g.dimensions) x

def zeroValues (g : Graph κ α) : Result (GraphError α) (Assignment κ α) := do
  Result.inRange (Assignment.zeros? (← g.dimensions).toList)

end Graph

end GaussianProgram
