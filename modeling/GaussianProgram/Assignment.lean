import GaussianProgram.Dimension
import GaussianProgram.Error
import GaussianProgram.Failure
import GaussianProgram.Key
import GaussianProgram.Vec

/-! Assignments of vectors to keys: points, solutions and multipliers. Interpolation between two
assignments works entry by entry in the order of keys, and a failed interpolation keeps the entries
it has already moved. -/
namespace GaussianProgram

/-- A vector under each of finitely many keys. -/
abbrev Assignment (κ α : Type) [Key κ] := SortedMap κ (Vec α)

namespace Assignment
variable {κ α : Type} [Key κ] [Scalar α]

/-- A zero vector of the stated dimension under every key, unless one is too long to be stored. -/
def zeros? (dims : List (κ × Nat)) : Option (Assignment κ α) :=
  SortedMap.ofList <$> dims.mapM fun (k, n) => (Vec.zeros? n).map (k, ·)

/-- The assignment with `v` under `k`, and what was there before. -/
def exchange (x : Assignment κ α) (k : κ) (v : Vec α) : Option (Vec α) × Assignment κ α :=
  (x.get? k, x.insert k v)

def remove (x : Assignment κ α) (k : κ) : Option (Vec α) × Assignment κ α :=
  (x.get? k, x.erase k)

/-- Replaces entry `i` of the vector under `k`. Gives the new vector, or none without such a key. -/
def setEntry (x : Assignment κ α) (k : κ) (i : Nat) (a : α) :
    Result (GraphError α) (Option (Vec α) × Assignment κ α) :=
  match x.get? k with
  | none => .ok (none, x)
  | some v =>
    if i < v.length then .ok (some (v.set i a), x.insert k (v.set i a)) else .error .outOfRange

def tryGet (x : Assignment κ α) (k : κ) : Except (GraphError α) (Vec α) :=
  match x.get? k with
  | some v => .ok v
  | none => .error (.missingValue (Key.text k))

/-- The vector under `k`, which must have dimension `dim`. -/
def entryOf (x : Assignment κ α) (k : κ) (dim : Nat) : Except (GraphError α) (Vec α) := do
  let v ← x.tryGet k
  if v.length = dim then return v
  else throw (.dimensionMismatch (.entry (Key.text k) v.length dim))

/-- The vector that a factor reads under `k`, where it needs dimension `dim`. -/
def valueOf (x : Assignment κ α) (k : κ) (dim : Nat) : Except (FactorError α) (Vec α) :=
  match x.get? k with
  | none => .error (.missingValue (Key.text k))
  | some v => if v.length = dim then .ok v else .error (.invalidDimension dim v.length)

def totalDimension (x : Assignment κ α) : Nat := sumDims (x.values.map List.length)

def update (x y : Assignment κ α) : Assignment κ α := x.insertAll y.toList

def interpolate (v goal : Vec α) (t : α) : Vec α :=
  Vec.add v (Vec.scale (Vec.sub goal v) t)

/-- Moves the entries under the listed keys a fraction `t` towards their goals, up to the first
entry that is missing or of another dimension. -/
def stepAlong (t : α) :
    List (κ × Vec α) → Assignment κ α → Except (GraphError α) Unit × Assignment κ α
  | [], x => (.ok (), x)
  | (k, goal) :: rest, x => match x.entryOf k goal.length with
    | .error e => (.error e, x)
    | .ok v => stepAlong t rest (x.insert k (interpolate v goal t))

def stepTowards (x target : Assignment κ α) (t : α) :
    Except (GraphError α) Unit × Assignment κ α :=
  stepAlong t target.toList x

def maxAbsDiff (x y : Assignment κ α) : Except (GraphError α) α :=
  y.toList.foldlM (fun most (k, w) => do
    let v ← x.entryOf k w.length
    return Scalar.max most (Vec.amax (Vec.sub v w))) 0

def equals (x y : Assignment κ α) (tolerance : α) : Bool :=
  x.size == y.size && match x.maxAbsDiff y with
    | .ok difference => decide (difference ≤ tolerance)
    | .error _ => false

def norm (x : Assignment κ α) : α := Scalar.sqrt (Vec.sum (x.values.map Vec.normSq))

def isFinite (x : Assignment κ α) : Bool := x.values.all Vec.isFinite

end Assignment

end GaussianProgram
