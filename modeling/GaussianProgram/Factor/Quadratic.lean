import GaussianProgram.Assignment
import GaussianProgram.Dimension
import GaussianProgram.Factor.Keys
import GaussianProgram.Matrix

/-! Quadratic costs `½ xᵀGx - xᵀg + ½c` in information form. The variables of a cost are stacked in
the order of its keys, and blocks of `G` and `g` are cut out at running offsets. -/
namespace GaussianProgram

/-- A quadratic cost over some keys, each with its dimension. -/
structure QuadraticCost (κ α : Type) [Key κ] where
  keyDims : List (κ × Nat)
  information : Matrix α
  linear : Vec α
  constant : α
  keys_nodup : (keyDims.map (·.1)).Nodup
  rows_eq : information.rows = wordSum (keyDims.map (·.2))
  cols_eq : information.cols = wordSum (keyDims.map (·.2))
  length_eq : linear.length = wordSum (keyDims.map (·.2))

namespace QuadraticCost
variable {κ α : Type} [Key κ]

def keys (f : QuadraticCost κ α) : List κ := f.keyDims.map (·.1)

def dims (f : QuadraticCost κ α) : List Nat := f.keyDims.map (·.2)

/-- Every key with the offset and the dimension of its part of the stacked vector. -/
def segments (f : QuadraticCost κ α) : List (κ × Nat × Nat) :=
  f.keys.zip ((runningOffsets 0 f.dims).zip f.dims)

def dimensionAt? (f : QuadraticCost κ α) (position : Nat) : Option Nat := f.dims[position]?

/-- Information that couples the variables at two positions. -/
def block? [Scalar α] (f : QuadraticCost κ α) (i j : Nat) : Option (Matrix α) := do
  let (_, rowOffset, height) ← f.segments[i]?
  let (_, colOffset, width) ← f.segments[j]?
  f.information.block? rowOffset colOffset height width

def linearTerm? (f : QuadraticCost κ α) (i : Nat) : Option (Vec α) := do
  let (_, offset, dim) ← f.segments[i]?
  Vec.slice f.linear offset dim

def withConstant (f : QuadraticCost κ α) (constant : α) : QuadraticCost κ α :=
  { f with constant }

instance [BEq α] : BEq (QuadraticCost κ α) := ⟨fun f g =>
  f.keyDims == g.keyDims && f.information == g.information && f.linear == g.linear &&
    f.constant == g.constant⟩

variable [Scalar α]

/-- Asymmetry that an information matrix may have, relative to one more than its largest entry. -/
def symmetryTolerance : α := 1e-9

/-- The cost with the given information matrix over the stacked variables, unless a key repeats, a
shape does not fit or the matrix is not symmetric. -/
def ofInformation (keyDims : List (κ × Nat)) (information : Matrix α) (linear : Vec α)
    (constant : α) : Except (FactorError α) (QuadraticCost κ α) :=
  match hk : firstRepeated [] (keyDims.map (·.1)) with
  | some k => .error (.invalidParameters (.duplicateKey (Key.text k)))
  | none =>
    let total := wordSum (keyDims.map (·.2))
    if hr : information.rows = total then
      if hc : information.cols = total then
        if hl : linear.length = total then
          let asymmetry := (information.sub information.transpose).amax
          if symmetryTolerance * (1 + information.amax) < asymmetry then
            .error (.asymmetricInformation asymmetry)
          else
            .ok {
              keyDims, information, linear, constant
              keys_nodup := nodup_of_firstRepeated hk
              rows_eq := hr
              cols_eq := hc
              length_eq := hl }
        else .error (.invalidDimension total linear.length)
      else .error (.invalidDimension total information.cols)
    else .error (.invalidDimension total information.rows)

def unary (key : κ) (information : Matrix α) (linear : Vec α) (constant : α) :
    Except (FactorError α) (QuadraticCost κ α) :=
  ofInformation [(key, linear.length)] information linear constant

/-- Refuses a matrix of another shape, first for its rows. -/
def checkShape (m : Matrix α) (rows cols : Nat) : Except (FactorError α) Unit :=
  if m.rows ≠ rows then .error (.invalidDimension rows m.rows)
  else if m.cols ≠ cols then .error (.invalidDimension cols m.cols)
  else .ok ()

/-- Cost on two variables by its blocks: `g12` couples the first, as rows, to the second. -/
def binary (key1 key2 : κ) (g11 g12 : Matrix α) (g1 : Vec α) (g22 : Matrix α) (g2 : Vec α)
    (constant : α) : Except (FactorError α) (QuadraticCost κ α) := do
  checkShape g12 g1.length g2.length
  checkShape g11 g1.length g1.length
  checkShape g22 g2.length g2.length
  ofInformation [(key1, g1.length), (key2, g2.length)] (Matrix.symmetricBlocks g11 g12 g22)
    (g1 ++ g2) constant

def stacked (f : QuadraticCost κ α) (x : Assignment κ α) : Result (FactorError α) (Vec α) :=
  f.segments.foldlM (fun stack (k, offset, dim) => do
    let v ← Result.ofExcept (x.valueOf k dim)
    Result.inRange (Vec.overwrite stack offset v)) (Vec.zeros f.linear.length)

def cost (f : QuadraticCost κ α) (x : Assignment κ α) : Result (FactorError α) α := do
  let v ← f.stacked x
  return 0.5 * Vec.inner v (f.information.mulVec v) - Vec.inner v f.linear + 0.5 * f.constant

/-- Derivative of the cost by every variable, in the order of keys of the factor. -/
def gradient (f : QuadraticCost κ α) (x : Assignment κ α) :
    Result (FactorError α) (List (κ × Vec α)) := do
  let v ← f.stacked x
  let full := Vec.sub (f.information.mulVec v) f.linear
  f.segments.mapM fun (k, offset, dim) => do
    let part ← Result.inRange (Vec.slice full offset dim)
    return (k, part)

end QuadraticCost

end GaussianProgram
