import GaussianProgram.Vec

/-! Bidiagonal matrices, and the two ways to come closer to a diagonal with the singular values
kept: reflections, which make any matrix bidiagonal, and plane rotations, which move a stray entry
along until it leaves the matrix. -/
namespace GaussianProgram

/-- A square matrix that is zero but on its diagonal and right above it. -/
structure Bidiagonal (α : Type) where
  diagonal : Vec α
  above : Vec α

namespace Bidiagonal
variable {α : Type} [Scalar α]

def diag (b : Bidiagonal α) (i : Nat) : α := Vec.get b.diagonal i

def beside (b : Bidiagonal α) (i : Nat) : α := Vec.get b.above i

def setDiag (b : Bidiagonal α) (i : Nat) (a : α) : Bidiagonal α :=
  { b with diagonal := b.diagonal.set i a }

def setBeside (b : Bidiagonal α) (i : Nat) (a : α) : Bidiagonal α :=
  { b with above := b.above.set i a }

/-! ### Reflections -/

/-- A reflection that takes a vector to a multiple of the first axis. It has a unit normal unless
the vector is zero. -/
structure AxisReflection (α : Type) where
  normal? : Option (Vec α)
  multiple : α

/-- The reflection of a vector that takes its first entry away from zero. -/
def AxisReflection.ofVec (v : Vec α) : AxisReflection α :=
  let square := Vec.normSq v
  let norm := Scalar.sqrt square
  let head := Vec.get v 0
  let signed := if head < 0 then -norm else norm
  let factor := (square + Scalar.abs head * norm) * (1 + 1)
  if factor == 0 then ⟨none, signed⟩
  else
    let normal := ((head + signed) :: v.drop 1).map (· / Scalar.sqrt factor)
    ⟨some (normal.map (· / Vec.norm normal)), -signed⟩

def AxisReflection.sign (r : AxisReflection α) : α := if r.multiple < 0 then -1 else 1

/-- Reflects columns and multiplies them by the sign. -/
def AxisReflection.reflectColumns (r : AxisReflection α) (columns : List (Vec α)) :
    List (Vec α) :=
  match r.normal? with
  | none => columns
  | some normal => columns.map fun column =>
    let weight := Vec.inner normal column * (-(1 + 1) * r.sign)
    Vec.add (Vec.scale normal weight) (Vec.scale column r.sign)

/-- Reflects the rows of the matrix with the given columns and multiplies them by the sign. -/
def AxisReflection.reflectRows (r : AxisReflection α) (columns : List (Vec α)) : List (Vec α) :=
  match r.normal?, columns with
  | some (a :: normal), column :: others =>
    let image := (List.zipWith Vec.scale others normal).foldl Vec.add (Vec.scale column a)
    List.zipWith (fun column a =>
      Vec.add (Vec.scale image (-(1 + 1) * r.sign * a)) (Vec.scale column r.sign))
      columns (a :: normal)
  | _, _ => columns

/-- Clears the first column below the diagonal, then the first row beyond its second entry, and goes
on with what is below. Takes `n` columns of at least that length. -/
def ofColumns : Nat → List (Vec α) → Bidiagonal α
  | n + 1, column :: columns =>
    let down := AxisReflection.ofVec column
    let columns := down.reflectColumns columns
    let right := AxisReflection.ofVec (columns.map (Vec.get · 0))
    let rest := ofColumns n (right.reflectRows (columns.map (List.drop 1)))
    let above := if columns.isEmpty then [] else Scalar.abs right.multiple :: rest.above
    ⟨Scalar.abs down.multiple :: rest.diagonal, above⟩
  | _, _ => ⟨[], []⟩

/-! ### Rotations -/

/-- A rotation of a plane, and where on the first axis the vector it was made for comes to lie. -/
structure Rotation (α : Type) where
  cosine : α
  sine : α
  image : α

/-- The rotation that takes `(x, y)` to the first axis, none if the vector lies there. -/
def Rotation.toAxis? (x y : α) : Option (Rotation α) :=
  if y == 0 then none
  else
    let length := Vec.norm [x, y]
    let image := if x < 0 then -length else length
    some ⟨Scalar.abs x / length, -y / image, image⟩

/-- Moves a stray entry above diagonal entry `i` to the right along its row, in which all else is
zero. It leaves the matrix after `n` rotations. -/
def chaseRight : Nat → Nat → α → Bidiagonal α → Bidiagonal α
  | 0, _, _, b => b
  | n + 1, i, stray, b =>
    match Rotation.toAxis? (b.diag i) stray with
    | none => b
    | some r =>
      let b := b.setDiag i r.image
      if n = 0 then b
      else chaseRight n (i + 1) (r.sine * b.beside i) (b.setBeside i (b.beside i * r.cosine))

/-- Moves a stray entry to the right of diagonal entry `i` up along its column, in which all else is
zero, until it leaves the matrix. -/
def chaseUp : Nat → α → Bidiagonal α → Bidiagonal α
  | i, stray, b =>
    match Rotation.toAxis? (b.diag i) stray with
    | none => b
    | some r =>
      let b := b.setDiag i r.image
      match i with
      | 0 => b
      | i + 1 => chaseUp i (r.sine * b.beside i) (b.setBeside i (b.beside i * r.cosine))

/-- Clears row `i`, whose diagonal entry is zero, by means of the rows after it up to `last`. -/
def clearRow (i last : Nat) (b : Bidiagonal α) : Bidiagonal α :=
  chaseRight (last - i) (i + 1) (b.beside i) (b.setBeside i 0)

/-- Clears column `i + 1`, whose diagonal entry is zero, by means of the columns before it. -/
def clearColumn (i : Nat) (b : Bidiagonal α) : Bidiagonal α :=
  chaseUp i (b.beside i) (b.setBeside i 0)

/-- Rows `i` to `i + n` of a pass of rotations from both sides that starts at row `first`. The first
rotation takes `(x, y)` to an axis, which makes a stray entry; the others take the stray entry with
the one beside it to an axis, and so move it down along the diagonal. -/
def sweep (first : Nat) : Nat → Nat → α → α → Bidiagonal α → Bidiagonal α
  | 0, _, _, _, b => b
  | n + 1, i, x, y, b =>
    match Rotation.toAxis? x y with
    | none => b
    | some right =>
      let b := if i = first then b else b.setBeside (i - 1) right.image
      let d := b.diag i
      let e := b.beside i
      let next := b.diag (i + 1)
      let corner := d * right.cosine - right.sine * e
      let upper := right.sine * d + e * right.cosine
      let under := -right.sine * next
      let next := next * right.cosine
      let left := (Rotation.toAxis? corner under).getD ⟨1, 0, corner⟩
      let b := (b.setDiag i left.image).setDiag (i + 1) (left.sine * upper + next * left.cosine)
      let b := b.setBeside i (upper * left.cosine - left.sine * next)
      if n = 0 then b
      else
        let far := b.beside (i + 1)
        sweep first n (i + 1) (b.beside i) (-left.sine * far)
          (b.setBeside (i + 1) (far * left.cosine))

end Bidiagonal

end GaussianProgram
