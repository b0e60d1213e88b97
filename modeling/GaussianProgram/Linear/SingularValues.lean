import GaussianProgram.Linear.Bidiagonal
import GaussianProgram.Matrix

/-! Singular values, by reflections to bidiagonal form and shifted passes of rotations over the part
that is still coupled. The matrix is measured in units of its largest entry, and a diagonal entry
next to zero in that unit counts as zero where it is coupled to another. -/
namespace GaussianProgram.SingularValues

variable {α : Type} [Scalar α]

/-- Size up to which an entry is next to zero: five times the spacing of binary64 numbers
above one. -/
def negligible : α := 1.1102230246251565e-15

/-- Whether the entry beside diagonal entry `i` is next to zero for its neighbours. -/
def isDecoupled (b : Bidiagonal α) (i : Nat) : Bool :=
  decide (Scalar.abs (b.beside i) ≤
    negligible * (Scalar.abs (b.diag (i + 1)) + Scalar.abs (b.diag i)))

def isVanishing (a : α) : Bool := decide (Scalar.abs a ≤ negligible)

/-- Clears the row of diagonal entry `i`, which is next to zero, and the column above it. -/
def clearCross (i last : Nat) (b : Bidiagonal α) : Bidiagonal α :=
  let b := (b.setDiag i 0).clearRow i last
  if i = 0 then b else b.clearColumn (i - 1)

/-- Splits off from the end what is decoupled. Gives the last row that is coupled to the one before
it, zero if there is none. -/
def lastCoupled : Nat → Bidiagonal α → Nat × Bidiagonal α
  | 0, b => (0, b)
  | i + 1, b =>
    if b.beside i == 0 || isDecoupled b i then lastCoupled i (b.setBeside i 0)
    else if isVanishing (b.diag i) then lastCoupled i (clearCross i (i + 1) b)
    else if isVanishing (b.diag (i + 1)) then lastCoupled i ((b.setDiag (i + 1) 0).clearColumn i)
    else (i + 1, b)

/-- The first row from which on all rows up to `last` are coupled, sought upwards. -/
def firstCoupled (last : Nat) : Nat → Bidiagonal α → Nat × Bidiagonal α
  | 0, b => (0, b)
  | i + 1, b =>
    if isDecoupled b i then (i + 1, b.setBeside i 0)
    else if isVanishing (b.diag i) then (i + 1, clearCross i last b)
    else firstCoupled last i b

/-- The eigenvalue of the symmetric matrix `[a c; c b]` that is nearer to `b`. -/
def shift (a b c : α) : α :=
  let square := c * c
  if square == 0 then b
  else
    let half := (a - b) * 0.5
    let root := Scalar.sqrt (half * half + square)
    b - square / (half + (if half < 0 then -root else root))

/-- One shifted pass over the rows from `first` to `last`, at least three. -/
def pass (first last : Nat) (b : Bidiagonal α) : Bidiagonal α :=
  let d := b.diag (last - 1)
  let e := b.beside (last - 1)
  let upper := b.beside (last - 2)
  let d' := b.diag last
  let σ := shift (d * d + upper * upper) (d' * d' + e * e) (d * e)
  let x := b.diag first
  Bidiagonal.sweep first (last - first) first (x * x - σ) (x * b.beside first) b

/-- Both values of two coupled rows. -/
def solvePair (first : Nat) (b : Bidiagonal α) : Bidiagonal α :=
  let d := b.diag first
  let e := b.beside first
  let d' := b.diag (first + 1)
  let sum := Vec.norm [d + d', e] + Vec.norm [d - d', e]
  ((b.setDiag first (d * d' * (1 + 1) / sum)).setDiag (first + 1) (0.5 * sum)).setBeside first 0

/-- Passes, at most `fuel`, until no rows up to `last` are coupled. -/
def diagonalize : Nat → Nat → Bidiagonal α → Bidiagonal α
  | 0, _, b => b
  | fuel + 1, last, b =>
    match lastCoupled last b with
    | (0, b) => b
    | (last + 1, b) =>
      let (first, b) := firstCoupled (last + 1) last b
      if first = last then diagonalize fuel last (solvePair first b)
      else diagonalize fuel (last + 1) (pass first (last + 1) b)

/-- As many values as the shorter side of the matrix is long; none if there are several and some do
not compare. -/
def ofMatrix? (m : Matrix α) : Option (Vec α) :=
  let columns := if m.cols ≤ m.rows then m.transpose.rowList else m.rowList
  let unit := m.amax
  let scaled := if unit == 0 then columns else columns.map (List.map (· / unit))
  let n := columns.length
  let b := diagonalize (100 * n) (n - 1) (Bidiagonal.ofColumns n scaled)
  let values := b.diagonal.map fun a => Scalar.abs (a * unit)
  if n ≤ 1 ∨ values.all (fun a => a == a) then some values else none

end GaussianProgram.SingularValues
