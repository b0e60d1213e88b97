import GaussianProgram.Elimination.Assembly

/-! Elimination: the minimum of a graph's cost where its equality rows hold, by one linear system.
The entries of the system must lie inside its shape, which they leave only where the layout wraps
around. A solution is given out only if it is finite and its residual is small. -/
namespace GaussianProgram

variable {κ α : Type} [Key κ] [Scalar α]

namespace Elimination

/-- Residual that a solution may have, relative to one more than the size of its system. -/
def residualTolerance : α := 1e-8

/-- Passes a finite solution whose residual is small beside `scale`. -/
def verify (solution : Vec α) (residual scale : α) : Except LinearError Unit :=
  if !Vec.isFinite solution then .error .nonFiniteSolution
  else if !Scalar.isFinite residual ∨ residualTolerance * (1 + scale) < residual then
    .error .singularMatrix
  else .ok ()

def verifySystem (s : LinearSystem α) (solution : Vec α) : Except LinearError Unit :=
  verify solution (Vec.norm (Vec.sub (s.matrix.mulVec solution) s.rhs))
    (Vec.norm s.rhs + s.matrix.frobenius * Vec.norm solution)

/-- Checks a least-squares solution: at an optimum the residual is orthogonal to all columns. -/
def verifyLeastSquares (s : LeastSquaresSystem α) (solution : Vec α) : Except LinearError Unit :=
  let residual := Vec.sub (s.jacobian.mulVec solution) s.rhs
  let size := s.jacobian.frobenius
  verify solution (Vec.norm (s.jacobian.transposeMulVec residual))
    (Vec.norm (s.jacobian.transposeMulVec s.rhs) + size * size * Vec.norm solution)

def checkInside (m : SparseMatrix α) : Except LinearError Unit :=
  if m.isInside then .ok ()
  else .error (.matrixCreation (.outside m.rows m.cols m.entries.size))

def solveLeastSquares (b : Backend α) (kind : SolverKind) (layout : Layout κ) (g : Graph κ α) :
    Result LinearError (Vec α) := do
  let s ← LeastSquaresSystem.ofGraph layout g
  if s.rhs.length < layout.total then
    Result.fail (.systemAssembly (.tooFewRows s.rhs.length layout.total))
  else
    Result.ofExcept (checkInside s.jacobian)
    let ⟨solution, _⟩ ← b.solveNormal kind s.jacobian s.rhs
    Result.ofExcept (verifyLeastSquares s solution)
    return solution

/-- Without equality rows the configured factorization solves, with them always the orthogonal one,
because the stationarity system is indefinite. -/
def solveConstrained (b : Backend α) (kind : SolverKind) (layout : Layout κ) (g : Graph κ α) :
    Result LinearError (Vec α) := do
  let s ← ConstrainedSystem.ofGraph layout g
  if s.rhs.isEmpty then
    Result.ofExcept (checkInside s.hessian)
    let ⟨solution, _⟩ ← b.solveSystem kind s.hessian s.linear
    Result.ofExcept (verifySystem s.unconstrained solution)
    return solution
  else
    let system := s.stationarity
    Result.ofExcept (checkInside system.matrix)
    let ⟨solution, _⟩ ← b.solveSystem .qr system.matrix system.rhs
    Result.ofExcept (verifySystem system solution)
    return solution.take layout.total

/-- Minimum of the cost of a graph where its equality rows hold. -/
def eliminate (b : Backend α) (kind : SolverKind) (g : Graph κ α) :
    Result LinearError (Assignment κ α) := do
  let dims ← (Result.ofExcept g.keyDimensions).mapCause
    fun fault => .systemAssembly (.inconsistentDimensions fault)
  let layout := Layout.ofDimensions dims
  if layout.total = 0 then Result.inRange (Assignment.zeros? dims.toList)
  else
    let solution ←
      if g.isLeastSquares then solveLeastSquares b kind layout g
      else solveConstrained b kind layout g
    return SortedMap.ofList (← Result.inRange (layout.split? solution))

/-- What a failed elimination reports: a mismatch of dimensions first as such, then the failure. -/
def reports : Result LinearError (Assignment κ α) → List (Error α)
  | .error (.cause (.systemAssembly (.inconsistentDimensions fault))) =>
    [.graph (.dimensionMismatch fault), .linear (.systemAssembly (.inconsistentDimensions fault))]
  | .error (.cause e) => [.linear e]
  | _ => []

end Elimination

/-- Outcome of an elimination, with the causes that were reported while it ran. -/
structure Reply (κ α : Type) [Key κ] where
  result : Result LinearError (Assignment κ α)
  reports : List (Error α)

/-- Anything that answers graphs with assignments. It may keep a state between its answers. The
graphs of the problem and those of its multipliers have different keys. -/
structure Eliminator (κ α σ : Type) [Key κ] where
  primal (g : Graph κ α) (state : σ) : Reply κ α × σ
  dual (g : Graph Nat α) (state : σ) : Reply Nat α × σ

namespace Elimination

def reply (b : Backend α) (kind : SolverKind) (g : Graph κ α) : Reply κ α :=
  let result := eliminate b kind g
  ⟨result, reports result⟩

def sparse (b : Backend α) (kind : SolverKind) : Eliminator κ α Unit where
  primal g _ := (reply b kind g, ())
  dual g _ := (reply b kind g, ())

end Elimination

end GaussianProgram
