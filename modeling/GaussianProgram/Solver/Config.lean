import GaussianProgram.Linear.Backend

/-! Settings of the active-set method. -/
namespace GaussianProgram

structure Config (α : Type) where
  /-- Factorization for problems without equality rows and for multipliers. -/
  linearSolver : SolverKind
  maxIterations : Nat
  /-- Distance within which two points count as the same. -/
  solutionTolerance : α
  /-- Violation that a row may have at the start and in the ratio test. -/
  feasibilityTolerance : α
  /-- A multiplier below minus this is negative. -/
  dualTolerance : α
  /-- Singular values up to this count as zero, relative to the largest. -/
  rankTolerance : α
  checkInitialFeasibility : Bool
  /-- Whether dropping a row twice from the same working set is a failure. -/
  detectCycling : Bool

def Config.default {α : Type} [Scalar α] : Config α where
  linearSolver := .cholesky
  maxIterations := 1000
  solutionTolerance := 1e-5
  feasibilityTolerance := 1e-9
  dualTolerance := 0
  rankTolerance := 1e-10
  checkInitialFeasibility := true
  detectCycling := true

end GaussianProgram
