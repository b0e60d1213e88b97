import GaussianProgram.Linear.Cholesky
import GaussianProgram.Linear.Orthogonal
import GaussianProgram.Linear.SingularValues

/-! The backend that the library brings along. -/
namespace GaussianProgram

/-- Triangular factors for positive definite systems, reflections for the others. -/
def Backend.direct {α : Type} [Scalar α] : Backend α := ⟨Cholesky.solve, Orthogonal.solve⟩

end GaussianProgram
