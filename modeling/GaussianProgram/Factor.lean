import GaussianProgram.Factor.Linear
import GaussianProgram.Factor.Quadratic

/-! Factors: a quadratic cost, or linear rows that are a least-squares cost or constraints. -/
namespace GaussianProgram

inductive Factor (κ α : Type) [Key κ] where
  | quadratic (cost : QuadraticCost κ α)
  | linear (rows : LinearRows κ α)

namespace Factor
variable {κ α : Type} [Key κ]

def quadratic? : Factor κ α → Option (QuadraticCost κ α)
  | quadratic f => some f
  | linear _ => none

def linear? : Factor κ α → Option (LinearRows κ α)
  | quadratic _ => none
  | linear f => some f

def constraint? (f : Factor κ α) : Option (LinearRows κ α) := f.linear?.filter (·.isConstrained)

def isConstrained (f : Factor κ α) : Bool := f.constraint?.isSome

def keyDims : Factor κ α → List (κ × Nat)
  | quadratic f => f.keyDims
  | linear f => f.keyDims

def keys (f : Factor κ α) : List κ := f.keyDims.map (·.1)

def dimensionAt? (f : Factor κ α) (position : Nat) : Option Nat :=
  (f.keyDims[position]?).map (·.2)

def involves (f : Factor κ α) (k : κ) : Bool := decide (k ∈ f.keys)

instance [BEq α] : BEq (Factor κ α) := ⟨fun
  | quadratic f, quadratic g => f == g
  | linear f, linear g => f == g
  | _, _ => false⟩

variable [Scalar α]

def cost : Factor κ α → Assignment κ α → Result (FactorError α) α
  | quadratic f, x => f.cost x
  | linear f, x => Result.ofExcept (f.cost x)

/-- Derivative of the cost by every variable, in the order of keys of the factor. -/
def gradient : Factor κ α → Assignment κ α → Result (FactorError α) (List (κ × Vec α))
  | quadratic f, x => f.gradient x
  | linear f, x => f.gradient x

end Factor

end GaussianProgram
