import GaussianProgram.Decimal.Text
import GaussianProgram.Error

/-! Messages of causes. A cause that wraps another one says so and repeats its message; the chain of
messages of a cause lists what it wraps as well. -/
namespace GaussianProgram

def DimensionMismatch.text : DimensionMismatch → String
  | factors factor key dim known =>
    s!"factor {factor} uses key {key} with dimension {dim}, other factors use {known}"
  | entry key actual expected =>
    s!"key {key} has dimension {actual} but {expected} was expected"
  | initial key actual expected =>
    s!"initial value of {key} has dimension {actual} but the graph uses {expected}"
  | other text => text

def ParameterFault.text : ParameterFault → String
  | duplicateKey key => s!"duplicate key {key} in factor"
  | noKeys => "linear factor without keys"
  | other text => text

def WorkingSetFault.text : WorkingSetFault → String
  | notInequality row => row.text ++ " is not an inequality row of the graph"
  | other text => text

def DimensionMismatch.message (fault : DimensionMismatch) : String :=
  "Dimension mismatch: " ++ fault.text

def AssemblyFault.text : AssemblyFault → String
  | inconsistentDimensions fault => fault.message
  | tooFewRows rows unknowns => s!"least-squares graph has {rows} rows for {unknowns} unknowns"
  | notSquare rows cols => s!"QR system must be square, got {rows}x{cols}"
  | unplacedKey key => s!"key {key} has no column offset"
  | other text => text

def CreationFault.text : CreationFault → String
  | outside rows cols entries =>
    s!"Failed to create {rows}x{cols} matrix from {entries} entries"
  | other text => text

def ConversionFault.text : ConversionFault → String
  | transpose => "Failed to convert transposed Jacobian to column-major format"
  | other text => text

def LinearError.message : LinearError → String
  | factorizationFailed text => "Matrix factorization failed: " ++ text
  | singularMatrix => "Singular matrix detected (matrix is not invertible)"
  | matrixCreation fault => "Failed to create sparse matrix: " ++ fault.text
  | matrixConversion fault => "Matrix conversion failed: " ++ fault.text
  | systemAssembly fault => "System assembly failed: " ++ fault.text
  | nonFiniteSolution => "Solution contains non-finite values"

def ObserverError.message : ObserverError → String
  | lockPoisoned context reason => s!"Mutex poisoned in {context}: {reason}"

variable {α : Type} [DecimalText α]

def FactorError.message : FactorError α → String
  | invalidDimension expected actual => s!"Invalid dimension: expected {expected}, got {actual}"
  | asymmetricInformation asymmetry =>
    "Information matrix is not symmetric (max asymmetry " ++
      DecimalText.scientific 3 asymmetry ++ ")"
  | missingValue key => "Missing value for key " ++ key
  | invalidParameters fault => "Invalid parameter values: " ++ fault.text

def GraphError.message : GraphError α → String
  | missingValue key => "Missing value for key " ++ key
  | dimensionMismatch fault => fault.message
  | invalidInput text => "Invalid input: " ++ text
  | factor e => e.message

def SolverError.message : SolverError α → String
  | infeasibleStart row violation =>
    s!"Initial values violate row {row.row} of constraint factor {row.factor} by " ++
      DecimalText.scientific 6 violation
  | degenerateActiveSet rank rows =>
    s!"Active constraint rows are linearly dependent: rank {rank} < {rows} rows"
  | iterationLimit limit => s!"Maximum iterations ({limit}) reached without convergence"
  | cycling iteration => s!"Active-set cycling detected at iteration {iteration}"
  | invalidWorkingSet fault => "Invalid working set: " ++ fault.text
  | invalidParameters text => "Invalid optimization parameters: " ++ text
  | linear e => "Linear algebra error: " ++ e.message
  | graph e => "Core error: " ++ e.message
  | factor e => "Factor error: " ++ e.message

namespace Error

def message : Error α → String
  | graph e => e.message
  | factor e => e.message
  | solver e => e.message
  | linear e => e.message
  | observer e => e.message

/-- Messages of the causes that a cause wraps, outermost first. -/
def sources : Error α → List String
  | solver (.linear e) => [e.message]
  | solver (.graph e) => [e.message]
  | solver (.factor e) => [e.message]
  | _ => []

def chain (e : Error α) : String :=
  "\n".intercalate (e.message :: e.sources.map ("  → " ++ ·))

def compactChain (e : Error α) : String :=
  " → ".intercalate (e.message :: e.sources)

end Error

end GaussianProgram
