import GaussianProgram.WorkingSet

/-! Causes of failure, by the part of the library they arise in. Keys appear in causes by their
text. The wording of messages is a matter of its own. -/
namespace GaussianProgram

/-- Two dimensions of one key that disagree. -/
inductive DimensionMismatch where
  /-- A factor gives `key` the dimension `dim`, an earlier factor gave it `known`. -/
  | factors (factor : Nat) (key : String) (dim known : Nat)
  /-- The entry of an assignment is compared with a vector of another length. -/
  | entry (key : String) (actual expected : Nat)
  /-- The entry of a start assignment does not fit the graph. -/
  | initial (key : String) (actual expected : Nat)
  | other (text : String)
  deriving DecidableEq, Repr

/-- Parameters that no factor can be made of. -/
inductive ParameterFault where
  | duplicateKey (key : String)
  | noKeys
  | other (text : String)
  deriving DecidableEq, Repr

/-- Causes in constructing and evaluating factors. -/
inductive FactorError (α : Type) where
  | invalidDimension (expected actual : Nat)
  /-- The largest difference between an information matrix and its transpose is too large. -/
  | asymmetricInformation (asymmetry : α)
  | missingValue (key : String)
  | invalidParameters (fault : ParameterFault)
  deriving DecidableEq, Repr

/-- Causes in graphs and assignments. -/
inductive GraphError (α : Type) where
  | missingValue (key : String)
  | dimensionMismatch (fault : DimensionMismatch)
  | invalidInput (text : String)
  | factor (e : FactorError α)
  deriving DecidableEq, Repr

/-- Why no linear system can be made. -/
inductive AssemblyFault where
  | inconsistentDimensions (fault : DimensionMismatch)
  | tooFewRows (rows unknowns : Nat)
  | notSquare (rows cols : Nat)
  | unplacedKey (key : String)
  | other (text : String)
  deriving DecidableEq, Repr

/-- Why no sparse matrix can be made. -/
inductive CreationFault where
  /-- An entry lies outside of the shape. -/
  | outside (rows cols entries : Nat)
  | other (text : String)
  deriving DecidableEq, Repr

/-- Why a sparse matrix cannot be stored in another order. -/
inductive ConversionFault where
  /-- The transpose has too many columns. -/
  | transpose
  | other (text : String)
  deriving DecidableEq, Repr

/-- Causes in solving linear systems. -/
inductive LinearError where
  | factorizationFailed (text : String)
  | singularMatrix
  | matrixCreation (fault : CreationFault)
  | matrixConversion (fault : ConversionFault)
  | systemAssembly (fault : AssemblyFault)
  | nonFiniteSolution
  deriving DecidableEq, Repr

/-- Why a set of rows is no working set of a graph. -/
inductive WorkingSetFault where
  | notInequality (row : ConstraintRow)
  | other (text : String)
  deriving DecidableEq, Repr

/-- Causes in the active-set method. -/
inductive SolverError (α : Type) where
  | infeasibleStart (row : ConstraintRow) (violation : α)
  | degenerateActiveSet (rank rows : Nat)
  | iterationLimit (limit : Nat)
  | cycling (iteration : Nat)
  | invalidWorkingSet (fault : WorkingSetFault)
  | invalidParameters (text : String)
  | linear (e : LinearError)
  | graph (e : GraphError α)
  | factor (e : FactorError α)
  deriving DecidableEq, Repr

/-- Causes in observers. -/
inductive ObserverError where
  | lockPoisoned (context reason : String)
  deriving DecidableEq, Repr

/-- Any cause, with the part of the library it arose in. -/
inductive Error (α : Type) where
  | graph (e : GraphError α)
  | factor (e : FactorError α)
  | solver (e : SolverError α)
  | linear (e : LinearError)
  | observer (e : ObserverError)
  deriving DecidableEq, Repr

/-- The cause as it was when it first arose, in the part of the library that raised it. -/
def SolverError.origin {α : Type} : SolverError α → Error α
  | .linear e => .linear e
  | .graph e => .graph e
  | .factor e => .factor e
  | e => .solver e

end GaussianProgram
