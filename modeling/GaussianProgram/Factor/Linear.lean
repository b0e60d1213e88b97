import GaussianProgram.Assignment
import GaussianProgram.Factor.Keys
import GaussianProgram.Matrix

/-! Rows `Ax - b` over some keys, with one coefficient block for each key. Without kinds
the rows are a least-squares cost `½ ‖Ax - b‖²`; with a kind for each row they are
constraints and cost nothing. -/
namespace GaussianProgram

/-- How a constraint row relates to its right-hand side. -/
inductive RowKind where
  /-- The row equals its right-hand side. -/
  | equality
  /-- The row is at most its right-hand side. -/
  | inequality
  deriving DecidableEq, Repr

namespace RowKind

/-- A negative deviation marks an inequality. -/
def ofSigma {α : Type} [Scalar α] (sigma : α) : RowKind :=
  if sigma < 0 then .inequality else .equality

def text : RowKind → String
  | equality => "="
  | inequality => "<="

end RowKind

/-- Linear rows with a coefficient block for each key. -/
structure LinearRows (κ α : Type) [Key κ] where
  terms : List (κ × Matrix α)
  rhs : Vec α
  kinds : Option (List RowKind)
  terms_ne_nil : terms ≠ []
  keys_nodup : (terms.map (·.1)).Nodup
  block_rows : ∀ t ∈ terms, t.2.rows = rhs.length
  kinds_length : ∀ ks ∈ kinds, ks.length = rhs.length

namespace LinearRows
variable {κ α : Type} [Key κ]

/-- The rows of the given blocks, unless there is no key, a key repeats, or a block has not one row
for every right-hand side. -/
def build (terms : List (κ × Matrix α)) (rhs : Vec α) (kinds : Option (List RowKind))
    (kinds_length : ∀ ks ∈ kinds, ks.length = rhs.length) :
    Except (FactorError α) (LinearRows κ α) :=
  if hn : terms = [] then .error (.invalidParameters .noKeys)
  else
    match hk : firstRepeated [] (terms.map (·.1)) with
    | some k => .error (.invalidParameters (.duplicateKey (Key.text k)))
    | none =>
      match hb : terms.find? fun t => t.2.rows != rhs.length with
      | some t => .error (.invalidDimension rhs.length t.2.rows)
      | none =>
        .ok {
          terms, rhs, kinds, kinds_length
          terms_ne_nil := hn
          keys_nodup := nodup_of_firstRepeated hk
          block_rows := fun t ht => by simpa using List.find?_eq_none.1 hb t ht }

def leastSquares (terms : List (κ × Matrix α)) (rhs : Vec α) :
    Except (FactorError α) (LinearRows κ α) :=
  build terms rhs none (by simp)

def constrained (terms : List (κ × Matrix α)) (rhs : Vec α) (kinds : List RowKind) :
    Except (FactorError α) (LinearRows κ α) :=
  if h : kinds.length = rhs.length then build terms rhs (some kinds) (by simpa using h)
  else .error (.invalidDimension rhs.length kinds.length)

def equalities (terms : List (κ × Matrix α)) (rhs : Vec α) :
    Except (FactorError α) (LinearRows κ α) :=
  constrained terms rhs (List.replicate rhs.length .equality)

def inequalities (terms : List (κ × Matrix α)) (rhs : Vec α) :
    Except (FactorError α) (LinearRows κ α) :=
  constrained terms rhs (List.replicate rhs.length .inequality)

/-- Constraint rows whose kinds are given by the signs of deviations. -/
def ofSigmas [Scalar α] (terms : List (κ × Matrix α)) (rhs : Vec α) (sigmas : Vec α) :
    Except (FactorError α) (LinearRows κ α) :=
  constrained terms rhs (sigmas.map RowKind.ofSigma)

def rows (f : LinearRows κ α) : Nat := f.rhs.length

def keys (f : LinearRows κ α) : List κ := f.terms.map (·.1)

def keyDims (f : LinearRows κ α) : List (κ × Nat) := f.terms.map fun (k, block) => (k, block.cols)

def block? (f : LinearRows κ α) (position : Nat) : Option (Matrix α) :=
  (f.terms[position]?).map (·.2)

def dimensionAt? (f : LinearRows κ α) (position : Nat) : Option Nat :=
  (f.block? position).map (·.cols)

def rowKind? (f : LinearRows κ α) (row : Nat) : Option RowKind := f.kinds.bind (·[row]?)

def isConstrained (f : LinearRows κ α) : Bool := f.kinds.isSome

def isLeastSquares (f : LinearRows κ α) : Bool := f.kinds.isNone

def rowsOfKind (f : LinearRows κ α) (kind : RowKind) : List Nat :=
  ((f.kinds.getD []).zipIdx.filter fun (k, _) => k == kind).map (·.2)

def equalityRows (f : LinearRows κ α) : List Nat := f.rowsOfKind .equality

def inequalityRows (f : LinearRows κ α) : List Nat := f.rowsOfKind .inequality

def hasEquality (f : LinearRows κ α) : Bool := !f.equalityRows.isEmpty

def hasInequality (f : LinearRows κ α) : Bool := !f.inequalityRows.isEmpty

def rowCoefficients? [Scalar α] (f : LinearRows κ α) (row position : Nat) : Option (Vec α) :=
  (f.block? position).bind (·.row? row)

instance [BEq α] : BEq (LinearRows κ α) := ⟨fun f g =>
  f.terms == g.terms && f.rhs == g.rhs && f.kinds == g.kinds⟩

variable [Scalar α]

/-- Value of one row at `x`, without its right-hand side. -/
def rowValue (f : LinearRows κ α) (row : Nat) (x : Assignment κ α) : Result (FactorError α) α :=
  if f.rows ≤ row then Result.fail (.invalidDimension f.rows row)
  else
    f.terms.foldlM (fun total (k, block) => do
      let v ← Result.ofExcept (x.valueOf k block.cols)
      let coefficients ← Result.inRange (block.row? row)
      return total + Vec.dot coefficients v) 0

def residual (f : LinearRows κ α) (x : Assignment κ α) : Except (FactorError α) (Vec α) :=
  f.terms.foldlM (fun total (k, block) => do
    let v ← x.valueOf k block.cols
    return Vec.add total (block.mulVec v)) (Vec.neg f.rhs)

/-- Least-squares cost; constraints cost nothing. -/
def cost (f : LinearRows κ α) (x : Assignment κ α) : Except (FactorError α) α :=
  if f.isConstrained then return 0
  else return 0.5 * Vec.normSq (← f.residual x)

/-- Derivative of the cost by every variable, in the order of keys of the factor. -/
def gradient (f : LinearRows κ α) (x : Assignment κ α) :
    Result (FactorError α) (List (κ × Vec α)) :=
  if f.isConstrained then
    f.keyDims.mapM fun (k, dim) => do
      return (k, ← Result.inRange (Vec.zeros? dim))
  else do
    let residual ← Result.ofExcept (f.residual x)
    return f.terms.map fun (k, block) => (k, block.transpose.mulVec residual)

/-- The rows at the given indices as constraints of one kind. -/
def selectRows (f : LinearRows κ α) (indices : List Nat) (kind : RowKind) :
    Except (FactorError α) (LinearRows κ α) :=
  match indices.find? fun row => decide (f.rows ≤ row) with
  | some row => .error (.invalidDimension f.rows row)
  | none =>
    .ok {
      terms := f.terms.map fun (k, block) => (k, block.selectRows indices)
      rhs := indices.map (Vec.get f.rhs)
      kinds := some (List.replicate indices.length kind)
      terms_ne_nil := by simpa using f.terms_ne_nil
      keys_nodup := by simpa [Function.comp_def] using f.keys_nodup
      block_rows := by
        intro t ht
        obtain ⟨t', -, rfl⟩ := List.mem_map.1 ht
        simp [Matrix.selectRows]
      kinds_length := by simp }

end LinearRows

end GaussianProgram
