/-! Outcomes of operations that can fail for a stated cause, or because a position lies outside
the vector, matrix or list it points into. A vector longer than any that can be stored is out
of range as well. -/
namespace GaussianProgram

/-- Why an operation gave no value. -/
inductive Failure (ε : Type) where
  | cause (e : ε)
  | outOfRange
  deriving Repr, DecidableEq

/-- A value, a cause, or a position or a length out of range. -/
abbrev Result (ε β : Type) := Except (Failure ε) β

namespace Result
variable {ε ε' β γ : Type}

def fail (e : ε) : Result ε β := .error (.cause e)

/-- The value found at a position, out of range where there is none. -/
def inRange : Option β → Result ε β
  | some b => .ok b
  | none => .error .outOfRange

def ofExcept : Except ε β → Result ε β
  | .ok b => .ok b
  | .error e => fail e

/-- Restates the cause of a failure; positions out of range stay what they are. -/
def mapCause (f : ε → ε') : Result ε β → Result ε' β
  | .ok b => .ok b
  | .error (.cause e) => fail (f e)
  | .error .outOfRange => .error .outOfRange

/-- A sequence of two steps succeeds when both do. -/
theorem bind_eq_ok {x : Except ε β} {f : β → Except ε γ} {c : γ} :
    (x >>= f) = .ok c ↔ ∃ b, x = .ok b ∧ f b = .ok c := by
  cases x with
  | error e => simp [bind, Except.bind]
  | ok b => simp [bind, Except.bind]

@[simp] theorem inRange_some (b : β) : (inRange (some b) : Result ε β) = .ok b := rfl

@[simp] theorem inRange_none : (inRange none : Result ε β) = .error .outOfRange := rfl

@[simp] theorem inRange_eq_ok {o : Option β} {b : β} :
    (inRange o : Result ε β) = .ok b ↔ o = some b := by
  cases o <;> simp [inRange]

@[simp] theorem ofExcept_eq_ok {x : Except ε β} {b : β} :
    (ofExcept x : Result ε β) = .ok b ↔ x = .ok b := by
  cases x <;> simp [ofExcept, fail]

@[simp] theorem mapCause_eq_ok {f : ε → ε'} {x : Result ε β} {b : β} :
    mapCause f x = .ok b ↔ x = .ok b := by
  rcases x with (_ | _) | _ <;> simp [mapCause, fail]

end Result

end GaussianProgram
