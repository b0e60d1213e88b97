import GaussianProgram.Vec

/-! Triangular systems, solved from the last unknown to the first. -/
namespace GaussianProgram

/-- Unknowns `0, …, n - 1`, each computed from its index and the unknowns after it. -/
def backSubstitute {α : Type} (n : Nat) (unknown : Nat → Vec α → α) : Vec α :=
  (List.range n).foldr (fun j later => unknown j later :: later) []

@[simp] theorem length_backSubstitute {α : Type} (n : Nat) (unknown : Nat → Vec α → α) :
    (backSubstitute n unknown).length = n := by
  have h (js : List Nat) :
      (js.foldr (fun j later => unknown j later :: later) ([] : Vec α)).length = js.length := by
    induction js with
    | nil => rfl
    | cons j js ih => simp [ih]
  simp [backSubstitute, h]

end GaussianProgram
