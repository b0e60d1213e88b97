/-! Keys of a factor. A factor names no key twice; a list that does is refused with the first key
that has come before. -/
namespace GaussianProgram

variable {κ : Type} [DecidableEq κ]

/-- The first key that is among `seen` or has come before in the list. -/
def firstRepeated (seen : List κ) : List κ → Option κ
  | [] => none
  | k :: ks => if k ∈ seen then some k else firstRepeated (k :: seen) ks

theorem firstRepeated_eq_none {seen ks : List κ} :
    firstRepeated seen ks = none ↔ ks.Nodup ∧ ∀ k ∈ ks, k ∉ seen := by
  induction ks generalizing seen with
  | nil => simp [firstRepeated]
  | cons k ks ih => grind [firstRepeated]

theorem nodup_of_firstRepeated {ks : List κ} (h : firstRepeated [] ks = none) : ks.Nodup :=
  (firstRepeated_eq_none.1 h).1

end GaussianProgram
