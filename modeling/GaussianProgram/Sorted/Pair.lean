/-! Pairs of numbers, first component first. The order is total and tells different pairs apart, so
pairs of numbers can be keys of sorted maps. -/
namespace GaussianProgram

/-- Compares the first components, and the second ones when those agree. -/
def comparePair (a b : Nat × Nat) : Ordering := (compare a.1 b.1).then (compare a.2 b.2)

theorem isLE_comparePair {a b : Nat × Nat} :
    (comparePair a b).isLE = true ↔ a.1 < b.1 ∨ a.1 = b.1 ∧ a.2 ≤ b.2 := by
  simp only [comparePair, Nat.compare_eq_ite_lt]
  split <;> rename_i h₁
  · simp [h₁]
  · split <;> rename_i h₂
    · simp; omega
    · have : a.1 = b.1 := by omega
      simp only [Ordering.eq_then, this, Nat.lt_irrefl, true_and, false_or]
      split
      · simp; omega
      · split <;> simp <;> omega

instance pairOrd : Ord (Nat × Nat) := ⟨comparePair⟩

theorem compare_pair (a b : Nat × Nat) : compare a b = comparePair a b := rfl

instance pairTransOrd : Std.TransOrd (Nat × Nat) where
  eq_swap := by
    intro a b
    simp only [compare_pair, comparePair, Ordering.swap_then]
    rw [← @Std.OrientedCmp.eq_swap Nat compare _, ← @Std.OrientedCmp.eq_swap Nat compare _]
  isLE_trans := by
    intro a b c
    simp only [compare_pair, isLE_comparePair]
    omega

instance pairLawfulEqOrd : Std.LawfulEqOrd (Nat × Nat) where
  compare_self := by intro a; simp
  eq_of_compare := by
    intro a b h
    rw [compare_pair, comparePair, Ordering.then_eq_eq] at h
    exact Prod.ext (Std.LawfulEqCmp.eq_of_compare h.1) (Std.LawfulEqCmp.eq_of_compare h.2)

end GaussianProgram
