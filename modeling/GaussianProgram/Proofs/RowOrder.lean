import GaussianProgram.Proofs.Constraints
import GaussianProgram.Solver.Step

/-! The order of the rows, and what a scan in that order keeps: of the rows that it is offered, the
first with the least number. -/
namespace GaussianProgram

namespace ConstraintRow

theorem compare_eq_lt {a b : ConstraintRow} :
    compare a b = .lt ↔ a.factor < b.factor ∨ a.factor = b.factor ∧ a.row < b.row := by
  rw [compare_eq, compare_pair, comparePair, Ordering.then_eq_lt, Nat.compare_eq_lt,
    Nat.compare_eq_eq, Nat.compare_eq_lt]
  rfl

end ConstraintRow

theorem WorkingSet.ascending_rows (w : WorkingSet) : w.rows.Pairwise (compare · · = .lt) :=
  w.members.ascending_keys

theorem LinearRows.ascending_rowsOfKind {κ α : Type} [Key κ] (f : LinearRows κ α)
    (kind : RowKind) : (f.rowsOfKind kind).Pairwise (· < ·) := by
  have hlt (kinds : List RowKind) : (kinds.zipIdx.map (·.2)).Pairwise (· < ·) :=
    (List.zipIdx_map_snd 0 kinds).symm ▸ List.pairwise_lt_range' 1
  exact (hlt _).sublist (List.filter_sublist.map _)

namespace Graph
variable {κ α : Type} [Key κ]

/-- The rows of one kind are listed by factor and then by row. -/
theorem ascending_rowsOfKind (g : Graph κ α) (kind : RowKind) :
    (g.rowsOfKind kind).Pairwise (compare · · = .lt) := by
  refine List.pairwise_flatMap.2 ⟨fun e _ => ?_, g.ascending_constraints.imp fun {a b} hlt => ?_⟩
  · refine List.pairwise_map.2 ((e.2.ascending_rowsOfKind kind).imp fun {row row'} hlt => ?_)
    exact ConstraintRow.compare_eq_lt.2 (.inr ⟨rfl, hlt⟩)
  · intro r hr r' hr'
    obtain ⟨row, -, rfl⟩ := List.mem_map.1 hr
    obtain ⟨row', -, rfl⟩ := List.mem_map.1 hr'
    exact ConstraintRow.compare_eq_lt.2 (.inl hlt)

theorem ascending_inequalityRows (g : Graph κ α) :
    g.inequalityRows.Pairwise (compare · · = .lt) := g.ascending_rowsOfKind .inequality

end Graph

section Scan
variable {α : Type} [Scalar α]

/-- The row `r` with the number `t` is offered, no offer is less, and an offer of the same number
for another row comes later. -/
structure FirstLeast (Offers : ConstraintRow → α → Prop) (r : ConstraintRow) (t : α) : Prop where
  offered : Offers r t
  least : ∀ r' t', Offers r' t' → ¬t' < t
  first : ∀ r', Offers r' t → r' ≠ r → compare r r' = .lt

/-- What a scan has kept after the rows `l`: nothing if no number was offered for any of them, else
the first of the least. -/
def Kept (Offers : ConstraintRow → α → Prop) (l : List ConstraintRow) :
    Option (ConstraintRow × α) → Prop
  | none => ∀ r ∈ l, ∀ t, ¬Offers r t
  | some (r, t) => FirstLeast (fun r t => r ∈ l ∧ Offers r t) r t

variable {Offers : ConstraintRow → α → Prop} {l : List ConstraintRow} {a : ConstraintRow} {u : α}
  {best : Option (ConstraintRow × α)}

theorem Kept.nil : Kept Offers [] none := fun _ hr => absurd hr List.not_mem_nil

/-- A row without a number changes nothing. -/
theorem Kept.skip (h : Kept Offers l best) (ha : ∀ t, ¬Offers a t) :
    Kept Offers (l ++ [a]) best := by
  have hmem {r : ConstraintRow} {t : α} : r ∈ l ++ [a] ∧ Offers r t ↔ r ∈ l ∧ Offers r t := by
    rw [List.mem_append, List.mem_singleton, and_congr_left_iff]
    intro hr
    exact or_iff_left fun he => ha t (he ▸ hr)
  cases best with
  | none =>
    intro r hr t ht
    exact h r (hmem.1 ⟨hr, ht⟩).1 t ht
  | some e =>
    obtain ⟨r, t⟩ := e
    exact ⟨hmem.2 h.offered, fun r' t' h' => h.least r' t' (hmem.1 h'),
      fun r' h' => h.first r' (hmem.1 h')⟩

/-- A later row is kept in place of the former one only if its number is less. -/
theorem Kept.offer [IsStrictOrder α (· < ·)] (h : Kept Offers l best)
    (hlater : ∀ r ∈ l, compare r a = .lt) (ha : ∀ t, Offers a t ↔ t = u) :
    Kept Offers (l ++ [a]) (Graph.earlier best a u) := by
  have hmem {r : ConstraintRow} {t : α} :
      r ∈ l ++ [a] ∧ Offers r t ↔ (r ∈ l ∧ Offers r t) ∨ r = a ∧ t = u := by
    rw [List.mem_append, List.mem_singleton, or_and_right]
    exact or_congr_right (and_congr_right fun he => by rw [he, ha])
  cases best with
  | none =>
    refine ⟨hmem.2 (.inr ⟨rfl, rfl⟩), fun r' t' h' => ?_, fun r' h' hne => ?_⟩
    · rcases hmem.1 h' with ⟨hr', ht'⟩ | ⟨-, rfl⟩
      · exact absurd ht' (h r' hr' t')
      · exact irrefl_of (· < ·) t'
    · rcases hmem.1 h' with ⟨hr', ht'⟩ | ⟨rfl, -⟩
      · exact absurd ht' (h r' hr' u)
      · exact absurd rfl hne
  | some e =>
    obtain ⟨r, t⟩ := e
    by_cases hlt : u < t
    · have hkeep : Graph.earlier (some (r, t)) a u = some (a, u) := by simp [Graph.earlier, hlt]
      rw [hkeep]
      refine ⟨hmem.2 (.inr ⟨rfl, rfl⟩), fun r' t' h' hless => ?_, fun r' h' hne => ?_⟩
      · rcases hmem.1 h' with h' | ⟨-, rfl⟩
        · exact h.least r' t' h' (trans_of (· < ·) hless hlt)
        · exact irrefl_of (· < ·) t' hless
      · rcases hmem.1 h' with h' | ⟨rfl, -⟩
        · exact absurd hlt (h.least r' u h')
        · exact absurd rfl hne
    · have hkeep : Graph.earlier (some (r, t)) a u = some (r, t) := by simp [Graph.earlier, hlt]
      rw [hkeep]
      refine ⟨hmem.2 (.inl h.offered), fun r' t' h' => ?_, fun r' h' hne => ?_⟩
      · rcases hmem.1 h' with h' | ⟨-, rfl⟩
        · exact h.least r' t' h'
        · exact hlt
      · rcases hmem.1 h' with h' | ⟨rfl, -⟩
        · exact h.first r' h' hne
        · exact hlater r h.offered.1

end Scan

end GaussianProgram
