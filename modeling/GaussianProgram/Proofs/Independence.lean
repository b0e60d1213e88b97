import GaussianProgram.Proofs.ActiveRows
import GaussianProgram.Proofs.Descent

/-! Linear independence of the active rows. The way to the candidate keeps all active rows, so they
do not span a row that blocks it; dropping a row leaves the others independent. -/
namespace GaussianProgram

namespace Graph
variable {κ α : Type} [Key κ] [ExactScalar α] {g : Graph κ α} {w : WorkingSet}

theorem Independent.remove (h : g.Independent w) (row : ConstraintRow) :
    g.Independent (w.remove row).2 := by
  exact LinearIndepOn.mono h fun r hr => Graph.IsActive.of_remove hr

/-- A row that changes along a direction on which all active rows vanish is independent of them. -/
theorem Independent.insert (h : g.Independent w) {d : Point κ α}
    (hactive : ∀ r, g.IsActive w r → g.rowForm r d = 0) {row : ConstraintRow}
    (hrow : g.rowForm row d ≠ 0) : g.Independent (w.insert row).2 := by
  have hnot : g.rowForm row ∉ Submodule.span α (g.rowForm '' {r | g.IsActive w r}) :=
    fun hmem => hrow (eq_zero_of_mem_span hactive hmem)
  refine (LinearIndepOn.insert h hnot).mono fun r hr => ?_
  rcases hr with hk | ⟨hk, hmem⟩
  · exact .inr (.inl hk)
  · exact (WorkingSet.mem_rows_insert.1 hmem).imp id fun hw => .inr ⟨hk, hw⟩

end Graph

namespace Solver
variable {κ α σ : Type} [Key κ] [ExactScalar α] {s : Solver κ α σ} {w w' : WorkingSet}
  {x y : Assignment κ α}

/-- An iteration that succeeds from a tight working set keeps the active rows independent. -/
theorem Iterates.independent (hs : s.KeepsRows) (htol : s.config.feasibilityTolerance = 0)
    {o : Outcome α} (h : s.Iterates w x o w' y) (hx : s.graph.Tight w x)
    (hw : s.graph.Independent w) : s.graph.Independent w' := by
  cases h with
  | blocked hsolves hblock _ =>
    obtain ⟨hkind, ⟨hnew, before, after, hb, ha, hlt, -⟩, -⟩ := Graph.stepSize_eq_some hblock
    refine hw.insert (fun r hr => Graph.rowForm_sub_eq_zero (hx.active r hr)
      (hsolves.rowSlack_active (x := x) hs hr)) ?_
    -- The slack falls from one that is not negative to one that is.
    obtain ⟨_, hslack, hnonneg⟩ := hx.inactive _ hkind hnew
    cases Except.ok.inj (hslack.symm.trans hb)
    rw [htol, neg_zero, not_le] at hlt
    rw [← Graph.slack_sub, ← (Graph.rowSlack_eq_ok.1 hb).2, ← (Graph.rowSlack_eq_ok.1 ha).2]
    exact (sub_pos.2 (hlt.trans_le hnonneg)).ne'
  | moved _ _ => exact hw
  | converged _ _ _ => exact hw
  | dropped _ _ _ => exact hw.remove _

end Solver

end GaussianProgram
