import GaussianProgram.Proofs.Evolution
import GaussianProgram.Proofs.Stationary

/-! Global optimality. Where a run converges, the multipliers balance the gradient and none of them
is below the tolerance, so the slacks of the working set bound what any feasible point can gain. -/
namespace GaussianProgram

variable {κ α σ : Type} [Key κ] [ExactScalar α]

namespace Graph
variable {g : Graph κ α} {w : WorkingSet}

/-- Towards a point that satisfies all rows the slope is at least what the multipliers below zero
allow the working set to gain. -/
theorem Balances.le_slope {tolerance : α} {p q : Point κ α} {d : Point ℕ α}
    (h : g.Balances w p d) (hw : g.Admits w) (hd : ∀ r ∈ w.rows, -tolerance ≤ d r.factor r.row)
    (hp : ∀ r, g.IsActive w r → g.slack r p = 0)
    (hequality : ∀ r, g.rowKind? r = some .equality → g.slack r q = 0)
    (hinequality : ∀ r, g.rowKind? r = some .inequality → 0 ≤ g.slack r q) :
    -(tolerance * (w.rows.map (g.slack · q)).sum) ≤ g.slope p (q - p) := by
  have hform {r : ConstraintRow} (hr : g.IsActive w r) : g.rowForm r (q - p) = -g.slack r q := by
    rw [← slack_sub, hp r hr, zero_sub]
  have hslope : g.slope p (q - p) =
      ∑ r ∈ g.activeSet w, g.sign w r * (d r.factor r.row * g.slack r q) := by
    rw [h, weighted_apply, ← Finset.sum_neg_distrib]
    apply Finset.sum_congr rfl
    intro r hr
    rw [hform (mem_activeSet.1 hr)]
    ring
  have hsubset : w.rows.toFinset ⊆ g.activeSet w := fun r hr =>
    mem_activeSet.2 (.inr ⟨hw r (List.mem_toFinset.1 hr), List.mem_toFinset.1 hr⟩)
  have hrow (r : ConstraintRow) (hr : r ∈ g.activeSet w) :
      (if r ∈ w.rows.toFinset then -tolerance * g.slack r q else 0) ≤
        g.sign w r * (d r.factor r.row * g.slack r q) := by
    rcases mem_activeSet.1 hr with hk | ⟨hk, hmem⟩
    · have hnot : r ∉ w.rows.toFinset := fun hmem => by
        cases hk.symm.trans (hw r (List.mem_toFinset.1 hmem))
      rw [if_neg hnot, hequality r hk, mul_zero, mul_zero]
    · rw [if_pos (List.mem_toFinset.2 hmem), sign_inequality hk hmem, one_mul]
      exact mul_le_mul_of_nonneg_right (hd r hmem) (hinequality r hk)
  calc -(tolerance * (w.rows.map (g.slack · q)).sum)
      = ∑ r ∈ w.rows.toFinset, -tolerance * g.slack r q := by
        rw [List.sum_toFinset _ w.nodup_rows, List.sum_map_mul_left, neg_mul]
    _ = ∑ r ∈ g.activeSet w, if r ∈ w.rows.toFinset then -tolerance * g.slack r q else 0 := by
        rw [Finset.sum_ite_mem, Finset.inter_eq_right.2 hsubset]
    _ ≤ ∑ r ∈ g.activeSet w, g.sign w r * (d r.factor r.row * g.slack r q) :=
        Finset.sum_le_sum hrow
    _ = g.slope p (q - p) := hslope.symm

end Graph

namespace Solver
variable {s : Solver κ α σ} {w w' : WorkingSet} {x y : Assignment κ α}

/-- A run of the loop that returns an optimum ends with an iteration that converges there. -/
theorem Runs.converges {initialCost : α} {fuel i : ℕ} {D : List WorkingSet}
    {events : List (Event κ α)} {result : Result (Error α) (Optimum κ α)}
    (h : s.Runs initialCost fuel i D w x events result) (hw : s.graph.Admits w)
    {optimum : Optimum κ α} (hresult : result = .ok optimum) :
    s.graph.Admits optimum.workingSet ∧ s.graph.cost optimum.solution = .ok optimum.finalCost ∧
      ∃ z, s.Iterates optimum.workingSet z (.converged optimum.duals) optimum.workingSet
        optimum.solution := by
  induction h with
  | limit => cases hresult
  | failed _ => cases hresult
  | @converged _ _ _ _ _ x _ _ _ hiter hcost =>
    cases hresult
    refine ⟨hiter.admits hw, hcost, x, ?_⟩
    cases hiter with
    | converged haccepts hduals hworst => exact .converged haccepts hduals hworst
  | cycled _ _ _ _ => cases hresult
  | dropped hiter _ _ _ ih => exact ih (hiter.admits hw) hresult
  | stepped hiter _ _ ih => exact ih (hiter.admits hw) hresult

/-- Up to the tolerance for multipliers, no feasible point is better than one where an
iteration converges. -/
theorem Iterates.optimal (hs : s.Exact) (hsym : s.graph.Symmetric)
    (hpsd : s.graph.PositiveSemidefinite) {duals : Assignment ℕ α}
    (h : s.Iterates w x (.converged duals) w y) (hw : s.graph.Admits w) {z : Assignment κ α}
    (hz : s.graph.Feasible 0 z) :
    ∃ slacks, w.rows.mapM (s.graph.rowSlack · z) = .ok slacks ∧
      s.graph.value y.entries ≤
        s.graph.value z.entries + s.config.dualTolerance * slacks.sum := by
  cases h with
  | converged haccepts hduals hworst =>
    obtain ⟨hbalances, hmultiplier⟩ := hduals.balances hs haccepts
    obtain ⟨hactive, -⟩ := haccepts.rowSlack hs.keepsRows
    have hinequality {r : ConstraintRow} (hr : s.graph.rowKind? r = some .inequality) :
        s.graph.rowSlack r z = .ok (s.graph.slack r z.entries) ∧ 0 ≤ s.graph.slack r z.entries := by
      obtain ⟨slack, hslack, hle⟩ := hz.inequality r hr
      rw [← (Graph.rowSlack_eq_ok.1 hslack).2]
      exact ⟨hslack, by rwa [neg_zero] at hle⟩
    have hequality (r : ConstraintRow) (hr : s.graph.rowKind? r = some .equality) :
        s.graph.slack r z.entries = 0 := by
      obtain ⟨slack, hslack, hle⟩ := hz.equality r hr
      rw [← (Graph.rowSlack_eq_ok.1 hslack).2]
      exact abs_nonpos_iff.1 hle
    refine ⟨w.rows.map (s.graph.slack · z.entries), ?_, ?_⟩
    · rw [Result.mapM_eq_ok, List.forall₂_map_right_iff, List.forall₂_same]
      exact fun r hr => (hinequality (hw r hr)).1
    · have hle := hbalances.le_slope hw
        (fun r hr => Graph.le_multiplier_of_worstRow? hworst hr (hmultiplier r hr (hw r hr)))
        (fun r hr => (Graph.rowSlack_eq_ok.1 (hactive r hr)).2.symm) hequality
        fun r hr => (hinequality hr).2
      have hconvex := Graph.value_add_slope_le hsym hpsd y.entries z.entries
      linarith

/-- Whatever working set and assignment a run begins with, a solution that it returns satisfies all
rows, those of the equalities and of the working set exactly, and no feasible assignment has a lower
cost than the tolerance for multipliers accounts for. -/
theorem optimize_optimal (hs : s.Exact) (hsym : s.graph.Symmetric)
    (hpsd : s.graph.PositiveSemidefinite) (initial : Assignment κ α) (w : WorkingSet)
    (eliminator : σ) (optimum : Optimum κ α)
    (hoptimum : (s.optimize initial w eliminator).1 = .ok optimum) :
    (∀ r, s.graph.rowKind? r = some .equality ∨ r ∈ optimum.workingSet.rows →
      s.graph.rowSlack r optimum.solution = .ok 0) ∧
    (∀ r, s.graph.rowKind? r = some .inequality → r ∉ optimum.workingSet.rows →
      ∃ slack, s.graph.rowSlack r optimum.solution = .ok slack ∧
        -s.config.feasibilityTolerance ≤ slack) ∧
    s.graph.cost optimum.solution = .ok optimum.finalCost ∧
    ∀ y cost, s.graph.cost y = .ok cost → s.graph.Feasible 0 y →
      ∃ slacks, optimum.workingSet.rows.mapM (s.graph.rowSlack · y) = .ok slacks ∧
        optimum.finalCost ≤ cost + s.config.dualTolerance * slacks.sum := by
  rcases hrun : s.optimize initial w eliminator with ⟨result, st⟩
  rw [hrun] at hoptimum
  rcases optimize_cases hrun with ⟨-, failure, rfl, -⟩ | ⟨x, cost, hstarts, -, hruns⟩
  · cases hoptimum
  · obtain ⟨hw, hcost, z, hiter⟩ :=
      hruns.converges (checkWorkingSet_eq_ok.1 hstarts.workingSet) hoptimum
    obtain ⟨hactive, hinactive⟩ : (∀ r, s.graph.IsActive optimum.workingSet r →
        s.graph.rowSlack r optimum.solution = .ok 0) ∧ ∀ r, s.graph.rowKind? r = some .inequality →
          r ∉ optimum.workingSet.rows → ∃ slack, s.graph.rowSlack r optimum.solution = .ok slack ∧
            -s.config.feasibilityTolerance ≤ slack := by
      cases hiter with
      | converged haccepts _ _ => exact haccepts.rowSlack hs.keepsRows
    refine ⟨fun r hr => hactive r (hr.imp_right fun hmem => ⟨hw r hmem, hmem⟩), hinactive, hcost,
      fun y cost hy hfeasible => ?_⟩
    obtain ⟨slacks, hslacks, hle⟩ := hiter.optimal hs hsym hpsd hw hfeasible
    rw [← (Graph.cost_eq_ok.1 hcost).2, ← (Graph.cost_eq_ok.1 hy).2] at hle
    exact ⟨slacks, hslacks, hle⟩

/-- On the half-line no feasible assignment costs less than the bound that the run returns. -/
theorem halfLine_optimal : ∃ optimum,
    (halfLine.optimize (.single 0 0) WorkingSet.empty ()).1 = .ok optimum ∧
      optimum.solution = .single 0 1 ∧ ∀ y cost, halfLine.graph.cost y = .ok cost →
        halfLine.graph.Feasible 0 y → -3 ≤ cost := by
  obtain ⟨optimum, hok, hsolution, hcost, -⟩ := halfLine_converges
  obtain ⟨-, -, -, hleast⟩ := optimize_optimal halfLine_exact (Graph.parabola_symmetric _)
    (Graph.parabola_positiveSemidefinite _) (.single 0 0) WorkingSet.empty () optimum hok
  refine ⟨optimum, hok, hsolution, fun y cost hy hfeasible => ?_⟩
  obtain ⟨slacks, -, hle⟩ := hleast y cost hy hfeasible
  rwa [hcost, show halfLine.config.dualTolerance = 0 from rfl, zero_mul, add_zero] at hle

end Solver

end GaussianProgram
