import GaussianProgram.Proofs.RatioTest
import GaussianProgram.Proofs.Start
import GaussianProgram.Proofs.Table
import GaussianProgram.Proofs.Working

/-! Primal feasibility. Active rows are protected by the elimination, which satisfies them at the
candidate, and all other rows by the ratio test; together they keep every visited point feasible. -/
namespace GaussianProgram

variable {κ α σ : Type} [Key κ] [ExactScalar α]

namespace Graph

/-- On the way to a point that names all variables the slack of a row is affine. -/
theorem rowSlack_stepTowards {g : Graph κ α} {r : ConstraintRow} {x y z : Assignment κ α}
    {t before after : α} (h : x.stepTowards y t = (.ok (), z)) (hkeys : ∀ k ∈ x.keys, k ∈ y.keys)
    (hx : g.rowSlack r x = .ok before) (hy : g.rowSlack r y = .ok after) :
    g.rowSlack r z = .ok ((1 - t) * before + t * after) := by
  obtain ⟨⟨c, hc, hrow, hdims⟩, rfl⟩ := rowSlack_eq_ok.1 hx
  obtain ⟨-, rfl⟩ := rowSlack_eq_ok.1 hy
  refine rowSlack_eq_ok.2 ⟨⟨c, hc, hrow, hdims.of_sameShape ?_⟩, ?_⟩
  · exact Assignment.sameShape_stepTowards h
  · rw [Assignment.entries_stepTowards h hkeys, slack_segment]

end Graph

namespace Solver
variable {s : Solver κ α σ} {w w' : WorkingSet} {x y : Assignment κ α}

/-- Every answer of the eliminator satisfies the equality rows of the graph it was given. -/
def KeepsRows (s : Solver κ α σ) : Prop :=
  ∀ (g : Graph κ α) (state : σ) (x : Assignment κ α),
    (s.eliminator.primal g state).1.result = .ok x →
      ∀ r, g.rowKind? r = some .equality → g.rowSlack r x = .ok 0

/-- A table keeps the rows if its entries do. -/
theorem keepsRows_of_table [DecidableEq α] {s : Solver κ α Unit}
    {primal : List (Graph κ α × Assignment κ α)} {dual : List (Graph ℕ α × Assignment ℕ α)}
    (hs : s.eliminator = Elimination.table primal dual)
    (h : ∀ e ∈ primal, ∀ r ∈ e.1.rowsOfKind .equality, e.1.rowSlack r e.2 = .ok 0) :
    s.KeepsRows := by
  intro g state x hanswer r hr
  rw [hs] at hanswer
  exact h _ (Elimination.mem_of_lookup hanswer) r (Graph.mem_rowsOfKind.2 hr)

/-- Every active row holds with equality at the candidate. -/
theorem Solves.rowSlack_active (hs : s.KeepsRows) {working : Graph κ α} {solution : Assignment κ α}
    (h : s.Solves w working solution) {r : ConstraintRow} (hr : s.graph.IsActive w r) :
    s.graph.rowSlack r (x.update solution) = .ok 0 := by
  obtain ⟨hworking, state, hanswer⟩ := h
  obtain ⟨r', hkind, hslack⟩ := Graph.exists_working_of_active hworking hr
  exact Graph.rowSlack_update (hslack _ _ (hs working state solution hanswer r' hkind))

/-- A candidate that no row blocks satisfies all rows, the active ones with equality. -/
theorem Accepts.rowSlack (hs : s.KeepsRows) {distance : α} (h : s.Accepts w x y distance) :
    (∀ r, s.graph.IsActive w r → s.graph.rowSlack r y = .ok 0) ∧
      ∀ r, s.graph.rowKind? r = some .inequality → r ∉ w.rows →
        ∃ after, s.graph.rowSlack r y = .ok after ∧ -s.config.feasibilityTolerance ≤ after := by
  obtain ⟨working, solution, hsolves, rfl, hsize, -⟩ := h
  refine ⟨fun r hr => hsolves.rowSlack_active hs hr, fun r hr hw => ?_⟩
  exact (Graph.stepSize_eq_none.1 hsize r hr).resolve_left hw

theorem Accepts.feasible (hs : s.KeepsRows) (htol : 0 ≤ s.config.feasibilityTolerance)
    {distance : α} (h : s.Accepts w x y distance) :
    s.graph.Feasible s.config.feasibilityTolerance y := by
  obtain ⟨hactive, hinactive⟩ := h.rowSlack hs
  refine ⟨fun r hr => ?_, fun r hr => ?_⟩
  · exact ⟨0, hactive r (.inl hr), by rwa [abs_zero]⟩
  · by_cases hw : r ∈ w.rows
    · exact ⟨0, hactive r (.inr ⟨hr, hw⟩), neg_nonpos.2 htol⟩
    · exact hinactive r hr hw

/-- A blocked step goes a fraction of the way to the candidate: every row that had a slack has a
convex combination of it and the one at the candidate. An active row holds there with equality, and
an inactive one is satisfied or is not reached before the fraction. -/
theorem blocked_rows (hs : s.KeepsRows) {working : Graph κ α} {solution : Assignment κ α}
    {row : ConstraintRow} {t : α} (hsolves : s.Solves w working solution)
    (hblock : s.graph.stepSize w s.config.feasibilityTolerance x (x.update solution) =
      .ok (some (row, t)))
    (hstep : x.stepTowards (x.update solution) t = (.ok (), y)) {r : ConstraintRow}
    {kind : RowKind} (hr : s.graph.rowKind? r = some kind) {before : α}
    (hx : s.graph.rowSlack r x = .ok before) :
    ∃ after, s.graph.rowSlack r (x.update solution) = .ok after ∧
      s.graph.rowSlack r y = .ok ((1 - t) * before + t * after) ∧
      (s.graph.IsActive w r ∧ after = 0 ∨
        ¬s.graph.IsActive w r ∧ (-s.config.feasibilityTolerance ≤ after ∨
          after < -s.config.feasibilityTolerance ∧ t ≤ Graph.stepFraction before after)) := by
  have hsegment {after : α} (ha : s.graph.rowSlack r (x.update solution) = .ok after) :
      s.graph.rowSlack r y = .ok ((1 - t) * before + t * after) :=
    Graph.rowSlack_stepTowards hstep (x.mem_keys_update_of_mem solution) hx ha
  by_cases hactive : s.graph.IsActive w r
  · have hzero := hsolves.rowSlack_active (x := x) hs hactive
    exact ⟨0, hzero, hsegment hzero, .inl ⟨hactive, rfl⟩⟩
  · obtain ⟨-, -, hleast⟩ := Graph.stepSize_eq_some hblock
    have hnot := hactive
    rw [Graph.isActive_iff hr, not_or] at hnot
    have hineq : s.graph.rowKind? r = some .inequality := by
      cases kind with
      | equality => exact absurd rfl hnot.1
      | inequality => exact hr
    rcases hleast r hineq with hpass | ⟨t', ⟨-, b, a, hb, ha, hlt, rfl⟩, hle⟩
    · obtain ⟨after, ha, hle⟩ := hpass.resolve_left hnot.2
      exact ⟨after, ha, hsegment ha, .inr ⟨hactive, .inl hle⟩⟩
    · cases Except.ok.inj (hx.symm.trans hb)
      exact ⟨a, ha, hsegment ha, .inr ⟨hactive, .inr ⟨not_le.1 hlt, hle⟩⟩⟩

/-- Between a slack inside the tolerance and one that is inside as well or is not passed, all slacks
are inside the tolerance. -/
private theorem segment_bound {tolerance before after t : α} (htol : 0 ≤ tolerance) (h0 : 0 ≤ t)
    (h1 : t ≤ 1) (hb : -tolerance ≤ before) (ha : after = 0 ∨ -tolerance ≤ after ∨
      after < -tolerance ∧ t ≤ Graph.stepFraction before after) :
    -tolerance ≤ (1 - t) * before + t * after := by
  have hconvex (h : -tolerance ≤ after) : -tolerance ≤ (1 - t) * before + t * after := by
    have hbefore := mul_le_mul_of_nonneg_left hb (sub_nonneg.2 h1)
    have hafter := mul_le_mul_of_nonneg_left h h0
    linarith
  rcases ha with rfl | hle | ⟨hlt, hreach⟩
  · exact hconvex (neg_nonpos.2 htol)
  · exact hconvex hle
  · have hneg : after < 0 := hlt.trans_le (neg_nonpos.2 htol)
    exact (le_min hb (neg_nonpos.2 htol)).trans
      (Graph.min_le_slack h0 hreach (hlt.le.trans hb) hneg)

/-- Every iteration that succeeds keeps the point feasible. -/
theorem Iterates.feasible (hs : s.KeepsRows) (htol : 0 ≤ s.config.feasibilityTolerance)
    {o : Outcome α} (h : s.Iterates w x o w' y)
    (hx : s.graph.Feasible s.config.feasibilityTolerance x) :
    s.graph.Feasible s.config.feasibilityTolerance y := by
  cases h with
  | blocked hsolves hblock hstep =>
    obtain ⟨h0, h1⟩ := Graph.fraction_mem hblock
    refine ⟨fun r hr => ?_, fun r hr => ?_⟩
    · obtain ⟨before, hb, hle⟩ := hx.equality r hr
      obtain ⟨after, -, hy, hcase⟩ := blocked_rows hs hsolves hblock hstep hr hb
      obtain ⟨-, rfl⟩ := hcase.resolve_right fun hn => hn.1 (.inl hr)
      refine ⟨_, hy, ?_⟩
      rw [mul_zero, add_zero, abs_mul, abs_of_nonneg (sub_nonneg.2 h1)]
      exact (mul_le_of_le_one_left (abs_nonneg before) (sub_le_self 1 h0)).trans hle
    · obtain ⟨before, hb, hle⟩ := hx.inequality r hr
      obtain ⟨after, -, hy, hcase⟩ := blocked_rows hs hsolves hblock hstep hr hb
      exact ⟨_, hy, segment_bound htol h0 h1 hle (hcase.imp And.right And.right)⟩
  | moved ha _ => exact ha.feasible hs htol
  | converged ha _ _ => exact ha.feasible hs htol
  | dropped ha _ _ => exact ha.feasible hs htol

/-- A run of the loop from a feasible point visits feasible points only. -/
theorem Runs.feasible (hs : s.KeepsRows) (htol : 0 ≤ s.config.feasibilityTolerance)
    {initialCost : α} {fuel i : ℕ} {D : List WorkingSet} {events : List (Event κ α)}
    {result : Result (Error α) (Optimum κ α)} (h : s.Runs initialCost fuel i D w x events result)
    (hx : s.graph.Feasible s.config.feasibilityTolerance x) :
    (∀ y w' i, .visited y w' i ∈ events → s.graph.Feasible s.config.feasibilityTolerance y) ∧
      ∀ optimum, result = .ok optimum →
        s.graph.Feasible s.config.feasibilityTolerance optimum.solution := by
  have hshown {cost : α} {o : Outcome α} {w' : WorkingSet} {y : Assignment κ α} {i : ℕ}
      (hy : s.graph.Feasible s.config.feasibilityTolerance y) (z : Assignment κ α)
      (w'' : WorkingSet) (j : ℕ) (hz : .visited z w'' j ∈ shown cost o w' y i) :
      s.graph.Feasible s.config.feasibilityTolerance z := by
    simp only [shown, List.mem_cons, reduceCtorEq, false_or, List.not_mem_nil, or_false,
      Event.visited.injEq] at hz
    exact hz.1 ▸ hy
  induction h with
  | limit => exact ⟨by simp, by simp⟩
  | failed _ => exact ⟨by simp, by simp⟩
  | converged hiter _ =>
    have hy := hiter.feasible hs htol hx
    refine ⟨hshown hy, fun optimum ho => ?_⟩
    cases ho
    exact hy
  | cycled hiter _ _ _ => exact ⟨hshown (hiter.feasible hs htol hx), by simp⟩
  | dropped hiter _ _ _ ih =>
    have hy := hiter.feasible hs htol hx
    exact ⟨fun z w'' j hz => (List.mem_append.1 hz).elim (hshown hy z w'' j) ((ih hy).1 z w'' j),
      (ih hy).2⟩
  | stepped hiter _ _ ih =>
    have hy := hiter.feasible hs htol hx
    exact ⟨fun z w'' j hz => (List.mem_append.1 hz).elim (hshown hy z w'' j) ((ih hy).1 z w'' j),
      (ih hy).2⟩

/-- Whatever working set and assignment a run begins with, every point that it shows to observers
and the solution that it returns satisfy all rows up to the tolerance. -/
theorem optimize_feasible (hs : s.KeepsRows) (htol : 0 ≤ s.config.feasibilityTolerance)
    (hcheck : s.config.checkInitialFeasibility = true) (initial : Assignment κ α) (w : WorkingSet)
    (eliminator : σ) :
    (∀ y w' i, .visited y w' i ∈ (s.optimize initial w eliminator).2.events →
      s.graph.Feasible s.config.feasibilityTolerance y) ∧
    ∀ optimum, (s.optimize initial w eliminator).1 = .ok optimum →
      s.graph.Feasible s.config.feasibilityTolerance optimum.solution := by
  rcases hrun : s.optimize initial w eliminator with ⟨result, st⟩
  have hnotice {y : Assignment κ α} {w' : WorkingSet} {i : ℕ} (hmem : .visited y w' i ∈ st.events) :
      .visited y w' i ∈ st.notices := List.mem_filter.2 ⟨hmem, rfl⟩
  rcases optimize_cases hrun with ⟨hnone, failure, rfl, -⟩ | ⟨x, cost, hstarts, -, hruns⟩
  · refine ⟨fun y w' i hmem => ?_, fun optimum ho => nomatch ho⟩
    simpa [hnone] using hnotice hmem
  · obtain ⟨hvisited, hsolution⟩ :=
      hruns.feasible hs htol (checkFeasible_spec (hstarts.feasible hcheck))
    exact ⟨fun y w' i hmem => hvisited y w' i (hnotice hmem), hsolution⟩

/-- The run on the half-line returns its bound, which is feasible. -/
theorem halfLine_feasible : ∃ optimum,
    (halfLine.optimize (.single 0 0) WorkingSet.empty ()).1 = .ok optimum ∧
      optimum.solution = .single 0 1 ∧ halfLine.graph.Feasible 0 optimum.solution := by
  obtain ⟨optimum, hok, hsolution, -⟩ := halfLine_converges
  have hs : halfLine.KeepsRows := keepsRows_of_table rfl (by decide +kernel)
  obtain ⟨-, hfeasible⟩ :=
    optimize_feasible hs le_rfl rfl (.single 0 0) WorkingSet.empty ()
  exact ⟨optimum, hok, hsolution, hfeasible optimum hok⟩

end Solver

end GaussianProgram
