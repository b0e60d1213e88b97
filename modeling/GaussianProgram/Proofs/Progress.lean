import GaussianProgram.Proofs.Independence
import GaussianProgram.Proofs.Optimality

/-! Progress after a drop. The multiplier of the dropped row is negative, so the cost falls towards
the inside of the row, and it falls strictly, because the other active rows cannot balance the
gradient without it. -/
namespace GaussianProgram

namespace Graph
variable {κ α : Type} [Key κ] [ExactScalar α] {g : Graph κ α} {w : WorkingSet}

/-- Along a direction that keeps all active rows but one of the working set, only that one balances
the slope. -/
theorem Balances.slope_of_single {p v : Point κ α} {d : Point ℕ α} (h : g.Balances w p d)
    {row : ConstraintRow} (hkind : g.rowKind? row = some .inequality) (hmem : row ∈ w.rows)
    (hv : ∀ r, g.IsActive w r → r ≠ row → g.rowForm r v = 0) :
    g.slope p v = -(d row.factor row.row * g.rowForm row v) := by
  rw [h, weighted_apply, Finset.sum_eq_single row, sign_inequality hkind hmem, one_mul]
  · intro r hr hne
    rw [hv r (mem_activeSet.1 hr) hne, mul_zero, mul_zero]
  · exact fun hnot => absurd (mem_activeSet.2 (.inr ⟨hkind, hmem⟩)) hnot

/-- Among independent rows, multipliers with and without a row balance the same slope only if its
multiplier is zero. -/
theorem Independent.multiplier_eq_zero (hw : g.Independent w) {row : ConstraintRow}
    (hkind : g.rowKind? row = some .inequality) (hmem : row ∈ w.rows) {d d' : Point ℕ α}
    (h : g.weighted w d = g.weighted (w.remove row).2 d') : d row.factor row.row = 0 := by
  have hrow : row ∈ g.activeSet w := mem_activeSet.2 (.inr ⟨hkind, hmem⟩)
  -- If the multiplier were not zero, the other active rows would span the row.
  by_contra hne
  refine (linearIndepOn_iff_notMem_span.1 hw) row (mem_activeSet.1 hrow) ?_
  have hother {v : WorkingSet} {e : Point ℕ α} (s : Finset ConstraintRow)
      (hs : ∀ r ∈ s, g.IsActive w r ∧ r ≠ row) :
      ∑ r ∈ s, (g.sign v r * e r.factor r.row) • g.rowForm r ∈
        Submodule.span α (g.rowForm '' ({r | g.IsActive w r} \ {row})) :=
    Submodule.sum_mem _ fun r hr =>
      Submodule.smul_mem _ _ (Submodule.subset_span (Set.mem_image_of_mem _ (hs r hr)))
  have hsplit : d row.factor row.row • g.rowForm row =
      g.weighted (w.remove row).2 d' -
        ∑ r ∈ (g.activeSet w).erase row, (g.sign w r * d r.factor r.row) • g.rowForm r := by
    rw [← h, weighted, ← Finset.add_sum_erase _ _ hrow, add_sub_cancel_right,
      sign_inequality hkind hmem, one_mul]
  rw [← inv_smul_smul₀ hne (g.rowForm row), hsplit]
  refine Submodule.smul_mem _ _ (Submodule.sub_mem _ (hother _ fun r hr => ?_)
    (hother _ fun r hr => ?_))
  · exact (isActive_remove hkind).1 (mem_activeSet.1 hr)
  · obtain ⟨hne, hr⟩ := Finset.mem_erase.1 hr
    exact ⟨mem_activeSet.1 hr, hne⟩

/-- Multipliers of independent rows balance the gradient at `p`, and those of all rows but one
balance it at `q`. If the one row has a negative multiplier, `q` is inside of it and costs less. -/
theorem Balances.progress (hsym : g.Symmetric) (hpsd : g.PositiveSemidefinite)
    (hw : g.Independent w) {row : ConstraintRow} (hkind : g.rowKind? row = some .inequality)
    (hmem : row ∈ w.rows) {p q : Point κ α} {d d' : Point ℕ α} (hp : g.Balances w p d)
    (hq : g.Balances (w.remove row).2 q d')
    (hrows : ∀ r, g.IsActive (w.remove row).2 r → g.rowForm r (q - p) = 0)
    (hneg : d row.factor row.row < 0) : g.rowForm row (q - p) < 0 ∧ g.value q < g.value p := by
  have hbefore : g.slope p (q - p) = -(d row.factor row.row * g.rowForm row (q - p)) := by
    exact hp.slope_of_single hkind hmem fun r hr hne =>
      hrows r ((isActive_remove hkind).2 ⟨hr, hne⟩)
  have hafter : g.slope q (q - p) = 0 := by
    rw [hq, weighted_apply, Finset.sum_eq_zero, neg_zero]
    intro r hr
    rw [hrows r (mem_activeSet.1 hr), mul_zero, mul_zero]
  have hcurvature : g.curvature (q - p) = d row.factor row.row * g.rowForm row (q - p) := by
    rw [← coupling_self, ← slope_sub, hafter, hbefore, sub_neg_eq_add, zero_add]
  have hpos : 0 < g.curvature (q - p) := by
    refine (hpsd _).lt_of_ne' fun hflat => hneg.ne ?_
    have hsame : g.weighted w d = g.weighted (w.remove row).2 d' := by
      refine LinearMap.ext fun v => ?_
      have hslope := g.slope_sub p q v
      rw [hpsd.coupling_eq_zero hsym hflat, hp, hq] at hslope
      linarith
    exact hw.multiplier_eq_zero hkind hmem hsame
  have hvalue := value_eq_add_slope hsym p q
  rw [hbefore, ← hcurvature] at hvalue
  refine ⟨(neg_iff_neg_of_mul_pos (hcurvature ▸ hpos)).1 hneg, by linarith⟩

end Graph

namespace Solver
variable {κ α σ : Type} [Key κ] [ExactScalar α] {s : Solver κ α σ} {w w' : WorkingSet}
  {x y : Assignment κ α}

section Solves
variable {working : Graph κ α} {solution : Assignment κ α}

/-- The candidate has a cost. -/
theorem Solves.readable (hs : s.Exact) (h : s.Solves w working solution) :
    ∀ f ∈ s.graph.factors, f.Readable (x.update solution) := by
  obtain ⟨hworking, state, hanswer⟩ := h
  refine Graph.readable_of_working hworking fun f hf => ?_
  refine ((hs.primal _ _ _ hanswer).readable f hf).mono fun e _ he => ?_
  rw [Assignment.dim?_update, he, Option.some_or]

/-- Where the dimensions of a graph agree, the candidate keeps those that a factor needs. -/
theorem Solves.hasDims (hs : s.Exact) (h : s.Solves w working solution) {dims : SortedMap κ ℕ}
    (hdims : s.graph.keyDimensions = .ok dims) {f : Factor κ α} (hf : f ∈ s.graph.factors)
    (hx : x.HasDims f.keyDims) : (x.update solution).HasDims f.keyDims := by
  obtain ⟨hworking, state, hanswer⟩ := h
  obtain ⟨hcovers, hkeys⟩ := (hs.primal _ _ _ hanswer).fits
  intro e he
  rw [Assignment.dim?_update]
  cases hn : solution.dim? e.1 with
  | none => rw [Option.none_or, hx e he]
  | some n =>
    obtain ⟨v, hv, -⟩ := Assignment.dim?_eq_some.1 hn
    obtain ⟨f', hf', hk⟩ := hkeys _ (SortedMap.mem_keys_iff.2 ⟨v, hv⟩)
    obtain ⟨⟨k, m⟩, he', rfl⟩ := List.mem_map.1 hk
    cases hn.symm.trans (hcovers f' hf' (e.1, m) he')
    obtain ⟨f₀, hf₀, hsame⟩ := Graph.exists_keyDims_of_mem_workingGraph hworking hf'
    rw [Option.some_or, ← (Graph.keyDimensions_spec hdims).2 ⟨f₀, hf₀, hsame ▸ he'⟩]
    exact (Graph.keyDimensions_spec hdims).2 ⟨f, hf, he⟩

end Solves

theorem checkRank_eq_ok {w : WorkingSet} (h : s.checkRank w = .ok ()) :
    ∃ dims, s.graph.keyDimensions = .ok dims := by
  obtain ⟨dims, hdims, -⟩ := Result.bind_eq_ok.1 h
  rw [Result.mapCause_eq_ok, Graph.dimensions, Result.mapCause_eq_ok,
    Result.ofExcept_eq_ok] at hdims
  exact ⟨dims, hdims⟩

/-- After an iteration that drops a row from an independent working set, every next candidate is
inside of the row and costs less than the point. -/
theorem Iterates.progress (hs : s.Exact) (hsym : s.graph.Symmetric)
    (hpsd : s.graph.PositiveSemidefinite) (htol : 0 ≤ s.config.dualTolerance)
    (hw : s.graph.Independent w) {dims : SortedMap κ ℕ} (hdims : s.graph.keyDimensions = .ok dims)
    {row : ConstraintRow} (h : s.Iterates w x (.dropped row) w' y) {working : Graph κ α}
    {solution : Assignment κ α} (hsolves : s.Solves w' working solution) :
    (∃ slack, s.graph.rowSlack row (y.update solution) = .ok slack ∧ 0 < slack) ∧
      ∃ before after, s.graph.cost y = .ok before ∧
        s.graph.cost (y.update solution) = .ok after ∧ after < before := by
  cases h with
  | dropped haccepts hduals hworst =>
    have hmem := Graph.mem_of_worstRow? hworst
    obtain ⟨multiplier, hmultiplier, hlow⟩ := Graph.multiplier_of_worstRow? hworst
    have hkind : s.graph.rowKind? row = some .inequality := by
      by_contra hne
      rw [Graph.multiplier?, if_neg (mt Graph.isInequality_iff.1 hne)] at hmultiplier
      cases hmultiplier
    obtain ⟨hbalances, hmultipliers⟩ := hduals.balances hs haccepts
    cases Option.some.inj (hmultiplier.symm.trans (hmultipliers row hmem hkind))
    obtain ⟨d', -, hnext⟩ := hsolves.exists_balances hs y
    obtain ⟨hactive, -⟩ := haccepts.rowSlack hs.keepsRows
    have hzero := hactive row (.inr ⟨hkind, hmem⟩)
    obtain ⟨hinside, hcheaper⟩ := hbalances.progress hsym hpsd hw hkind hmem hnext
      (fun r hr => Graph.rowForm_sub_eq_zero (hactive r hr.of_remove)
        (hsolves.rowSlack_active hs.keepsRows hr))
      (hlow.trans_le (neg_nonpos.2 htol))
    constructor
    · obtain ⟨⟨c, hc, hrow, hy⟩, hslack⟩ := Graph.rowSlack_eq_ok.1 hzero
      refine ⟨_, Graph.rowSlack_eq_ok.2 ⟨⟨c, hc, hrow, ?_⟩, rfl⟩, ?_⟩
      · exact hsolves.hasDims hs hdims (Graph.mem_factors_of_constraintAt? hc) hy
      · rw [← Graph.slack_sub, ← hslack, zero_sub] at hinside
        exact neg_lt_zero.1 hinside
    · obtain ⟨_, _, hbefore, rfl, -⟩ := haccepts
      exact ⟨_, _, Graph.cost_eq_ok.2 ⟨hbefore.readable hs, rfl⟩,
        Graph.cost_eq_ok.2 ⟨hsolves.readable hs, rfl⟩, hcheaper⟩

/-- Where a check of the rank that succeeds finds independent rows: after an iteration that drops a
row, every next candidate is strictly inside of the row and costs strictly less than the point, so
the next iteration is not blocked by the row. -/
theorem iterate_progress (hs : s.Exact) (hsym : s.graph.Symmetric)
    (hpsd : s.graph.PositiveSemidefinite) (hfeasible : 0 ≤ s.config.feasibilityTolerance)
    (hdual : 0 ≤ s.config.dualTolerance)
    (hrank : ∀ w, s.checkRank w = .ok () → s.graph.Independent w) (st st' : RunState κ α σ)
    (row : ConstraintRow) (hdrop : s.iterate.run.run st = (.ok (.dropped row), st')) :
    (∀ working solution, s.Solves st'.workingSet working solution →
      (∃ slack, s.graph.rowSlack row (st'.point.update solution) = .ok slack ∧ 0 < slack) ∧
      ∃ before after, s.graph.cost st'.point = .ok before ∧
        s.graph.cost (st'.point.update solution) = .ok after ∧ after < before) ∧
    ∀ fraction, (s.iterate.run.run st').1 ≠ .ok (.stepTaken fraction (some row)) := by
  have hcheck := checkRank_of_iterate_ok hdrop
  obtain ⟨dims, hdims⟩ := checkRank_eq_ok hcheck
  have hprogress {working : Graph κ α} {solution : Assignment κ α}
      (h : s.Solves st'.workingSet working solution) :=
    (iterate_ok hdrop).progress hs hsym hpsd hdual (hrank _ hcheck) hdims h
  refine ⟨fun working solution => hprogress, fun fraction hnext => ?_⟩
  rcases hexec : s.iterate.run.run st' with ⟨result, st''⟩
  rw [hexec] at hnext
  obtain rfl : result = .ok (.stepTaken fraction (some row)) := hnext
  have hiter := iterate_ok hexec
  generalize st''.workingSet = w'', st''.point = z at hiter
  cases hiter with
  | blocked hsolves hblock _ =>
    obtain ⟨⟨slack, hslack, hpos⟩, -⟩ := hprogress hsolves
    obtain ⟨-, ⟨-, _, after, -, hafter, hlt, -⟩, -⟩ := Graph.stepSize_eq_some hblock
    cases Except.ok.inj (hslack.symm.trans hafter)
    exact hlt (by linarith)

private theorem looseHalfLine_exact : looseHalfLine.Exact := by
  refine exact_of_table rfl (List.forall_mem_cons.2 ⟨?_, List.forall_mem_singleton.2 ?_⟩)
    (List.forall_mem_singleton.2 ?_)
  · refine stationary_single (b := 0) (c := 0) (List.cons_ne_nil _ _) (by decide)
      (by decide +kernel) (by decide +kernel) fun v => ?_
    simp
  · exact parabola_stationary (m := 2) (by decide +kernel) (by decide +kernel)
  · refine stationary_single (b := 0) (c := 0) (List.cons_ne_nil _ _) (by decide)
      (by decide +kernel) (by decide +kernel) fun v => ?_
    simp

/-- From the bound the row is dropped, and the next iteration, whose candidate is `2`, leaves it. -/
theorem looseHalfLine_progress : ∃ st',
    looseHalfLine.iterate.run.run ⟨(WorkingSet.empty.insert ⟨1, 0⟩).2, .single 0 3, (), []⟩ =
      (.ok (.dropped ⟨1, 0⟩), st') ∧
    (∃ slack, looseHalfLine.graph.rowSlack ⟨1, 0⟩ (st'.point.update (.single 0 2)) = .ok slack ∧
      0 < slack) ∧
    ∀ fraction,
      (looseHalfLine.iterate.run.run st').1 ≠ .ok (.stepTaken fraction (some ⟨1, 0⟩)) := by
  have hrow : looseHalfLine.graph.rowForm ⟨1, 0⟩ ≠ 0 := by
    intro hzero
    have h := LinearRows.form_single 0 3 (some .inequality) fun _ _ => 1
    rw [← Graph.rowForm_eq (g := looseHalfLine.graph) (r := ⟨1, 0⟩) rfl, hzero] at h
    exact zero_ne_one h
  have hactive (w : WorkingSet) (r : ConstraintRow) (hr : looseHalfLine.graph.IsActive w r) :
      r = ⟨1, 0⟩ := by
    have hequality : looseHalfLine.graph.rowsOfKind .equality = [] := by decide +kernel
    have hinequality : looseHalfLine.graph.rowsOfKind .inequality = [⟨1, 0⟩] := by decide +kernel
    rcases hr with hk | ⟨hk, -⟩
    · exact absurd (Graph.mem_rowsOfKind.2 hk) (by simp [hequality])
    · exact List.mem_singleton.1 (hinequality ▸ Graph.mem_rowsOfKind.2 hk)
  have hdropped : (looseHalfLine.iterate.run.run
      ⟨(WorkingSet.empty.insert ⟨1, 0⟩).2, .single 0 3, (), []⟩).1 = .ok (.dropped ⟨1, 0⟩) := by
    decide +kernel
  have hworking : looseHalfLine.graph.workingGraph (looseHalfLine.iterate.run.run
      ⟨(WorkingSet.empty.insert ⟨1, 0⟩).2, .single 0 3, (), []⟩).2.workingSet =
        .ok (.parabola []) := by decide +kernel
  obtain ⟨hprogress, hnext⟩ := iterate_progress looseHalfLine_exact (Graph.parabola_symmetric _)
    (Graph.parabola_positiveSemidefinite _) le_rfl (by decide +kernel)
    (fun w _ => Graph.independent_of_single hrow (hactive w)) _ _ _ (Prod.ext hdropped rfl)
  exact ⟨_, Prod.ext hdropped rfl, (hprogress _ _ ⟨hworking, (), rfl⟩).1, hnext⟩

end Solver

end GaussianProgram
