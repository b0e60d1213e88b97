import GaussianProgram.Proofs.Dual
import GaussianProgram.Proofs.Feasibility

/-! Stationary points. An elimination leaves the gradient to the rows of the working problem, so the
dual graph has multipliers without any residual; then no stationary answer to it has a residual, and
its multipliers balance the gradient. -/
namespace GaussianProgram
open Finset (range)

namespace Graph
variable {κ α : Type} [Key κ] [ExactScalar α] {g : Graph κ α} {w : WorkingSet} {x : Assignment κ α}

/-- The assignment has exactly the variables of the graph and satisfies its equality rows, and the
gradient there is a linear combination of their coefficients. -/
structure Stationary (g : Graph κ α) (x : Assignment κ α) : Prop where
  fits : g.Fits x
  rows : ∀ r, g.rowKind? r = some .equality → g.rowSlack r x = .ok 0
  gradient : ∃ grad, g.gradient x = .ok grad ∧ ∃ c : ConstraintRow → α, ∀ v,
    pairing grad.toList v = ((g.rowsOfKind .equality).map fun r => c r * g.rowForm r v).sum

/-- At a stationary point the slope is spanned by the equality rows. -/
theorem Stationary.exists_slope (h : g.Stationary x) :
    ∃ L ∈ Submodule.span α (g.rowForm '' {r | g.rowKind? r = some .equality}),
      ∀ v, g.slope x.entries v = L v := by
  obtain ⟨grad, hgrad, c, hc⟩ := h.gradient
  refine ⟨((g.rowsOfKind .equality).map fun r => c r • g.rowForm r).sum, ?_, fun v => ?_⟩
  · apply list_sum_mem
    intro L hL
    obtain ⟨r, hr, rfl⟩ := List.mem_map.1 hL
    exact Submodule.smul_mem _ _ (Submodule.subset_span ⟨r, mem_rowsOfKind.1 hr, rfl⟩)
  · rw [← (gradient_spec hgrad).2, hc, ← LinearMap.applyₗ_apply_apply v, map_list_sum, List.map_map]
    rfl

/-- A stationary point of a least-squares graph has no residual if any point has none. -/
theorem Stationary.gap_eq_zero (h : g.Stationary x) {p : Point κ α}
    (hp : ∀ f ∈ g.factors, ∃ c, f = .linear c ∧ c.kinds = none ∧ ∀ row < c.rows, c.gap row p = 0)
    {c : LinearRows κ α} (hc : .linear c ∈ g.factors) {row : ℕ} (hrow : row < c.rows) :
    c.gap row x.entries = 0 := by
  have hnone : {r | g.rowKind? r = some .equality} = ∅ := by
    apply Set.eq_empty_of_forall_notMem
    intro r hr
    obtain ⟨c', hc', -⟩ := rowKind?_eq_some.1 hr
    obtain ⟨f, hf, hconstraint⟩ := constraintAt?_eq_some.1 hc'
    obtain ⟨rfl, hcon⟩ := Factor.constraint?_eq_some.1 hconstraint
    obtain ⟨_, he, hkinds, -⟩ := hp _ (List.mem_of_getElem? hf)
    cases he
    simp [LinearRows.isConstrained, hkinds] at hcon
  have hzero : g.slope x.entries (x.entries - p) = 0 := by
    obtain ⟨L, hL, hslope⟩ := h.exists_slope
    rw [hnone, Set.image_empty, Submodule.span_empty, Submodule.mem_bot] at hL
    rw [hslope, hL, LinearMap.zero_apply]
  have hpart {c : LinearRows κ α} (hc : .linear c ∈ g.factors) : c.slope x.entries (x.entries - p) =
      ∑ row ∈ range c.rows, c.gap row x.entries * c.gap row x.entries := by
    obtain ⟨_, he, hkinds, hgap⟩ := hp _ hc
    cases he
    rw [LinearRows.slope, if_neg (by simp [LinearRows.isConstrained, hkinds])]
    apply Finset.sum_congr rfl
    intro row hrow
    have hrhs := sub_eq_zero.1 (hgap row (Finset.mem_range.1 hrow))
    rw [map_sub, hrhs, LinearRows.gap]
  have hnonneg : ∀ a ∈ g.factors.map (·.slope x.entries (x.entries - p)), 0 ≤ a := by
    intro a ha
    obtain ⟨f, hf, rfl⟩ := List.mem_map.1 ha
    obtain ⟨c', rfl, -⟩ := hp f hf
    exact (Finset.sum_nonneg fun row _ => mul_self_nonneg _).trans_eq (hpart hf).symm
  have hfactor := List.all_zero_of_le_zero_le_of_sum_eq_zero hnonneg hzero (List.mem_map_of_mem hc)
  rw [Factor.slope, hpart hc,
    Finset.sum_eq_zero_iff_of_nonneg fun row _ => mul_self_nonneg _] at hfactor
  exact mul_self_eq_zero.1 (hfactor row (Finset.mem_range.2 hrow))

section Parts
omit [ExactScalar α]
variable [Scalar α] {grad : Assignment κ α} (h : g.gradient x = .ok grad) {f : Factor κ α}
  (hf : f ∈ g.factors) {e : κ × ℕ} (he : e ∈ f.keyDims)
include h hf he

/-- The computed gradient has a part for every variable. -/
theorem exists_part : ∃ part, grad.get? e.1 = some part ∧ part.length = e.2 := by
  obtain ⟨dims, hdims, hgrad⟩ := dim?_gradient h
  rw [← Assignment.dim?_eq_some, hgrad]
  exact (keyDimensions_spec hdims).2 ⟨f, hf, he⟩

/-- A part of the computed gradient is as long as every factor says that its variable is. -/
theorem eq_length_of_mem_gradient {part : κ × Vec α} (hpart : part ∈ grad.toList)
    (hk : e.1 = part.1) : e.2 = part.2.length := by
  obtain ⟨v, hv, hlen⟩ := exists_part h hf he
  rw [hk, SortedMap.get?_eq_some_iff.2 hpart] at hv
  cases hv
  exact hlen.symm

end Parts

/-- The weighed active rows cancel the slope along every direction. -/
def Balances (g : Graph κ α) (w : WorkingSet) (p : Point κ α) (d : Point ℕ α) : Prop :=
  ∀ v, g.slope p v = -g.weighted w d v

omit [ExactScalar α] in
theorem mem_participating_of_isActive {r : ConstraintRow} (hr : g.IsActive w r) :
    ∃ c, (r.factor, c) ∈ g.participating w ∧ g.constraintAt? r.factor = some c ∧
      r.row < c.rows := by
  obtain ⟨c, hc, hk⟩ := isActive_iff_exists.1 hr
  refine ⟨c, mem_participating.2 ⟨hc, r.row, hk.imp_right And.right⟩, hc, ?_⟩
  rcases hk with hk | ⟨hk, -⟩
  · exact LinearRows.rowKind?_lt hk
  · exact LinearRows.rowKind?_lt hk

/-- A factor with an active row has a variable, so the dual graph has a condition for it. -/
private theorem exists_condition {dual : Graph ℕ α} (h : g.dualGraph w x = .ok dual)
    {r : ConstraintRow} (hr : g.IsActive w r) : ∃ k part c f, .linear c ∈ dual.factors ∧
      g.IsCondition w k part c ∧ (r.factor, f) ∈ g.participating w ∧ k ∈ f.keys ∧
        r.row < f.rows := by
  obtain ⟨f, hf, hat, hlt⟩ := mem_participating_of_isActive hr
  rcases dualGraph_spec h with ⟨hnil, -⟩ | ⟨grad, hgrad, hd⟩
  · simp [hnil] at hf
  · obtain ⟨t, ht⟩ := List.exists_mem_of_ne_nil _ f.terms_ne_nil
    have hdims : (t.1, t.2.cols) ∈ (Factor.linear f).keyDims := List.mem_map_of_mem ht
    obtain ⟨part, hpart, -⟩ := exists_part hgrad (mem_factors_of_constraintAt? hat) hdims
    have hk : t.1 ∈ f.keys := List.mem_map_of_mem ht
    obtain ⟨c, hc, hcond⟩ := hd.condition _ part ⟨_, hf, hk⟩ hpart
    exact ⟨t.1, part, c, f, hc, hcond, hf, hk, hlt⟩

/-- An answer to the dual graph has a multiplier for every active row. -/
theorem exists_multiplier {dual : Graph ℕ α} (h : g.dualGraph w x = .ok dual)
    {duals : Assignment ℕ α} (hduals : dual.Covers duals) {r : ConstraintRow}
    (hr : g.IsActive w r) :
    ∃ u, duals.get? r.factor = some u ∧ u[r.row]? = some (duals.entries r.factor r.row) := by
  obtain ⟨k, part, c, f, hc, hcond, hf, hk, hlt⟩ := exists_condition h hr
  have hdim := hduals _ hc _ (hcond.keyDims _ f hf hk)
  obtain ⟨u, hu, hlen⟩ := Assignment.dim?_eq_some.1 hdim
  have hrow : r.row < u.length := hlen ▸ hlt
  refine ⟨u, hu, ?_⟩
  rw [Assignment.entries_eq hu, Vec.get_eq_getElem hrow, List.getElem?_eq_getElem hrow]

/-- Multipliers that balance the gradient, and are zero on rows that are not active, leave no
residual in the dual graph. -/
theorem Balances.gap_eq_zero {dual : Graph ℕ α} {grad : Assignment κ α} {d : Point ℕ α}
    (h : g.Balances w x.entries d)
    (hd : ∀ r : ConstraintRow, ¬g.IsActive w r → d r.factor r.row = 0)
    (hgrad : g.gradient x = .ok grad) (hdual : g.IsDual w grad dual) : ∀ f ∈ dual.factors,
      ∃ c, f = .linear c ∧ c.kinds = none ∧ ∀ row < c.rows, c.gap row d = 0 := by
  intro f hf
  obtain ⟨c, rfl, ⟨k, part, -, hpart, hcond⟩ | ⟨r, -, hpin⟩⟩ := hdual.factors f hf
  · refine ⟨c, rfl, hcond.kinds, fun j hj => ?_⟩
    rw [hcond.rows] at hj
    have hunit : Vec.get part j = -g.weighted w d (unitPoint k j) := by
      rw [← Assignment.pairing_unitPoint hpart hj, (gradient_spec hgrad).2, h]
    rw [hcond.gap d j hj, hunit, add_neg_cancel]
  · refine ⟨c, rfl, hpin.kinds, fun j hj => ?_⟩
    rw [hpin.rows, Nat.lt_one_iff] at hj
    rw [hj, hpin.gap, hd r hpin.inactive]

/-- Weighed rows are equal if they are at all entries of the variables that active factors touch. -/
theorem weighted_ext {grad : Assignment κ α} (hgrad : g.gradient x = .ok grad)
    {d d' : Point ℕ α} (h : ∀ e ∈ g.participating w, ∀ k ∈ e.2.keys, ∀ part,
      grad.get? k = some part → ∀ j < part.length,
        g.weighted w d (unitPoint k j) = g.weighted w d' (unitPoint k j)) :
    g.weighted w d = g.weighted w d' := by
  let K : Finset κ := ((g.participating w).flatMap fun e => e.2.keys).toFinset
  let n : κ → ℕ := fun k => (grad.dim? k).getD 0
  have hK : ∀ r, g.IsActive w r → ∀ c, g.constraintAt? r.factor = some c →
      (∀ k ∈ c.keys, k ∈ K) ∧ ∀ e ∈ c.keyDims, n e.1 = e.2 := by
    intro r hr c hc
    obtain ⟨c', hc', hat, -⟩ := mem_participating_of_isActive hr
    cases Option.some.inj (hc.symm.trans hat)
    refine ⟨fun k hk => List.mem_toFinset.2 (List.mem_flatMap.2 ⟨_, hc', hk⟩), fun e he => ?_⟩
    obtain ⟨part, hpart, hlen⟩ := exists_part hgrad (mem_factors_of_constraintAt? hc) he
    simp [n, Assignment.dim?, hpart, hlen]
  apply LinearMap.ext
  intro v
  rw [weighted_eq_sum hK d v, weighted_eq_sum hK d' v]
  refine Finset.sum_congr rfl fun k hk => Finset.sum_congr rfl fun j hj => ?_
  obtain ⟨e, he, hk⟩ := List.mem_flatMap.1 (List.mem_toFinset.1 hk)
  rw [Finset.mem_range] at hj
  cases hpart : grad.get? k with
  | none => simp [n, Assignment.dim?, hpart] at hj
  | some part =>
    have hj : j < part.length := by simpa [n, Assignment.dim?, hpart] using hj
    rw [h e he k hk part hpart j hj]

/-- If any multipliers of the active rows balance the gradient, those of a stationary point of the
dual graph do. -/
theorem Balances.of_dual {dual : Graph ℕ α} (hdual : g.dualGraph w x = .ok dual)
    {d : Point ℕ α} (hd : ∀ r : ConstraintRow, ¬g.IsActive w r → d r.factor r.row = 0)
    (h : g.Balances w x.entries d) {duals : Assignment ℕ α} (hs : dual.Stationary duals) :
    g.Balances w x.entries duals.entries := by
  rcases dualGraph_spec hdual with ⟨hnil, -⟩ | ⟨grad, hgrad, hstates⟩
  · have hempty : g.activeSet w = ∅ := by simp [activeSet, activeRows, hnil]
    have hzero (d' : Point ℕ α) : g.weighted w d' = 0 := by simp [weighted, hempty]
    intro v
    rw [h v, hzero, hzero]
  · have hfree := h.gap_eq_zero hd hgrad hstates
    have heq : g.weighted w duals.entries = g.weighted w d := by
      apply weighted_ext hgrad
      intro e he k hk part hpart j hj
      obtain ⟨c, hc, hcond⟩ := hstates.condition k part ⟨e, he, hk⟩ hpart
      have hzero : ∀ row < c.rows, c.gap row d = 0 := by
        obtain ⟨_, hlinear, -, hgap⟩ := hfree _ hc
        cases hlinear
        exact hgap
      have hj' : j < c.rows := hcond.rows ▸ hj
      have hsame := (hs.gap_eq_zero hfree hc hj').trans (hzero j hj').symm
      rwa [hcond.gap _ j hj, hcond.gap _ j hj, add_left_inj] at hsame
    intro v
    rw [h v, heq]

end Graph

namespace Solver
variable {κ α σ : Type} [Key κ] [ExactScalar α] {s : Solver κ α σ} {w : WorkingSet}
  {x y : Assignment κ α}

/-- Every answer of the eliminator is a stationary point of the graph it was given. -/
structure Exact (s : Solver κ α σ) : Prop where
  primal : ∀ g state x, (s.eliminator.primal g state).1.result = .ok x → g.Stationary x
  dual : ∀ g state d, (s.eliminator.dual g state).1.result = .ok d → g.Stationary d

theorem Exact.keepsRows (hs : s.Exact) : s.KeepsRows :=
  fun g state x h => (hs.primal g state x h).rows

/-- A table is exact if its entries are stationary points. -/
theorem exact_of_table [DecidableEq α] {s : Solver κ α Unit}
    {primal : List (Graph κ α × Assignment κ α)} {dual : List (Graph ℕ α × Assignment ℕ α)}
    (hs : s.eliminator = Elimination.table primal dual)
    (hprimal : ∀ e ∈ primal, e.1.Stationary e.2) (hdual : ∀ e ∈ dual, e.1.Stationary e.2) :
    s.Exact where
  primal g state x h := hprimal _ (Elimination.mem_of_lookup (by rwa [hs] at h))
  dual g state x h := hdual _ (Elimination.mem_of_lookup (by rwa [hs] at h))

/-- A stationary assignment of one number, with the multipliers of the rows. -/
theorem stationary_single {g : Graph ℕ ℚ} {k : ℕ} {a b : ℚ} {c : ConstraintRow → ℚ}
    (hne : g.factors ≠ []) (h : ∀ f ∈ g.factors, f.keyDims = [(k, 1)])
    (hrows : ∀ r ∈ g.rowsOfKind .equality, g.rowSlack r (.single k a) = .ok 0)
    (hgradient : g.gradient (.single k a) = .ok (.single k b))
    (hc : ∀ v : Point ℕ ℚ,
      b * v k 0 = ((g.rowsOfKind .equality).map fun r => c r * g.rowForm r v).sum) :
    g.Stationary (.single k a) where
  fits := Graph.fits_single hne h a
  rows r hr := hrows r (Graph.mem_rowsOfKind.2 hr)
  gradient := by
    refine ⟨_, hgradient, c, fun v => ?_⟩
    rw [← hc, show (Assignment.single k b).toList = [(k, [b])] from rfl, pairing_cons, pairing_nil]
    simp [Vec.get]

/-- Subject to its bound as an equality, the parabola is stationary there; the multiplier of the row
is the derivative. -/
theorem parabola_stationary {b m : ℚ}
    (hrow : (Graph.parabola [.single 0 b (some .equality)]).rowSlack ⟨1, 0⟩ (.single 0 b) = .ok 0)
    (hgradient : (Graph.parabola [.single 0 b (some .equality)]).gradient (.single 0 b) =
      .ok (.single 0 m)) :
    (Graph.parabola [.single 0 b (some .equality)]).Stationary (.single 0 b) := by
  have hrows :
      (Graph.parabola [.single 0 b (some .equality)]).rowsOfKind .equality = [⟨1, 0⟩] := rfl
  refine stationary_single (c := fun _ => m) (List.cons_ne_nil _ _) ?_ ?_ hgradient fun v => ?_
  · rintro f (_ | ⟨_, _ | ⟨_, hf⟩⟩)
    · rfl
    · rfl
    · cases hf
  · rw [hrows]
    exact List.forall_mem_singleton.2 hrow
  · rw [hrows, List.map_singleton, List.sum_singleton,
      Graph.rowForm_eq (c := .single 0 b (some .equality)) rfl, LinearRows.form_single]

theorem halfLine_exact : halfLine.Exact := by
  refine exact_of_table rfl (List.forall_mem_cons.2 ⟨?_, List.forall_mem_singleton.2 ?_⟩)
    (List.forall_mem_singleton.2 ?_)
  · refine stationary_single (b := 0) (c := 0) (List.cons_ne_nil _ _) (by decide)
      (by decide +kernel) (by decide +kernel) fun v => ?_
    simp
  · exact parabola_stationary (m := -2) (by decide +kernel) (by decide +kernel)
  · refine stationary_single (b := 0) (c := 0) (List.cons_ne_nil _ _) (by decide)
      (by decide +kernel) (by decide +kernel) fun v => ?_
    simp

/-- At the candidate some multipliers of the active rows balance the gradient. -/
theorem Solves.exists_balances (hs : s.Exact) {working : Graph κ α} {solution : Assignment κ α}
    (h : s.Solves w working solution) (x : Assignment κ α) :
    ∃ d : Point ℕ α, (∀ r : ConstraintRow, ¬s.graph.IsActive w r → d r.factor r.row = 0) ∧
      s.graph.Balances w (x.update solution).entries d := by
  obtain ⟨hworking, state, hanswer⟩ := h
  have hstationary := hs.primal _ _ _ hanswer
  obtain ⟨L, hL, hslope⟩ := hstationary.exists_slope
  have hspan : -L ∈ Submodule.span α (s.graph.rowForm '' {r | s.graph.IsActive w r}) := by
    refine Submodule.neg_mem _ (Submodule.span_mono ?_ hL)
    rintro _ ⟨r, hr, rfl⟩
    obtain ⟨a, ha, hform, -⟩ := Graph.exists_active_of_working hworking hr
    exact ⟨a, ha, hform.symm⟩
  obtain ⟨d, hd, heq⟩ := Graph.exists_weighted hspan
  refine ⟨d, hd, fun v => ?_⟩
  rw [heq, LinearMap.neg_apply, neg_neg, ← hslope, ← Graph.slope_working hworking]
  refine working.slope_congr (fun f hf k hk => funext fun i => ?_) v
  exact Assignment.entries_update (hstationary.fits.1.mem_keys hf hk) i

/-- The multipliers found at an accepted candidate balance the gradient there, and there is one for
every row of the working set. -/
theorem HasDuals.balances (hs : s.Exact) {distance : α} (haccepts : s.Accepts w x y distance)
    {duals : Assignment ℕ α} (h : s.HasDuals w y duals) :
    s.graph.Balances w y.entries duals.entries ∧
      ∀ r ∈ w.rows, s.graph.rowKind? r = some .inequality →
        s.graph.multiplier? duals r = some (duals.entries r.factor r.row) := by
  obtain ⟨working, solution, hsolves, rfl, -⟩ := haccepts
  obtain ⟨d, hd, hbalances⟩ := hsolves.exists_balances hs x
  obtain ⟨_, _, dual, hdual, hanswer⟩ := h
  split_ifs at hanswer with hempty
  · have hnone (r : ConstraintRow) : ¬s.graph.IsActive w r := fun hr => by
      obtain ⟨_, _, c, _, hc, -⟩ := Graph.exists_condition hdual hr
      exact List.ne_nil_of_mem hc (List.isEmpty_iff.1 hempty)
    refine ⟨fun v => ?_, fun r hr hk => absurd (.inr ⟨hk, hr⟩) (hnone r)⟩
    have hset : s.graph.activeSet w = ∅ :=
      Finset.eq_empty_of_forall_notMem fun r hr => hnone r (Graph.mem_activeSet.1 hr)
    rw [hbalances v, Graph.weighted_apply, Graph.weighted_apply, hset, Finset.sum_empty,
      Finset.sum_empty]
  · have hstationary := hs.dual _ _ _ hanswer.1
    refine ⟨hbalances.of_dual hdual hd hstationary, fun r hr hk => ?_⟩
    obtain ⟨u, hu, hget⟩ := Graph.exists_multiplier hdual hstationary.fits.1 (.inr ⟨hk, hr⟩)
    rw [Graph.multiplier?, if_pos (Graph.isInequality_iff.2 hk), hu, Option.bind_some, hget]

end Solver

end GaussianProgram
