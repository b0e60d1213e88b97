import GaussianProgram.Proofs.DualSystem

/-! Well-posedness of the dual graph. It has no residual exactly at multipliers for which the
Lagrangian is stationary, its normal matrix is positive definite if the active rows are independent,
and no least-squares solution of it has a multiplier for an idle row. -/
namespace GaussianProgram
open Finset (range)

namespace Graph
variable {κ α : Type} [Key κ] [ExactScalar α] {g : Graph κ α} {w : WorkingSet} {x : Assignment κ α}

def HasNoResidual (g : Graph κ α) (x : Assignment κ α) : Prop :=
  ∀ f ∈ g.factors, ∃ c, f = .linear c ∧ c.residual x = .ok (Vec.zeros c.rows)

theorem hasNoResidual_iff (hg : g.isLeastSquares = true) (hx : g.Covers x) :
    g.HasNoResidual x ↔ g.HasNoGap x.entries := by
  have hrow (c : LinearRows κ α) : (Vec.zeros c.rows =
      (List.range c.rows).map fun row => c.gap row x.entries) ↔
        ∀ row < c.rows, c.gap row x.entries = 0 := by
    rw [Vec.zeros, eq_comm, List.eq_replicate_iff]
    simp
  constructor
  · intro h c hc
    obtain ⟨_, he, hzero⟩ := h _ hc
    cases he
    exact (hrow c).1 (LinearRows.residual_eq_ok.1 hzero).2
  · intro h f hf
    obtain ⟨c, rfl, -⟩ := isLeastSquares_iff.1 hg f hf
    exact ⟨c, rfl, LinearRows.residual_eq_ok.2 ⟨hx _ hf, (hrow c).2 (h c hf)⟩⟩

section Lagrangian

/-- Derivative of the Lagrangian by entry `j` of variable `k`: that of the cost, plus the inequality
rows of the working set and minus the equality rows, each by its multiplier. -/
def lagrangian (g : Graph κ α) (w : WorkingSet) (grad : Assignment κ α) (d : Point ℕ α) (k : κ)
    (j : ℕ) : α :=
  grad.entries k j + (w.rows.map fun r => d r.factor r.row * g.rowForm r (unitPoint k j)).sum -
    ((g.rowsOfKind .equality).map fun r => d r.factor r.row * g.rowForm r (unitPoint k j)).sum

/-- The active rows are those of the working set and the equality rows. -/
theorem Admits.activeSet_eq (hw : g.Admits w) :
    g.activeSet w = (g.rowsOfKind .equality).toFinset ∪ w.rows.toFinset := by
  ext r
  rw [mem_activeSet, Finset.mem_union, List.mem_toFinset, List.mem_toFinset, mem_rowsOfKind,
    IsActive]
  exact or_congr_right ⟨And.right, fun hr => ⟨hw r hr, hr⟩⟩

theorem Admits.lagrangian_eq (hw : g.Admits w) (grad : Assignment κ α) (d : Point ℕ α) (k : κ)
    (j : ℕ) : g.lagrangian w grad d k j =
      grad.entries k j + g.weighted w d (unitPoint k j) := by
  have hdisjoint : Disjoint (g.rowsOfKind .equality).toFinset w.rows.toFinset := by
    refine Finset.disjoint_left.2 fun r hr hin => ?_
    have heq := mem_rowsOfKind.1 (List.mem_toFinset.1 hr)
    cases heq.symm.trans (hw r (List.mem_toFinset.1 hin))
  have hequality : ∑ r ∈ (g.rowsOfKind .equality).toFinset,
      g.sign w r * (d r.factor r.row * g.rowForm r (unitPoint k j)) =
        -((g.rowsOfKind .equality).map fun r =>
          d r.factor r.row * g.rowForm r (unitPoint k j)).sum := by
    rw [← List.sum_toFinset _ (g.nodup_rowsOfKind .equality), ← Finset.sum_neg_distrib]
    refine Finset.sum_congr rfl fun r hr => ?_
    rw [sign_equality (mem_rowsOfKind.1 (List.mem_toFinset.1 hr)), neg_one_mul]
  have hinequality : ∑ r ∈ w.rows.toFinset,
      g.sign w r * (d r.factor r.row * g.rowForm r (unitPoint k j)) =
        (w.rows.map fun r => d r.factor r.row * g.rowForm r (unitPoint k j)).sum := by
    rw [← List.sum_toFinset _ w.nodup_rows]
    refine Finset.sum_congr rfl fun r hr => ?_
    have hin := List.mem_toFinset.1 hr
    rw [sign_inequality (hw r hin) hin, one_mul]
  rw [lagrangian, weighted_apply, hw.activeSet_eq, Finset.sum_union hdisjoint, hequality,
    hinequality]
  ring

end Lagrangian

/-- A least-squares solution of the dual graph is zero on idle rows, because without these
multipliers no condition has another residual. -/
theorem IsDual.eq_zero_of_minimizes {grad : Assignment κ α} {dual : Graph ℕ α}
    (h : g.IsDual w grad dual) {d : Assignment ℕ α} (hd : dual.Minimizes d) {r : ConstraintRow}
    (hr : g.IsIdle w r) : d.entries r.factor r.row = 0 := by
  by_contra hne
  have hg := h.isLeastSquares
  obtain ⟨ddims, hddims⟩ := h.exists_keyDimensions
  obtain ⟨y, hdims, hy⟩ : ∃ y : Assignment ℕ α, (∀ k, y.dim? k = ddims.get? k) ∧
      y.entries = g.onActive w d.entries := by
    refine Assignment.exists_entries fun i row hrow => ?_
    rw [← hd.fits.dim?_eq hddims]
    refine Assignment.lt_dim?_of_entries_ne_zero fun hzero => hrow ?_
    rw [onActive, hzero, ite_self]
  have hsquares {c : LinearRows ℕ α} (hc : .linear c ∈ dual.factors) (row : ℕ)
      (hrow : row < c.rows) : c.gap row y.entries * c.gap row y.entries ≤
        c.gap row d.entries * c.gap row d.entries := by
    obtain ⟨_, he, ⟨k, part, -, -, hcond⟩ | ⟨a, ha, hpin⟩⟩ := h.factors _ hc
    · cases he
      rw [hcond.rows] at hrow
      rw [hcond.gap _ row hrow, hcond.gap _ row hrow, hy, weighted_onActive]
    · cases he
      rw [hpin.rows, Nat.lt_one_iff] at hrow
      rw [hrow, hpin.gap, hy, onActive_of_not ha.1, zero_mul]
      exact mul_self_nonneg _
  have hle (f : Factor ℕ α) (hf : f ∈ dual.factors) : f.value y.entries ≤ f.value d.entries := by
    obtain ⟨c, rfl, -, hvalue⟩ := exists_squares hg hf
    rw [hvalue, hvalue, ExactScalar.half_eq]
    exact mul_le_mul_of_nonneg_left
      (Finset.sum_le_sum fun row hrow => hsquares hf row (Finset.mem_range.1 hrow)) (by norm_num)
  refine absurd (hd.value_le hg (fits_of_dims hddims hdims)) (not_le.2 ?_)
  obtain ⟨c, hc, hpin⟩ := h.pin r hr
  refine List.sum_lt_sum _ _ hle ⟨.linear c, hc, ?_⟩
  obtain ⟨_, he, -, hvalue⟩ := exists_squares hg hc
  cases he
  rw [hvalue, hvalue, hpin.rows, Finset.sum_range_one, Finset.sum_range_one, hpin.gap, hpin.gap, hy,
    onActive_of_not hr.1, zero_mul, mul_zero, ExactScalar.half_eq]
  exact mul_pos (by norm_num) (mul_self_pos.2 hne)

/-- The dual graph is the stationarity system of the multipliers, wherever the point has all
variables. It has no residual exactly at multipliers that are zero on idle rows and for which the
Lagrangian is stationary at all variables of participating factors. Its columns are independent
exactly if the active rows are; then it has no fewer rows than unknowns and a positive definite
normal matrix, so an elimination fails only if the backend refuses this matrix or its answer does
not pass the check. Least-squares solutions are zero on idle rows, whether or not the point is
stationary. The bound is that of a stored vector, which has to hold the unknowns. -/
theorem dualGraph_wellPosed {dims : SortedMap κ ℕ} (hdims : g.keyDimensions = .ok dims)
    (hw : g.Admits w) (hx : g.Covers x)
    (hsize : sumDims dims.values + sumDims ((g.participating w).map fun e => e.2.rows) <
      maxLength) :
    ∃ grad dual ddims s, g.gradient x = .ok grad ∧ g.dualGraph w x = .ok dual ∧
      dual.keyDimensions = .ok ddims ∧
      LeastSquaresSystem.ofGraph (Layout.ofDimensions ddims) dual = .ok s ∧
      (∀ d : Assignment ℕ α, (∀ e ∈ g.participating w, d.dim? e.1 = some e.2.rows) →
        (dual.HasNoResidual d ↔ (∀ r, g.IsIdle w r → d.entries r.factor r.row = 0) ∧
          ∀ k, g.Touches w k → ∀ n, dims.get? k = some n → ∀ j < n,
            g.lagrangian w grad d.entries k j = 0)) ∧
      (s.jacobian.FullColumnRank ↔ g.Independent w) ∧
      (g.Independent w → (Layout.ofDimensions ddims).total ≤ s.rhs.length ∧
        s.jacobian.gram.Symmetric ∧ s.jacobian.gram.PositiveDefinite ∧
        ∀ (b : Backend α) (kind : SolverKind) (e : Failure LinearError),
          Elimination.eliminate b kind dual = .error e →
            b.solve kind s.jacobian.gram (s.jacobian.transposeMulVec s.rhs) = .error e ∨
            ∃ v, b.solve kind s.jacobian.gram (s.jacobian.transposeMulVec s.rhs) = .ok v ∧
              Result.ofExcept (Elimination.verifyLeastSquares s v.val) = .error e) ∧
      (∃ d, dual.Minimizes d) ∧
      ∀ d, dual.Minimizes d → ∀ r, g.IsIdle w r →
        (d.get? r.factor).bind (·[r.row]?) = some 0 := by
  obtain ⟨grad, dual, hgrad, hdual, hd⟩ :=
    exists_isDual hdims ((Nat.le_add_right _ _).trans hsize.le) w hx
  have hg := hd.isLeastSquares
  obtain ⟨ddims, hddims⟩ := hd.exists_keyDimensions
  have hmax : sumDims ddims.values ≤ maxLength :=
    (hd.sumDims_le hgrad hddims).trans ((Nat.le_add_left _ _).trans hsize.le)
  have hword : sumDims ddims.values < UInt64.size := hmax.trans_lt (by decide)
  obtain ⟨s, hs⟩ := LeastSquaresSystem.exists_ofGraph (places_keyDims hddims hword)
  have hrows : s.rhs.length < maxLength := by
    rw [LeastSquaresSystem.length_ofGraph hs]
    exact (rows_dualGraph hdims hdual).trans_lt hsize
  have hshape := LeastSquaresSystem.shape_ofGraph hs
  have hrank := hd.fullColumnRank_iff hgrad hddims hword hs (hrows.le.trans (by decide))
  refine ⟨grad, dual, ddims, s, hgrad, hdual, hddims, hs, fun d hdim => ?_, hrank, fun hind => ?_,
    exists_minimizes hg hddims hmax ?_, fun d hmin r hr => ?_⟩
  · rw [hasNoResidual_iff hg ((hd.covers_iff hgrad).2 hdim), hd.hasNoGap_iff]
    refine and_congr_right fun _ => forall_congr' fun k => imp_congr_right fun _ => ?_
    obtain ⟨⟨_, hdims', hdim?⟩, -⟩ := gradient_spec hgrad
    cases hdims.symm.trans hdims'
    simp only [← hdim?, Assignment.dim?_eq_some, hw.lagrangian_eq]
    constructor
    · rintro hall n ⟨part, hpart, rfl⟩
      exact hall part hpart
    · intro hall part hpart
      exact hall part.length ⟨part, hpart, rfl⟩
  · have hfull := hrank.2 hind
    have hin := LeastSquaresSystem.isInside_ofGraph hs (places_keyDims hddims hword)
    have hle := hfull.cols_le_rows
    refine ⟨hshape.2 ▸ hshape.1 ▸ hle, SparseMatrix.symmetric_gram hin,
      hfull.positiveDefinite_gram hin, fun b kind e => ?_⟩
    exact Elimination.eliminate_error hg hddims hword hs hle hrows
  · rw [← LeastSquaresSystem.length_ofGraph hs]
    exact hrows.le
  · obtain ⟨c, hc, hrow⟩ := hr.2
    rw [hd.getElem?_of_covers hgrad hmin.fits.1 hc hrow, hd.eq_zero_of_minimizes hmin hr]

/-- The budget and the bound are independent, because only the budget has the first variable. -/
theorem capped_independent : capped.Independent (.ofRows [⟨2, 0⟩]) := by
  refine independent_iff.2 fun d hd => ?_
  have hset : capped.activeSet (.ofRows [⟨2, 0⟩]) = {⟨1, 0⟩, ⟨2, 0⟩} := by decide +kernel
  have hzero (v : Point ℕ ℚ) : -(d 1 0 * (v 0 0 + v 1 0)) + d 2 0 * v 1 0 = 0 := by
    have hv : capped.weighted (.ofRows [⟨2, 0⟩]) d v = 0 := by rw [hd, LinearMap.zero_apply]
    rwa [weighted_apply, hset, Finset.sum_pair (by decide), sign_equality (by decide),
      sign_inequality (by decide) (by decide), rowForm_eq (c := .budget 1 0 5) rfl,
      rowForm_eq (c := .single 1 4 (some .inequality)) rfl, LinearRows.form_budget,
      LinearRows.form_single, neg_one_mul, one_mul] at hv
  have hfirst : d 1 0 = 0 := by simpa using hzero fun k _ => if k = 0 then 1 else 0
  have hsecond : d 2 0 = 0 := by simpa [hfirst] using hzero fun _ _ => 1
  intro r hr
  have hmem : r ∈ ({⟨1, 0⟩, ⟨2, 0⟩} : Finset ConstraintRow) := hset ▸ mem_activeSet.2 hr
  rcases Finset.mem_insert.1 hmem with rfl | hmem
  · exact hfirst
  · rwa [Finset.mem_singleton.1 hmem]

/-- Away from the minimum too, the dual graph has independent columns and no least-squares solution
with a multiplier for the inequality row that is not active. -/
theorem capped_wellPosed : ∃ dual ddims s,
    capped.dualGraph (.ofRows [⟨2, 0⟩]) (SortedMap.ofList [(0, [0]), (1, [0])]) = .ok dual ∧
      LeastSquaresSystem.ofGraph (Layout.ofDimensions ddims) dual = .ok s ∧
      s.jacobian.FullColumnRank ∧ s.jacobian.gram.PositiveDefinite ∧
      (∃ d, dual.Minimizes d) ∧
      ∀ d, dual.Minimizes d → (d.get? 1).bind (·[1]?) = some 0 := by
  have hdims : capped.keyDimensions = .ok (SortedMap.ofList [(0, 1), (1, 1)]) := rfl
  have hw : capped.Admits (.ofRows [⟨2, 0⟩]) := by decide
  have hx : capped.Covers (SortedMap.ofList [(0, [0]), (1, [0])]) := by decide
  obtain ⟨_, dual, ddims, s, -, hdual, -, hs, -, hrank, hposed, hmin, hidle⟩ :=
    dualGraph_wellPosed hdims hw hx (by decide +kernel)
  obtain ⟨-, -, hdefinite, -⟩ := hposed capped_independent
  refine ⟨dual, ddims, s, hdual, hs, hrank.2 capped_independent, hdefinite, hmin, fun d hd => ?_⟩
  refine hidle d hd ⟨1, 1⟩ ⟨?_, .budget 1 0 5, mem_participating.2 ⟨rfl, 0, .inl rfl⟩, ?_⟩
  · rw [← mem_activeRows]
    decide
  · decide

end Graph

end GaussianProgram
