import GaussianProgram.Proofs.SystemOrder

/-! Elimination in another order of factors. Systems without equality rows are the same for the
backend. The stationarity system is reindexed, and a backend that gives the unique solution of
every nonsingular system gives the same values of the variables. -/
namespace GaussianProgram
open Finset (range)

namespace SparseMatrix
variable {α : Type} [ExactScalar α] {m : SparseMatrix α} (hm : m.isInside = true)
include hm

/-- The squared Frobenius norm is the trace of the normal matrix. -/
theorem euclidean_eq_trace :
    m.euclidean = Scalar.sqrt (∑ j ∈ range m.gram.cols, m.gram.get j j) := by
  rw [euclidean, Finset.sum_comm]
  refine congrArg _ (Finset.sum_congr rfl fun j _ => ?_)
  rw [get_eq_form m.gram, form_gram hm, ← sum_rowForm hm]
  simp only [get_eq_rowForm]

/-- Columns are independent if their normal matrix is positive definite. -/
theorem fullColumnRank_of_gram (h : m.gram.PositiveDefinite) : m.FullColumnRank := by
  rw [fullColumnRank_iff hm]
  intro u hu j hj
  by_contra hne
  have hpos := h u ⟨j, hj, hne⟩
  rw [form_gram hm, ← sum_rowForm hm, Finset.sum_eq_zero fun i hi => by
    rw [hu i (Finset.mem_range.1 hi), zero_mul]] at hpos
  exact lt_irrefl 0 hpos

end SparseMatrix

namespace Backend
variable {α : Type} [ExactScalar α] {b : Backend α} {kind : SolverKind} {m m' : SparseMatrix α}
  {rhs rhs' : Vec α}

/-- The orthogonal factorization gives the unique solution of a nonsingular system, and answers no
other one. Nothing is asked of the factorization for definite systems. -/
def SolvesNonsingular (b : Backend α) : Prop :=
  ∀ (m : SparseMatrix α) (rhs : Vec α) (x : SystemSolution α m), m.isInside = true →
    m.rows = m.cols → rhs.length = m.rows →
      (b.qr m rhs = .ok x ↔ m.FullColumnRank ∧ m.mulVec x.val = rhs)

theorem SolvesNonsingular.solveSystem (hb : b.SolvesNonsingular) (hin : m.isInside = true)
    (hsq : m.rows = m.cols) (hlen : rhs.length = m.rows)
    {x : { x : Vec α // x.length = rhs.length }} :
    b.solveSystem .qr m rhs = .ok x ↔ m.FullColumnRank ∧ m.mulVec x.val = rhs := by
  rw [solveSystem_eq_ok hlen, and_iff_right hsq]
  constructor
  · rintro ⟨y, hy, hval⟩
    rw [← hval]
    exact (hb m rhs y hin hsq hlen).1 hy
  · intro h
    exact ⟨⟨x.val, x.property.trans (hlen.trans hsq)⟩, (hb m rhs _ hin hsq hlen).2 h, rfl⟩

/-- Elimination of the unknowns from the normal equation gets stuck where the columns of the matrix
are dependent. -/
theorem byElimination_solvesNonsingular : (byElimination : Backend α).SolvesNonsingular := by
  intro m rhs x hin hsq hlen
  by_cases hrank : m.FullColumnRank
  · rw [byElimination_factorizes.qr m rhs x hin hsq hlen hrank, and_iff_right hrank]
  · refine iff_of_false (fun hok => hrank ?_) fun h => hrank h.1
    have hdefinite := ((byElimination.answer_eq_ok m (SparseMatrix.symmetric_gram hin)).1 hok).1
    exact SparseMatrix.fullColumnRank_of_gram hin
      ((SparseMatrix.positiveDefinite_iff (SparseMatrix.isInside_gram hin) rfl).2 hdefinite)

omit [ExactScalar α] in
theorem exists_solve_of_eq (hm : m' = m) (hrhs : rhs' = rhs) {x : SystemSolution α m}
    (h : b.solve kind m rhs = .ok x) :
    ∃ x' : SystemSolution α m', b.solve kind m' rhs' = .ok x' ∧ x'.val = x.val := by
  subst hm hrhs
  exact ⟨x, h, rfl⟩

omit [ExactScalar α] in
theorem exists_solveSystem_of_eq (hm : m' = m) (hrhs : rhs' = rhs)
    {x : { x : Vec α // x.length = rhs.length }} (h : b.solveSystem kind m rhs = .ok x) :
    ∃ x' : { x : Vec α // x.length = rhs'.length },
      b.solveSystem kind m' rhs' = .ok x' ∧ x'.val = x.val := by
  subst hm hrhs
  exact ⟨x, h, rfl⟩

end Backend

namespace Elimination

/-- The check of a least-squares solution asks only for the normal equations. -/
theorem verifyLeastSquares_eq {α : Type} [ExactScalar α] {t : LeastSquaresSystem α} {v : Vec α}
    (hin : t.jacobian.isInside = true) (hrows : t.jacobian.rows = t.rhs.length) :
    verifyLeastSquares t v =
      let normal := t.jacobian.gram
      let rhs := t.jacobian.transposeMulVec t.rhs
      let trace := ∑ j ∈ range normal.cols, normal.get j j
      verify v (Vec.norm (Vec.sub (normal.mulVec v) rhs))
        (Vec.norm rhs + Scalar.sqrt trace * Scalar.sqrt trace * Vec.norm v) := by
  simp only [verifyLeastSquares, SparseMatrix.frobenius_eq hin, SparseMatrix.euclidean_eq_trace hin,
    SparseMatrix.transposeMulVec_sub hin (SparseMatrix.length_mulVec _ _) hrows.symm,
    SparseMatrix.mulVec_gram hin]

section Orders
variable {κ α : Type} [Key κ] [ExactScalar α] {b : Backend α} {kind : SolverKind}
  {g g' : Graph κ α} {dims : SortedMap κ ℕ} {v : Vec α} (h : g.factors.Perm g'.factors)
  (hdims : g.keyDimensions = .ok dims) (hsize : sumDims dims.values < UInt64.size)
include h hdims hsize

theorem solveLeastSquares_of_perm (hv : solveLeastSquares b kind (.ofDimensions dims) g = .ok v) :
    solveLeastSquares b kind (.ofDimensions dims) g' = .ok v := by
  obtain ⟨s, hs, htotal, hin, x, hx, hverify, rfl⟩ := solveLeastSquares_eq_ok.1 hv
  have hplaces' := Graph.places_keyDims (Graph.keyDimensions_of_perm h hdims) hsize
  obtain ⟨s', hs'⟩ := LeastSquaresSystem.exists_ofGraph hplaces'
  obtain ⟨hmax, hx⟩ := Backend.solveNormal_ok hx
  have hr := (LeastSquaresSystem.shape_ofGraph hs).1
  have hr' := (LeastSquaresSystem.shape_ofGraph hs').1
  have hin' := LeastSquaresSystem.isInside_ofGraph hs' hplaces'
  have hlength := LeastSquaresSystem.length_rhs_of_perm h hs hs'
  obtain ⟨hgram, hnormal⟩ := LeastSquaresSystem.normal_of_perm h hdims hsize hs hs'
    ((hr ▸ hmax.le).trans (by decide))
  obtain ⟨x', hx', hval⟩ := Backend.exists_solve_of_eq hgram hnormal hx
  refine solveLeastSquares_eq_ok.2 ⟨s', hs', hlength ▸ htotal, hin', x', ?_, ?_, hval⟩
  · rw [Backend.solveNormal, if_neg (by rwa [hr', hlength, ← hr, not_le]), if_pos hr'.symm, hx']
  · rw [verifyLeastSquares_eq hin hr] at hverify
    rw [hval, verifyLeastSquares_eq hin' hr', hgram, hnormal]
    exact hverify

theorem solveConstrained_of_perm (hb : b.SolvesNonsingular)
    (hv : solveConstrained b kind (.ofDimensions dims) g = .ok v) :
    solveConstrained b kind (.ofDimensions dims) g' = .ok v := by
  obtain ⟨s, hs, hsolved⟩ := solveConstrained_eq_ok.1 hv
  obtain ⟨s', hs'⟩ := ConstrainedSystem.exists_ofGraph_of_perm h hdims hsize hs
  have hhessian := ConstrainedSystem.hessian_of_perm h hdims hsize hs hs'
  have hlinear := ConstrainedSystem.linear_of_perm h hdims hsize hs hs'
  have hdims' := Graph.keyDimensions_of_perm h hdims
  have hin' := ConstrainedSystem.isInside_stationarity hdims' hsize hs'
  obtain ⟨τ, hfix, hτ, hmatrix, hrhs⟩ :=
    ConstrainedSystem.exists_reindexed_stationarity h hdims hsize hs hs'
  have hrows : s'.rhs.length = s.rhs.length := by
    have hlength := hrhs.length_eq
    simp only [ConstrainedSystem.stationarity, List.length_append, hlinear] at hlength
    exact Nat.add_left_cancel hlength
  refine solveConstrained_eq_ok.2 ⟨s', hs', ?_⟩
  rcases hsolved with ⟨hnil, hin, x, hx, hverify, rfl⟩ | ⟨hne, hin, x, hx, hverify, rfl⟩
  · obtain ⟨x', hx', hval⟩ := Backend.exists_solveSystem_of_eq hhessian hlinear hx
    refine .inl ⟨List.eq_nil_of_length_eq_zero (by rw [hrows, hnil]; rfl), hhessian ▸ hin, x', hx',
      ?_, hval⟩
    rw [hval, ConstrainedSystem.unconstrained, hhessian, hlinear]
    exact hverify
  · obtain ⟨hr, hc⟩ := s.shape_stationarity
    obtain ⟨hr', hc'⟩ := s'.shape_stationarity
    obtain ⟨hrank, hsolves⟩ := (hb.solveSystem hin (hr.trans hc.symm) hr.symm).1 hx
    obtain ⟨v', hv', hrank', hsolves', hverify'⟩ :=
      LinearSystem.exists_reindexed hτ hmatrix hrhs rfl x.property hrank hsolves hverify
    let x' : { x : Vec α // x.length = s'.stationarity.rhs.length } :=
      ⟨v', hv'.length_eq.trans (x.property.trans hrhs.length_eq.symm)⟩
    refine .inr ⟨fun hnil => hne (List.eq_nil_of_length_eq_zero ?_), hin', x',
      (hb.solveSystem hin' (hr'.trans hc'.symm) hr'.symm).2 ⟨hrank', hsolves'⟩, hverify', ?_⟩
    · rw [← hrows, hnil]
      rfl
    · -- the rows only reindex what stands behind the variables
      have hlen := (ConstrainedSystem.square_ofGraph hs).2.linear
      exact hv'.take_eq fun i hi => hfix i (hlen ▸ hi)

theorem solution_of_perm (hb : b.SolvesNonsingular)
    (hv : solution b kind (.ofDimensions dims) g = .ok v) :
    solution b kind (.ofDimensions dims) g' = .ok v := by
  unfold solution at hv ⊢
  rw [Graph.isLeastSquares_of_perm h]
  split_ifs at hv ⊢
  · exact solveLeastSquares_of_perm h hdims hsize hv
  · exact solveConstrained_of_perm h hdims hsize hb hv

omit hdims hsize in
/-- The factors in another order have the same minimum. -/
theorem eliminate_of_perm (hb : b.SolvesNonsingular) {x : Assignment κ α}
    (hx : eliminate b kind g = .ok x) : eliminate b kind g' = .ok x := by
  obtain ⟨dims, hdims, hanswer⟩ := eliminate_eq_ok.1 hx
  refine eliminate_eq_ok.2 ⟨dims, Graph.keyDimensions_of_perm h hdims, hanswer.imp_right ?_⟩
  rintro ⟨hne, v, parts, hv, hsplit, hparts⟩
  -- the parts of the solution show that the dimensions add up without wrapping around
  have hsize := Layout.sumDims_lt_of_split? hsplit (length_solution hv).1
  exact ⟨hne, v, parts, solution_of_perm h hdims hsize hb hv, hsplit, hparts⟩

end Orders

/-- The order of factors has no influence on what a graph evaluates to and, with a backend that
gives the unique solution of every nonsingular system, on its elimination. -/
theorem factorOrder_irrelevant {κ α : Type} [Key κ] [ExactScalar α] {g g' : Graph κ α}
    (h : g.factors.Perm g'.factors) :
    g'.keys = g.keys ∧ (∀ dims, g'.keyDimensions = .ok dims ↔ g.keyDimensions = .ok dims) ∧
      g'.isLeastSquares = g.isLeastSquares ∧ (∀ x c, g'.cost x = .ok c ↔ g.cost x = .ok c) ∧
        (∀ x grad, g'.gradient x = .ok grad ↔ g.gradient x = .ok grad) ∧
          ∀ b : Backend α, b.SolvesNonsingular → ∀ kind x,
            eliminate b kind g' = .ok x ↔ eliminate b kind g = .ok x := by
  refine ⟨Graph.keys_of_perm h, fun dims => ?_, Graph.isLeastSquares_of_perm h, fun x c => ?_,
    fun x grad => ?_, fun b hb kind x => ?_⟩
  · exact ⟨Graph.keyDimensions_of_perm h.symm, Graph.keyDimensions_of_perm h⟩
  · exact ⟨Graph.cost_of_perm h.symm, Graph.cost_of_perm h⟩
  · exact ⟨Graph.gradient_of_perm h.symm, Graph.gradient_of_perm h⟩
  · exact ⟨eliminate_of_perm h.symm hb, eliminate_of_perm h hb⟩

/-- The budget may stand before the costs that it constrains. -/
theorem reverse_budgeted : ∃ x,
    eliminate Backend.byElimination .cholesky (.budgeted 1 0 5) = .ok x ∧
      x.toList = [(0, [1]), (1, [1])] ∧
        eliminate Backend.byElimination .cholesky (Graph.budgeted 1 0 5).reverse = .ok x := by
  have hrun : (match eliminate Backend.byElimination .cholesky (.budgeted 1 0 5) with
    | .ok x => decide (x.toList = [(0, [1]), (1, [1])])
    | .error _ => false) = true := by decide +kernel
  split at hrun
  next x hok =>
    have hperm : (Graph.budgeted 1 0 5).factors.Perm (Graph.budgeted 1 0 5).reverse.factors :=
      (List.reverse_perm _).symm
    obtain ⟨-, -, -, -, -, heliminate⟩ := factorOrder_irrelevant hperm
    exact ⟨x, hok, of_decide_eq_true hrun,
      (heliminate _ Backend.byElimination_solvesNonsingular .cholesky x).2 hok⟩
  next => cases hrun

end Elimination

end GaussianProgram
