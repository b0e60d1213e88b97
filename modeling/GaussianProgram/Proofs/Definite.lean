import GaussianProgram.Proofs.LeastSquares

/-! Exact factorizations. Elimination in the order of the unknowns, which reads one triangle
of a symmetric matrix, finds all pivots positive exactly if the matrix is positive definite,
and solves the system then. Systems that are nonsingular and square reduce to definite ones
by their normal equation. -/
namespace GaussianProgram
open Finset (range)

section Pivots
variable {α : Type} [ExactScalar α] {n : ℕ} {a : ℕ → ℕ → α} {b : ℕ → α}

def rowAgainst (n : ℕ) (a : ℕ → ℕ → α) (i : ℕ) (u : ℕ → α) : α := ∑ j ∈ range n, a i j * u j

/-- The first `n` rows and columns have a positive quadratic form. -/
def IsDefinite (n : ℕ) (a : ℕ → ℕ → α) : Prop :=
  ∀ u : ℕ → α, (∃ j < n, u j ≠ 0) → 0 < ∑ i ∈ range n, rowAgainst n a i u * u i

/-- What elimination of the first unknown leaves of the other rows and columns. -/
def afterPivot (a : ℕ → ℕ → α) (i j : ℕ) : α :=
  a (i + 1) (j + 1) - a (i + 1) 0 / a 0 0 * a 0 (j + 1)

/-- Solution of the first `n` equations by elimination in their order, as long as pivots
are positive. -/
def solveDefinite : ℕ → (ℕ → ℕ → α) → (ℕ → α) → Option (Vec α)
  | 0, _, _ => some []
  | n + 1, a, b =>
    if 0 < a 0 0 then
      (solveDefinite n (afterPivot a) fun i => b (i + 1) - a (i + 1) 0 / a 0 0 * b 0).map fun x =>
        (b 0 - Vec.dot ((List.range n).map fun j => a 0 (j + 1)) x) / a 0 0 :: x
    else none

theorem rowAgainst_succ (n : ℕ) (a : ℕ → ℕ → α) (i : ℕ) (u : ℕ → α) :
    rowAgainst (n + 1) a i u =
      (∑ j ∈ range n, a i (j + 1) * u (j + 1)) + a i 0 * u 0 :=
  Finset.sum_range_succ' _ n

/-- A later row is what is left of it after elimination, and a multiple of the first row. -/
theorem rowAgainst_afterPivot (hpivot : a 0 0 ≠ 0) (i : ℕ) (u : ℕ → α) :
    rowAgainst (n + 1) a (i + 1) u = rowAgainst n (afterPivot a) i (fun j => u (j + 1)) +
      a (i + 1) 0 / a 0 0 * rowAgainst (n + 1) a 0 u := by
  have hleft : rowAgainst n (afterPivot a) i (fun j => u (j + 1)) =
      (∑ j ∈ range n, a (i + 1) (j + 1) * u (j + 1)) -
        a (i + 1) 0 / a 0 0 * ∑ j ∈ range n, a 0 (j + 1) * u (j + 1) := by
    rw [rowAgainst, Finset.mul_sum, ← Finset.sum_sub_distrib]
    apply Finset.sum_congr rfl
    intro j _
    rw [afterPivot]
    ring
  rw [hleft, rowAgainst_succ, rowAgainst_succ]
  field_simp
  ring

/-- The quadratic form is the square of the first row over the pivot, and the form that is left. -/
theorem quadratic_succ (hsym : ∀ i j, a i j = a j i) (hpivot : a 0 0 ≠ 0) (u : ℕ → α) :
    ∑ i ∈ range (n + 1), rowAgainst (n + 1) a i u * u i =
      (∑ i ∈ range n, rowAgainst n (afterPivot a) i (fun j => u (j + 1)) * u (i + 1)) +
        rowAgainst (n + 1) a 0 u * rowAgainst (n + 1) a 0 u / a 0 0 := by
  have hrest : ∑ i ∈ range n, a (i + 1) 0 / a 0 0 * rowAgainst (n + 1) a 0 u * u (i + 1) =
      rowAgainst (n + 1) a 0 u / a 0 0 * ∑ i ∈ range n, a 0 (i + 1) * u (i + 1) := by
    rw [Finset.mul_sum]
    apply Finset.sum_congr rfl
    intro i _
    rw [hsym (i + 1) 0]
    ring
  rw [Finset.sum_range_succ']
  simp only [rowAgainst_afterPivot hpivot, add_mul, Finset.sum_add_distrib]
  rw [hrest, add_assoc]
  congr 1
  have hfirst := rowAgainst_succ n a 0 u
  rw [← sub_eq_iff_eq_add] at hfirst
  rw [← hfirst]
  field_simp
  ring

/-- A matrix is definite exactly if its first pivot is positive and what is left of it after the
elimination is definite. -/
theorem isDefinite_succ (hsym : ∀ i j, a i j = a j i) :
    IsDefinite (n + 1) a ↔ 0 < a 0 0 ∧ IsDefinite n (afterPivot a) := by
  constructor
  · intro h
    have hpivot : 0 < a 0 0 := by
      have hfirst := h (Pi.single 0 1) ⟨0, Nat.succ_pos n, by simp⟩
      rw [Finset.sum_range_succ'] at hfirst
      simpa [rowAgainst_succ] using hfirst
    refine ⟨hpivot, fun u hu => ?_⟩
    -- The first entry is chosen so that the first row vanishes.
    let t : α := -(∑ j ∈ range n, a 0 (j + 1) * u j) / a 0 0
    let w : ℕ → α := fun j => Nat.casesOn j t u
    have hrow : rowAgainst (n + 1) a 0 w = 0 := by
      rw [rowAgainst_succ]
      change (∑ j ∈ range n, a 0 (j + 1) * u j) + a 0 0 * t = 0
      rw [mul_div_cancel₀ _ hpivot.ne', add_neg_cancel]
    obtain ⟨j, hj, hne⟩ := hu
    have hform := h w ⟨j + 1, Nat.succ_lt_succ hj, hne⟩
    rw [quadratic_succ hsym hpivot.ne', hrow] at hform
    simpa using hform
  · rintro ⟨hpivot, hrest⟩ u ⟨j, hj, hne⟩
    rw [quadratic_succ hsym hpivot.ne']
    have hsquare := div_nonneg (mul_self_nonneg (rowAgainst (n + 1) a 0 u)) hpivot.le
    by_cases htail : ∃ j < n, u (j + 1) ≠ 0
    · exact add_pos_of_pos_of_nonneg (hrest (fun j => u (j + 1)) htail) hsquare
    · push Not at htail
      have hzero : ∀ i ∈ range n, u (i + 1) = 0 := fun i hi => htail i (Finset.mem_range.1 hi)
      obtain rfl : j = 0 := by
        rcases j with _ | j
        · rfl
        · exact absurd (htail j (Nat.succ_lt_succ_iff.1 hj)) hne
      have hrow : rowAgainst (n + 1) a 0 u = a 0 0 * u 0 := by
        rw [rowAgainst_succ, Finset.sum_eq_zero fun i hi => by rw [hzero i hi, mul_zero], zero_add]
      rw [Finset.sum_eq_zero fun i hi => by rw [hzero i hi, mul_zero], zero_add, hrow]
      exact div_pos (mul_self_pos.2 (mul_ne_zero hpivot.ne' hne)) hpivot

/-- The first equation gives the first entry, the others are the equations that are left. -/
theorem equations_cons (hpivot : a 0 0 ≠ 0) {t : α} {x : Vec α} (hx : x.length = n) :
    (∀ i < n + 1, rowAgainst (n + 1) a i (Vec.get (t :: x)) = b i) ↔
      t = (b 0 - Vec.dot ((List.range n).map fun j => a 0 (j + 1)) x) / a 0 0 ∧
        ∀ i < n, rowAgainst n (afterPivot a) i (Vec.get x) =
          b (i + 1) - a (i + 1) 0 / a 0 0 * b 0 := by
  have hdot : Vec.dot ((List.range n).map fun j => a 0 (j + 1)) x =
      ∑ j ∈ range n, a 0 (j + 1) * Vec.get x j := by
    rw [Vec.dot_eq (by simp [hx]), List.length_map, List.length_range]
    apply Finset.sum_congr rfl
    intro j hj
    rw [Vec.get_map_range _ (Finset.mem_range.1 hj)]
  have hfirst : rowAgainst (n + 1) a 0 (Vec.get (t :: x)) = b 0 ↔
      t = (b 0 - Vec.dot ((List.range n).map fun j => a 0 (j + 1)) x) / a 0 0 := by
    rw [rowAgainst_succ, hdot, eq_div_iff hpivot, eq_sub_iff_add_eq, add_comm, mul_comm t]
    rfl
  rw [Nat.forall_lt_succ_left', hfirst]
  apply and_congr_right
  intro ht
  rw [← hfirst] at ht
  apply forall₂_congr
  intro i _
  rw [rowAgainst_afterPivot hpivot, ht, ← eq_sub_iff_add_eq]
  rfl

/-- The elimination answers exactly where the matrix is definite, with the solution. -/
theorem solveDefinite_eq_some (hsym : ∀ i j, a i j = a j i) {x : Vec α} :
    solveDefinite n a b = some x ↔
      IsDefinite n a ∧ x.length = n ∧ ∀ i < n, rowAgainst n a i (Vec.get x) = b i := by
  induction n generalizing a b x with
  | zero =>
    have hdefinite : IsDefinite 0 a := fun u ⟨j, hj, _⟩ => absurd hj (Nat.not_lt_zero j)
    simp [solveDefinite, hdefinite, eq_comm]
  | succ n ih =>
    have hsym' (i j : ℕ) : afterPivot a i j = afterPivot a j i := by
      rw [afterPivot, afterPivot, hsym (i + 1) (j + 1), hsym (i + 1) 0, hsym 0 (j + 1)]
      ring
    rw [isDefinite_succ hsym, solveDefinite]
    by_cases hpivot : 0 < a 0 0
    · rw [if_pos hpivot, Option.map_eq_some_iff]
      constructor
      · rintro ⟨y, hy, rfl⟩
        obtain ⟨hdefinite, hlen, hrows⟩ := (ih hsym').1 hy
        exact ⟨⟨hpivot, hdefinite⟩, by simp [hlen],
          (equations_cons hpivot.ne' hlen).2 ⟨rfl, hrows⟩⟩
      · rintro ⟨⟨-, hdefinite⟩, hlen, hrows⟩
        obtain ⟨t, y, rfl⟩ := List.exists_cons_of_length_eq_add_one hlen
        have hy : y.length = n := Nat.succ.inj hlen
        obtain ⟨rfl, hrest⟩ := (equations_cons hpivot.ne' hy).1 hrows
        exact ⟨y, (ih hsym').2 ⟨hdefinite, hy, hrest⟩, rfl⟩
    · simp [hpivot]

theorem length_solveDefinite {x : Vec α} (h : solveDefinite n a b = some x) : x.length = n := by
  induction n generalizing a b x with
  | zero =>
    cases h
    rfl
  | succ n ih =>
    rw [solveDefinite] at h
    split_ifs at h
    obtain ⟨y, hy, rfl⟩ := Option.map_eq_some_iff.1 h
    rw [List.length_cons, ih hy]

end Pivots

namespace SparseMatrix
variable {α : Type} [ExactScalar α] {m : SparseMatrix α} (hm : m.isInside = true)
  (hsq : m.rows = m.cols)
include hm hsq

theorem positiveDefinite_iff : m.PositiveDefinite ↔ IsDefinite m.cols m.get := by
  have hform (u : ℕ → α) :
      m.form u u = ∑ i ∈ range m.cols, rowAgainst m.cols m.get i u * u i := by
    rw [← sum_rowForm hm, hsq]
    apply Finset.sum_congr rfl
    intro i _
    rw [rowForm_eq_sum hm, rowAgainst]
  simp only [PositiveDefinite, IsDefinite, hform]

theorem mulVec_eq_iff {x rhs : Vec α} (hrhs : rhs.length = m.rows) :
    m.mulVec x = rhs ↔ ∀ i < m.cols, rowAgainst m.cols m.get i (Vec.get x) = Vec.get rhs i := by
  have hrow (i : ℕ) (hi : i < m.cols) :
      Vec.get (m.mulVec x) i = rowAgainst m.cols m.get i (Vec.get x) := by
    rw [get_mulVec _ _ (hsq ▸ hi), rowForm_eq_sum hm, rowAgainst]
  constructor
  · rintro rfl i hi
    exact (hrow i hi).symm
  · intro h
    apply Vec.ext_get (by simp [hrhs])
    intro i hi
    have hi : i < m.cols := by simpa [hsq] using hi
    rw [hrow i hi, h i hi]

omit hsq in
/-- A definite matrix is nonsingular. -/
theorem PositiveDefinite.fullColumnRank (h : m.PositiveDefinite) : m.FullColumnRank := by
  rw [fullColumnRank_iff hm]
  intro u hu j hj
  by_contra hne
  have hpos := h u ⟨j, hj, hne⟩
  rw [← sum_rowForm hm, Finset.sum_eq_zero fun i hi => by
    rw [hu i (Finset.mem_range.1 hi), zero_mul]] at hpos
  exact lt_irrefl 0 hpos

/-- Independent columns, as many as there are rows, combine to every right-hand side. -/
theorem FullColumnRank.exists_solution (h : m.FullColumnRank) {rhs : Vec α}
    (hrhs : rhs.length = m.rows) : ∃ x : SystemSolution α m, m.mulVec x.val = rhs := by
  have hspan := LinearIndependent.span_eq_top_of_card_eq_finrank' h (by simp [hsq])
  obtain ⟨c, hc⟩ := (Submodule.mem_span_range_iff_exists_fun α).1
    (hspan ▸ Submodule.mem_top : (fun i : Fin m.rows => Vec.get rhs i) ∈ _)
  let x : Vec α := List.ofFn c
  have hx (j : Fin m.cols) : Vec.get x j = c j := by
    rw [Vec.get_eq_getElem (by simp [x])]
    simp [x]
  refine ⟨⟨x, List.length_ofFn⟩, (mulVec_eq_iff hm hsq hrhs).2 fun i hi => ?_⟩
  have hrow := congrFun hc ⟨i, hsq ▸ hi⟩
  rw [Finset.sum_apply] at hrow
  rw [← hrow, rowAgainst, ← Fin.sum_univ_eq_sum_range fun j => m.get i j * Vec.get x j]
  apply Finset.sum_congr rfl
  intro j _
  rw [hx, mul_comm]
  rfl

omit hsq in
/-- A matrix with independent columns takes no two vectors to the same one. -/
theorem FullColumnRank.eq_of_mulVec (h : m.FullColumnRank) {x y : SystemSolution α m}
    (heq : m.mulVec x.val = m.mulVec y.val) : x = y := by
  have hlen : x.val.length = y.val.length := x.property.trans y.property.symm
  apply Subtype.ext
  apply Vec.ext_get hlen
  intro j hj
  have hrows (i : ℕ) (hi : i < m.rows) :
      m.rowForm i (fun j => Vec.get x.val j - Vec.get y.val j) = 0 := by
    have hrow := congrArg (Vec.get · i) heq
    simp only [get_mulVec _ _ hi, rowForm_eq_sum hm] at hrow
    rw [rowForm_eq_sum hm]
    simp only [mul_sub, Finset.sum_sub_distrib]
    rw [hrow, sub_self]
  exact sub_eq_zero.1 ((fullColumnRank_iff hm).1 h _ hrows j (x.property ▸ hj))

omit hsq in
/-- The normal matrix is the matrix followed by its transpose. -/
theorem mulVec_gram (x : Vec α) : m.gram.mulVec x = m.transposeMulVec (m.mulVec x) := by
  have hshape : m.gram.rows = m.cols := rfl
  apply Vec.ext_get (by simp [hshape])
  intro j hj
  rw [← Vec.against_single hj, against_mulVec (isInside_gram hm), form_gram hm,
    ← Vec.against_single (by simpa [hshape] using hj), against_transposeMulVec hm,
    ← sum_rowForm hm, ← sum_rowForm hm]
  apply Finset.sum_congr rfl
  intro i hi
  rw [get_mulVec _ _ (Finset.mem_range.1 hi), mul_comm]

end SparseMatrix

/-- `a` is the symmetric matrix with the lower triangle of `m`. -/
structure SparseMatrix.Completes {α : Type} [Scalar α] (m a : SparseMatrix α) : Prop where
  inside : a.isInside = true
  rows : a.rows = m.rows
  cols : a.cols = m.cols
  symmetric : ∀ i j, a.get i j = a.get j i
  lower : ∀ i j, j ≤ i → a.get i j = m.get i j

namespace Backend
variable {α : Type} [ExactScalar α]

/-- Exact factorizations of square systems. The one for definite systems reads the lower triangle
of a symmetric matrix and answers exactly if the matrix is positive definite; the orthogonal one
answers every nonsingular system. All answers are solutions. -/
structure Factorizes (b : Backend α) : Prop where
  cholesky : ∀ (m a : SparseMatrix α) (rhs : Vec α) (x : SystemSolution α m),
    m.isInside = true → m.rows = m.cols → rhs.length = m.rows → m.Completes a →
      (b.cholesky m rhs = .ok x ↔ a.PositiveDefinite ∧ a.mulVec x.val = rhs)
  qr : ∀ (m : SparseMatrix α) (rhs : Vec α) (x : SystemSolution α m),
    m.isInside = true → m.rows = m.cols → rhs.length = m.rows → m.FullColumnRank →
      (b.qr m rhs = .ok x ↔ m.mulVec x.val = rhs)

/-- The backend that eliminates the unknowns in their order, from the normal equation where the
system need not be definite. -/
def byElimination : Backend α where
  cholesky m rhs := answer m (fun i j => m.get (max i j) (min i j)) rhs
  qr m rhs := answer m m.gram.get (m.transposeMulVec rhs)
where
  answer (m : SparseMatrix α) (a : ℕ → ℕ → α) (rhs : Vec α) :
      Result LinearError (SystemSolution α m) :=
    match h : solveDefinite m.cols a (Vec.get rhs) with
    | some x => .ok ⟨x, length_solveDefinite h⟩
    | none => Result.fail .singularMatrix

theorem byElimination.answer_eq_ok (m : SparseMatrix α) {a : ℕ → ℕ → α}
    (hsym : ∀ i j, a i j = a j i) {rhs : Vec α} {x : SystemSolution α m} :
    answer m a rhs = .ok x ↔ IsDefinite m.cols a ∧
      ∀ i < m.cols, rowAgainst m.cols a i (Vec.get x.val) = Vec.get rhs i := by
  have hsome : answer m a rhs = .ok x ↔ solveDefinite m.cols a (Vec.get rhs) = some x.val := by
    unfold answer
    split
    next y hy => simp [hy, Subtype.ext_iff]
    next hnone => simp [hnone, Result.fail]
  rw [hsome, solveDefinite_eq_some hsym]
  simp [x.property]

theorem byElimination_factorizes : (byElimination : Backend α).Factorizes where
  cholesky m a rhs x hm hsq hlen ha := by
    have hget : a.get = fun i j => m.get (max i j) (min i j) := by
      funext i j
      rcases le_total i j with hij | hij
      · rw [max_eq_right hij, min_eq_left hij, ha.symmetric i j, ha.lower j i hij]
      · rw [max_eq_left hij, min_eq_right hij, ha.lower i j hij]
    have hasq : a.rows = a.cols := by rw [ha.rows, hsq, ha.cols]
    rw [SparseMatrix.positiveDefinite_iff ha.inside hasq,
      SparseMatrix.mulVec_eq_iff ha.inside hasq (hlen.trans ha.rows.symm), ha.cols, hget]
    exact byElimination.answer_eq_ok m fun i j => by rw [max_comm, min_comm]
  qr m rhs x hm hsq hlen hrank := by
    have hin := m.isInside_gram hm
    have hdefinite := hrank.positiveDefinite_gram hm
    have hnormal : byElimination.qr m rhs = .ok x ↔
        m.gram.mulVec x.val = m.transposeMulVec rhs := by
      rw [SparseMatrix.mulVec_eq_iff hin rfl (by simp [SparseMatrix.gram])]
      refine (byElimination.answer_eq_ok m (SparseMatrix.symmetric_gram hm)).trans ?_
      exact and_iff_right ((SparseMatrix.positiveDefinite_iff hin rfl).1 hdefinite)
    rw [hnormal]
    constructor
    · intro h
      obtain ⟨y, rfl⟩ := hrank.exists_solution hm hsq hlen
      rw [← SparseMatrix.mulVec_gram hm] at h
      rw [(hdefinite.fullColumnRank hin).eq_of_mulVec hin (y := y) h]
    · rintro rfl
      exact SparseMatrix.mulVec_gram hm x.val

end Backend

end GaussianProgram
