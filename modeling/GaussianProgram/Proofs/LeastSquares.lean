import GaussianProgram.Proofs.Elimination

/-! Least-squares graphs. The stacked coefficients have full column rank exactly if the rows of the
graph vanish together only along directions that move no variable. The normal matrix is positive
definite then, and an elimination can fail only in the backend or when its answer is checked. -/

/-- Over an ordered field every normal equation has a solution. -/
theorem exists_normal_solution {m n R : Type*} [Fintype m] [Fintype n] [Field R] [LinearOrder R]
    [IsStrictOrderedRing R] (a : m → n → R) (b : m → R) :
    ∃ z : n → R, ∀ j, ∑ i, a i j * ∑ k, a i k * z k = ∑ i, a i j * b i := by
  let A : Matrix m n R := Matrix.of a
  have hle : LinearMap.range (A.transpose * A).mulVecLin ≤
      LinearMap.range A.transpose.mulVecLin := by
    rw [Matrix.mulVecLin_mul]
    exact LinearMap.range_comp_le_range _ _
  have hrank : Module.finrank R (LinearMap.range (A.transpose * A).mulVecLin) =
      Module.finrank R (LinearMap.range A.transpose.mulVecLin) :=
    (Matrix.rank_transpose_mul_self A).trans (Matrix.rank_transpose A).symm
  have hmem : A.transpose.mulVec b ∈ LinearMap.range (A.transpose * A).mulVecLin := by
    rw [Submodule.eq_of_le_of_finrank_eq hle hrank]
    exact ⟨b, rfl⟩
  obtain ⟨z, hz⟩ := hmem
  rw [Matrix.mulVecLin_apply, ← Matrix.mulVec_mulVec] at hz
  exact ⟨z, congrFun hz⟩

namespace GaussianProgram
open Finset (range)

theorem Vec.against_single {α : Type} [ExactScalar α] {v : Vec α} {i : ℕ} (hi : i < v.length) :
    v.against (Pi.single i 1) = Vec.get v i := by
  rw [Vec.against, Finset.sum_eq_single_of_mem i (Finset.mem_range.2 hi), Pi.single_eq_same,
    mul_one]
  intro j _ hne
  rw [Pi.single_eq_of_ne hne, mul_zero]

namespace SparseMatrix
variable {α : Type} [ExactScalar α]

section Rank
variable {m : SparseMatrix α}

def FullColumnRank (m : SparseMatrix α) : Prop :=
  LinearIndependent α fun (j : Fin m.cols) (i : Fin m.rows) => m.get i j

def PositiveDefinite (m : SparseMatrix α) : Prop :=
  ∀ u : ℕ → α, (∃ j < m.cols, u j ≠ 0) → 0 < m.form u u

theorem get_eq_rowForm (m : SparseMatrix α) (i j : ℕ) :
    m.get i j = m.rowForm i (Pi.single j 1) := by
  rw [get_eq_form, rowForm_eq]

variable (hm : m.isInside = true)
include hm

/-- A row against a function of the columns, entry by entry. -/
theorem rowForm_eq_sum (i : ℕ) (u : ℕ → α) :
    m.rowForm i u = ∑ j ∈ range m.cols, m.get i j * u j := by
  have hcol (e : (ℕ × ℕ) × α) (he : e ∈ m.entries.toList.filter (·.1.1 == i)) :
      e.2 * u e.1.2 = ∑ j ∈ range m.cols, e.2 * (Pi.single j 1 : ℕ → α) e.1.2 * u j := by
    have hlt := (isInside_iff.1 hm e (List.mem_filter.1 he).1).2
    rw [Finset.sum_eq_single_of_mem _ (Finset.mem_range.2 hlt), Pi.single_eq_same, mul_one]
    intro j _ hne
    rw [Pi.single_eq_of_ne hne.symm, mul_zero, zero_mul]
  rw [rowForm, List.map_congr_left hcol, sum_map_sum_comm]
  refine Finset.sum_congr rfl fun j _ => ?_
  rw [List.sum_map_mul_right, get_eq_rowForm, rowForm]

/-- The rank of the columns is full exactly if the rows vanish together only at zero. -/
theorem fullColumnRank_iff : m.FullColumnRank ↔
    ∀ u : ℕ → α, (∀ i < m.rows, m.rowForm i u = 0) → ∀ j < m.cols, u j = 0 := by
  have hcombine (u : ℕ → α) : (∑ j : Fin m.cols, u j • fun i : Fin m.rows => m.get i j) =
      fun i : Fin m.rows => m.rowForm i u := by
    funext i
    rw [Finset.sum_apply, rowForm_eq_sum hm, ← Fin.sum_univ_eq_sum_range (fun j => m.get i j * u j)]
    exact Finset.sum_congr rfl fun j _ => mul_comm _ _
  rw [FullColumnRank, Fintype.linearIndependent_iff]
  constructor
  · intro h u hu j hj
    refine h (fun j => u j) ?_ ⟨j, hj⟩
    rw [hcombine u]
    exact funext fun i => hu i i.isLt
  · intro h z hz j
    let u : ℕ → α := fun j => if hj : j < m.cols then z ⟨j, hj⟩ else 0
    have hu (j : Fin m.cols) : u j = z j := dif_pos j.isLt
    simp only [← hu] at hz ⊢
    rw [hcombine u] at hz
    exact h u (fun i hi => congrFun hz ⟨i, hi⟩) j j.isLt

omit hm in
theorem FullColumnRank.cols_le_rows (h : m.FullColumnRank) : m.cols ≤ m.rows := by
  simpa using LinearIndependent.fintype_card_le_finrank h

/-- The normal matrix of independent columns is positive definite. -/
theorem FullColumnRank.positiveDefinite_gram (h : m.FullColumnRank) : m.gram.PositiveDefinite := by
  rintro u ⟨j, hj, hne⟩
  obtain ⟨i, hi, hrow⟩ : ∃ i < m.rows, m.rowForm i u ≠ 0 := by
    by_contra hnone
    push Not at hnone
    exact hne ((fullColumnRank_iff hm).1 h u hnone j hj)
  rw [form_gram hm, ← sum_rowForm hm]
  exact Finset.sum_pos' (fun i _ => mul_self_nonneg _)
    ⟨i, Finset.mem_range.2 hi, mul_self_pos.2 hrow⟩

/-- Every least-squares problem has a solution of its normal equation. -/
theorem exists_normal (b : Vec α) :
    ∃ v : Vec α, v.length = m.cols ∧ m.gram.mulVec v = m.transposeMulVec b := by
  obtain ⟨z, hz⟩ := exists_normal_solution
    (fun (i : Fin m.rows) (j : Fin m.cols) => m.get i j) fun i => Vec.get b i
  let v : Vec α := (List.range m.cols).map fun j => if hj : j < m.cols then z ⟨j, hj⟩ else 0
  have hv (j : Fin m.cols) : Vec.get v j = z j :=
    (Vec.get_map_range _ j.isLt).trans (dif_pos j.isLt)
  have hcolumn (y : ℕ → α) (i : ℕ) :
      m.form y (Pi.single i 1) = ∑ r : Fin m.rows, m.get r i * y r := by
    rw [← sum_rowForm hm, ← Fin.sum_univ_eq_sum_range fun r => m.rowForm r (Pi.single i 1) * y r]
    exact Finset.sum_congr rfl fun r _ => by rw [get_eq_rowForm]
  refine ⟨v, by simp [v], Vec.ext_get (by simp [mulVec, transposeMulVec, gram]) fun i hi => ?_⟩
  have hi : i < m.cols := by simpa [mulVec, gram] using hi
  have hrow := hz ⟨i, hi⟩
  simp only [← hv] at hrow
  rw [← Vec.against_single (by simpa [mulVec, gram] using hi), against_mulVec (isInside_gram hm),
    form_gram hm, hcolumn, ← Vec.against_single (by simpa [transposeMulVec] using hi),
    against_transposeMulVec hm, hcolumn, ← hrow]
  refine Finset.sum_congr rfl fun r _ => ?_
  rw [rowForm_eq_sum hm, ← Fin.sum_univ_eq_sum_range fun j => m.get r j * Vec.get v j]

end Rank

end SparseMatrix

namespace Graph
variable {κ α : Type} [Key κ] [ExactScalar α] {g : Graph κ α} {p : Point κ α} {x : Assignment κ α}

def HasNoGap (g : Graph κ α) (p : Point κ α) : Prop :=
  ∀ c, .linear c ∈ g.factors → ∀ row < c.rows, c.gap row p = 0

def Vanishes (g : Graph κ α) (d : Point κ α) : Prop :=
  ∀ c, .linear c ∈ g.factors → ∀ row < c.rows, c.form row d = 0

/-- If all rows vanish together only along directions that move no variable, at most one assignment
leaves no residual. -/
theorem Fits.eq_of_hasNoGap {dims : SortedMap κ ℕ} (hdims : g.keyDimensions = .ok dims)
    (hzero : ∀ d, g.Vanishes d → ∀ k n, dims.get? k = some n → ∀ j < n, d k j = 0)
    {y : Assignment κ α} (hx : g.Fits x) (hy : g.Fits y) (hgap : g.HasNoGap x.entries)
    (hgap' : g.HasNoGap y.entries) : x = y := by
  have hvanishes : g.Vanishes (x.entries - y.entries) := fun c hc row hrow => by
    rw [map_sub, sub_eq_zero.1 (hgap c hc row hrow), sub_eq_zero.1 (hgap' c hc row hrow), sub_self]
  refine hx.ext_entries hy fun f hf e he j hj => ?_
  exact sub_eq_zero.1 (hzero _ hvanishes e.1 e.2 ((keyDimensions_spec hdims).2 ⟨f, hf, he⟩) j hj)

section LeastSquares
variable (hg : g.isLeastSquares = true)
include hg

/-- Every cost is half the sum of the squares of its residuals. -/
theorem exists_squares {f : Factor κ α} (hf : f ∈ g.factors) : ∃ c, f = .linear c ∧
    c.kinds = none ∧ ∀ p, f.value p = 0.5 * ∑ row ∈ range c.rows, c.gap row p * c.gap row p := by
  obtain ⟨c, rfl, hkinds⟩ := isLeastSquares_iff.1 hg f hf
  refine ⟨c, rfl, hkinds, fun p => ?_⟩
  rw [Factor.value, LinearRows.value, if_neg (by simp [LinearRows.isConstrained, hkinds])]

theorem symmetric_of_isLeastSquares : g.Symmetric := fun f hf => by
  obtain ⟨c, he, -⟩ := isLeastSquares_iff.1 hg _ hf
  cases he

theorem positiveSemidefinite_of_isLeastSquares : g.PositiveSemidefinite := by
  intro d
  refine List.sum_nonneg fun a ha => ?_
  obtain ⟨f, hf, rfl⟩ := List.mem_map.1 ha
  obtain ⟨c, rfl, -⟩ := isLeastSquares_iff.1 hg _ hf
  exact c.curvature_nonneg d

theorem factor_value_nonneg {f : Factor κ α} (hf : f ∈ g.factors) (p : Point κ α) :
    0 ≤ f.value p := by
  obtain ⟨c, -, -, hvalue⟩ := exists_squares hg hf
  rw [hvalue, ExactScalar.half_eq]
  exact mul_nonneg (by norm_num) (Finset.sum_nonneg fun row _ => mul_self_nonneg _)

theorem value_eq_zero_iff : g.value p = 0 ↔ g.HasNoGap p := by
  have hnonneg : ∀ a ∈ g.factors.map (·.value p), 0 ≤ a :=
    List.forall_mem_map.2 fun f hf => factor_value_nonneg hg hf p
  have hfactor (f : Factor κ α) (hf : f ∈ g.factors) :
      f.value p = 0 ↔ ∀ c, f = .linear c → ∀ row < c.rows, c.gap row p = 0 := by
    obtain ⟨c, rfl, -, hvalue⟩ := exists_squares hg hf
    rw [hvalue, ExactScalar.half_eq, mul_eq_zero, or_iff_right (by norm_num),
      Finset.sum_eq_zero_iff_of_nonneg fun row _ => mul_self_nonneg _]
    simp
  constructor
  · intro h c hc
    have hzero := List.all_zero_of_le_zero_le_of_sum_eq_zero hnonneg h (List.mem_map_of_mem hc)
    exact (hfactor _ hc).1 hzero c rfl
  · intro h
    refine List.sum_eq_zero (List.forall_mem_map.2 fun f hf => (hfactor f hf).2 ?_)
    rintro c rfl
    exact h c hf

theorem value_nonneg (p : Point κ α) : 0 ≤ g.value p :=
  List.sum_nonneg (List.forall_mem_map.2 fun _ hf => factor_value_nonneg hg hf p)

omit [ExactScalar α] in
theorem Covers.readable [Scalar α] (hx : g.Covers x) {f : Factor κ α} (hf : f ∈ g.factors) :
    f.Readable x := by
  obtain ⟨c, rfl, -⟩ := isLeastSquares_iff.1 hg f hf
  exact fun _ => hx _ hf

/-- Every assignment that covers the graph has a cost. -/
theorem Covers.cost_eq (hx : g.Covers x) : g.cost x = .ok (g.value x.entries) :=
  cost_eq_ok.2 ⟨fun _ hf => hx.readable hg hf, rfl⟩

theorem minimizes_of_value_le (hx : g.Fits x)
    (h : ∀ y, g.Fits y → g.value x.entries ≤ g.value y.entries) : g.Minimizes x := by
  refine ⟨hx, fun r hr => ?_, _, hx.1.cost_eq hg, fun y cost hy _ hcost => ?_⟩
  · cases (rowKind?_of_isLeastSquares hg r).symm.trans hr
  · cases (hy.1.cost_eq hg).symm.trans hcost
    exact h y hy

theorem Minimizes.value_le (hx : g.Minimizes x) {y : Assignment κ α} (hy : g.Fits y) :
    g.value x.entries ≤ g.value y.entries := by
  obtain ⟨least, hleast, hle⟩ := hx.least
  rw [← (cost_eq_ok.1 hleast).2]
  refine hle y _ hy (fun r hr => ?_) (hy.1.cost_eq hg)
  cases (rowKind?_of_isLeastSquares hg r).symm.trans hr

/-- Where no residual is left, the cost is least. -/
theorem HasNoGap.minimizes (h : g.HasNoGap x.entries) (hx : g.Fits x) : g.Minimizes x :=
  minimizes_of_value_le hg hx fun y _ => by
    rw [(value_eq_zero_iff hg).2 h]
    exact value_nonneg hg y.entries

/-- If some assignment leaves no residual, none is left where the cost is least. -/
theorem Minimizes.hasNoGap (hx : g.Minimizes x) {y : Assignment κ α} (hy : g.Fits y)
    (h : g.HasNoGap y.entries) : g.HasNoGap x.entries := by
  have hle := hx.value_le hg hy
  rw [(value_eq_zero_iff hg).2 h] at hle
  exact (value_eq_zero_iff hg).1 (le_antisymm hle (value_nonneg hg x.entries))

end LeastSquares

end Graph

namespace LeastSquaresSystem
variable {κ α : Type} [Key κ] [ExactScalar α] {g : Graph κ α} {layout : Layout κ}
  {s : LeastSquaresSystem α}

/-- The system can be assembled if every variable has its place. -/
theorem exists_ofGraph (h : ∀ f ∈ g.factors, ∀ e ∈ f.keyDims, layout.Places e.1 e.2) :
    ∃ s : LeastSquaresSystem α, ofGraph layout g = .ok s := by
  refine Result.exists_foldlM (fun _ => True) (fun t f hf _ => ?_) trivial
  obtain ⟨jacobian, hjacobian⟩ : ∃ jacobian, f.terms.foldlM
      (fun (jacobian : SparseMatrix α) e => do
        let column ← layout.columnOf e.1
        return jacobian.addBlock t.rhs.length column e.2) t.jacobian = .ok jacobian := by
    refine Result.exists_foldlM (fun _ => True) (fun m e he _ => ?_) trivial
    obtain ⟨offset, hsegment, -⟩ :=
      h _ (Graph.mem_linear.1 hf) (e.1, e.2.cols) (List.mem_map_of_mem he)
    have hcolumn : layout.columnOf e.1 = .ok offset := by
      rw [Layout.columnOf, Layout.offset?, hsegment]
      rfl
    exact ⟨_, Result.bind_eq_ok.2 ⟨offset, hcolumn, rfl⟩, trivial⟩
  exact ⟨_, Result.bind_eq_ok.2 ⟨jacobian, hjacobian, rfl⟩, trivial⟩

theorem length_ofGraph (h : ofGraph layout g = .ok s) :
    s.rhs.length = sumDims ((g.factors.filterMap Factor.linear?).map LinearRows.rows) := by
  have hlen := Result.foldlM_sum (fun t : LeastSquaresSystem α => t.rhs.length)
    (fun t t' f _ hstep => by rw [rhs_addRows hstep, List.length_append]) h
  rw [sumDims_eq_sum, hlen]
  exact Nat.zero_add _

/-- All entries of the system lie inside. -/
theorem isInside_ofGraph (h : ofGraph layout g = .ok s)
    (hg : ∀ f ∈ g.factors, ∀ e ∈ f.keyDims, layout.Places e.1 e.2) :
    s.jacobian.isInside = true := by
  obtain ⟨hr, hc⟩ := shape_ofGraph h
  rw [SparseMatrix.isInside_iff_within, hr, hc]
  refine Result.foldlM_keeps (fun t : LeastSquaresSystem α =>
    t.jacobian.Within t.rhs.length layout.total) (fun t t' f hf ht hstep => ?_)
    (fun e he => absurd he List.not_mem_nil) h
  obtain ⟨jacobian, hterms, hstep⟩ := Result.bind_eq_ok.1 hstep
  cases Result.pure_eq_ok.1 hstep
  refine (?_ : jacobian.Within (t.rhs ++ f.rhs).length layout.total)
  refine Result.foldlM_keeps
    (fun m : SparseMatrix α => m.Within (t.rhs ++ f.rhs).length layout.total)
    (fun m m' e he hm hok => ?_) (ht.mono (by simp) le_rfl) hterms
  obtain ⟨column, hcolumn, hok⟩ := Result.bind_eq_ok.1 hok
  cases Result.pure_eq_ok.1 hok
  have hplace := hg _ (Graph.mem_linear.1 hf) (e.1, e.2.cols) (List.mem_map_of_mem he)
  refine hm.addBlock ?_ (hplace.columnOf (α := α) hcolumn).1
  rw [f.block_rows e he, List.length_append]

/-- The columns of the system are independent exactly if all rows of the graph vanish together only
along directions that move no variable. -/
theorem fullColumnRank_ofGraph {dims : SortedMap κ ℕ} (hdims : g.keyDimensions = .ok dims)
    (hsize : sumDims dims.values < UInt64.size)
    (hs : ofGraph (Layout.ofDimensions dims) g = .ok s) (hrows : s.rhs.length ≤ UInt64.size) :
    s.jacobian.FullColumnRank ↔
      ∀ d, g.Vanishes d → ∀ k n, dims.get? k = some n → ∀ j < n, d k j = 0 := by
  have hplaces := Graph.places_keyDims hdims hsize
  obtain ⟨hr, hc⟩ := shape_ofGraph hs
  have hstacks : Stacks (Layout.ofDimensions dims) (equations g) s.jacobian s.rhs :=
    stacks_ofGraph (Layout.total_lt dims) hs hplaces hrows
  have hvanishes {u : ℕ → α} {d : Point κ α} (hu : (Layout.ofDimensions dims).Reads u d) :
      (∀ i < s.jacobian.rows, s.jacobian.rowForm i u = 0) ↔ g.Vanishes d := by
    rw [hr, hstacks.rhs, List.length_map]
    constructor
    · intro h c hc row hrow
      obtain ⟨i, hi⟩ := List.getElem?_of_mem (mem_equations.2 ⟨c, hc, row, hrow, rfl⟩)
      rw [← h i (List.getElem?_eq_some_iff.1 hi).1, hstacks.rowForm hi hu]
      rfl
    · intro h i hi
      rw [hstacks.rowForm (List.getElem?_eq_getElem hi) hu]
      obtain ⟨c, hc, row, hrow, he⟩ := mem_equations.1 (List.getElem_mem hi)
      rw [he]
      exact h c hc row hrow
  rw [SparseMatrix.fullColumnRank_iff (isInside_ofGraph hs hplaces), hc]
  constructor
  · intro h d hd k n hk j hj
    have hu := Layout.reads_stackOf (α := α) hsize d
    obtain ⟨offset, hsegment, hfit⟩ := Layout.places_ofDimensions hsize hk
    rw [← hu k _ hsegment j hj]
    exact h _ ((hvanishes hu).2 hd) _ ((Nat.add_lt_add_left hj offset).trans_le hfit)
  · intro h u hu j hj
    obtain ⟨d, hd⟩ := (Layout.ofDimensions dims).exists_reads u
    have hzero := h d ((hvanishes hd).1 hu)
    have hstack : stackOf dims.toList d = stackOf dims.toList 0 :=
      stackOf_ext fun e he => hzero e.1 e.2 (SortedMap.get?_eq_some_iff.2 he)
    rw [hd.eq_stackOf hsize hj, hstack, get_stackOf_zero]

end LeastSquaresSystem

/-- A least-squares graph whose rows and variables can be stored has a least-squares solution. -/
theorem Graph.exists_minimizes {κ α : Type} [Key κ] [ExactScalar α] {g : Graph κ α}
    (hg : g.isLeastSquares = true) {dims : SortedMap κ ℕ} (hdims : g.keyDimensions = .ok dims)
    (hmax : sumDims dims.values ≤ maxLength)
    (hrows : sumDims ((g.factors.filterMap Factor.linear?).map LinearRows.rows) ≤ maxLength) :
    ∃ x, g.Minimizes x := by
  have hsize : sumDims dims.values < UInt64.size := hmax.trans_lt (by decide)
  have hplaces := places_keyDims hdims hsize
  obtain ⟨s, hs⟩ := LeastSquaresSystem.exists_ofGraph hplaces
  rw [← LeastSquaresSystem.length_ofGraph hs] at hrows
  have hin := LeastSquaresSystem.isInside_ofGraph hs hplaces
  obtain ⟨v, hlen, hv⟩ := SparseMatrix.exists_normal hin s.rhs
  rw [(LeastSquaresSystem.shape_ofGraph hs).2] at hlen
  obtain ⟨parts, hparts⟩ := Layout.exists_split? hsize hlen
  obtain ⟨hshape, hreads⟩ := Layout.split?_spec hparts
  have hfits := fits_of_dims hdims hshape
  have hcritical : g.Critical (Assignment.entries (SortedMap.ofList parts)) :=
    LeastSquaresSystem.critical hg (LeastSquaresSystem.stacks_ofGraph (Layout.total_lt dims) hs
      hplaces (hrows.trans (by decide))) hin (fun d => ⟨_, Layout.reads_stackOf hsize d⟩) hv hreads
  obtain ⟨grad, hgrad⟩ := exists_gradient hdims hmax hfits.1
  exact ⟨_, (hcritical.stationary hfits hgrad).minimizes (symmetric_of_isLeastSquares hg)
    (positiveSemidefinite_of_isLeastSquares hg) (hfits.1.cost_eq hg)⟩

namespace Elimination
variable {κ α : Type} [Key κ] [ExactScalar α] {g : Graph κ α} {b : Backend α} {kind : SolverKind}
  {layout : Layout κ} {s : LeastSquaresSystem α}

/-- Where there are as many rows as unknowns, a least-squares problem fails only if the backend does
or if its answer does not pass the check. -/
theorem solveLeastSquares_error (hs : LeastSquaresSystem.ofGraph layout g = .ok s)
    (hle : layout.total ≤ s.rhs.length) (hmax : s.rhs.length < maxLength)
    (hin : s.jacobian.isInside = true) {e : Failure LinearError}
    (h : solveLeastSquares b kind layout g = .error e) :
    b.solve kind s.jacobian.gram (s.jacobian.transposeMulVec s.rhs) = .error e ∨
      ∃ x, b.solve kind s.jacobian.gram (s.jacobian.transposeMulVec s.rhs) = .ok x ∧
        Result.ofExcept (verifyLeastSquares s x.val) = .error e := by
  have hnormal : b.solveNormal kind s.jacobian s.rhs =
      b.solve kind s.jacobian.gram (s.jacobian.transposeMulVec s.rhs) := by
    have hr := (LeastSquaresSystem.shape_ofGraph hs).1
    rw [Backend.solveNormal, if_neg (by rw [hr]; exact not_le.2 hmax), if_pos hr.symm]
  have hcheck : Result.ofExcept (checkInside s.jacobian) = .ok () :=
    Result.ofExcept_eq_ok.2 (checkInside_eq_ok.2 hin)
  rw [solveLeastSquares] at h
  rcases Result.bind_eq_error.1 h with h | ⟨_, hs', h⟩
  · cases hs.symm.trans h
  cases hs.symm.trans hs'
  rw [if_neg (not_lt.2 hle)] at h
  rcases Result.bind_eq_error.1 h with h | ⟨_, -, h⟩
  · cases hcheck.symm.trans h
  rw [hnormal] at h
  rcases Result.bind_eq_error.1 h with h | ⟨x, hx, h⟩
  · exact .inl h
  rcases Result.bind_eq_error.1 h with h | ⟨_, -, h⟩
  · exact .inr ⟨x, hx, h⟩
  · cases h

/-- Where there are as many rows as unknowns, the elimination of a least-squares graph fails only if
the backend does or if its answer does not pass the check. -/
theorem eliminate_error (hg : g.isLeastSquares = true) {dims : SortedMap κ ℕ}
    (hdims : g.keyDimensions = .ok dims) (hsize : sumDims dims.values < UInt64.size)
    (hs : LeastSquaresSystem.ofGraph (Layout.ofDimensions dims) g = .ok s)
    (hle : s.jacobian.cols ≤ s.jacobian.rows) (hmax : s.rhs.length < maxLength)
    {e : Failure LinearError} (h : eliminate b kind g = .error e) :
    b.solve kind s.jacobian.gram (s.jacobian.transposeMulVec s.rhs) = .error e ∨
      ∃ x, b.solve kind s.jacobian.gram (s.jacobian.transposeMulVec s.rhs) = .ok x ∧
        Result.ofExcept (verifyLeastSquares s x.val) = .error e := by
  obtain ⟨hr, hc⟩ := LeastSquaresSystem.shape_ofGraph hs
  rw [eliminate, hdims] at h
  rcases Result.bind_eq_error.1 h with h | ⟨_, hok, h⟩
  · cases h
  cases hok
  dsimp only at h
  split_ifs at h with htotal
  · -- Every dimension is zero.
    have hzero : ∀ e ∈ dims.toList, e.2 ≤ maxLength := fun e he => by
      have hle : e.2 ≤ sumDims dims.values := by
        rw [sumDims_eq_sum]
        exact List.le_sum_of_mem (List.mem_map_of_mem he)
      rw [← Layout.total_ofDimensions hsize, htotal] at hle
      exact hle.trans (Nat.zero_le _)
    obtain ⟨x, hx⟩ := Assignment.exists_zeros? (α := α) hzero
    rw [hx] at h
    cases h
  · rcases Result.bind_eq_error.1 h with h | ⟨v, hv, h⟩
    · exact solveLeastSquares_error hs (hc ▸ hr ▸ hle) hmax
        (LeastSquaresSystem.isInside_ofGraph hs (Graph.places_keyDims hdims hsize)) h
    · obtain ⟨s', hs', -, -, x, -, -, rfl⟩ := solveLeastSquares_eq_ok.1 hv
      obtain ⟨parts, hparts⟩ := Layout.exists_split? hsize
        (x.property.trans (LeastSquaresSystem.shape_ofGraph hs').2)
      rw [hparts] at h
      cases h

end Elimination

end GaussianProgram
