import GaussianProgram.Proofs.Critical

/-! Elimination with an exact backend. An answer reads a solution of the system that fits the
factors, so it is a minimum where the equality rows hold; inequality rows have no influence. -/
namespace GaussianProgram

namespace Backend
variable {α : Type} [ExactScalar α] {b : Backend α} {kind : SolverKind} {m : SparseMatrix α}
  {rhs : Vec α}

/-- Every answer solves the system. The factorization for definite systems is not trusted with a
matrix that is not symmetric. -/
def Exact (b : Backend α) : Prop :=
  ∀ (kind : SolverKind) (m : SparseMatrix α) (rhs : Vec α) (x : SystemSolution α m),
    m.isInside = true → m.rows = m.cols → rhs.length = m.rows →
      (kind = .cholesky → m.Symmetric) → b.solve kind m rhs = .ok x → m.mulVec x.val = rhs

omit [ExactScalar α] in
/-- Systems are solved by their factorization, as long as the matrix is square. -/
theorem solveSystem_eq_ok (hlen : rhs.length = m.rows)
    {x : { x : Vec α // x.length = rhs.length }} : b.solveSystem kind m rhs = .ok x ↔
      m.rows = m.cols ∧ ∃ y, b.solve kind m rhs = .ok y ∧ y.val = x.val := by
  by_cases hsq : m.rows = m.cols
  · rw [and_iff_right hsq]
    cases kind with
    | cholesky =>
      simp only [Backend.solveSystem, solveInPlace, dif_pos hsq, List.take_of_length_le hlen.le,
        List.drop_eq_nil_of_le hlen.le, dif_pos hlen.ge, List.append_nil, Result.bind_eq_ok,
        Result.pure_eq_ok, Subtype.ext_iff]
      rfl
    | qr =>
      simp only [Backend.solveSystem, solveSquare, dif_pos hsq, dif_pos hlen, Result.bind_eq_ok,
        Result.pure_eq_ok, Subtype.ext_iff]
      rfl
  · cases kind <;> simp [Backend.solveSystem, solveInPlace, solveSquare, hsq, Result.fail]

theorem Exact.solveSystem (hb : b.Exact) (hm : m.isInside = true) (hlen : rhs.length = m.rows)
    (hsym : kind = .cholesky → m.Symmetric) {x : { x : Vec α // x.length = rhs.length }}
    (h : b.solveSystem kind m rhs = .ok x) : m.mulVec x.val = rhs := by
  obtain ⟨hsq, y, hy, hval⟩ := (solveSystem_eq_ok hlen).1 h
  rw [← hval]
  exact hb kind m rhs y hm hsq hlen hsym hy

theorem solveNormal_ok {x : SystemSolution α m.gram} (h : b.solveNormal kind m rhs = .ok x) :
    m.rows < maxLength ∧ b.solve kind m.gram (m.transposeMulVec rhs) = .ok x := by
  unfold Backend.solveNormal at h
  split_ifs at h with hrows hlen
  · cases h
  · exact ⟨not_le.1 hrows, h⟩

/-- An answer to a least-squares problem solves its normal equation. -/
theorem Exact.solveNormal (hb : b.Exact) (hm : m.isInside = true) {x : SystemSolution α m.gram}
    (h : b.solveNormal kind m rhs = .ok x) : m.gram.mulVec x.val = m.transposeMulVec rhs := by
  refine hb kind _ _ x (SparseMatrix.isInside_gram hm) rfl ?_
    (fun _ => SparseMatrix.symmetric_gram hm) (solveNormal_ok h).2
  simp [SparseMatrix.transposeMulVec, SparseMatrix.gram]

end Backend

namespace Elimination

theorem checkInside_eq_ok {α : Type} [Scalar α] {m : SparseMatrix α} :
    checkInside m = .ok () ↔ m.isInside = true := by
  unfold checkInside
  split_ifs with h <;> simp [h]

section Answers
variable {κ α : Type} [Key κ] [Scalar α] {b : Backend α} {kind : SolverKind} {g : Graph κ α}
  {layout : Layout κ} {v : Vec α} {x : Assignment κ α}

/-- A least-squares solution is an answer of the backend that passes the check. -/
theorem solveLeastSquares_eq_ok : solveLeastSquares b kind layout g = .ok v ↔
    ∃ s, LeastSquaresSystem.ofGraph layout g = .ok s ∧ layout.total ≤ s.rhs.length ∧
      s.jacobian.isInside = true ∧ ∃ x, b.solveNormal kind s.jacobian s.rhs = .ok x ∧
        verifyLeastSquares s x.val = .ok () ∧ x.val = v := by
  rw [solveLeastSquares, Result.bind_eq_ok]
  refine exists_congr fun s => and_congr_right fun _ => ?_
  split_ifs with hrows
  · simp [Result.fail, not_le.2 hrows]
  · simp only [Result.bind_eq_ok, Unique.exists_iff, Result.ofExcept_eq_ok, PUnit.default_eq_unit,
      checkInside_eq_ok, Result.pure_eq_ok, not_lt.1 hrows, true_and]

/-- Without equality rows the solution is that of the costs, with them it stands before the
multipliers of the rows. -/
theorem solveConstrained_eq_ok : solveConstrained b kind layout g = .ok v ↔
    ∃ s, ConstrainedSystem.ofGraph layout g = .ok s ∧
      ((s.rhs = [] ∧ s.hessian.isInside = true ∧
          ∃ x, b.solveSystem kind s.hessian s.linear = .ok x ∧
            verifySystem s.unconstrained x.val = .ok () ∧ x.val = v) ∨
        (s.rhs ≠ [] ∧ s.stationarity.matrix.isInside = true ∧
          ∃ x, b.solveSystem .qr s.stationarity.matrix s.stationarity.rhs = .ok x ∧
            verifySystem s.stationarity x.val = .ok () ∧ x.val.take layout.total = v)) := by
  rw [solveConstrained, Result.bind_eq_ok]
  refine exists_congr fun s => and_congr_right fun _ => ?_
  split_ifs with hrows
  · simp only [Result.bind_eq_ok, Unique.exists_iff, Result.ofExcept_eq_ok, PUnit.default_eq_unit,
      checkInside_eq_ok, Result.pure_eq_ok, List.isEmpty_iff.1 hrows, ne_eq, not_true_eq_false,
      true_and, false_and, or_false]
  · simp only [Result.bind_eq_ok, Unique.exists_iff, Result.ofExcept_eq_ok, PUnit.default_eq_unit,
      checkInside_eq_ok, Result.pure_eq_ok, mt List.isEmpty_iff.2 hrows, ne_eq, not_false_eq_true,
      true_and, false_and, false_or]

def solution (b : Backend α) (kind : SolverKind) (layout : Layout κ) (g : Graph κ α) :
    Result LinearError (Vec α) :=
  if g.isLeastSquares then solveLeastSquares b kind layout g
  else solveConstrained b kind layout g

/-- An answer is zero everywhere where the dimensions add up to the word zero, and the parts of a
solution otherwise. -/
theorem eliminate_eq_ok : eliminate b kind g = .ok x ↔ ∃ dims, g.keyDimensions = .ok dims ∧
    (((Layout.ofDimensions dims).total = 0 ∧ Assignment.zeros? dims.toList = some x) ∨
      ((Layout.ofDimensions dims).total ≠ 0 ∧ ∃ v parts,
        solution b kind (.ofDimensions dims) g = .ok v ∧
          (Layout.ofDimensions dims).split? v = some parts ∧ SortedMap.ofList parts = x)) := by
  rw [eliminate, Result.bind_eq_ok]
  refine exists_congr fun dims => and_congr ?_ ?_
  · rw [Result.mapCause_eq_ok, Result.ofExcept_eq_ok]
  · dsimp only
    split_ifs with htotal hsquares
    · simp [htotal]
    · simp only [Result.bind_eq_ok, Result.inRange_eq_ok, Result.pure_eq_ok, solution, htotal,
        if_pos hsquares, ne_eq, not_false_eq_true, true_and, false_and, false_or,
        exists_and_left]
    · simp only [Result.bind_eq_ok, Result.inRange_eq_ok, Result.pure_eq_ok, solution, htotal,
        if_neg hsquares, ne_eq, not_false_eq_true, true_and, false_and, false_or,
        exists_and_left]

/-- Where the dimensions add up to a word other than zero, an answer is a solution in parts. -/
theorem eliminate_solution {dims : SortedMap κ ℕ} (hdims : g.keyDimensions = .ok dims)
    (hpos : 0 < sumDims dims.values % UInt64.size) (h : eliminate b kind g = .ok x) :
    ∃ v parts, solution b kind (.ofDimensions dims) g = .ok v ∧
      (Layout.ofDimensions dims).split? v = some parts ∧ SortedMap.ofList parts = x := by
  obtain ⟨_, hdims', hanswer⟩ := eliminate_eq_ok.1 h
  cases hdims.symm.trans hdims'
  rcases hanswer with ⟨hzero, -⟩ | ⟨-, hanswer⟩
  · exact absurd hzero hpos.ne'
  · exact hanswer

end Answers

variable {κ α : Type} [Key κ] [ExactScalar α] {b : Backend α} {kind : SolverKind} {g : Graph κ α}
  {layout : Layout κ} {dims : SortedMap κ ℕ} {v : Vec α} {x : Assignment κ α}

/-- A solution is no longer than the layout tells, and as long as a vector can be. -/
theorem length_solution (h : solution b kind layout g = .ok v) :
    v.length ≤ layout.total ∧ layout.total ≤ maxLength := by
  unfold solution at h
  split_ifs at h
  · obtain ⟨s, hs, htotal, -, x, hx, -, rfl⟩ := solveLeastSquares_eq_ok.1 h
    obtain ⟨hr, hc⟩ := LeastSquaresSystem.shape_ofGraph hs
    refine ⟨(x.property.trans hc).le, htotal.trans ?_⟩
    rw [← hr]
    exact (Backend.solveNormal_ok hx).1.le
  · obtain ⟨s, hs, ⟨-, -, x, -, -, rfl⟩ | ⟨-, -, x, -, -, rfl⟩⟩ := solveConstrained_eq_ok.1 h
    · obtain ⟨hmax, hsquare⟩ := ConstrainedSystem.square_ofGraph hs
      exact ⟨(x.property.trans hsquare.linear).le, hmax⟩
    · exact ⟨List.length_take_le _ _, (ConstrainedSystem.square_ofGraph hs).1⟩

/-- Every variable has its dimension in an answer. -/
theorem dims_eliminate (hdims : g.keyDimensions = .ok dims) (h : eliminate b kind g = .ok x)
    (k : κ) : x.dim? k = dims.get? k := by
  obtain ⟨_, hdims', ⟨-, hx⟩ | ⟨-, v, parts, -, hsplit, rfl⟩⟩ := eliminate_eq_ok.1 h
  · cases hdims.symm.trans hdims'
    exact Assignment.dim?_zeros hx k
  · cases hdims.symm.trans hdims'
    exact (Layout.split?_spec hsplit).1 k

/-- Symmetric costs have a symmetric second derivative. -/
theorem symmetric_hessian (hsym : g.Symmetric) (hdims : g.keyDimensions = .ok dims)
    (hsize : sumDims dims.values < UInt64.size) {s : ConstrainedSystem α}
    (hs : ConstrainedSystem.ofGraph (.ofDimensions dims) g = .ok s) : s.hessian.Symmetric := by
  have hassembles := ConstrainedSystem.assembles_ofGraph (Layout.total_lt dims) hs
    (fun c hc => Graph.stackable_of_size hdims hsize hc) (Graph.places_keyDims hdims hsize)
  apply SparseMatrix.symmetric_of_form
  intro u w
  obtain ⟨d, hu⟩ := (Layout.ofDimensions dims).exists_reads u
  obtain ⟨q, hw⟩ := (Layout.ofDimensions dims).exists_reads w
  rw [hassembles.hessian hu hw, hassembles.hessian hw hu]
  exact Graph.coupling_comm hsym q d

/-- A point that reads a solution is critical. -/
theorem critical_of_solution (hb : b.Exact) (hsym : kind = .cholesky → g.Symmetric)
    (hdims : g.keyDimensions = .ok dims) (hsize : sumDims dims.values < UInt64.size)
    (h : solution b kind (.ofDimensions dims) g = .ok v) {p : Point κ α}
    (hp : (Layout.ofDimensions dims).Reads (Vec.get v) p) : g.Critical p := by
  have hplaces := Graph.places_keyDims hdims hsize
  have hreads (d : Point κ α) : ∃ u, (Layout.ofDimensions dims).Reads u d :=
    ⟨_, Layout.reads_stackOf hsize d⟩
  have htotal := Layout.total_lt dims
  unfold solution at h
  split_ifs at h with hsquares
  · obtain ⟨s, hs, -, hin, x, hx, -, rfl⟩ := solveLeastSquares_eq_ok.1 h
    have hrows : s.rhs.length < maxLength :=
      (LeastSquaresSystem.shape_ofGraph hs).1 ▸ (Backend.solveNormal_ok hx).1
    exact LeastSquaresSystem.critical hsquares (LeastSquaresSystem.stacks_ofGraph htotal hs hplaces
      (hrows.le.trans (by decide))) hin hreads (hb.solveNormal hin hx) hp
  · obtain ⟨s, hs, hsolved⟩ := solveConstrained_eq_ok.1 h
    have hassembles := ConstrainedSystem.assembles_ofGraph htotal hs
      (fun c hc => Graph.stackable_of_size hdims hsize hc) hplaces
    obtain ⟨-, hsquare⟩ := ConstrainedSystem.square_ofGraph hs
    rcases hsolved with ⟨hrows, hin, x, hx, -, rfl⟩ | ⟨-, hin, x, hx, -, rfl⟩
    · exact hassembles.critical_of_unconstrained hin hreads hrows (hb.solveSystem hin
        (hsquare.linear.trans hsquare.rows.symm)
        (fun hk => symmetric_hessian (hsym hk) hdims hsize hs) hx) hp
    · have hsolves := hb.solveSystem hin s.shape_stationarity.1.symm
        (fun hk : SolverKind.qr = .cholesky => nomatch hk) hx
      refine hassembles.critical (Layout.reads_congr hsize hp fun i hi => ?_)
        (ConstrainedSystem.isSolution_of_stationarity hsize hsquare.linear hin hsolves)
      simp [Vec.get, hi]

omit [ExactScalar α] in
/-- An assignment with some dimensions has the total of these. -/
theorem totalDimension_eq (h : ∀ k, x.dim? k = dims.get? k) :
    x.totalDimension = sumDims dims.values := by
  have heq : x.mapValues List.length = dims := by
    apply SortedMap.ext_get?
    intro k
    rw [SortedMap.get?_mapValues]
    exact h k
  rw [← heq, Assignment.totalDimension, SortedMap.values, SortedMap.values, SortedMap.mapValues,
    List.map_map, List.map_map]
  rfl

/-- The parts of a solution are all variables of the graph, and the gradient is there. -/
theorem fits_of_solution (hdims : g.keyDimensions = .ok dims)
    (h : solution b kind (.ofDimensions dims) g = .ok v) {parts : List (κ × Vec α)}
    (hsplit : (Layout.ofDimensions dims).split? v = some parts) :
    sumDims dims.values < UInt64.size ∧ g.Fits (SortedMap.ofList parts) ∧
      ∃ grad, g.gradient (SortedMap.ofList parts) = .ok grad := by
  obtain ⟨hlen, hmax⟩ := length_solution h
  have hsize := Layout.sumDims_lt_of_split? hsplit hlen
  have hfits := Graph.fits_of_dims hdims (Layout.split?_spec hsplit).1
  exact ⟨hsize, hfits, Graph.exists_gradient hdims
    (Layout.total_ofDimensions hsize ▸ hmax) hfits.1⟩

/-- Where the dimensions add up to a word other than zero, an exact answer is stationary. -/
theorem eliminate_stationary (hb : b.Exact) (hsym : kind = .cholesky → g.Symmetric)
    (h : eliminate b kind g = .ok x) (hx : 0 < x.totalDimension % UInt64.size) :
    g.Stationary x := by
  obtain ⟨dims, hdims, -⟩ := eliminate_eq_ok.1 h
  rw [totalDimension_eq (dims_eliminate hdims h)] at hx
  obtain ⟨v, parts, hv, hsplit, rfl⟩ := eliminate_solution hdims hx h
  obtain ⟨hsize, hfits, grad, hgrad⟩ := fits_of_solution hdims hv hsplit
  exact (critical_of_solution hb hsym hdims hsize hv (Layout.split?_spec hsplit).2).stationary
    hfits hgrad

end Elimination

section SameEqualities
variable {κ α : Type} [Key κ]

/-- The rows have the same variables, dimensions and kinds, and the equality rows have the same
coefficients and right-hand sides. -/
structure LinearRows.SameEqualities (f f' : LinearRows κ α) [Scalar α] : Prop where
  keyDims : f'.keyDims = f.keyDims
  kinds : f'.kinds = f.kinds
  coefficients : ∀ row ∈ f.equalityRows,
    f'.terms.map (fun t => (t.1, t.2.row? row)) = f.terms.map fun t => (t.1, t.2.row? row)
  rhs : ∀ row ∈ f.equalityRows, f'.rhs[row]? = f.rhs[row]?

variable [Scalar α]

/-- The factors are the same up to inequality rows. -/
inductive Factor.SameEqualities : Factor κ α → Factor κ α → Prop
  | refl (f : Factor κ α) : SameEqualities f f
  | rows {f f' : LinearRows κ α} (hf : f.isConstrained = true) (h : f.SameEqualities f') :
    SameEqualities (.linear f) (.linear f')

/-- The graphs are the same up to the coefficients and right-hand sides of inequality rows. -/
def Graph.SameEqualities (g g' : Graph κ α) : Prop :=
  List.Forall₂ Factor.SameEqualities g.factors g'.factors

theorem Factor.SameEqualities.keyDims {f f' : Factor κ α} (h : f.SameEqualities f') :
    f'.keyDims = f.keyDims := by
  cases h with
  | refl => rfl
  | rows _ h => exact h.keyDims

/-- What agrees for factors that are the same up to inequality rows agrees along the graphs. -/
theorem Graph.SameEqualities.map_eq {g g' : Graph κ α} (h : g.SameEqualities g') {β : Type}
    {φ : Factor κ α → β} (hφ : ∀ {f f'}, Factor.SameEqualities f f' → φ f' = φ f) :
    g'.factors.map φ = g.factors.map φ := by
  refine Eq.symm ?_
  rw [← List.forall₂_eq_eq_eq, List.forall₂_map_left_iff, List.forall₂_map_right_iff]
  exact h.imp fun _ _ hf => (hφ hf).symm

theorem Graph.SameEqualities.keyDimensions {g g' : Graph κ α} (h : g.SameEqualities g') :
    g'.keyDimensions = g.keyDimensions := by
  have heq (g : Graph κ α) : g.keyDimensions = (g.factors.map Factor.keyDims).zipIdx.foldlM
      (fun dims e => e.1.foldlM (Graph.recordDimension e.2) dims) SortedMap.empty := by
    rw [Graph.keyDimensions, Graph.indexed, List.foldlM_map, List.zipIdx_map, List.foldlM_map]
    rfl
  rw [heq, heq, h.map_eq Factor.SameEqualities.keyDims]

theorem LinearRows.SameEqualities.isLeastSquares {f f' : LinearRows κ α} (h : f.SameEqualities f') :
    f'.isLeastSquares = f.isLeastSquares := by
  rw [LinearRows.isLeastSquares, LinearRows.isLeastSquares, h.kinds]

theorem Graph.SameEqualities.isLeastSquares {g g' : Graph κ α} (h : g.SameEqualities g') :
    g'.isLeastSquares = g.isLeastSquares := by
  have heq (g : Graph κ α) : g.isLeastSquares =
      (g.factors.map fun f => (f.linear?.map (·.isLeastSquares)).getD false).all id := by
    rw [Graph.isLeastSquares, List.all_map]
    rfl
  rw [heq, heq, h.map_eq fun hf => ?_]
  cases hf with
  | refl => rfl
  | rows _ hf => exact hf.isLeastSquares

/-- Graphs of least-squares costs have no inequality row in which they could differ. -/
theorem Graph.SameEqualities.linear_eq {g g' : Graph κ α} (h : g.SameEqualities g')
    (hg : g.isLeastSquares = true) : g' = g := by
  have hall := Graph.isLeastSquares_iff.1 hg
  obtain ⟨fs⟩ := g
  obtain ⟨fs'⟩ := g'
  rw [Graph.mk.injEq]
  change List.Forall₂ Factor.SameEqualities fs fs' at h
  induction h with
  | nil => rfl
  | cons hf _ ih =>
    obtain ⟨⟨c, hc, hkinds⟩, hrest⟩ := List.forall_mem_cons.1 hall
    refine congrArg₂ _ ?_ (ih (Graph.isLeastSquares_iff.2 hrest) hrest)
    cases hf with
    | refl => rfl
    | rows hcon _ =>
      cases hc
      simp [LinearRows.isConstrained, hkinds] at hcon

theorem ConstrainedSystem.addFactor_congr {layout : Layout κ} {f f' : Factor κ α}
    (h : f.SameEqualities f') (s : ConstrainedSystem α) :
    s.addFactor layout f' = s.addFactor layout f := by
  cases h with
  | refl => rfl
  | @rows f f' hf h =>
    have hcost : f.isLeastSquares = false := by
      rwa [LinearRows.isLeastSquares, ← Option.not_isSome, Bool.not_eq_false']
    have hcost' : f'.isLeastSquares = false := h.isLeastSquares.trans hcost
    simp only [addFactor, hcost, hcost', Bool.false_eq_true, if_false, addEqualities]
    rw [LinearRows.equalityRows, LinearRows.rowsOfKind, h.kinds]
    refine Result.foldlM_congr (fun t row hrow => ?_) s
    have hterms (f : LinearRows κ α) :
        f.terms.foldlM (fun (constraints : SparseMatrix α) e => do
          let column ← layout.columnOf e.1
          return constraints.addRow t.rhs.length column (← Result.inRange (e.2.row? row)))
          t.constraints = (f.terms.map fun e => (e.1, e.2.row? row)).foldlM
            (fun (constraints : SparseMatrix α) e => do
              let column ← layout.columnOf e.1
              return constraints.addRow t.rhs.length column (← Result.inRange e.2))
            t.constraints := by
      rw [List.foldlM_map]
    rw [hterms, hterms, h.coefficients row hrow, h.rhs row hrow]

theorem ConstrainedSystem.ofGraph_congr {layout : Layout κ} {g g' : Graph κ α}
    (h : g.SameEqualities g') : ofGraph layout g' = ofGraph layout g := by
  have hfold (fs fs' : List (Factor κ α)) (hfs : List.Forall₂ Factor.SameEqualities fs fs')
      (s : ConstrainedSystem α) :
      fs'.foldlM (addFactor layout) s = fs.foldlM (addFactor layout) s := by
    induction hfs generalizing s with
    | nil => rfl
    | cons hf _ ih =>
      rw [List.foldlM_cons, List.foldlM_cons, addFactor_congr hf]
      exact bind_congr ih
  exact bind_congr fun linear => hfold _ _ h _

/-- Inequality rows have no influence on an elimination. -/
theorem Elimination.eliminate_congr {b : Backend α} {kind : SolverKind} {g g' : Graph κ α}
    (h : g.SameEqualities g') : eliminate b kind g' = eliminate b kind g := by
  by_cases hg : g.isLeastSquares
  · rw [h.linear_eq hg]
  · unfold eliminate solveConstrained
    rw [h.keyDimensions, h.isLeastSquares]
    simp only [hg, Bool.false_eq_true, if_false, ConstrainedSystem.ofGraph_congr h]

end SameEqualities

namespace Elimination

/-- With an exact backend an elimination solves the problem that the graph states. An answer has
exactly the variables of the graph, and where their total dimension, a 64-bit word, is positive, it
satisfies the equality rows and no assignment that does has a lower cost. Inequality rows have no
influence on the result, whatever the backend. -/
theorem eliminate_minimizes {κ α : Type} [Key κ] [ExactScalar α] (b : Backend α)
    (kind : SolverKind) (g : Graph κ α) :
    (b.Exact → g.Symmetric → g.PositiveSemidefinite → ∀ x, eliminate b kind g = .ok x →
      g.Fits x ∧ (0 < x.totalDimension % UInt64.size →
        (∀ r, g.rowKind? r = some .equality → g.rowSlack r x = .ok 0) ∧
        ∃ least, g.cost x = .ok least ∧ ∀ y, g.Fits y →
          (∀ r, g.rowKind? r = some .equality → g.rowSlack r y = .ok 0) →
            ∃ cost, g.cost y = .ok cost ∧ least ≤ cost)) ∧
    ∀ g', g.SameEqualities g' → eliminate b kind g' = eliminate b kind g := by
  refine ⟨fun hb hsym hpsd x h => ?_, fun g' h => eliminate_congr h⟩
  obtain ⟨dims, hdims, -⟩ := eliminate_eq_ok.1 h
  refine ⟨Graph.fits_of_dims hdims (dims_eliminate hdims h), fun hx => ?_⟩
  have hstationary := eliminate_stationary hb (fun _ => hsym) h hx
  have hmin := hstationary.minimizes hsym hpsd (Graph.cost_eq_ok.2 ⟨hstationary.readable, rfl⟩)
  obtain ⟨least, hleast, hle⟩ := hmin.least
  refine ⟨hmin.rows, least, hleast, fun y hy hrows => ?_⟩
  have hcost : g.cost y = .ok (g.value y.entries) := Graph.cost_eq_ok.2 ⟨fun f hf =>
    (hstationary.readable f hf).mono fun e he _ => hy.1 f hf e he, rfl⟩
  exact ⟨_, hcost, hle y _ hy hrows hcost⟩

end Elimination

theorem Backend.rational_exact : Backend.rational.Exact := by
  intro kind m rhs x _ _ _ _ h
  have hsolve : Backend.rational.solve m rhs = .ok x := by
    cases kind with
    | cholesky => exact h
    | qr => exact h
  unfold rational.solve at hsolve
  split at hsolve
  · cases hsolve
  · split_ifs at hsolve with hx
    · cases hsolve
      exact hx.2
    · cases hsolve

/-- Other inequality rows leave the budget as it is. -/
theorem Graph.sameEqualities_budgeted (a b bound a' b' bound' : ℚ) :
    (budgeted a b bound).SameEqualities (budgeted a' b' bound') := by
  have hrow : ∀ row ∈ (LinearRows.budget a b bound).equalityRows, row = 0 := by
    rw [show (LinearRows.budget a b bound).equalityRows = [0] from rfl]
    simp
  refine .cons (.refl _) (.cons (.refl _) (.cons (.rows rfl ⟨rfl, rfl, ?_, ?_⟩) .nil))
  · intro row hmem
    cases hrow row hmem
    rfl
  · intro row hmem
    cases hrow row hmem
    rfl

/-- The least cost is where both variables are one, whatever the inequality row is. -/
theorem Elimination.budgeted_minimizes : ∃ x least,
    (∀ a b bound, eliminate Backend.rational .cholesky (.budgeted a b bound) = .ok x) ∧
      x.toList = [(0, [1]), (1, [1])] ∧ (Graph.budgeted 1 0 5).cost x = .ok least ∧
      ∀ y, (Graph.budgeted 1 0 5).Fits y →
        (∀ r, (Graph.budgeted 1 0 5).rowKind? r = some .equality →
          (Graph.budgeted 1 0 5).rowSlack r y = .ok 0) →
        ∃ cost, (Graph.budgeted 1 0 5).cost y = .ok cost ∧ least ≤ cost := by
  have hrun : (match eliminate Backend.rational .cholesky (.budgeted 1 0 5) with
    | .ok x => decide (x.toList = [(0, [1]), (1, [1])])
    | .error _ => false) = true := by decide +kernel
  split at hrun
  next x hok =>
    have hx := of_decide_eq_true hrun
    obtain ⟨hexact, hsame⟩ := eliminate_minimizes Backend.rational .cholesky (.budgeted 1 0 5)
    obtain ⟨-, hmin⟩ := hexact Backend.rational_exact (Graph.parabola_symmetric _)
      (Graph.parabola_positiveSemidefinite _) x hok
    have htotal : x.totalDimension = 2 := by
      rw [Assignment.totalDimension, SortedMap.values, hx]
      rfl
    obtain ⟨-, least, hleast, hle⟩ := hmin (htotal ▸ by decide)
    refine ⟨x, least, fun a b bound => ?_, hx, hleast, hle⟩
    rw [hsame _ (Graph.sameEqualities_budgeted 1 0 5 a b bound), hok]
  next => cases hrun

end GaussianProgram
