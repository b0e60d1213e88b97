import GaussianProgram.Proofs.Definite
import GaussianProgram.Proofs.DualSystem
import GaussianProgram.Proofs.Table
import GaussianProgram.Proofs.Tracking

/-! The choice of a factorization. With exact factorizations, wherever the one for definite systems
carries a run to its end, the orthogonal one makes the same run. -/
namespace GaussianProgram

namespace Backend
variable {α : Type} [ExactScalar α] {b : Backend α} {m : SparseMatrix α} {rhs : Vec α}

/-- Where the factorization for definite systems answers, the orthogonal one gives its answer. -/
theorem Factorizes.qr_of_cholesky (hb : b.Factorizes) (hm : m.isInside = true)
    (hsq : m.rows = m.cols) (hlen : rhs.length = m.rows) (hsym : m.Symmetric)
    {x : SystemSolution α m} (h : b.cholesky m rhs = .ok x) : b.qr m rhs = .ok x := by
  obtain ⟨hdefinite, hsolves⟩ :=
    (hb.cholesky m m rhs x hm hsq hlen ⟨hm, rfl, rfl, hsym, fun _ _ _ => rfl⟩).1 h
  exact (hb.qr m rhs x hm hsq hlen (hdefinite.fullColumnRank hm)).2 hsolves

theorem Factorizes.solveSystem (hb : b.Factorizes) (hm : m.isInside = true)
    (hlen : rhs.length = m.rows) (hsym : m.Symmetric) {x : { x : Vec α // x.length = rhs.length }}
    (h : b.solveSystem .cholesky m rhs = .ok x) : b.solveSystem .qr m rhs = .ok x := by
  obtain ⟨hsq, y, hy, hval⟩ := (solveSystem_eq_ok hlen).1 h
  exact (solveSystem_eq_ok hlen).2 ⟨hsq, y, hb.qr_of_cholesky hm hsq hlen hsym hy, hval⟩

theorem Factorizes.solveNormal (hb : b.Factorizes) (hm : m.isInside = true)
    {x : SystemSolution α m.gram} (h : b.solveNormal .cholesky m rhs = .ok x) :
    b.solveNormal .qr m rhs = .ok x := by
  unfold Backend.solveNormal at h ⊢
  split_ifs at h ⊢
  · cases h
  · exact hb.qr_of_cholesky (SparseMatrix.isInside_gram hm) rfl (by simp [SparseMatrix.gram])
      (SparseMatrix.symmetric_gram hm) h

end Backend

namespace Elimination
variable {κ α : Type} [Key κ] [ExactScalar α] {b : Backend α} {g : Graph κ α} {layout : Layout κ}
  {v : Vec α}

theorem solveLeastSquares_qr (hb : b.Factorizes)
    (h : solveLeastSquares b .cholesky layout g = .ok v) :
    solveLeastSquares b .qr layout g = .ok v := by
  obtain ⟨s, hs, h⟩ := Result.bind_eq_ok.1 h
  refine Result.bind_eq_ok.2 ⟨s, hs, ?_⟩
  split_ifs at h ⊢ with hrows
  · cases h
  · obtain ⟨u, hin, h⟩ := Result.bind_eq_ok.1 h
    obtain ⟨x, hx, h⟩ := Result.bind_eq_ok.1 h
    refine Result.bind_eq_ok.2 ⟨u, hin, Result.bind_eq_ok.2 ⟨x, ?_, h⟩⟩
    rw [Result.ofExcept_eq_ok, checkInside_eq_ok] at hin
    exact hb.solveNormal hin hx

/-- With equality rows the factorization is the orthogonal one in any case. -/
theorem solveConstrained_qr (hb : b.Factorizes)
    (hsym : ∀ s, ConstrainedSystem.ofGraph layout g = .ok s → s.hessian.Symmetric)
    (h : solveConstrained b .cholesky layout g = .ok v) :
    solveConstrained b .qr layout g = .ok v := by
  obtain ⟨s, hs, h⟩ := Result.bind_eq_ok.1 h
  refine Result.bind_eq_ok.2 ⟨s, hs, ?_⟩
  split_ifs at h ⊢ with hrows
  · obtain ⟨u, hin, h⟩ := Result.bind_eq_ok.1 h
    obtain ⟨x, hx, h⟩ := Result.bind_eq_ok.1 h
    refine Result.bind_eq_ok.2 ⟨u, hin, Result.bind_eq_ok.2 ⟨x, ?_, h⟩⟩
    rw [Result.ofExcept_eq_ok, checkInside_eq_ok] at hin
    obtain ⟨-, hsquare⟩ := ConstrainedSystem.square_ofGraph hs
    exact hb.solveSystem hin (hsquare.linear.trans hsquare.rows.symm) (hsym s hs) hx
  · exact h

/-- Where the factorization for definite systems solves a problem with symmetric costs, the
orthogonal one gives the same answer. -/
theorem eliminate_qr (hb : b.Factorizes) (hg : g.Symmetric) {x : Assignment κ α}
    (h : eliminate b .cholesky g = .ok x) : eliminate b .qr g = .ok x := by
  obtain ⟨dims, hdims, h⟩ := Result.bind_eq_ok.1 h
  refine Result.bind_eq_ok.2 ⟨dims, hdims, ?_⟩
  rw [Result.mapCause_eq_ok, Result.ofExcept_eq_ok] at hdims
  dsimp only at h ⊢
  split_ifs at h ⊢ with htotal hsquares
  · exact h
  · obtain ⟨v, hv, h⟩ := Result.bind_eq_ok.1 h
    exact Result.bind_eq_ok.2 ⟨v, solveLeastSquares_qr hb hv, h⟩
  · obtain ⟨v, hv, h⟩ := Result.bind_eq_ok.1 h
    refine Result.bind_eq_ok.2 ⟨v, solveConstrained_qr hb (fun s hs => ?_) hv, h⟩
    -- the parts of the solution show that the dimensions add up without wrapping around
    obtain ⟨parts, hparts, -⟩ := Result.bind_eq_ok.1 h
    have hv' : solution b .cholesky (.ofDimensions dims) g = .ok v := by
      rw [solution, if_neg hsquares, hv]
    have hsize :=
      Layout.sumDims_lt_of_split? (Result.inRange_eq_ok.1 hparts) (length_solution hv').1
    exact symmetric_hessian hg hdims hsize hs

theorem reply_qr (hb : b.Factorizes) (hg : g.Symmetric) {x : Assignment κ α}
    (h : (reply b .cholesky g).result = .ok x) : reply b .qr g = reply b .cholesky g := by
  have hok : eliminate b .cholesky g = .ok x := h
  simp only [reply, hok, eliminate_qr hb hg hok]

end Elimination

namespace Solver
variable {κ α : Type} [Key κ]

/-- The solver that eliminates with sparse factorizations, with the one it is set to where there is
a choice. -/
def sparse [Scalar α] (b : Backend α) (singularValues : Matrix α → Option (Vec α))
    (config : Config α) (g : Graph κ α) : Solver κ α Unit where
  graph := g
  config := config
  eliminator := Elimination.sparse b config.linearSolver
  singularValues := singularValues

/-- The run with the factorization for definite systems is tracked, as long as it succeeds, by the
run with the orthogonal one. -/
theorem tracks_qr [ExactScalar α] {b : Backend α} (hb : b.Factorizes)
    (singularValues : Matrix α → Option (Vec α)) (config : Config α) {g : Graph κ α}
    (hg : g.Symmetric) :
    (sparse b singularValues { config with linearSolver := .cholesky } g).Tracks False
      ⟨id, fun _ => .qr⟩ id id (sparse b singularValues { config with linearSolver := .qr } g) where
  config := rfl
  checkWorkingSet := rfl
  restrict := rfl
  checkFeasible := rfl
  cost _ := (congrFun Except.map_id _).symm
  difference _ _ := rfl
  checkRank := rfl
  workingGraph w := by
    rw [Except.map_id]
    rfl
  stepSize := rfl
  participating := rfl
  dualGraph := rfl
  worstRow? := rfl
  statusOf := rfl
  primal w working state hw h := by
    obtain ⟨x, hx⟩ := h.resolve_left id
    rw [Solver.workingGraph, Result.mapCause_eq_ok, Result.ofExcept_eq_ok] at hw
    exact Prod.ext (Elimination.reply_qr hb (hg.workingGraph hw) hx) rfl
  dual w x dual state hdual h := by
    obtain ⟨duals, hduals⟩ := h.resolve_left id
    have hsym := Graph.symmetric_of_isLeastSquares (Graph.isLeastSquares_dualGraph hdual)
    exact Prod.ext (Elimination.reply_qr hb hsym hduals) rfl

/-- Whatever the problem, as long as its costs are symmetric: where the run with the factorization
for definite systems finds an optimum, the run with the orthogonal factorization finds the same
one, and observers see the same of both. -/
theorem factorizations_agree [ExactScalar α] {b : Backend α} (hb : b.Factorizes)
    (singularValues : Matrix α → Option (Vec α)) (config : Config α) {g : Graph κ α}
    (hg : g.Symmetric) (initial : Assignment κ α) (w : WorkingSet) {r : Optimum κ α}
    {st : RunState κ α Unit}
    (h : (sparse b singularValues { config with linearSolver := .cholesky } g).optimize
      initial w () = (.ok r, st)) :
    ∃ st', (sparse b singularValues { config with linearSolver := .qr } g).optimize initial w () =
      (.ok r, st') ∧ st'.notices = st.notices := by
  have hrun := (tracks_qr hb singularValues config hg).optimize initial w () (.inr ⟨r, by rw [h]⟩)
  rw [h, Except.map, Optimum.shift_eq_self rfl] at hrun
  exact ⟨_, hrun, st.notices_shift id rfl⟩

/-- The bounded parabola, from the outside of the empty working set to its optimum on the bound: one
definite system, one with an equality row, and one for the multiplier. -/
theorem halfLine_factorizations : ∃ r st st',
    (sparse Backend.byElimination halfLine.singularValues { halfLine.config with
      linearSolver := .cholesky } halfLine.graph).optimize (.single 0 0) .empty () = (.ok r, st) ∧
    r.solution = .single 0 1 ∧ r.duals = .single 1 2 ∧ r.iterations = 2 ∧
    (sparse Backend.byElimination halfLine.singularValues { halfLine.config with
      linearSolver := .qr } halfLine.graph).optimize (.single 0 0) .empty () = (.ok r, st') ∧
    st'.notices = st.notices := by
  have hrun : (match (sparse Backend.byElimination halfLine.singularValues { halfLine.config with
      linearSolver := .cholesky } halfLine.graph).optimize (.single 0 0) .empty () with
      | (.ok r, _) => decide (r.solution = .single 0 1 ∧ r.duals = .single 1 2 ∧ r.iterations = 2)
      | _ => false) = true := by decide +kernel
  split at hrun
  next r st hok =>
    obtain ⟨hsolution, hduals, hcount⟩ := of_decide_eq_true hrun
    obtain ⟨st', hqr, hnotices⟩ := factorizations_agree Backend.byElimination_factorizes
      halfLine.singularValues halfLine.config (Graph.parabola_symmetric _) (.single 0 0) .empty hok
    exact ⟨r, st, st', hok, hsolution, hduals, hcount, hqr, hnotices⟩
  next => cases hrun

end Solver

end GaussianProgram
