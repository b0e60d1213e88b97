import GaussianProgram.Proofs.Constraints
import GaussianProgram.Solver.Optimize

/-! Tables and small problems. An eliminator may answer from a table, so that a run over the
rational numbers can be followed to its end; a property of its answers is one of the entries of the
table. The problems of the examples that several modules have in common come after it. -/
namespace GaussianProgram

deriving instance DecidableEq for Matrix, LinearRows, QuadraticCost, Factor, Graph
deriving instance DecidableEq for Outcome, Optimum, Config, Progress, Report, Event

namespace Elimination
variable {κ α : Type} [Key κ] [DecidableEq α]

/-- The answer that a table has for a graph. A graph that is not in the table counts as singular. -/
def lookup (table : List (Graph κ α × Assignment κ α)) (g : Graph κ α) : Reply κ α :=
  match table.find? fun e => decide (e.1 = g) with
  | some e => ⟨.ok e.2, []⟩
  | none => ⟨.error (.cause .singularMatrix), [.linear .singularMatrix]⟩

theorem mem_of_lookup {table : List (Graph κ α × Assignment κ α)} {g : Graph κ α}
    {x : Assignment κ α} (h : (lookup table g).result = .ok x) : (g, x) ∈ table := by
  unfold lookup at h
  split at h
  next e he =>
    cases h
    have hfound := List.find?_some he
    rw [decide_eq_true_eq] at hfound
    exact hfound ▸ List.mem_of_find?_eq_some he
  next => cases h

def table (primal : List (Graph κ α × Assignment κ α))
    (dual : List (Graph ℕ α × Assignment ℕ α)) : Eliminator κ α Unit where
  primal g _ := (lookup primal g, ())
  dual g _ := (lookup dual g, ())

end Elimination

/-! ### Shared problems -/

def Matrix.single (a : ℚ) : Matrix ℚ := ⟨1, 1, #[a], rfl⟩

def Assignment.single (k : ℕ) (a : ℚ) : Assignment ℕ ℚ := SortedMap.ofList [(k, [a])]

/-- One row that compares the variable `k` with `b`; without a kind it is a least-squares cost. -/
def LinearRows.single (k : ℕ) (b : ℚ) (kind : Option RowKind) : LinearRows ℕ ℚ where
  terms := [(k, Matrix.single 1)]
  rhs := [b]
  kinds := kind.map ([·])
  terms_ne_nil := List.cons_ne_nil _ _
  keys_nodup := List.nodup_singleton k
  block_rows := by simp [Matrix.single]
  kinds_length := by simp

/-- The cost `x² - 4x` of the variable `0`. -/
def QuadraticCost.parabola : QuadraticCost ℕ ℚ where
  keyDims := [(0, 1)]
  information := Matrix.single 2
  linear := [4]
  constant := 0
  keys_nodup := List.nodup_singleton 0
  rows_eq := rfl
  cols_eq := rfl
  length_eq := rfl

theorem QuadraticCost.curvature_parabola (d : Point ℕ ℚ) :
    QuadraticCost.parabola.curvature d = 2 * (d 0 0 * d 0 0) := by
  simp [curvature, image, parabola, Matrix.single, Matrix.get, stackOf, Vec.get]
  ring

theorem LinearRows.form_single (k : ℕ) (b : ℚ) (kind : Option RowKind) (v : Point ℕ ℚ) :
    (LinearRows.single k b kind).form 0 v = v k 0 := by
  simp [form_apply, rowSum, single, Matrix.single, Matrix.get]

/-- Two variables that share a budget of two, of which the first is bounded by an inequality row. -/
def LinearRows.budget (a b bound : ℚ) : LinearRows ℕ ℚ where
  terms := [(0, ⟨2, 1, #[1, a], rfl⟩), (1, ⟨2, 1, #[1, b], rfl⟩)]
  rhs := [2, bound]
  kinds := some [.equality, .inequality]
  terms_ne_nil := List.cons_ne_nil _ _
  keys_nodup := by simp
  block_rows := by simp
  kinds_length := by simp

theorem LinearRows.form_budget (a b bound : ℚ) (v : Point ℕ ℚ) :
    (budget a b bound).form 0 v = v 0 0 + v 1 0 := by
  simp [form_apply, rowSum, budget, Matrix.get]

namespace Graph

/-- An assignment of one number fits a graph whose factors have no other variable. -/
theorem fits_single {g : Graph ℕ ℚ} {k : ℕ} (hne : g.factors ≠ [])
    (h : ∀ f ∈ g.factors, f.keyDims = [(k, 1)]) (a : ℚ) : g.Fits (.single k a) := by
  have hget : (Assignment.single k a).get? k = some [a] := SortedMap.lookup_cons_self k [a] []
  refine ⟨fun f hf => ?_, fun k' hk => ?_⟩
  · rw [h f hf, Assignment.hasDims_cons]
    exact ⟨by rw [Assignment.dim?, hget]; rfl, Assignment.hasDims_nil _⟩
  · obtain ⟨f, hf⟩ := List.exists_mem_of_ne_nil _ hne
    cases List.mem_singleton.1 (show k' ∈ [k] from hk)
    exact ⟨f, hf, by simp [Factor.keys, h f hf]⟩

def parabola (rows : List (LinearRows ℕ ℚ)) : Graph ℕ ℚ :=
  ⟨.quadratic .parabola :: rows.map .linear⟩

def budgeted (a b bound : ℚ) : Graph ℕ ℚ := parabola [.single 1 3 none, .budget a b bound]

def capped : Graph ℕ ℚ := .parabola [.budget 1 0 5, .single 1 4 (some .inequality)]

theorem parabola_symmetric (rows : List (LinearRows ℕ ℚ)) : (parabola rows).Symmetric := by
  intro f hf
  obtain rfl : f = .parabola := by simpa [parabola] using hf
  intro i hi j hj
  obtain rfl : i = 0 := Nat.lt_one_iff.1 hi
  obtain rfl : j = 0 := Nat.lt_one_iff.1 hj
  rfl

theorem parabola_positiveSemidefinite (rows : List (LinearRows ℕ ℚ)) :
    (parabola rows).PositiveSemidefinite := by
  intro d
  apply List.sum_nonneg
  intro a ha
  obtain ⟨f, hf, rfl⟩ := List.mem_map.1 ha
  rcases List.mem_cons.1 hf with rfl | hf
  · change 0 ≤ QuadraticCost.parabola.curvature d
    rw [QuadraticCost.curvature_parabola]
    exact mul_nonneg zero_le_two (mul_self_nonneg _)
  · obtain ⟨c, -, rfl⟩ := List.mem_map.1 hf
    exact c.curvature_nonneg d

end Graph

/-- Solution of dense equations in `n` unknowns, with right-hand sides at the end of the rows. Every
unknown is solved for by the first equation that has it, and leaves the others. -/
def Vec.solveDense : ℕ → List (Vec ℚ) → Option (Vec ℚ)
  | 0, _ => some []
  | n + 1, equations => do
    let pivot ← equations.find? fun r => Vec.get r 0 ≠ 0
    let x ← solveDense n ((equations.erase pivot).map fun r =>
      (Vec.sub r (Vec.scale pivot (Vec.get r 0 / Vec.get pivot 0))).tail)
    return (Vec.get pivot (n + 1) - Vec.dot (pivot.tail.take n) x) / Vec.get pivot 0 :: x

/-- The backend of fractions, which answers with what it has seen to solve the system. -/
def Backend.rational : Backend ℚ where
  cholesky := solve
  qr := solve
where
  solve (m : SparseMatrix ℚ) (rhs : Vec ℚ) : Result LinearError (SystemSolution ℚ m) :=
    match Vec.solveDense m.cols ((List.range m.rows).map fun i =>
      (List.range m.cols).map (m.get i) ++ [Vec.get rhs i]) with
    | none => Result.fail .singularMatrix
    | some x =>
      if h : x.length = m.cols ∧ m.mulVec x = rhs then .ok ⟨x, h.1⟩
      else Result.fail .singularMatrix

namespace Solver

/-- The least value of the parabola for `x ≤ 1`. Without the row the answer is `2`, which it blocks;
with it the answer is `1`, and the multiplier of the row is `2`. -/
def halfLine : Solver ℕ ℚ Unit where
  graph := .parabola [.single 0 1 (some .inequality)]
  config := { Config.default with feasibilityTolerance := 0 }
  eliminator := Elimination.table
    [(.parabola [], .single 0 2), (.parabola [.single 0 1 (some .equality)], .single 0 1)]
    [(⟨[.linear (.single 1 2 none)]⟩, .single 1 2)]
  singularValues m := some (List.replicate m.rows 1)

/-- From `0` and the empty working set the run moves to the bound and converges there. -/
theorem halfLine_converges : ∃ optimum,
    (halfLine.optimize (.single 0 0) WorkingSet.empty ()).1 = .ok optimum ∧
      optimum.solution = .single 0 1 ∧ optimum.finalCost = -3 ∧ optimum.iterations = 2 :=
  ⟨⟨.single 0 1, .single 1 2, .ofRows [⟨1, 0⟩], .converged, 0, -3, 2⟩, by decide +kernel,
    rfl, rfl, rfl⟩

/-- The least value of the parabola for `x ≤ 3`. The multiplier of the row is `-2`, and without it
the answer is `2`. -/
def looseHalfLine : Solver ℕ ℚ Unit :=
  { halfLine with
    graph := .parabola [.single 0 3 (some .inequality)]
    eliminator := Elimination.table
      [(.parabola [], .single 0 2), (.parabola [.single 0 3 (some .equality)], .single 0 3)]
      [(⟨[.linear (.single 1 (-2) none)]⟩, .single 1 (-2))] }

def twoBounds : Solver ℕ ℚ Unit :=
  { halfLine with
    graph := .parabola [.single 0 1 (some .inequality), .single 0 3 (some .inequality)] }

end Solver

end GaussianProgram
