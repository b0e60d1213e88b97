import GaussianProgram.Proofs.Agreement
import GaussianProgram.Proofs.Definite

/-! Verification of solutions. Whatever a backend answers, an elimination gives out only what is
finite and nearly stationary for the graph itself: the residual of the assembled system is the
gradient with the pull of the equality rows, and what these rows miss. An exact solution passes. -/
namespace GaussianProgram
open Finset (range)

section Norms
variable {α : Type} [ExactScalar α]

def Vec.euclidean (v : Vec α) : α :=
  Scalar.sqrt (∑ i ∈ range v.length, Vec.get v i * Vec.get v i)

theorem Vec.norm_eq (v : Vec α) : Vec.norm v = v.euclidean := by
  rw [norm, normSq, inner_eq rfl, euclidean]

/-- Frobenius norm: the root of the sum of the squares over all places of the shape. -/
def SparseMatrix.euclidean (m : SparseMatrix α) : α :=
  Scalar.sqrt (∑ i ∈ range m.rows, ∑ j ∈ range m.cols, m.get i j * m.get i j)

/-- The norm taken over stored entries is that over all places, if the entries lie inside. -/
theorem SparseMatrix.frobenius_eq {m : SparseMatrix α} (hm : m.isInside = true) :
    m.frobenius = m.euclidean := by
  have hget (e : (ℕ × ℕ) × α) (he : e ∈ m.entries.toList) : m.get e.1.1 e.1.2 = e.2 := by
    rw [get, SortedMap.get?_eq_some_iff.2 he, Option.getD_some]
  have hrow (i : ℕ) : ∑ j ∈ range m.cols, m.get i j * m.get i j =
      ((m.entries.toList.filter (·.1.1 == i)).map fun e => e.2 * e.2).sum := by
    rw [← rowForm_eq_sum hm, rowForm]
    refine congrArg List.sum (List.map_congr_left fun e he => ?_)
    obtain ⟨he, hi⟩ := List.mem_filter.1 he
    rw [← eq_of_beq hi, hget e he]
  have hsquares := sum_filter_mul (fun e he => (isInside_iff.1 hm e he).1)
    (fun e : (ℕ × ℕ) × α => e.2 * e.2) 1
  simp only [Pi.one_apply, mul_one] at hsquares
  rw [frobenius, euclidean, Vec.sum_eq, SortedMap.values, List.map_map,
    Finset.sum_congr rfl fun i _ => hrow i, hsquares]
  rfl

end Norms

namespace Elimination

section Finite
variable {κ α : Type} [Key κ] [Scalar α] {b : Backend α} {kind : SolverKind} {g : Graph κ α}
  {v : Vec α}

theorem isFinite_of_verify {residual scale : α} (h : verify v residual scale = .ok ()) :
    ∀ a ∈ v, Scalar.isFinite a = true := by
  unfold verify at h
  split_ifs at h with hfinite
  rw [Bool.not_eq_true, Bool.not_eq_false'] at hfinite
  exact List.all_eq_true.1 hfinite

theorem isFinite_of_solution {layout : Layout κ} (h : solution b kind layout g = .ok v) :
    ∀ a ∈ v, Scalar.isFinite a = true := by
  unfold solution at h
  split_ifs at h
  · obtain ⟨s, -, -, -, x, -, hverify, rfl⟩ := solveLeastSquares_eq_ok.1 h
    exact isFinite_of_verify hverify
  · obtain ⟨s, -, ⟨-, -, x, -, hverify, rfl⟩ | ⟨-, -, x, -, hverify, rfl⟩⟩ :=
      solveConstrained_eq_ok.1 h
    · exact isFinite_of_verify hverify
    · exact fun a ha => isFinite_of_verify hverify a (List.mem_of_mem_take ha)

/-- All entries of an answer are finite. -/
theorem isFinite_of_eliminate {dims : SortedMap κ ℕ} (hdims : g.keyDimensions = .ok dims)
    (hpos : 0 < sumDims dims.values % UInt64.size) {x : Assignment κ α}
    (h : eliminate b kind g = .ok x) : ∀ u ∈ x.values, Vec.isFinite u = true := by
  obtain ⟨v, parts, hv, hsplit, rfl⟩ := eliminate_solution hdims hpos h
  intro u hu
  obtain ⟨e, he, rfl⟩ := List.mem_map.1 hu
  have hget := SortedMap.get?_eq_some_iff.2 he
  rcases Layout.get?_of_split? hsplit e.1 with ⟨-, hnone⟩ | ⟨s, part, -, hpart, hslice⟩
  · cases hnone.symm.trans hget
  · cases hpart.symm.trans hget
    refine List.all_eq_true.2 fun a ha => isFinite_of_solution hv a ?_
    unfold Vec.slice at hslice
    split_ifs at hslice
    rw [← Option.some.inj hslice] at ha
    exact List.mem_of_mem_drop (List.mem_of_mem_take ha)

end Finite

section Check
variable {α : Type} [ExactScalar α] {v : Vec α}

/-- A residual that an answer may have beside a system of the given size. -/
def Small (residual : Vec α) (scale : α) : Prop :=
  residual.euclidean ≤ 1 / 10 ^ 8 * (1 + scale)

theorem verify_eq_ok {residual : Vec α} {scale : α} :
    verify v residual.euclidean scale = .ok () ↔ Vec.isFinite v = true ∧
      Scalar.isFinite residual.euclidean = true ∧ Small residual scale := by
  have htolerance : (residualTolerance : α) = 1 / 10 ^ 8 := by
    refine (ExactScalar.ofScientific_eq 1 true 8).trans ?_
    norm_num
  rw [verify, htolerance, Small, ← not_lt]
  cases Vec.isFinite v with
  | false => simp
  | true => cases Scalar.isFinite residual.euclidean <;> simp

theorem verifySystem_eq_ok {s : LinearSystem α} (hin : s.matrix.isInside = true) :
    verifySystem s v = .ok () ↔ Vec.isFinite v = true ∧
      Scalar.isFinite (Vec.sub (s.matrix.mulVec v) s.rhs).euclidean = true ∧
        Small (Vec.sub (s.matrix.mulVec v) s.rhs)
          (s.rhs.euclidean + s.matrix.euclidean * v.euclidean) := by
  simp only [verifySystem, Vec.norm_eq, SparseMatrix.frobenius_eq hin]
  exact verify_eq_ok

theorem verifyLeastSquares_eq_ok {t : LeastSquaresSystem α} (hin : t.jacobian.isInside = true) :
    verifyLeastSquares t v = .ok () ↔ Vec.isFinite v = true ∧
      Scalar.isFinite (t.jacobian.transposeMulVec
        (Vec.sub (t.jacobian.mulVec v) t.rhs)).euclidean = true ∧
        Small (t.jacobian.transposeMulVec (Vec.sub (t.jacobian.mulVec v) t.rhs))
          ((t.jacobian.transposeMulVec t.rhs).euclidean +
            t.jacobian.euclidean * t.jacobian.euclidean * v.euclidean) := by
  simp only [verifyLeastSquares, Vec.norm_eq, SparseMatrix.frobenius_eq hin]
  exact verify_eq_ok

end Check

end Elimination

namespace Graph
variable {κ α : Type} [Key κ] [ExactScalar α]

/-- The equality rows, weighed by one multiplier each in their order, as a derivative by
every entry. -/
def pull (g : Graph κ α) (ν : Vec α) : Point κ α := fun k j =>
  ((g.rowsOfKind .equality).zipIdx.map fun e =>
    Vec.get ν e.2 * g.rowForm e.1 (unitPoint k j)).sum

/-- What the equality rows miss, in their order: their values minus their right-hand sides. -/
def Misses (g : Graph κ α) (x : Assignment κ α) (excess : Vec α) : Prop :=
  List.Forall₂ (fun r e => g.rowSlack r x = .ok (-e)) (g.rowsOfKind .equality) excess

end Graph

namespace Assignment
variable {κ α : Type} [Key κ] [ExactScalar α] {dims : SortedMap κ ℕ}

/-- What follows the stacked variables is not read. -/
theorem reads_stacked_append (hsize : sumDims dims.values < UInt64.size) {x : Assignment κ α}
    (hx : ∀ k, x.dim? k = dims.get? k) (v : Vec α) :
    (Layout.ofDimensions dims).Reads (Vec.get (x.stacked ++ v)) x.entries := by
  refine Layout.reads_congr hsize (reads_stacked hx hsize) fun i hi => ?_
  rw [get_append, if_pos ((length_stacked_total hx hsize).symm ▸ hi)]

/-- The parts of a vector are stacked to the vector itself. -/
theorem stacked_of_split? {v : Vec α} {parts : List (κ × Vec α)}
    (h : (Layout.ofDimensions dims).split? v = some parts)
    (hv : v.length = (Layout.ofDimensions dims).total) :
    stacked (SortedMap.ofList parts) = v := by
  have hsize := Layout.sumDims_lt_of_split? h hv.le
  obtain ⟨x, hsplit, hstacked, -⟩ :=
    Layout.exists_restacked (Layout.consecutive_ofDimensions hsize) hv
  rw [h, Option.map_some, Option.some.injEq] at hsplit
  rw [hsplit, hstacked]

end Assignment

/-- A vector whose products with all weights are known is known entry by entry. -/
theorem Vec.eq_stackOf {κ α : Type} [Key κ] [ExactScalar α] {dims : SortedMap κ ℕ}
    (hsize : sumDims dims.values < UInt64.size) {v : Vec α}
    (hv : v.length = (Layout.ofDimensions dims).total) {L : Point κ α → α}
    (h : ∀ u d, (Layout.ofDimensions dims).Reads u d → v.against u = L d) :
    v = stackOf dims.toList fun k j => L (unitPoint k j) := by
  have hlength (q : Point κ α) : v.length = (stackOf dims.toList q).length := by
    rw [hv, Layout.total_ofDimensions hsize, length_stackOf, SortedMap.values]
  obtain ⟨q, hq⟩ := (Layout.ofDimensions dims).exists_reads (Vec.get v)
  have hvq : v = stackOf dims.toList q :=
    Vec.ext_get (hlength q) fun i hi => hq.eq_stackOf hsize (hv ▸ hi)
  refine hvq.trans (stackOf_ext fun e he j hj => ?_)
  have hkeys : (dims.toList.map (·.1)).Nodup := dims.nodup_keys
  rw [← h _ _ (Layout.reads_stackOf hsize (unitPoint e.1 j)), hvq, Vec.against, length_stackOf,
    sum_stackOf, sum_map_eq_single hkeys he]
  · rw [Finset.sum_eq_single_of_mem j (Finset.mem_range.2 hj)]
    · simp [unitPoint]
    · intro i _ hne
      simp [unitPoint, Pi.single_eq_of_ne hne]
  · intro e' _ hne
    simp [unitPoint, Pi.single_eq_of_ne hne]

theorem stackOf_add {κ α : Type} [ExactScalar α] (dims : List (κ × ℕ)) (p q : Point κ α) :
    stackOf dims (p + q) = Vec.add (stackOf dims p) (stackOf dims q) := by
  induction dims with
  | nil => rfl
  | cons e dims ih =>
    rw [stackOf, stackOf, stackOf, ih, Vec.add, Vec.add, List.zipWith_append (by simp),
      List.zipWith_map, List.zipWith_self]
    rfl

namespace ConstrainedSystem
variable {κ α : Type} [Key κ] [ExactScalar α] {g : Graph κ α} {dims : SortedMap κ ℕ}
  {s : ConstrainedSystem α} {x grad : Assignment κ α}

/-- The rows of the system, without their right-hand sides, are what they miss. -/
theorem AgreesAt.misses (h : s.AgreesAt g x grad) :
    g.Misses x (Vec.sub (s.constraints.mulVec x.stacked) s.rhs) := by
  refine h.rows.imp ?_
  rintro r excess ⟨c, value, b, hc, hvalue, hb, rfl⟩
  rw [Graph.rowSlack, hc, Result.inRange_some, neg_sub]
  simp only [bind, Except.bind, hb, hvalue]
  rfl

variable (hdims : g.keyDimensions = .ok dims) (hsize : sumDims dims.values < UInt64.size)
  (hs : ofGraph (Layout.ofDimensions dims) g = .ok s)
include hdims hsize hs

theorem length_rhs : s.rhs.length = (g.rowsOfKind .equality).length := by
  rw [(assembles hdims hsize hs).rows.rhs, Graph.equations_eq, List.length_map, List.length_map]

theorem isInside_constraints : s.constraints.isInside = true := by
  obtain ⟨hr, hc⟩ := shape_constraints hs
  rw [SparseMatrix.isInside_iff_within, hr, hc]
  exact (inside_ofGraph hs (Graph.places_keyDims hdims hsize)).constraints

theorem isInside_stationarity : s.stationarity.matrix.isInside = true :=
  (inside_ofGraph hs (Graph.places_keyDims hdims hsize)).stationarity (square_ofGraph hs).2.linear

/-- The transposed rows take multipliers to their pull. -/
theorem transposeMulVec_constraints (ν : Vec α) :
    s.constraints.transposeMulVec ν = stackOf dims.toList (g.pull ν) := by
  have hlength : (s.constraints.transposeMulVec ν).length = (Layout.ofDimensions dims).total := by
    rw [SparseMatrix.length_transposeMulVec, (shape_constraints hs).2]
  have hrows := (assembles hdims hsize hs).rows
  rw [Graph.equations_eq] at hrows
  refine Vec.eq_stackOf hsize hlength
    (L := fun d => ((g.rowsOfKind .equality).zipIdx.map fun e =>
      Vec.get ν e.2 * g.rowForm e.1 d).sum) fun u d hu => ?_
  rw [SparseMatrix.against_transposeMulVec (isInside_constraints hdims hsize hs),
    hrows.form _ u d hu, List.zipIdx_map, List.map_map]
  rfl

variable (hx : g.Fits x)
include hx

/-- The rows weighed by `y`, at whatever reads the assignment. -/
theorem form_constraints {w : ℕ → α} (hw : (Layout.ofDimensions dims).Reads w x.entries)
    (y : ℕ → α) : s.constraints.form y w = (s.constraints.mulVec x.stacked).against y := by
  have hrows := (assembles hdims hsize hs).rows
  rw [SparseMatrix.against_mulVec (isInside_constraints hdims hsize hs), hrows.form y _ _ hw,
    hrows.form y _ _ (Assignment.reads_stacked (hx.dim?_eq hdims) hsize)]

variable (hgrad : g.gradient x = .ok grad)
include hgrad

/-- The second derivatives, at whatever reads the assignment, are the gradient there and the
linear term. -/
theorem form_hessian {w : ℕ → α} (hw : (Layout.ofDimensions dims).Reads w x.entries)
    (u : ℕ → α) : s.hessian.form u w = grad.stacked.against u + s.linear.against u := by
  have hassembles := assembles hdims hsize hs
  have hsquare := (square_ofGraph hs).2
  have hlength : (s.hessian.mulVec x.stacked).length = s.linear.length := by
    rw [SparseMatrix.length_mulVec, hsquare.rows, hsquare.linear]
  obtain ⟨d, hu⟩ := (Layout.ofDimensions dims).exists_reads u
  rw [← (agreesAt hdims hsize hs hx hgrad).gradient, Vec.against_sub hlength, sub_add_cancel,
    SparseMatrix.against_mulVec (isInside_hessian hdims hsize hs), hassembles.hessian hu hw,
    hassembles.hessian hu (Assignment.reads_stacked (hx.dim?_eq hdims) hsize)]

/-- The residual of the stationarity system is the gradient with the pull of the multipliers, and
below it what the rows miss. -/
theorem residual_stationarity (ν : Vec α) :
    Vec.sub (s.stationarity.matrix.mulVec (x.stacked ++ ν)) s.stationarity.rhs =
      stackOf dims.toList (grad.entries + g.pull ν) ++
        Vec.sub (s.constraints.mulVec x.stacked) s.rhs := by
  have hlinear := (square_ofGraph hs).2.linear
  obtain ⟨⟨_, hdims', hshape⟩, -⟩ := Graph.gradient_spec hgrad
  cases hdims.symm.trans hdims'
  have hstacked := (Assignment.length_stacked_total (hx.dim?_eq hdims) hsize).trans hlinear.symm
  have hgradient := (Assignment.length_stacked_total hshape hsize).trans hlinear.symm
  have hpull : (s.constraints.transposeMulVec ν).length = s.linear.length := by
    rw [SparseMatrix.length_transposeMulVec, (shape_constraints hs).2, hlinear]
  have hmul : (s.constraints.mulVec x.stacked).length = s.rhs.length := by
    rw [SparseMatrix.length_mulVec, (shape_constraints hs).1]
  have hproduct : (s.stationarity.matrix.mulVec (x.stacked ++ ν)).length =
      s.stationarity.rhs.length := by
    rw [SparseMatrix.length_mulVec, s.shape_stationarity.1]
  have hupper : (Vec.add grad.stacked (s.constraints.transposeMulVec ν)).length =
      s.linear.length := by
    rw [Vec.length_add, hgradient, hpull, min_self]
  have hlength : (Vec.sub (s.stationarity.matrix.mulVec (x.stacked ++ ν))
      s.stationarity.rhs).length = (Vec.add grad.stacked (s.constraints.transposeMulVec ν) ++
        Vec.sub (s.constraints.mulVec x.stacked) s.rhs).length := by
    rw [List.length_append, hupper, Vec.length_sub, Vec.length_sub, hmul, hproduct, min_self,
      min_self]
    exact List.length_append
  have hreads := Assignment.reads_stacked_append hsize (hx.dim?_eq hdims) ν
  have htail : (fun i => Vec.get (x.stacked ++ ν) (s.linear.length + i)) = Vec.get ν := by
    funext i
    rw [get_append, hstacked, if_neg (by omega), Nat.add_sub_cancel_left]
  rw [stackOf_add, ← Assignment.stacked_eq hshape, ← transposeMulVec_constraints hdims hsize hs]
  -- against all weights both sides are the same sum of forms
  refine Vec.ext_get hlength fun i hi => ?_
  rw [← Vec.against_single hi, ← Vec.against_single (hlength ▸ hi)]
  generalize (Pi.single i 1 : ℕ → α) = u
  have hrhs : s.stationarity.rhs.against u =
      s.linear.against u + s.rhs.against fun i => u (s.linear.length + i) :=
    Vec.against_append _ _ _
  rw [Vec.against_sub hproduct,
    SparseMatrix.against_mulVec (isInside_stationarity hdims hsize hs), form_stationarity, htail,
    form_hessian hdims hsize hs hx hgrad hreads, form_constraints hdims hsize hs hx hreads, hrhs,
    Vec.against_append, hupper, Vec.against_sub hmul, Vec.against_add (hgradient.trans hpull.symm),
    SparseMatrix.against_transposeMulVec (isInside_constraints hdims hsize hs)]
  ring

end ConstrainedSystem

namespace Elimination
variable {κ α : Type} [Key κ] [ExactScalar α] {b : Backend α} {kind : SolverKind} {g : Graph κ α}
  {dims : SortedMap κ ℕ} {x grad : Assignment κ α}

/-- What is known of an answer. The gradient is small beside the system that was solved, or, where
there are equality rows, the gradient with their pull by some multipliers and what they miss. -/
inductive Verified (g : Graph κ α) (dims : SortedMap κ ℕ) (x grad : Assignment κ α) : Prop
  | leastSquares (t : LeastSquaresSystem α) (hg : g.isLeastSquares = true)
    (ht : LeastSquaresSystem.ofGraph (.ofDimensions dims) g = .ok t)
    (h : Small grad.stacked ((t.jacobian.transposeMulVec t.rhs).euclidean +
      t.jacobian.euclidean * t.jacobian.euclidean * x.stacked.euclidean))
  | unconstrained (s : ConstrainedSystem α) (hg : g.isLeastSquares = false)
    (hrows : g.rowsOfKind .equality = [])
    (hs : ConstrainedSystem.ofGraph (.ofDimensions dims) g = .ok s)
    (h : Small grad.stacked (s.linear.euclidean + s.hessian.euclidean * x.stacked.euclidean))
  | constrained (s : ConstrainedSystem α) (ν excess : Vec α) (hrows : g.rowsOfKind .equality ≠ [])
    (hs : ConstrainedSystem.ofGraph (.ofDimensions dims) g = .ok s)
    (hmisses : g.Misses x excess) (hν : ν.length = excess.length)
    (h : Small (stackOf dims.toList (grad.entries + g.pull ν) ++ excess)
      ((s.linear ++ s.rhs).euclidean +
        s.stationarity.matrix.euclidean * (x.stacked ++ ν).euclidean))

section Ways
variable (hdims : g.keyDimensions = .ok dims) (hsize : sumDims dims.values < UInt64.size)
  (hx : g.Fits x) (hgrad : g.gradient x = .ok grad)
include hdims hsize hx hgrad

theorem verified_leastSquares {t : LeastSquaresSystem α} (hg : g.isLeastSquares = true)
    (ht : LeastSquaresSystem.ofGraph (.ofDimensions dims) g = .ok t)
    (hrows : t.rhs.length ≤ UInt64.size) (h : verifyLeastSquares t x.stacked = .ok ()) :
    Verified g dims x grad := by
  have hin := LeastSquaresSystem.isInside_ofGraph ht (Graph.places_keyDims hdims hsize)
  have hagrees := LeastSquaresSystem.agreesAt hg hdims hsize ht hrows hx hgrad
  obtain ⟨-, -, hsmall⟩ := (verifyLeastSquares_eq_ok hin).1 h
  rw [hagrees.gradient] at hsmall
  exact .leastSquares t hg ht hsmall

variable {s : ConstrainedSystem α} (hs : ConstrainedSystem.ofGraph (.ofDimensions dims) g = .ok s)
include hs

theorem verified_unconstrained (hg : g.isLeastSquares = false) (hrhs : s.rhs = [])
    (h : verifySystem s.unconstrained x.stacked = .ok ()) : Verified g dims x grad := by
  have hlength := ConstrainedSystem.length_rhs hdims hsize hs
  rw [hrhs] at hlength
  have hagrees := ConstrainedSystem.agreesAt hdims hsize hs hx hgrad
  obtain ⟨-, -, hsmall⟩ :=
    (verifySystem_eq_ok (ConstrainedSystem.isInside_hessian hdims hsize hs)).1 h
  rw [ConstrainedSystem.unconstrained, hagrees.gradient] at hsmall
  exact .unconstrained s hg (List.eq_nil_of_length_eq_zero hlength.symm) hs hsmall

theorem verified_constrained (hrhs : s.rhs ≠ []) {ν : Vec α} (hν : ν.length = s.rhs.length)
    (h : verifySystem s.stationarity (x.stacked ++ ν) = .ok ()) : Verified g dims x grad := by
  have hlength := ConstrainedSystem.length_rhs hdims hsize hs
  have hmisses := (ConstrainedSystem.agreesAt hdims hsize hs hx hgrad).misses
  obtain ⟨-, -, hsmall⟩ :=
    (verifySystem_eq_ok (ConstrainedSystem.isInside_stationarity hdims hsize hs)).1 h
  rw [ConstrainedSystem.residual_stationarity hdims hsize hs hx hgrad] at hsmall
  refine .constrained s ν _ (fun hnil => hrhs ?_) hs hmisses ?_ hsmall
  · rw [hnil] at hlength
    exact List.eq_nil_of_length_eq_zero hlength
  · rw [hν, hlength, hmisses.length_eq]

end Ways

/-- Every answer of positive dimension is verified. -/
theorem verified_of_eliminate (hdims : g.keyDimensions = .ok dims)
    (hpos : 0 < sumDims dims.values % UInt64.size) (h : eliminate b kind g = .ok x) :
    ∃ grad, g.gradient x = .ok grad ∧ Verified g dims x grad := by
  obtain ⟨v, parts, hv, hsplit, rfl⟩ := eliminate_solution hdims hpos h
  obtain ⟨hsize, hfits, grad, hgrad⟩ := fits_of_solution hdims hv hsplit
  refine ⟨grad, hgrad, ?_⟩
  unfold solution at hv
  split_ifs at hv with hg
  · obtain ⟨t, ht, -, -, y, hy, hverify, rfl⟩ := solveLeastSquares_eq_ok.1 hv
    obtain ⟨hr, hc⟩ := LeastSquaresSystem.shape_ofGraph ht
    have hrows : t.rhs.length < maxLength := hr ▸ (Backend.solveNormal_ok hy).1
    rw [← Assignment.stacked_of_split? hsplit (y.property.trans hc)] at hverify
    exact verified_leastSquares hdims hsize hfits hgrad hg ht (hrows.le.trans (by decide)) hverify
  · obtain ⟨s, hs, ⟨hrhs, -, y, -, hverify, rfl⟩ | ⟨hrhs, -, y, -, hverify, rfl⟩⟩ :=
      solveConstrained_eq_ok.1 hv
    · have hlinear := (ConstrainedSystem.square_ofGraph hs).2.linear
      rw [← Assignment.stacked_of_split? hsplit (y.property.trans hlinear)] at hverify
      exact verified_unconstrained hdims hsize hfits hgrad hs (Bool.not_eq_true _ ▸ hg) hrhs hverify
    · have hlinear := (ConstrainedSystem.square_ofGraph hs).2.linear
      have hlength : y.val.length = (Layout.ofDimensions dims).total + s.rhs.length := by
        rw [y.property, ← hlinear]
        exact List.length_append
      rw [← List.take_append_drop (Layout.ofDimensions dims).total y.val,
        ← Assignment.stacked_of_split? hsplit (by simp [hlength])] at hverify
      exact verified_constrained hdims hsize hfits hgrad hs hrhs (by simp [hlength]) hverify

end Elimination

section Exact
variable {α : Type} [ExactScalar α]

/-- Square roots and finiteness as far as the check of an exact solution needs them. -/
structure Rooted (α : Type) [ExactScalar α] : Prop where
  nonneg : ∀ a : α, 0 ≤ a → 0 ≤ Scalar.sqrt a
  zero : Scalar.sqrt (0 : α) = 0
  finite : Scalar.isFinite (0 : α) = true

theorem Vec.euclidean_sub_self (hα : Rooted α) (v : Vec α) : (sub v v).euclidean = 0 := by
  rw [euclidean, Finset.sum_eq_zero, hα.zero]
  intro i hi
  have hi : i < v.length := by simpa using hi
  rw [get_sub hi hi, sub_self, mul_zero]

theorem Vec.euclidean_nonneg (hα : Rooted α) (v : Vec α) : 0 ≤ v.euclidean :=
  hα.nonneg _ (Finset.sum_nonneg fun _ _ => mul_self_nonneg _)

theorem SparseMatrix.euclidean_nonneg (hα : Rooted α) (m : SparseMatrix α) : 0 ≤ m.euclidean :=
  hα.nonneg _ (Finset.sum_nonneg fun _ _ => Finset.sum_nonneg fun _ _ => mul_self_nonneg _)

/-- The product of the transpose is additive. -/
theorem SparseMatrix.transposeMulVec_sub {m : SparseMatrix α} (hm : m.isInside = true) {v w : Vec α}
    (hv : v.length = m.rows) (hw : w.length = m.rows) : m.transposeMulVec (Vec.sub v w) =
      Vec.sub (m.transposeMulVec v) (m.transposeMulVec w) := by
  have hlength : (m.transposeMulVec v).length = (m.transposeMulVec w).length := by simp
  refine Vec.ext_get (by simp) fun j hj => ?_
  have hj : j < m.cols := by simpa using hj
  rw [← Vec.against_single (by simpa using hj), ← Vec.against_single (by simpa using hj),
    Vec.against_sub hlength, against_transposeMulVec hm, against_transposeMulVec hm,
    against_transposeMulVec hm, ← sum_rowForm hm, ← sum_rowForm hm, ← sum_rowForm hm,
    ← Finset.sum_sub_distrib]
  refine Finset.sum_congr rfl fun i hi => ?_
  have hi := Finset.mem_range.1 hi
  rw [Vec.get_sub (hv ▸ hi) (hw ▸ hi), mul_sub]

namespace Elimination

theorem small_sub_self (hα : Rooted α) (v : Vec α) {scale : α} (hscale : 0 ≤ scale) :
    Small (Vec.sub v v) scale := by
  rw [Small, Vec.euclidean_sub_self hα]
  positivity

/-- A finite solution passes the check. -/
theorem verifySystem_of_solution (hα : Rooted α) {s : LinearSystem α} {v : Vec α}
    (hin : s.matrix.isInside = true) (hfinite : Vec.isFinite v = true)
    (h : s.matrix.mulVec v = s.rhs) : verifySystem s v = .ok () := by
  rw [verifySystem_eq_ok hin, h, Vec.euclidean_sub_self hα]
  exact ⟨hfinite, hα.finite, small_sub_self hα _ (add_nonneg (s.rhs.euclidean_nonneg hα)
    (mul_nonneg (s.matrix.euclidean_nonneg hα) (v.euclidean_nonneg hα)))⟩

/-- A finite solution of the normal equation passes the check. -/
theorem verifyLeastSquares_of_solution (hα : Rooted α) {t : LeastSquaresSystem α} {v : Vec α}
    (hin : t.jacobian.isInside = true) (hrows : t.jacobian.rows = t.rhs.length)
    (hfinite : Vec.isFinite v = true)
    (h : t.jacobian.gram.mulVec v = t.jacobian.transposeMulVec t.rhs) :
    verifyLeastSquares t v = .ok () := by
  rw [SparseMatrix.mulVec_gram hin] at h
  rw [verifyLeastSquares_eq_ok hin, SparseMatrix.transposeMulVec_sub hin (by simp) hrows.symm, h,
    Vec.euclidean_sub_self hα]
  exact ⟨hfinite, hα.finite, small_sub_self hα _ (add_nonneg (Vec.euclidean_nonneg hα _)
    (mul_nonneg (mul_self_nonneg _) (v.euclidean_nonneg hα)))⟩

end Elimination

end Exact

namespace Elimination
variable {κ α : Type} [Key κ] [ExactScalar α]

/-- The backend answers the system that fits the factors with an exact and finite solution, whose
part for the variables is `v`. -/
inductive AnswersExactly (b : Backend α) (kind : SolverKind) (g : Graph κ α)
    (dims : SortedMap κ ℕ) : Vec α → Prop
  | leastSquares {t : LeastSquaresSystem α} {y : SystemSolution α t.jacobian.gram}
    (hg : g.isLeastSquares = true)
    (ht : LeastSquaresSystem.ofGraph (.ofDimensions dims) g = .ok t)
    (hrows : sumDims dims.values ≤ t.rhs.length)
    (hy : b.solveNormal kind t.jacobian t.rhs = .ok y)
    (hsolves : t.jacobian.gram.mulVec y.val = t.jacobian.transposeMulVec t.rhs)
    (hfinite : Vec.isFinite y.val = true) : AnswersExactly b kind g dims y.val
  | unconstrained {s : ConstrainedSystem α} {y : { y : Vec α // y.length = s.linear.length }}
    (hg : g.isLeastSquares = false) (hrows : g.rowsOfKind .equality = [])
    (hs : ConstrainedSystem.ofGraph (.ofDimensions dims) g = .ok s)
    (hy : b.solveSystem kind s.hessian s.linear = .ok y)
    (hsolves : s.hessian.mulVec y.val = s.linear)
    (hfinite : Vec.isFinite y.val = true) : AnswersExactly b kind g dims y.val
  | constrained {s : ConstrainedSystem α}
    {y : { y : Vec α // y.length = s.stationarity.rhs.length }}
    (hrows : g.rowsOfKind .equality ≠ [])
    (hs : ConstrainedSystem.ofGraph (.ofDimensions dims) g = .ok s)
    (hy : b.solveSystem .qr s.stationarity.matrix s.stationarity.rhs = .ok y)
    (hsolves : s.stationarity.matrix.mulVec y.val = s.stationarity.rhs)
    (hfinite : Vec.isFinite y.val = true) :
    AnswersExactly b kind g dims (y.val.take (sumDims dims.values))

section Answers
variable {b : Backend α} {kind : SolverKind} {g : Graph κ α} {dims : SortedMap κ ℕ} {v : Vec α}
  (hdims : g.keyDimensions = .ok dims) (hsize : sumDims dims.values < UInt64.size)
  (h : AnswersExactly b kind g dims v)
include hdims hsize h

/-- An exact answer passes the check, and is as long as the layout tells. -/
theorem AnswersExactly.solution (hα : Rooted α) :
    solution b kind (.ofDimensions dims) g = .ok v ∧ v.length = sumDims dims.values := by
  have htotal := Layout.total_ofDimensions hsize
  have hplaces := Graph.places_keyDims hdims hsize
  cases h with
  | @leastSquares t y hg ht hrows hy hsolves hfinite =>
    obtain ⟨hr, hc⟩ := LeastSquaresSystem.shape_ofGraph ht
    have hin := LeastSquaresSystem.isInside_ofGraph ht hplaces
    rw [Elimination.solution, if_pos hg, solveLeastSquares_eq_ok, htotal]
    exact ⟨⟨t, ht, hrows, hin, y, hy, verifyLeastSquares_of_solution hα hin hr hfinite hsolves,
      rfl⟩, y.property.trans (hc.trans htotal)⟩
  | @unconstrained s y hg hrows hs hy hsolves hfinite =>
    have hin := ConstrainedSystem.isInside_hessian hdims hsize hs
    have hlength := ConstrainedSystem.length_rhs hdims hsize hs
    rw [hrows] at hlength
    rw [Elimination.solution, hg, if_neg Bool.false_ne_true, solveConstrained_eq_ok]
    refine ⟨⟨s, hs, .inl ⟨List.eq_nil_of_length_eq_zero hlength, hin, y, hy, ?_, rfl⟩⟩, ?_⟩
    · exact verifySystem_of_solution (s := s.unconstrained) hα hin hfinite hsolves
    · exact y.property.trans ((ConstrainedSystem.square_ofGraph hs).2.linear.trans htotal)
  | @constrained s y hrows hs hy hsolves hfinite =>
    have hin := ConstrainedSystem.isInside_stationarity hdims hsize hs
    have hlength := ConstrainedSystem.length_rhs hdims hsize hs
    have hlinear := (ConstrainedSystem.square_ofGraph hs).2.linear.trans htotal
    have hg : g.isLeastSquares = false := by
      rw [← Bool.not_eq_true]
      intro hg
      refine hrows (List.eq_nil_iff_forall_not_mem.2 fun r hr => ?_)
      cases (Graph.rowKind?_of_isLeastSquares hg r).symm.trans (Graph.mem_rowsOfKind.1 hr)
    have hrhs : s.rhs ≠ [] := by
      intro hnil
      rw [hnil] at hlength
      exact hrows (List.eq_nil_of_length_eq_zero hlength.symm)
    rw [Elimination.solution, hg, if_neg Bool.false_ne_true, solveConstrained_eq_ok, htotal]
    refine ⟨⟨s, hs, .inr ⟨hrhs, hin, y, hy, ?_, rfl⟩⟩, ?_⟩
    · exact verifySystem_of_solution hα hin hfinite hsolves
    · rw [List.length_take, y.property, ← hlinear]
      exact min_eq_left (List.length_append ▸ Nat.le_add_right _ _)

/-- An exact answer is given out. -/
theorem AnswersExactly.eliminate (hα : Rooted α) (hpos : 0 < sumDims dims.values) :
    ∃ x, eliminate b kind g = .ok x ∧ x.stacked = v := by
  obtain ⟨hsolution, hlength⟩ := h.solution hdims hsize hα
  have htotal := Layout.total_ofDimensions hsize
  obtain ⟨parts, hparts⟩ := Layout.exists_split? hsize (hlength.trans htotal.symm)
  exact ⟨_, eliminate_eq_ok.2 ⟨dims, hdims, .inr ⟨htotal ▸ hpos.ne', v, parts, hsolution, hparts,
    rfl⟩⟩, Assignment.stacked_of_split? hparts (hlength.trans htotal.symm)⟩

end Answers

/-- No unverified solution leaves an elimination, whatever the backend answers. Where the total
dimension, a 64-bit word, is positive, all entries of an answer are finite, and in exact arithmetic
the answer is nearly stationary for the graph's own gradient and equality rows. Conversely the
check rejects no exact and finite solution of the assembled system. -/
theorem eliminate_verified {κ : Type} [Key κ] :
    (∀ {α : Type} [Scalar α] (b : Backend α) (kind : SolverKind) (g : Graph κ α) dims x,
      g.keyDimensions = .ok dims → 0 < sumDims dims.values % UInt64.size →
        eliminate b kind g = .ok x → ∀ u ∈ x.values, Vec.isFinite u = true) ∧
    ∀ {α : Type} [ExactScalar α] (b : Backend α) (kind : SolverKind) (g : Graph κ α) dims,
      g.keyDimensions = .ok dims →
        (0 < sumDims dims.values % UInt64.size → ∀ x, eliminate b kind g = .ok x →
          ∃ grad, g.gradient x = .ok grad ∧ Verified g dims x grad) ∧
        (Rooted α → 0 < sumDims dims.values → sumDims dims.values < UInt64.size →
          ∀ v, AnswersExactly b kind g dims v →
            ∃ x, eliminate b kind g = .ok x ∧ x.stacked = v) :=
  ⟨fun _ _ _ _ _ hdims hpos h => isFinite_of_eliminate hdims hpos h, fun _ _ _ _ hdims =>
    ⟨fun hpos _ h => verified_of_eliminate hdims hpos h, fun hα hpos hsize _ h =>
      h.eliminate hdims hsize hα hpos⟩⟩

end Elimination

abbrev rootedRat : ExactScalar ℚ := { exactRat with sqrt := Rat.sqrt }

theorem rootedRat_rooted : @Rooted ℚ rootedRat :=
  @Rooted.mk ℚ rootedRat (fun a _ => Rat.sqrt_nonneg a) (by decide +kernel) rfl

/-- The cost `¼x² - 2x` with the equality row `x = 0`. All norms of its system are fractions. -/
def Graph.shallow : Graph ℕ ℚ where
  factors := [.quadratic {
    keyDims := [(0, 1)]
    information := Matrix.single (1 / 2)
    linear := [2]
    constant := 0
    keys_nodup := List.nodup_singleton _
    rows_eq := rfl
    cols_eq := rfl
    length_eq := rfl }, .linear (.single 0 0 (some .equality))]

namespace Elimination

/-- The exact solution is zero, where two times the row takes back the gradient. -/
theorem shallow_answersExactly :
    @AnswersExactly ℕ ℚ _ rootedRat Backend.rational .cholesky Graph.shallow
      (SortedMap.ofList [(0, 1)]) [0] := by
  let := rootedRat
  have hrun : (match ConstrainedSystem.ofGraph
      (Layout.ofDimensions (SortedMap.ofList [(0, 1)])) Graph.shallow with
    | .ok s =>
      match Backend.rational.solveSystem .qr s.stationarity.matrix s.stationarity.rhs with
      | .ok y =>
        decide (y.val = [0, 2] ∧ s.stationarity.matrix.mulVec y.val = s.stationarity.rhs)
      | .error _ => false
    | .error _ => false) = true := by decide +kernel
  split at hrun
  next s hs =>
    split at hrun
    next y hy =>
      obtain ⟨hval, hsolves⟩ := of_decide_eq_true hrun
      have hexact : AnswersExactly Backend.rational .cholesky Graph.shallow
          (SortedMap.ofList [(0, 1)]) (y.val.take 1) :=
        .constrained (by decide) hs hy hsolves (hval ▸ rfl)
      rw [hval] at hexact
      exact hexact
    next => cases hrun
  next => cases hrun

/-- The answer is given out, and verified. -/
theorem shallow_verified : letI := rootedRat
    ∃ x grad, eliminate Backend.rational .cholesky Graph.shallow = .ok x ∧ x.stacked = [0] ∧
      (∀ u ∈ x.values, Vec.isFinite u = true) ∧ Graph.shallow.gradient x = .ok grad ∧
        Verified Graph.shallow (SortedMap.ofList [(0, 1)]) x grad := by
  let := rootedRat
  have hdims : Graph.shallow.keyDimensions = .ok (SortedMap.ofList [(0, 1)]) := rfl
  obtain ⟨hfinite, hexact⟩ := eliminate_verified (κ := ℕ)
  obtain ⟨hverified, hanswers⟩ := hexact Backend.rational .cholesky Graph.shallow _ hdims
  obtain ⟨x, hx, hstacked⟩ :=
    hanswers rootedRat_rooted (by decide) (by decide) [0] shallow_answersExactly
  obtain ⟨grad, hgrad, h⟩ := hverified (by decide) x hx
  exact ⟨x, grad, hx, hstacked, hfinite _ _ _ _ x hdims (by decide) hx, hgrad, h⟩

end Elimination

end GaussianProgram
