import GaussianProgram.Proofs.LeastSquares

/-! Assembled systems against evaluated costs. An assignment, stacked by its keys, is put into the
systems of a graph. What comes out is what the factors compute one by one: the gradient, the
excess of every equality row, and for least-squares graphs the cost itself. -/
namespace GaussianProgram
open Finset (range)

namespace Assignment
variable {κ α : Type} [Key κ]

def stacked (x : Assignment κ α) : Vec α := x.values.flatten

variable [ExactScalar α] {x : Assignment κ α} {dims : SortedMap κ ℕ}
  (hx : ∀ k, x.dim? k = dims.get? k)
include hx

omit [ExactScalar α] in
theorem toList_dims : dims.toList = x.toList.map fun e => (e.1, e.2.length) := by
  have hdims : dims = x.mapValues List.length := SortedMap.ext_get? fun k => by
    rw [← hx k, SortedMap.get?_mapValues, dim?]
  rw [hdims]
  rfl

theorem stacked_eq : x.stacked = stackOf dims.toList x.entries := by
  have hlist (l : List (κ × Vec α)) (hl : ∀ e ∈ l, x.get? e.1 = some e.2) :
      (l.map (·.2)).flatten = stackOf (l.map fun e => (e.1, e.2.length)) x.entries := by
    induction l with
    | nil => rfl
    | cons e l ih =>
      obtain ⟨he, hl⟩ := List.forall_mem_cons.1 hl
      rw [List.map_cons, List.flatten_cons, ih hl, List.map_cons, stackOf, ← eq_map_entries he]
  rw [toList_dims hx]
  exact hlist x.toList fun e he => SortedMap.get?_eq_some_iff.2 he

theorem length_stacked : x.stacked.length = sumDims dims.values := by
  rw [stacked_eq hx, length_stackOf, SortedMap.values]

variable (hsize : sumDims dims.values < UInt64.size)
include hsize

theorem length_stacked_total : x.stacked.length = (Layout.ofDimensions dims).total := by
  rw [length_stacked hx, Layout.total_ofDimensions hsize]

theorem reads_stacked : (Layout.ofDimensions dims).Reads (Vec.get x.stacked) x.entries := by
  rw [stacked_eq hx]
  exact Layout.reads_stackOf hsize x.entries

/-- Against weights that read a direction, the stack pairs with the direction. -/
theorem against_stacked {u : ℕ → α} {d : Point κ α} (hu : (Layout.ofDimensions dims).Reads u d) :
    x.stacked.against u = pairing x.toList d := by
  have htotal := Layout.total_ofDimensions hsize
  have hlength := length_stacked hx
  rw [Vec.against_congr fun i hi => hu.eq_stackOf hsize (htotal ▸ hlength ▸ hi), Vec.against,
    hlength, stacked_eq hx, SortedMap.values, sum_stackOf]
  rw [toList_dims hx, List.map_map, pairing]
  refine congrArg List.sum (List.map_congr_left fun e he => Finset.sum_congr rfl fun j _ => ?_)
  exact congrArg (· * d e.1 j) (entries_eq (SortedMap.get?_eq_some_iff.2 he) j)

end Assignment

/-- A vector over all columns is cut into values of the dimensions, which stack to the vector. -/
theorem Layout.exists_restacked {κ α : Type} [Key κ] [Scalar α] {layout : Layout κ}
    (h : Consecutive 0 layout.total layout.segments.values) {v : Vec α}
    (hv : v.length = layout.total) :
    ∃ x : Assignment κ α, (layout.split? v).map SortedMap.ofList = some x ∧ x.stacked = v ∧
      x.toList.map (fun e => (e.1, e.2.length)) =
        layout.segments.toList.map fun e => (e.1, e.2.dim) := by
  obtain ⟨parts, hparts, hdims, hflatten⟩ := h.exists_slices hv
  have hkeys : parts.map (·.1) = layout.segments.keys := by
    have hfirst := congrArg (List.map Prod.fst) hdims
    rwa [List.map_map, List.map_map] at hfirst
  have hsorted : parts.Pairwise fun a b => compare a.1 b.1 = .lt :=
    List.pairwise_map.1 (hkeys ▸ layout.segments.ascending_keys)
  refine ⟨⟨parts, hsorted⟩, ?_, hflatten, hdims⟩
  rw [← SortedMap.ofList_eq hsorted]
  exact congrArg (Option.map SortedMap.ofList) hparts

/-- Vectors as long as the stacked variables are the same if they agree against all weights. -/
theorem Vec.ext_against {κ α : Type} [Key κ] [ExactScalar α] {layout : Layout κ} {v w : Vec α}
    (hv : v.length = layout.total) (hw : w.length = layout.total)
    (h : ∀ (u : ℕ → α) (d : Point κ α), layout.Reads u d → v.against u = w.against u) : v = w := by
  refine Vec.ext_get (hv.trans hw.symm) fun j hj => ?_
  obtain ⟨d, hd⟩ := layout.exists_reads (Pi.single j 1 : ℕ → α)
  rw [← Vec.against_single hj, h _ d hd, Vec.against_single (hw ▸ hv ▸ hj)]

theorem Vec.against_sub {α : Type} [ExactScalar α] {v w : Vec α} (h : v.length = w.length)
    (u : ℕ → α) : (Vec.sub v w).against u = v.against u - w.against u := by
  rw [against, length_sub, ← h, min_self, against, against, ← h, ← Finset.sum_sub_distrib]
  refine Finset.sum_congr rfl fun i hi => ?_
  have hi := Finset.mem_range.1 hi
  rw [get_sub hi (h ▸ hi), sub_mul]

/-- What is left of stacked equations at a point. -/
theorem Stacks.sub_mulVec {κ α : Type} [Key κ] [ExactScalar α] {layout : Layout κ}
    {E : List ((Point κ α →ₗ[α] α) × α)} {m : SparseMatrix α} {b v : Vec α} {p : Point κ α}
    (h : Stacks layout E m b) (hm : m.rows = b.length) (hv : layout.Reads (Vec.get v) p) :
    Vec.sub (m.mulVec v) b = E.map fun e => e.1 p - e.2 := by
  have hlen : b.length = E.length := by rw [h.rhs, List.length_map]
  have hsub : (Vec.sub (m.mulVec v) b).length = E.length := by
    rw [Vec.length_sub, SparseMatrix.length_mulVec, hm, min_self, hlen]
  refine Vec.ext_get (by rw [hsub, List.length_map]) fun i hi => ?_
  have hi : i < E.length := hsub ▸ hi
  have hrow : i < m.rows := by rwa [hm, hlen]
  have he := List.getElem?_eq_getElem hi
  rw [Vec.get_sub (by simpa using hrow) (hlen ▸ hi), SparseMatrix.get_mulVec _ _ hrow,
    h.rowForm he hv, h.get_rhs he, Vec.get_eq_getElem (by simpa using hi), List.getElem_map]

namespace Graph
variable {κ α : Type} [Key κ] [ExactScalar α] {g : Graph κ α} {x : Assignment κ α}

/-- The slopes at a point and at zero differ by what the second derivatives couple to the point. -/
theorem slope_eq_add (g : Graph κ α) (p d : Point κ α) :
    g.slope p d = g.coupling p d + g.slope 0 d := by
  have h := g.slope_sub 0 p d
  rw [sub_zero] at h
  rw [← h, sub_add_cancel]

/-- A row's value minus its right-hand side is computed wherever its variables are there. -/
theorem Covers.rowExcess (hx : g.Covers x) {r : ConstraintRow}
    (hr : g.rowKind? r = some .equality) : ∃ c value b, g.constraintAt? r.factor = some c ∧
      c.rowValue r.row x = .ok value ∧ c.rhs[r.row]? = some b ∧
        (g.equation r).1 x.entries - (g.equation r).2 = value - b := by
  obtain ⟨c, hc, hk⟩ := rowKind?_eq_some.1 hr
  have hrow := LinearRows.rowKind?_lt hk
  refine ⟨c, c.form r.row x.entries, c.rhs[r.row], hc, LinearRows.rowValue_eq_ok.2
    ⟨hrow, hx _ (mem_factors_of_constraintAt? hc), rfl⟩, List.getElem?_eq_getElem hrow, ?_⟩
  rw [equation_eq hc, LinearRows.equation, Vec.get_eq_getElem hrow]

end Graph

namespace ConstrainedSystem
variable {κ α : Type} [Key κ] [ExactScalar α] {g : Graph κ α} {dims : SortedMap κ ℕ}
  {s : ConstrainedSystem α} {x grad : Assignment κ α}

/-- The system at an assignment: `Hx - g` is the stacked gradient, and `Cx - d` is the value minus
the right-hand side of every equality row, in the order of factors and rows. -/
structure AgreesAt (s : ConstrainedSystem α) (g : Graph κ α) (x grad : Assignment κ α) : Prop where
  gradient : Vec.sub (s.hessian.mulVec x.stacked) s.linear = grad.stacked
  rows : List.Forall₂ (fun r excess => ∃ c value b, g.constraintAt? r.factor = some c ∧
    c.rowValue r.row x = .ok value ∧ c.rhs[r.row]? = some b ∧ excess = value - b)
    (g.rowsOfKind .equality) (Vec.sub (s.constraints.mulVec x.stacked) s.rhs)

variable (hdims : g.keyDimensions = .ok dims) (hsize : sumDims dims.values < UInt64.size)
  (hs : ofGraph (Layout.ofDimensions dims) g = .ok s)
include hdims hsize hs

theorem assembles : Assembles (Layout.ofDimensions dims) g.factors s :=
  assembles_ofGraph (Layout.total_lt dims) hs
    (fun _ hc => Graph.stackable_of_size hdims hsize hc) (Graph.places_keyDims hdims hsize)

theorem isInside_hessian : s.hessian.isInside = true := by
  have hsquare := (square_ofGraph hs).2
  rw [SparseMatrix.isInside_iff_within, hsquare.rows, hsquare.cols]
  exact (inside_ofGraph hs (Graph.places_keyDims hdims hsize)).hessian

theorem agreesAt (hx : g.Fits x) (hgrad : g.gradient x = .ok grad) : s.AgreesAt g x grad := by
  have hsquare := (square_ofGraph hs).2
  have hassembles := assembles hdims hsize hs
  have hreads := Assignment.reads_stacked (hx.dim?_eq hdims) hsize
  obtain ⟨⟨dims', hdims', hshape⟩, hpairing⟩ := Graph.gradient_spec hgrad
  cases hdims.symm.trans hdims'
  constructor
  · have hlength : (s.hessian.mulVec x.stacked).length = s.linear.length := by
      rw [SparseMatrix.length_mulVec, hsquare.rows, hsquare.linear]
    have hsub : (Vec.sub (s.hessian.mulVec x.stacked) s.linear).length =
        (Layout.ofDimensions dims).total := by
      rw [Vec.length_sub, hlength, min_self, hsquare.linear]
    refine Vec.ext_against hsub (Assignment.length_stacked_total hshape hsize) fun u d hu => ?_
    calc (Vec.sub (s.hessian.mulVec x.stacked) s.linear).against u
      _ = s.hessian.form u (Vec.get x.stacked) - s.linear.against u := by
        rw [Vec.against_sub hlength, SparseMatrix.against_mulVec (isInside_hessian hdims hsize hs)]
      _ = g.coupling x.entries d + g.slope 0 d := by
        rw [hassembles.hessian hu hreads, hassembles.linear hu, sub_neg_eq_add]
        rfl
      _ = grad.stacked.against u := by
        rw [← g.slope_eq_add, ← hpairing, Assignment.against_stacked hshape hsize hu]
  · have hrows := hassembles.rows
    rw [Graph.equations_eq] at hrows
    rw [hrows.sub_mulVec (shape_constraints hs).1 hreads, List.map_map, List.forall₂_map_right_iff,
      List.forall₂_same]
    exact fun r hr => hx.1.rowExcess (Graph.mem_rowsOfKind.1 hr)

end ConstrainedSystem

namespace LeastSquaresSystem
variable {κ α : Type} [Key κ] [ExactScalar α] {g : Graph κ α} {dims : SortedMap κ ℕ}
  {t : LeastSquaresSystem α} {x grad : Assignment κ α}

/-- The system at an assignment: `Jᵀ(Jx - b)` is the stacked gradient, and half the squared length
of `Jx - b` is the cost. -/
structure AgreesAt (t : LeastSquaresSystem α) (g : Graph κ α) (x grad : Assignment κ α) : Prop where
  gradient : t.jacobian.transposeMulVec (Vec.sub (t.jacobian.mulVec x.stacked) t.rhs) = grad.stacked
  cost : g.cost x = .ok (0.5 * Vec.normSq (Vec.sub (t.jacobian.mulVec x.stacked) t.rhs))

/-- The normal equations are the quadratic system: `JᵀJ = H` entry by entry, and `Jᵀb = g`. -/
structure NormalOf (t : LeastSquaresSystem α) (s : ConstrainedSystem α) : Prop where
  shape : t.jacobian.gram.rows = s.hessian.rows ∧ t.jacobian.gram.cols = s.hessian.cols
  hessian : ∀ i j, t.jacobian.gram.get i j = s.hessian.get i j
  linear : t.jacobian.transposeMulVec t.rhs = s.linear

/-- The cost of a least-squares graph goes row by row. -/
theorem value_eq (hg : g.isLeastSquares = true) (p : Point κ α) : g.value p =
    0.5 * ((equations g).map fun e => (e.1 p - e.2) * (e.1 p - e.2)).sum := by
  have hall := Graph.isLeastSquares_iff.1 hg
  rw [Graph.value, equations]
  generalize g.factors = l at hall
  induction l with
  | nil => exact (mul_zero _).symm
  | cons f l ih =>
    obtain ⟨⟨c, rfl, hkinds⟩, hl⟩ := List.forall_mem_cons.1 hall
    rw [List.map_cons, List.sum_cons, ih hl,
      List.filterMap_cons_some (show (Factor.linear c).linear? = some c from rfl),
      List.flatMap_cons, List.map_append, List.sum_append, List.map_map, mul_add, Factor.value,
      LinearRows.value, if_neg (by simp [LinearRows.isConstrained, hkinds])]
    rfl

/-- The opposite of the slope at zero goes row by row. -/
theorem neg_slope_zero (hg : g.isLeastSquares = true) (d : Point κ α) :
    -g.slope 0 d = ((equations g).map fun e => e.2 * e.1 d).sum := by
  rw [slope_eq hg, List.sum_neg, List.map_map]
  refine congrArg List.sum (List.map_congr_left fun e _ => ?_)
  rw [Function.comp_apply, map_zero, zero_sub, neg_mul, neg_neg]

/-- The second derivatives of a least-squares cost go row by row. -/
theorem coupling_eq (hg : g.isLeastSquares = true) (p d : Point κ α) :
    g.coupling p d = ((equations g).map fun e => e.1 p * e.1 d).sum := by
  have hadd : g.slope p d + -g.slope 0 d = g.coupling p d := by
    rw [g.slope_eq_add]
    ring
  rw [← hadd, neg_slope_zero hg, slope_eq hg, ← List.sum_map_add]
  exact congrArg List.sum (List.map_congr_left fun e _ => by ring)

section System
variable (hg : g.isLeastSquares = true) (hdims : g.keyDimensions = .ok dims)
  (hsize : sumDims dims.values < UInt64.size)
  (ht : ofGraph (Layout.ofDimensions dims) g = .ok t) (hrows : t.rhs.length ≤ UInt64.size)
include hg hdims hsize ht hrows

theorem agreesAt (hx : g.Fits x) (hgrad : g.gradient x = .ok grad) : t.AgreesAt g x grad := by
  have hplaces := Graph.places_keyDims hdims hsize
  obtain ⟨hr, hc⟩ := shape_ofGraph ht
  have hstacks : Stacks (Layout.ofDimensions dims) (equations g) t.jacobian t.rhs :=
    stacks_ofGraph (Layout.total_lt dims) ht hplaces hrows
  have hresidual := hstacks.sub_mulVec hr (Assignment.reads_stacked (hx.dim?_eq hdims) hsize)
  obtain ⟨⟨dims', hdims', hshape⟩, hpairing⟩ := Graph.gradient_spec hgrad
  cases hdims.symm.trans hdims'
  constructor
  · refine Vec.ext_against ((SparseMatrix.length_transposeMulVec _ _).trans hc)
      (Assignment.length_stacked_total hshape hsize) fun u d hu => ?_
    rw [SparseMatrix.against_transposeMulVec (isInside_ofGraph ht hplaces), hresidual,
      hstacks.form_eq hu fun i e he => ?_, Assignment.against_stacked hshape hsize hu, hpairing,
      slope_eq hg]
    simp [Vec.get, he]
  · have hsquares : Vec.normSq ((equations g).map fun e => e.1 x.entries - e.2) =
        ((equations g).map fun e => (e.1 x.entries - e.2) * (e.1 x.entries - e.2)).sum := by
      rw [Vec.normSq, Vec.inner, Vec.blockSum_eq, List.zipWith_map, List.zipWith_self]
    rw [hx.1.cost_eq hg, value_eq hg, hresidual, hsquares]

theorem normalOf {s : ConstrainedSystem α}
    (hs : ConstrainedSystem.ofGraph (Layout.ofDimensions dims) g = .ok s) : t.NormalOf s := by
  have hplaces := Graph.places_keyDims hdims hsize
  obtain ⟨-, hc⟩ := shape_ofGraph ht
  have hin := isInside_ofGraph ht hplaces
  have hstacks : Stacks (Layout.ofDimensions dims) (equations g) t.jacobian t.rhs :=
    stacks_ofGraph (Layout.total_lt dims) ht hplaces hrows
  have hsquare := (ConstrainedSystem.square_ofGraph hs).2
  have hassembles := ConstrainedSystem.assembles hdims hsize hs
  refine ⟨⟨hc.trans hsquare.rows.symm, hc.trans hsquare.cols.symm⟩, fun i j => ?_, ?_⟩
  · obtain ⟨d, hd⟩ := (Layout.ofDimensions dims).exists_reads (Pi.single i 1 : ℕ → α)
    obtain ⟨p, hp⟩ := (Layout.ofDimensions dims).exists_reads (Pi.single j 1 : ℕ → α)
    rw [SparseMatrix.get_eq_form, SparseMatrix.get_eq_form, SparseMatrix.form_gram hin,
      hstacks.form_eq hd fun i e he => hstacks.rowForm he hp, hassembles.hessian hd hp]
    exact (coupling_eq hg p d).symm
  · refine Vec.ext_against ((SparseMatrix.length_transposeMulVec _ _).trans hc) hsquare.linear
      fun u d hu => ?_
    rw [SparseMatrix.against_transposeMulVec hin, hassembles.linear hu,
      hstacks.form_eq hu fun i e he => hstacks.get_rhs he]
    exact (neg_slope_zero hg d).symm

end System

end LeastSquaresSystem

namespace Graph
variable {κ α : Type} [Key κ] [ExactScalar α]

/-- The systems of a graph agree with what its factors compute, at every assignment of its keys,
where the variables fit in one vector. The system of costs and rows can be assembled if the products
of the blocks of least-squares factors can be stored. For a least-squares graph the system of its
rows can always be assembled, its normal equations are the system of costs, and its squared
residual is the cost. -/
theorem assembly_agrees {g : Graph κ α} {dims : SortedMap κ ℕ} (hdims : g.keyDimensions = .ok dims)
    (hmax : sumDims dims.values ≤ maxLength) {x : Assignment κ α} (hx : g.Fits x) :
    ∃ grad, g.gradient x = .ok grad ∧
      ((∀ c ∈ g.factors.filterMap Factor.linear?, c.isLeastSquares = true → ∀ t ∈ c.terms,
          ∀ t' ∈ c.terms, t.2.cols * t'.2.cols ≤ maxLength) →
        ∃ s, ConstrainedSystem.ofGraph (Layout.ofDimensions dims) g = .ok s) ∧
      (∀ s, ConstrainedSystem.ofGraph (Layout.ofDimensions dims) g = .ok s → s.AgreesAt g x grad) ∧
      (g.isLeastSquares = true →
        sumDims ((g.factors.filterMap Factor.linear?).map LinearRows.rows) ≤ UInt64.size →
        ∃ t, LeastSquaresSystem.ofGraph (Layout.ofDimensions dims) g = .ok t ∧ t.AgreesAt g x grad ∧
          ∀ s, ConstrainedSystem.ofGraph (Layout.ofDimensions dims) g = .ok s → t.NormalOf s) := by
  have hsize : sumDims dims.values < UInt64.size := hmax.trans_lt (by decide)
  have hplaces := places_keyDims hdims hsize
  obtain ⟨grad, hgrad⟩ := exists_gradient hdims hmax hx.1
  refine ⟨grad, hgrad, fun hproducts => ?_, fun s hs => ?_, fun hg hrows => ?_⟩
  · exact ConstrainedSystem.exists_ofGraph ((Layout.total_ofDimensions hsize).trans_le hmax)
      (fun _ hc => stackable_of_size hdims hsize hc) hplaces
      fun c hc => hproducts c (mem_linear.2 hc)
  · exact ConstrainedSystem.agreesAt hdims hsize hs hx hgrad
  · obtain ⟨t, ht⟩ := LeastSquaresSystem.exists_ofGraph hplaces
    rw [← LeastSquaresSystem.length_ofGraph ht] at hrows
    exact ⟨t, ht, LeastSquaresSystem.agreesAt hg hdims hsize ht hrows hx hgrad,
      fun s hs => LeastSquaresSystem.normalOf hg hdims hsize ht hrows hs⟩

def distances : Graph ℕ ℚ :=
  ⟨[.linear (.single 1 3 none), .linear (.single 0 2 none), .linear (.single 1 5 none)]⟩

/-- At zero both graphs of two variables have their systems. -/
theorem budgeted_agrees :
    (∃ grad s, (budgeted 1 0 5).gradient (SortedMap.ofList [(0, [0]), (1, [0])]) = .ok grad ∧
      ConstrainedSystem.ofGraph (Layout.ofDimensions (SortedMap.ofList [(0, 1), (1, 1)]))
        (budgeted 1 0 5) = .ok s ∧
      s.AgreesAt (budgeted 1 0 5) (SortedMap.ofList [(0, [0]), (1, [0])]) grad) ∧
    ∃ grad s t, distances.gradient (SortedMap.ofList [(0, [0]), (1, [0])]) = .ok grad ∧
      ConstrainedSystem.ofGraph (Layout.ofDimensions (SortedMap.ofList [(0, 1), (1, 1)]))
        distances = .ok s ∧
      LeastSquaresSystem.ofGraph (Layout.ofDimensions (SortedMap.ofList [(0, 1), (1, 1)]))
        distances = .ok t ∧
      t.AgreesAt distances (SortedMap.ofList [(0, [0]), (1, [0])]) grad ∧ t.NormalOf s := by
  have hfits (g : Graph ℕ ℚ) (hdims : g.keyDimensions = .ok (SortedMap.ofList [(0, 1), (1, 1)])) :
      g.Fits (SortedMap.ofList [(0, [0]), (1, [0])]) :=
    fits_of_dims hdims fun k => (SortedMap.get?_mapValues List.length _ k).symm
  constructor
  · have hdims : (budgeted 1 0 5).keyDimensions = .ok (SortedMap.ofList [(0, 1), (1, 1)]) := rfl
    obtain ⟨grad, hgrad, hassembled, hagrees, -⟩ :=
      assembly_agrees hdims (by decide) (hfits _ hdims)
    obtain ⟨s, hs⟩ := hassembled (by decide)
    exact ⟨grad, s, hgrad, hs, hagrees s hs⟩
  · have hdims : distances.keyDimensions = .ok (SortedMap.ofList [(0, 1), (1, 1)]) := rfl
    obtain ⟨grad, hgrad, hassembled, -, hsquares⟩ :=
      assembly_agrees hdims (by decide) (hfits _ hdims)
    obtain ⟨s, hs⟩ := hassembled (by decide)
    obtain ⟨t, ht, hagrees, hnormal⟩ := hsquares rfl (by decide)
    exact ⟨grad, s, t, hgrad, hs, ht, hagrees, hnormal s hs⟩

end Graph

end GaussianProgram
