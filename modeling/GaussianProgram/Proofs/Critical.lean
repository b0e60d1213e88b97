import GaussianProgram.Proofs.Assembly
import GaussianProgram.Proofs.Descent

/-! Critical points. A solution of a linear system of a graph reads as a point where the equality
rows hold and span the slope, whichever system is solved. -/
namespace GaussianProgram
open Finset (range)

namespace Graph
variable {κ α : Type} [Key κ] [ExactScalar α] {g : Graph κ α} {p : Point κ α}

omit [ExactScalar α] in
/-- Costs whose variables an assignment has can stack them, if the entries of the assignment do not
wrap around. -/
theorem Covers.stackable {x : Assignment κ α} (hx : g.Covers x)
    (hsize : x.totalDimension < UInt64.size) {c : QuadraticCost κ α}
    (hc : .quadratic c ∈ g.factors) : c.Stackable :=
  QuadraticCost.stackable_of_lt
    (((hx _ hc).sumDims_le (List.Nodup.of_map _ c.keys_nodup)).trans_lt hsize)

omit [ExactScalar α] in
/-- The cost is computed where every variable is there, if the costs can stack them. -/
theorem exists_cost_of_stackable [Scalar α]
    (hstack : ∀ c, .quadratic c ∈ g.factors → c.Stackable) {x : Assignment κ α}
    (hx : g.Covers x) : ∃ c, g.cost x = .ok c := by
  refine Result.exists_foldlM (fun _ => True) (fun total f hf _ => ?_) trivial
  obtain ⟨c, hc⟩ := Factor.exists_cost (hx f hf) fun c hc => hstack c (hc ▸ hf)
  exact ⟨_, Result.bind_eq_ok.2 ⟨c, Result.mapCause_eq_ok.2 hc, rfl⟩, trivial⟩

section Dimensions
variable {dims : SortedMap κ ℕ} (hdims : g.keyDimensions = .ok dims)
include hdims

omit [ExactScalar α] in
/-- Costs whose variables do not wrap around all together do not either one by one. -/
theorem stackable_of_size (hsize : sumDims dims.values < UInt64.size) {c : QuadraticCost κ α}
    (hc : .quadratic c ∈ g.factors) : c.Stackable := by
  refine QuadraticCost.stackable_of_lt ((sumDims_le_of_subset (List.Nodup.of_map _ c.keys_nodup)
    fun e he => ?_).trans_lt hsize)
  exact SortedMap.get?_eq_some_iff.1 ((keyDimensions_spec hdims).2 ⟨_, hc, he⟩)

omit [ExactScalar α] in
/-- Every variable of a factor has its place, if the dimensions do not wrap around. -/
theorem places_keyDims (hsize : sumDims dims.values < UInt64.size) : ∀ f ∈ g.factors,
    ∀ e ∈ f.keyDims, (Layout.ofDimensions dims).Places e.1 e.2 := fun f hf _ he =>
  Layout.places_ofDimensions hsize ((keyDimensions_spec hdims).2 ⟨f, hf, he⟩)

omit [ExactScalar α] in
/-- The gradient is computed where every factor has its derivatives, if the variables can
be stored. -/
theorem exists_gradient_of_parts [Scalar α] {start x : Assignment κ α}
    (hstart : Assignment.zeros? dims.toList = some start)
    (hparts : ∀ f ∈ g.factors, ∃ parts, f.gradient x = .ok parts) :
    ∃ grad, g.gradient x = .ok grad := by
  have hstep (total : Assignment κ α) (f : Factor κ α) (hf : f ∈ g.factors)
      (hs : start.SameShape total) : ∃ next, (do
        let parts ← (f.gradient x).mapCause GraphError.factor
        parts.foldlM accumulate total) = .ok next ∧ start.SameShape next := by
    obtain ⟨parts, hparts⟩ := hparts f hf
    have hdim : ∀ e ∈ parts, total.dim? e.1 = some e.2.length := fun e he => by
      rw [← hs e.1, Assignment.dim?_zeros hstart]
      exact (keyDimensions_spec hdims).2 ⟨f, hf, Factor.dims_gradient hparts he⟩
    obtain ⟨next, hnext, hsame⟩ := exists_accumulate hdim
    exact ⟨next, Result.bind_eq_ok.2 ⟨parts, by rw [hparts, Result.mapCause_ok], hnext⟩,
      hs.trans hsame⟩
  obtain ⟨grad, hgrad⟩ := Result.exists_foldlM start.SameShape hstep (.refl start)
  refine ⟨grad, Result.bind_eq_ok.2 ⟨dims, ?_, Result.bind_eq_ok.2 ⟨start, ?_, hgrad⟩⟩⟩
  · rw [dimensions, Result.mapCause_eq_ok, Result.ofExcept_eq_ok, hdims]
  · rw [Result.inRange_eq_ok, hstart]

omit [ExactScalar α] in
/-- The gradient is computed where every variable is there, if each of them can be stored and the
costs can stack them. -/
theorem exists_gradient_of_stackable [Scalar α] (hmax : ∀ e ∈ dims.toList, e.2 ≤ maxLength)
    (hstack : ∀ c, .quadratic c ∈ g.factors → c.Stackable) {x : Assignment κ α}
    (hx : g.Covers x) : ∃ grad, g.gradient x = .ok grad := by
  obtain ⟨start, hstart⟩ := Assignment.exists_zeros? (α := α) hmax
  refine exists_gradient_of_parts hdims hstart fun f hf => ?_
  exact Factor.exists_gradient (hx f hf) (fun c hc => hstack c (hc ▸ hf)) fun e he =>
    hmax e (SortedMap.get?_eq_some_iff.1 ((keyDimensions_spec hdims).2 ⟨f, hf, he⟩))

omit [ExactScalar α] in
/-- So it is if all variables can be stored in one vector. -/
theorem exists_gradient [Scalar α] (hmax : sumDims dims.values ≤ maxLength) {x : Assignment κ α}
    (hx : g.Covers x) : ∃ grad, g.gradient x = .ok grad := by
  refine exists_gradient_of_stackable hdims (fun e he => le_trans ?_ hmax)
    (fun c hc => stackable_of_size hdims (hmax.trans_lt (by decide)) hc) hx
  rw [sumDims_eq_sum]
  exact List.le_sum_of_mem (List.mem_map_of_mem he)

omit [ExactScalar α] in
/-- So is the cost. -/
theorem exists_cost [Scalar α] (hmax : sumDims dims.values ≤ maxLength) {x : Assignment κ α}
    (hx : g.Covers x) : ∃ c, g.cost x = .ok c :=
  exists_cost_of_stackable
    (fun _ hc => stackable_of_size hdims (hmax.trans_lt (by decide)) hc) hx

end Dimensions

omit [ExactScalar α] in
theorem isLeastSquares_iff :
    g.isLeastSquares = true ↔ ∀ f ∈ g.factors, ∃ c, f = .linear c ∧ c.kinds = none := by
  rw [isLeastSquares, List.all_eq_true]
  refine forall₂_congr fun f _ => ?_
  cases f with
  | quadratic f => simp [Factor.linear?]
  | linear c => simp [Factor.linear?, LinearRows.isLeastSquares]

omit [ExactScalar α] in
/-- A least-squares graph has no constraint rows. -/
theorem rowKind?_of_isLeastSquares (hg : g.isLeastSquares = true) (r : ConstraintRow) :
    g.rowKind? r = none := by
  cases hr : g.rowKind? r with
  | none => rfl
  | some kind =>
    obtain ⟨c, hc, hk⟩ := rowKind?_eq_some.1 hr
    obtain ⟨_, he, hkinds⟩ := isLeastSquares_iff.1 hg _ (mem_factors_of_constraintAt? hc)
    cases he
    simp [LinearRows.rowKind?, hkinds] at hk

/-- The equality rows hold at the point, and the slope there is spanned by them. -/
structure Critical (g : Graph κ α) (p : Point κ α) : Prop where
  rows : ∀ r, g.rowKind? r = some .equality → g.slack r p = 0
  slope : ∃ L ∈ Submodule.span α (g.rowForm '' {r | g.rowKind? r = some .equality}),
    ∀ v, g.slope p v = L v

/-- A critical point that has exactly the variables of the graph and a gradient is stationary. -/
theorem Critical.stationary {x grad : Assignment κ α} (h : g.Critical x.entries) (hx : g.Fits x)
    (hgrad : g.gradient x = .ok grad) : g.Stationary x := by
  obtain ⟨L, hL, hslope⟩ := h.slope
  have hset : {r | g.rowKind? r = some .equality} = ↑(g.rowsOfKind .equality).toFinset := by
    ext r
    simp [mem_rowsOfKind]
  rw [hset, Submodule.mem_span_image_finset_iff_exists_fun'] at hL
  obtain ⟨c, rfl⟩ := hL
  refine ⟨hx, fun r hr => ?_, grad, hgrad, c, fun v => ?_⟩
  · rw [hx.1.rowSlack_eq hr, h.rows r hr]
  · rw [(gradient_spec hgrad).2, hslope, ← List.sum_toFinset _ (g.nodup_rowsOfKind .equality)]
    simp [LinearMap.sum_apply]

def equation (g : Graph κ α) (r : ConstraintRow) : (Point κ α →ₗ[α] α) × α :=
  (g.rowForm r, g.slack r 0)

theorem equation_eq {r : ConstraintRow} {c : LinearRows κ α}
    (hc : g.constraintAt? r.factor = some c) : g.equation r = c.equation r.row := by
  rw [equation, rowForm_eq hc, slack_eq hc, map_zero, sub_zero, LinearRows.equation]

omit [ExactScalar α] in
private theorem kinds_of_not_constrained {f : Factor κ α} (h : f.constraint? = none)
    {c : LinearRows κ α} (hf : f = .linear c) : c.kinds = none := by
  by_contra hsome
  have hcon : c.isConstrained = true := Option.isSome_iff_ne_none.2 hsome
  cases h.symm.trans (Factor.constraint?_eq_some.2 ⟨hf, hcon⟩)

/-- A cost has no equations. -/
theorem equations_of_cost {f : Factor κ α} (h : f.constraint? = none) : f.equations = [] := by
  cases f with
  | quadratic f => rfl
  | linear c =>
    simp [Factor.equations, LinearRows.equalityRows, LinearRows.rowsOfKind,
      kinds_of_not_constrained h rfl]

/-- The equations of the factors are the equality rows of the graph, in their order. -/
theorem equations_eq (g : Graph κ α) :
    g.factors.flatMap Factor.equations = (g.rowsOfKind .equality).map g.equation := by
  have hfactors : g.factors = g.indexed.map (·.2) := by
    rw [indexed, List.map_map]
    exact (List.zipIdx_map_fst 0 g.factors).symm
  rw [rowsOfKind, flatMap_constraints, List.map_flatMap, hfactors, List.flatMap_map]
  refine List.flatMap_congr fun e he => ?_
  obtain ⟨i, f⟩ := e
  dsimp only
  cases hc : f.constraint? with
  | none => rw [equations_of_cost hc]; rfl
  | some c =>
    have hat : g.constraintAt? i = some c := constraintAt?_eq_some.2 ⟨f, mem_indexed.1 he, hc⟩
    rw [(Factor.constraint?_eq_some.1 hc).1]
    simp only [Option.toList_some, List.flatMap_cons, List.flatMap_nil, List.append_nil,
      List.map_map]
    exact List.map_congr_left fun row _ => (equation_eq (r := ⟨i, row⟩) hat).symm

theorem mem_equations {e : (Point κ α →ₗ[α] α) × α} : e ∈ g.factors.flatMap Factor.equations ↔
    ∃ r, g.rowKind? r = some .equality ∧ e = g.equation r := by
  simp only [equations_eq, List.mem_map, mem_rowsOfKind, eq_comm]

/-- A point is critical if the equations hold there and some multipliers of them give the slope. -/
theorem critical_of_equations
    (hrows : ∀ e ∈ g.factors.flatMap Factor.equations, e.1 p = e.2) (y : ℕ → α)
    (hslope : ∀ v, g.slope p v =
      ((g.factors.flatMap Factor.equations).zipIdx.map fun e => y e.2 * e.1.1 v).sum) :
    g.Critical p := by
  refine ⟨fun r hr => ?_,
    ((g.factors.flatMap Factor.equations).zipIdx.map fun e => y e.2 • e.1.1).sum, ?_, fun v => ?_⟩
  · have hrow : g.rowForm r p = g.slack r 0 := hrows _ (mem_equations.2 ⟨r, hr, rfl⟩)
    have hsub := g.slack_sub r 0 p
    rw [sub_zero, hrow] at hsub
    linarith
  · apply list_sum_mem
    intro L hL
    obtain ⟨e, he, rfl⟩ := List.mem_map.1 hL
    obtain ⟨r, hr, hform⟩ := mem_equations.1 (List.fst_mem_of_mem_zipIdx he)
    rw [hform]
    exact Submodule.smul_mem _ _ (Submodule.subset_span ⟨r, hr, rfl⟩)
  · rw [hslope, ← LinearMap.applyₗ_apply_apply v, map_list_sum, List.map_map]
    rfl

end Graph

section Systems
variable {κ α : Type} [Key κ] [ExactScalar α] {layout : Layout κ} {g : Graph κ α} {p : Point κ α}

/-- The term at one place of a list. -/
private theorem sum_zipIdx_single {β : Type} {l : List β} (φ : β → α) {i : ℕ} {b : β}
    (h : l[i]? = some b) :
    (l.zipIdx.map fun e => (Pi.single i 1 : ℕ → α) e.2 * φ e.1).sum = φ b := by
  rw [sum_map_eq_single l.nodup_zipIdx_map_snd (List.mk_mem_zipIdx_iff_getElem?.2 h)]
  · rw [Pi.single_eq_same, one_mul]
  · intro e _ hne
    rw [Pi.single_eq_of_ne hne, zero_mul]

section Stacks
variable {E : List ((Point κ α →ₗ[α] α) × α)} {m : SparseMatrix α} {b : Vec α}
  (h : Stacks layout E m b)
include h

theorem Stacks.rowForm {i : ℕ} {e : (Point κ α →ₗ[α] α) × α} (he : E[i]? = some e) {w : ℕ → α}
    (hw : layout.Reads w p) : m.rowForm i w = e.1 p := by
  rw [m.rowForm_eq, h.form _ w p hw]
  exact sum_zipIdx_single (fun e => e.1 p) he

theorem Stacks.get_rhs {i : ℕ} {e : (Point κ α →ₗ[α] α) × α} (he : E[i]? = some e) :
    Vec.get b i = e.2 := by
  simp [h.rhs, Vec.get, he]

/-- The form where the weights of the rows are known. -/
theorem Stacks.form_eq {y w : ℕ → α} {d : Point κ α} (hw : layout.Reads w d)
    {φ : (Point κ α →ₗ[α] α) × α → α} (hy : ∀ i e, E[i]? = some e → y i = φ e) :
    m.form y w = (E.map fun e => φ e * e.1 d).sum := by
  have hfst : E.map (fun e => φ e * e.1 d) = E.zipIdx.map fun e => φ e.1 * e.1.1 d := by
    conv_lhs => rw [← List.zipIdx_map_fst 0 E, List.map_map]
    rfl
  rw [h.form y w d hw, hfst]
  refine congrArg List.sum (List.map_congr_left fun e he => ?_)
  rw [hy e.2 e.1 (List.mk_mem_zipIdx_iff_getElem?.1 he)]

theorem Stacks.against (u : ℕ → α) :
    b.against u = (E.zipIdx.map fun e => u e.2 * e.1.2).sum := by
  rw [← Vec.sum_zipIdx b u, h.rhs, List.zipIdx_map, List.map_map]
  exact congrArg List.sum (List.map_congr_left fun e _ => mul_comm _ _)

end Stacks

namespace LeastSquaresSystem

def equations (g : Graph κ α) : List ((Point κ α →ₗ[α] α) × α) :=
  (g.factors.filterMap Factor.linear?).flatMap fun f => (List.range f.rows).map f.equation

theorem mem_equations {e : (Point κ α →ₗ[α] α) × α} : e ∈ equations g ↔
    ∃ c, .linear c ∈ g.factors ∧ ∃ row < c.rows, e = c.equation row := by
  rw [equations, List.mem_flatMap]
  constructor
  · rintro ⟨c, hc, he⟩
    obtain ⟨row, hrow, rfl⟩ := List.mem_map.1 he
    exact ⟨c, Graph.mem_linear.1 hc, row, List.mem_range.1 hrow, rfl⟩
  · rintro ⟨c, hc, row, hrow, rfl⟩
    exact ⟨c, Graph.mem_linear.2 hc, List.mem_map_of_mem (List.mem_range.2 hrow)⟩

/-- The slope of a least-squares cost goes row by row. -/
theorem slope_eq (hg : g.isLeastSquares = true) (p d : Point κ α) : g.slope p d =
    ((equations g).map fun e => (e.1 p - e.2) * e.1 d).sum := by
  have hall := Graph.isLeastSquares_iff.1 hg
  rw [Graph.slope, equations]
  generalize g.factors = l at hall
  induction l with
  | nil => rfl
  | cons f l ih =>
    obtain ⟨⟨c, rfl, hkinds⟩, hl⟩ := List.forall_mem_cons.1 hall
    rw [List.map_cons, List.sum_cons, ih hl,
      List.filterMap_cons_some (show (Factor.linear c).linear? = some c from rfl),
      List.flatMap_cons, List.map_append, List.sum_append, List.map_map, Factor.slope,
      LinearRows.slope, if_neg (by simp [LinearRows.isConstrained, hkinds])]
    rfl

/-- A solution of the normal equation is a critical point. -/
theorem critical {s : LeastSquaresSystem α} (hg : g.isLeastSquares = true)
    (hs : Stacks layout (equations g) s.jacobian s.rhs) (hin : s.jacobian.isInside = true)
    (hreads : ∀ d : Point κ α, ∃ u, layout.Reads u d) {x : Vec α}
    (hx : s.jacobian.gram.mulVec x = s.jacobian.transposeMulVec s.rhs)
    (hp : layout.Reads (Vec.get x) p) : g.Critical p := by
  have hzero (d : Point κ α) : g.slope p d = 0 := by
    obtain ⟨u, hu⟩ := hreads d
    have heq : s.jacobian.form (s.jacobian.rowForm · (Vec.get x)) u =
        s.jacobian.form (Vec.get s.rhs) u := by
      rw [← SparseMatrix.form_gram hin,
        ← SparseMatrix.against_mulVec (SparseMatrix.isInside_gram hin), hx,
        SparseMatrix.against_transposeMulVec hin]
    rw [hs.form_eq hu fun i e he => hs.rowForm he hp, hs.form_eq hu fun i e he => hs.get_rhs he]
      at heq
    have hsplit : g.slope p d + ((equations g).map fun e => e.2 * e.1 d).sum =
        ((equations g).map fun e => e.1 p * e.1 d).sum := by
      rw [slope_eq hg, ← List.sum_map_add]
      exact congrArg List.sum (List.map_congr_left fun e _ => by ring)
    linarith
  refine ⟨fun r hr => ?_, 0, Submodule.zero_mem _, fun v => (hzero v).trans rfl⟩
  cases (Graph.rowKind?_of_isLeastSquares hg r).symm.trans hr

end LeastSquaresSystem

namespace ConstrainedSystem
variable {s : ConstrainedSystem α}

/-- The derivatives of the cost and of the rows, weighed by multipliers `y`, cancel along every
direction where `w` reads, and the rows hold there. -/
def IsSolution (layout : Layout κ) (s : ConstrainedSystem α) (w y : ℕ → α) : Prop :=
  ∀ (d : Point κ α) (y' : ℕ → α), ∃ u, layout.Reads u d ∧
    s.hessian.form u w + s.constraints.form y' w + s.constraints.form y u =
      s.linear.against u + s.rhs.against y'

section Solution
variable (hs : Assembles layout g.factors s) {w y : ℕ → α} (hw : layout.Reads w p)
  (hsolves : IsSolution layout s w y)
include hs hw hsolves

private theorem Assembles.form_eq (d : Point κ α) (y' : ℕ → α) :
    g.slope p d + s.constraints.form y' w +
      ((g.factors.flatMap Factor.equations).zipIdx.map fun e => y e.2 * e.1.1 d).sum =
        s.rhs.against y' := by
  obtain ⟨u, hu, heq⟩ := hsolves d y'
  rw [hs.hessian hu hw, hs.linear hu, hs.rows.form y u d hu] at heq
  have hslope := g.slope_sub 0 p d
  rw [sub_zero, Graph.slope, Graph.slope, Graph.coupling] at hslope
  rw [Graph.slope]
  linarith

private theorem Assembles.constraints_eq (y' : ℕ → α) :
    s.constraints.form y' w = s.rhs.against y' := by
  have hzero : s.constraints.form 0 w = 0 := by simp [SparseMatrix.form]
  have hnone : s.rhs.against 0 = 0 := by simp [Vec.against]
  have h0 := hs.form_eq hw hsolves 0 0
  have h1 := hs.form_eq hw hsolves 0 y'
  rw [hzero, hnone] at h0
  linarith

/-- At a solution the multipliers of the rows take back the slope. -/
theorem Assembles.slope_eq (d : Point κ α) : g.slope p d =
    ((g.factors.flatMap Factor.equations).zipIdx.map fun e => -y e.2 * e.1.1 d).sum := by
  have hgrad := hs.form_eq hw hsolves d 0
  rw [hs.constraints_eq hw hsolves 0] at hgrad
  have hneg : ((g.factors.flatMap Factor.equations).zipIdx.map fun e => -y e.2 * e.1.1 d).sum =
      -((g.factors.flatMap Factor.equations).zipIdx.map fun e => y e.2 * e.1.1 d).sum := by
    rw [List.sum_neg, List.map_map]
    exact congrArg List.sum (List.map_congr_left fun e _ => neg_mul _ _)
  linarith

/-- A solution is a critical point. -/
theorem Assembles.critical : g.Critical p := by
  refine Graph.critical_of_equations (fun e he => ?_) (fun i => -y i) (hs.slope_eq hw hsolves)
  obtain ⟨i, hi⟩ := List.getElem?_of_mem he
  have hone := hs.constraints_eq hw hsolves (Pi.single i 1)
  rwa [← SparseMatrix.rowForm_eq, hs.rows.rowForm hi hw, hs.rows.against,
    sum_zipIdx_single (·.2) hi] at hone

end Solution

/-- A solution of the system without constraint rows is a critical point. -/
theorem Assembles.critical_of_unconstrained (hs : Assembles layout g.factors s)
    (hin : s.hessian.isInside = true) (hreads : ∀ d : Point κ α, ∃ u, layout.Reads u d)
    (hrows : s.rhs = []) {x : Vec α} (hx : s.hessian.mulVec x = s.linear)
    (hp : layout.Reads (Vec.get x) p) : g.Critical p := by
  have hnone : g.factors.flatMap Factor.equations = [] := by
    rw [← List.map_eq_nil_iff (f := Prod.snd), ← hs.rows.rhs, hrows]
  refine hs.critical (y := 0) hp fun d y' => ?_
  obtain ⟨u, hu⟩ := hreads d
  refine ⟨u, hu, ?_⟩
  rw [hs.rows.form y' _ p hp, hs.rows.form 0 u d hu, hnone, hrows, ← hx,
    SparseMatrix.against_mulVec hin]
  simp [Vec.against]

/-- The form of the stationarity system, block by block. -/
theorem form_stationarity (s : ConstrainedSystem α) (u w : ℕ → α) :
    s.stationarity.matrix.form u w = s.hessian.form u w +
      s.constraints.form (fun i => u (s.linear.length + i)) w +
        s.constraints.form (fun i => w (s.linear.length + i)) u := by
  have hfold (l : List ((ℕ × ℕ) × α)) (m : SparseMatrix α) (n : ℕ) :
      (l.foldl (fun m e => (m.addEntry (n + e.1.1) e.1.2 e.2).addEntry e.1.2 (n + e.1.1) e.2)
        m).form u w = m.form u w + (l.map fun e => e.2 * (u (n + e.1.1) * w e.1.2)).sum +
          (l.map fun e => e.2 * (w (n + e.1.1) * u e.1.2)).sum := by
    induction l generalizing m with
    | nil => simp
    | cons e l ih =>
      rw [List.foldl_cons, ih, SparseMatrix.form_addEntry, SparseMatrix.form_addEntry]
      simp only [List.map_cons, List.sum_cons]
      ring
  exact hfold s.constraints.entries.toList _ s.linear.length

/-- The stationarity system has a row and a column for every right-hand side. -/
theorem shape_stationarity (s : ConstrainedSystem α) :
    s.stationarity.matrix.rows = s.stationarity.rhs.length ∧
      s.stationarity.matrix.cols = s.stationarity.rhs.length := by
  let size := s.linear.length + s.rhs.length
  have hshape : s.stationarity.matrix.rows = size ∧ s.stationarity.matrix.cols = size :=
    List.foldlRecOn (motive := fun m : SparseMatrix α => m.rows = size ∧ m.cols = size)
      _ _ ⟨rfl, rfl⟩ fun _ hm _ _ => hm
  have hlength : s.stationarity.rhs.length = size := List.length_append
  rwa [hlength]

/-- A solution of the stationarity system is the point and the multipliers of the rows, one after
the other. -/
theorem isSolution_of_stationarity {dims : SortedMap κ ℕ}
    (hsize : sumDims dims.values < UInt64.size)
    (hlen : s.linear.length = (Layout.ofDimensions dims).total)
    (hin : s.stationarity.matrix.isInside = true) {z : Vec α}
    (hz : s.stationarity.matrix.mulVec z = s.stationarity.rhs) :
    IsSolution (Layout.ofDimensions dims) s (Vec.get z)
      fun i => Vec.get z (s.linear.length + i) := by
  intro d y'
  -- The weights of the first block move along `d`, those of the second block pick rows.
  let u : ℕ → α := fun i =>
    if i < s.linear.length then Vec.get (stackOf dims.toList d) i else y' (i - s.linear.length)
  have htail : (fun i => u (s.linear.length + i)) = y' := by
    funext i
    simp [u]
  have hrhs : s.stationarity.rhs.against u = s.linear.against u + s.rhs.against y' := by
    rw [← htail]
    exact Vec.against_append _ _ _
  have heq : s.stationarity.matrix.form u (Vec.get z) = s.linear.against u + s.rhs.against y' := by
    rw [← SparseMatrix.against_mulVec hin, hz, hrhs]
  rw [form_stationarity, htail] at heq
  exact ⟨u, Layout.reads_congr hsize (Layout.reads_stackOf hsize d) fun i hi =>
    (if_pos (hlen ▸ hi)).symm, heq⟩

end ConstrainedSystem

end Systems

end GaussianProgram
