import GaussianProgram.Proofs.Layout
import GaussianProgram.Proofs.Sparse
import GaussianProgram.Elimination.Assembly

/-! The linear systems of a graph. Its costs add up to the quadratic form and the linear term of the
stacked variables, and its rows stack to a matrix, as long as the segments do not wrap around. -/
namespace GaussianProgram
open Finset (range)

namespace Vec
variable {α : Type} [ExactScalar α]

theorem against_add {v w : Vec α} (h : v.length = w.length) (u : ℕ → α) :
    (add v w).against u = v.against u + w.against u := by
  rw [against, length_add, ← h, min_self, against, against, ← h, ← Finset.sum_add_distrib]
  apply Finset.sum_congr rfl
  intro i hi
  have hi := Finset.mem_range.1 hi
  rw [get_add hi (h ▸ hi), add_mul]

/-- What is added to a part of a vector. -/
theorem against_addAt {v w x : Vec α} {offset : ℕ} (h : addAt v offset w = some x) (u : ℕ → α) :
    x.against u = v.against u + w.against fun i => u (offset + i) := by
  obtain ⟨part, hpart, hx⟩ := Option.bind_eq_some_iff.1 h
  obtain ⟨hfit, rfl⟩ := overwrite_eq_some.1 hx
  have hlen : part.length = w.length := length_of_slice hpart
  have hfit : offset + w.length ≤ v.length := slice_isSome.1 (Option.isSome_of_eq_some hpart)
  have hv : v = v.take offset ++ part ++ v.drop (offset + w.length) := by
    unfold slice at hpart
    rw [if_pos hfit] at hpart
    cases hpart
    rw [← List.drop_drop, List.append_assoc, List.take_append_drop, List.take_append_drop]
  have htake : (v.take offset).length = offset := by
    rw [List.length_take]
    omega
  have hadd : (add part w).length = w.length := by rw [length_add, hlen, min_self]
  conv_rhs => rw [hv]
  simp only [against_append, List.length_append, htake, hlen, hadd, against_add hlen]
  ring

theorem length_of_addAt {v w x : Vec α} {offset : ℕ} (h : addAt v offset w = some x) :
    x.length = v.length := by
  obtain ⟨part, -, hx⟩ := Option.bind_eq_some_iff.1 h
  exact length_of_overwrite hx

end Vec

namespace Layout
variable {κ α : Type} [Key κ] {layout : Layout κ}

/-- The first column of a key, and what is read there. -/
theorem Places.columnOf {k : κ} {n column : ℕ} (h : layout.Places k n)
    (hcolumn : layout.columnOf k = .ok column) : column + n ≤ layout.total ∧
      ∀ {u : ℕ → α} {p : Point κ α}, layout.Reads u p → ∀ j < n, u (column + j) = p k j := by
  obtain ⟨offset, hsegment, hfit⟩ := h
  have hoffset : layout.offset? k = some offset := by rw [offset?, hsegment]; rfl
  rw [Layout.columnOf, hoffset] at hcolumn
  cases hcolumn
  exact ⟨hfit, fun hu j hj => hu k _ hsegment j hj⟩

theorem Places.exists_columnOf {k : κ} {n : ℕ} (h : layout.Places k n) :
    ∃ column, layout.columnOf k = .ok column ∧ column + n ≤ layout.total := by
  obtain ⟨offset, hsegment, hfit⟩ := h
  exact ⟨offset, by rw [Layout.columnOf, offset?, hsegment]; rfl, hfit⟩

end Layout

namespace QuadraticCost
variable {κ α : Type} [Key κ]

private theorem zipIdx_keys (f : QuadraticCost κ α) :
    f.keys.zipIdx = f.segments.zipIdx.map fun e => (e.1.1, e.2) := by
  have hkeys : f.keys = f.segments.map (·.1) := by
    rw [segments, List.map_fst_zip]
    simp [keys, dims]
  conv_lhs => rw [hkeys]
  rw [List.zipIdx_map]
  rfl

private theorem map_zipIdx_segments {β : Type} (f : QuadraticCost κ α) (φ : κ × ℕ × ℕ → β) :
    (f.segments.zipIdx.map fun e => φ e.1) = f.segments.map φ := by
  conv_rhs => rw [← List.zipIdx_map_fst 0 f.segments, List.map_map]
  rfl

private theorem places_segment {layout : Layout κ} {f : QuadraticCost κ α}
    (hf : ∀ e ∈ f.keyDims, layout.Places e.1 e.2) {e : (κ × ℕ × ℕ) × ℕ}
    (he : e ∈ f.segments.zipIdx) :
    f.segments[e.2]? = some e.1 ∧ layout.Places e.1.1 e.1.2.2 := by
  have hget := List.mk_mem_zipIdx_iff_getElem?.1 he
  exact ⟨hget, hf _ (mem_segments (List.mem_of_getElem? hget))⟩

private theorem eq_of_block? [Scalar α] {f : QuadraticCost κ α} {i j : ℕ} {e e' : κ × ℕ × ℕ}
    {block : Matrix α} (hi : f.segments[i]? = some e) (hj : f.segments[j]? = some e')
    (h : f.block? i j = some block) : block =
      .ofFn e.2.2 e'.2.2 fun r c => f.information.get (e.2.1 + r) (e'.2.1 + c) := by
  simp only [block?, hi, hj, Option.bind_eq_bind, Option.bind_some, Matrix.block?] at h
  split_ifs at h
  exact (Option.some.inj h).symm

end QuadraticCost

section Equations
variable {κ α : Type} [Key κ] [ExactScalar α]

def LinearRows.equation (f : LinearRows κ α) (row : ℕ) : (Point κ α →ₗ[α] α) × α :=
  (f.form row, Vec.get f.rhs row)

def Factor.equations : Factor κ α → List ((Point κ α →ₗ[α] α) × α)
  | quadratic _ => []
  | linear f => f.equalityRows.map f.equation

/-- The matrix has the forms of the equations as rows over the stacked variables, and the vector has
their right-hand sides. -/
structure Stacks (layout : Layout κ) (equations : List ((Point κ α →ₗ[α] α) × α))
    (m : SparseMatrix α) (b : Vec α) : Prop where
  rhs : b = equations.map (·.2)
  form : ∀ (y w : ℕ → α) (p : Point κ α), layout.Reads w p →
    m.form y w = (equations.zipIdx.map fun e => y e.2 * e.1.1 p).sum

theorem stacks_empty (layout : Layout κ) (rows cols : ℕ) :
    Stacks layout [] (SparseMatrix.empty rows cols : SparseMatrix α) [] :=
  ⟨rfl, fun _ _ _ _ => rfl⟩

/-- Equations that are appended below. -/
theorem Stacks.append {layout : Layout κ} {E E' : List ((Point κ α →ₗ[α] α) × α)}
    {m m' : SparseMatrix α} {b : Vec α} (h : Stacks layout E m b)
    (hm : ∀ (y w : ℕ → α) (p : Point κ α), layout.Reads w p → m'.form y w =
      m.form y w + ((E'.zipIdx b.length).map fun e => y e.2 * e.1.1 p).sum) :
    Stacks layout (E ++ E') m' (b ++ E'.map (·.2)) := by
  have hlen : b.length = E.length := by rw [h.rhs, List.length_map]
  refine ⟨by rw [h.rhs, List.map_append], fun y w p hw => ?_⟩
  rw [hm y w p hw, h.form y w p hw, List.zipIdx_append, List.map_append, List.sum_append, hlen,
    Nat.zero_add]

end Equations

section Systems
variable {κ α : Type} [Key κ] [ExactScalar α] {layout : Layout κ}
  (htotal : layout.total < UInt64.size)
include htotal

namespace LeastSquaresSystem
variable {s s' : LeastSquaresSystem α}

/-- One factor appends its rows. -/
theorem stacks_addRows {f : LinearRows κ α} (h : s.addRows layout f = .ok s')
    (hf : ∀ e ∈ f.keyDims, layout.Places e.1 e.2) (hrows : s.rhs.length + f.rows ≤ UInt64.size)
    {E : List ((Point κ α →ₗ[α] α) × α)} (hs : Stacks layout E s.jacobian s.rhs) :
    Stacks layout (E ++ (List.range f.rows).map f.equation) s'.jacobian s'.rhs := by
  obtain ⟨jacobian, hterms, h⟩ := Result.bind_eq_ok.1 h
  cases Result.pure_eq_ok.1 h
  have hrhs : f.rhs = ((List.range f.rows).map f.equation).map (·.2) := by
    rw [List.map_map]
    exact Vec.ext_get (by simp [LinearRows.rows]) fun i hi => (Vec.get_map_range _ hi).symm
  have hform (y w : ℕ → α) (p : Point κ α) (hw : layout.Reads w p) : jacobian.form y w =
      s.jacobian.form y w + (f.terms.map fun t => ∑ r ∈ range f.rows,
        y (s.rhs.length + r) * ∑ c ∈ range t.2.cols, t.2.get r c * p t.1 c).sum := by
    refine Result.foldlM_sum (fun m : SparseMatrix α => m.form y w)
      (fun m m' t ht hstep => ?_) hterms
    obtain ⟨k, block⟩ := t
    obtain ⟨column, hcolumn, hstep⟩ := Result.bind_eq_ok.1 hstep
    cases Result.pure_eq_ok.1 hstep
    obtain ⟨hfit, hread⟩ := (hf (k, block.cols) (List.mem_map_of_mem ht)).columnOf hcolumn
    have hblock : block.rows = f.rows := f.block_rows _ ht
    rw [SparseMatrix.form_addBlock _ _ _ (hblock ▸ hrows) (hfit.trans htotal.le), hblock]
    refine congrArg _ (Finset.sum_congr rfl fun r _ => ?_)
    exact congrArg _ (Finset.sum_congr rfl fun c hc => by rw [hread hw c (Finset.mem_range.1 hc)])
  rw [hrhs]
  refine hs.append fun y w p hw => (hform y w p hw).trans ?_
  rw [sum_zipIdx_range, sum_map_sum_comm]
  refine congrArg _ (Finset.sum_congr rfl fun r _ => ?_)
  rw [List.sum_map_mul_left]
  rfl

omit htotal in
theorem rhs_addRows {f : LinearRows κ α} (h : s.addRows layout f = .ok s') :
    s'.rhs = s.rhs ++ f.rhs := by
  obtain ⟨jacobian, -, h⟩ := Result.bind_eq_ok.1 h
  cases Result.pure_eq_ok.1 h
  rfl

omit htotal in
/-- The matrix has a row for every right-hand side and a column for every entry. -/
theorem shape_ofGraph {g : Graph κ α} (h : ofGraph layout g = .ok s) :
    s.jacobian.rows = s.rhs.length ∧ s.jacobian.cols = layout.total := by
  refine Result.foldlM_keeps (fun t : LeastSquaresSystem α =>
    t.jacobian.rows = t.rhs.length ∧ t.jacobian.cols = layout.total) (fun t t' f _ ht hstep => ?_)
    ⟨rfl, rfl⟩ h
  obtain ⟨jacobian, hterms, hstep⟩ := Result.bind_eq_ok.1 hstep
  cases Result.pure_eq_ok.1 hstep
  have hcols : jacobian.cols = layout.total := by
    refine Result.foldlM_keeps (fun m : SparseMatrix α => m.cols = layout.total)
      (fun m m' e _ hm hok => ?_) ht.2 hterms
    obtain ⟨column, -, hok⟩ := Result.bind_eq_ok.1 hok
    cases Result.pure_eq_ok.1 hok
    exact (m.shape_addBlock _ _ _).2.trans hm
  exact ⟨rfl, hcols⟩

omit htotal in
/-- What every factor extends by its own rows, the system of a graph has for the rows of all. -/
theorem rows_ofGraph {ρ : Type} {R : List ρ → LeastSquaresSystem α → Prop}
    {rowsOf : LinearRows κ α → List ρ} {g : Graph κ α}
    (hstart : R [] ⟨SparseMatrix.empty 0 layout.total, []⟩)
    (hstep : ∀ E s s' f, .linear f ∈ g.factors → s.addRows layout f = .ok s' →
      s.rhs.length + f.rows ≤ UInt64.size → R E s → R (E ++ rowsOf f) s')
    (h : ofGraph layout g = .ok s) (hrows : s.rhs.length ≤ UInt64.size) :
    R ((g.factors.filterMap Factor.linear?).flatMap rowsOf) s := by
  have hfold (l : List (LinearRows κ α)) (hl : ∀ f ∈ l, .linear f ∈ g.factors) {E : List ρ}
      {t : LeastSquaresSystem α} (ht : R E t) (h : l.foldlM (addRows layout) t = .ok s) :
      R (E ++ l.flatMap rowsOf) s := by
    induction l generalizing E t with
    | nil =>
      cases Result.pure_eq_ok.1 h
      simpa using ht
    | cons f l ih =>
      rw [List.foldlM_cons, Result.bind_eq_ok] at h
      obtain ⟨t', ht', h⟩ := h
      obtain ⟨hf, hl⟩ := List.forall_mem_cons.1 hl
      have hgrow : t'.rhs.length ≤ s.rhs.length := by
        refine Result.foldlM_keeps (fun u => t'.rhs.length ≤ u.rhs.length)
          (fun u u' f _ hu hstep => ?_) le_rfl h
        rw [rhs_addRows hstep, List.length_append]
        exact hu.trans (Nat.le_add_right _ _)
      rw [rhs_addRows ht', List.length_append] at hgrow
      rw [List.flatMap_cons, ← List.append_assoc]
      exact ih hl (hstep _ _ _ f hf ht' (hgrow.trans hrows) ht) h
  exact hfold _ (fun f hf => Graph.mem_linear.1 hf) hstart h

/-- The system of a graph has the rows of its factors one below the other. -/
theorem stacks_ofGraph {g : Graph κ α} (h : ofGraph layout g = .ok s)
    (hg : ∀ f ∈ g.factors, ∀ e ∈ f.keyDims, layout.Places e.1 e.2)
    (hrows : s.rhs.length ≤ UInt64.size) :
    Stacks layout ((g.factors.filterMap Factor.linear?).flatMap fun f =>
      (List.range f.rows).map f.equation) s.jacobian s.rhs :=
  rows_ofGraph (R := fun E s => Stacks layout E s.jacobian s.rhs)
    (stacks_empty layout 0 layout.total)
    (fun _ _ _ _ hf hs' hsize hs => stacks_addRows htotal hs' (hg _ hf) hsize hs) h hrows

end LeastSquaresSystem

namespace ConstrainedSystem
variable {s s' : ConstrainedSystem α}

/-- The second system has a cost more than the first: its second derivatives are in the matrix, and
the opposite of its slope at zero is in the linear term. -/
structure AddsCost (layout : Layout κ) (s s' : ConstrainedSystem α) (f : Factor κ α) : Prop where
  hessian : ∀ {u w : ℕ → α} {d p : Point κ α}, layout.Reads u d → layout.Reads w p →
    s'.hessian.form u w = s.hessian.form u w + f.coupling p d
  linear : ∀ {u : ℕ → α} {d : Point κ α}, layout.Reads u d →
    s'.linear.against u = s.linear.against u - f.slope 0 d
  constraints : s'.constraints = s.constraints
  rhs : s'.rhs = s.rhs

section Steps
omit htotal

/-- A step over the keys of a cost adds the block of two of its variables. -/
private theorem block_step {f : QuadraticCost κ α} {e e' : (κ × ℕ × ℕ) × ℕ}
    (he : f.segments[e.2]? = some e.1) (he' : f.segments[e'.2]? = some e'.1) {row : ℕ}
    {m m' : SparseMatrix α}
    (h : (do
      let column ← layout.columnOf e'.1.1
      return m.addBlock row column (← Result.inRange (f.block? e.2 e'.2))) =
        (.ok m' : Result LinearError (SparseMatrix α))) :
    ∃ column, layout.columnOf e'.1.1 = .ok column ∧
      m' = m.addBlock row column (.ofFn e.1.2.2 e'.1.2.2 fun r c =>
        f.information.get (e.1.2.1 + r) (e'.1.2.1 + c)) := by
  obtain ⟨column, hcolumn, h⟩ := Result.bind_eq_ok.1 h
  obtain ⟨block, hblock, h⟩ := Result.bind_eq_ok.1 h
  rw [Result.inRange_eq_ok] at hblock
  rw [← QuadraticCost.eq_of_block? he he' hblock]
  exact ⟨column, hcolumn, (Result.pure_eq_ok.1 h).symm⟩

/-- A step over the variables of some rows adds the product of two of their blocks. -/
private theorem product_step {f : LinearRows κ α} {t t' : κ × Matrix α} (ht : t ∈ f.terms)
    (ht' : t' ∈ f.terms) {row : ℕ} {m m' : SparseMatrix α}
    (h : (do
      let column ← layout.columnOf t'.1
      return m.addBlock row column (← Result.inRange (t.2.transpose.mul? t'.2))) =
        (.ok m' : Result LinearError (SparseMatrix α))) :
    ∃ column block, layout.columnOf t'.1 = .ok column ∧ m' = m.addBlock row column block ∧
      block.rows = t.2.cols ∧ block.cols = t'.2.cols ∧ ∀ r < t.2.cols, ∀ c < t'.2.cols,
        block.get r c = ∑ i ∈ range f.rows, t.2.get i r * t'.2.get i c := by
  obtain ⟨column, hcolumn, h⟩ := Result.bind_eq_ok.1 h
  obtain ⟨block, hproduct, h⟩ := Result.bind_eq_ok.1 h
  rw [Result.inRange_eq_ok] at hproduct
  have hrows : t.2.rows = f.rows := f.block_rows t ht
  obtain ⟨hr, hc, hget⟩ := Matrix.get_of_mul? hproduct (hrows.trans (f.block_rows t' ht').symm)
  refine ⟨column, block, hcolumn, (Result.pure_eq_ok.1 h).symm, hr, hc, fun r hr c hc => ?_⟩
  rw [hget r hr c hc, Matrix.cols_transpose, hrows]
  apply Finset.sum_congr rfl
  intro i hi
  rw [Matrix.get_transpose _ hr (hrows ▸ Finset.mem_range.1 hi)]

/-- A step over the variables of a row adds its coefficients of one of them. -/
private theorem coefficients_step {t : κ × Matrix α} {row i : ℕ} {m m' : SparseMatrix α}
    (h : (do
      let column ← layout.columnOf t.1
      return m.addRow i column (← Result.inRange (t.2.row? row))) =
        (.ok m' : Result LinearError (SparseMatrix α))) :
    ∃ column, layout.columnOf t.1 = .ok column ∧ m' = m.addRow i column (t.2.row row) := by
  obtain ⟨column, hcolumn, h⟩ := Result.bind_eq_ok.1 h
  obtain ⟨v, hv, h⟩ := Result.bind_eq_ok.1 h
  rw [Result.inRange_eq_ok, Matrix.row?] at hv
  split_ifs at hv
  cases hv
  exact ⟨column, hcolumn, (Result.pure_eq_ok.1 h).symm⟩

end Steps

section Quadratic
variable {f : QuadraticCost κ α} (hs : f.Stackable)
  (hf : ∀ e ∈ f.keyDims, layout.Places e.1 e.2)
include hs hf

/-- The blocks that couple one variable to all variables of the cost. -/
private theorem form_blocks {e : (κ × ℕ × ℕ) × ℕ} (he : e ∈ f.segments.zipIdx) {row : ℕ}
    (hrow : layout.columnOf e.1.1 = .ok row) {m m' : SparseMatrix α}
    (h : f.keys.zipIdx.foldlM (fun (hessian : SparseMatrix α) (k', j) => do
      let column ← layout.columnOf k'
      return hessian.addBlock row column (← Result.inRange (f.block? e.2 j))) m = .ok m')
    {u w : ℕ → α} {d p : Point κ α} (hu : layout.Reads u d) (hw : layout.Reads w p) :
    m'.form u w = m.form u w +
      ∑ r ∈ range e.1.2.2, f.image p (e.1.2.1 + r) * d e.1.1 r := by
  obtain ⟨hget, hplace⟩ := QuadraticCost.places_segment hf he
  obtain ⟨hfit, hread⟩ := hplace.columnOf hrow
  rw [QuadraticCost.zipIdx_keys, List.foldlM_map] at h
  have hsum : m'.form u w = m.form u w + (f.segments.zipIdx.map fun e' =>
      ∑ r ∈ range e.1.2.2, d e.1.1 r * ∑ c ∈ range e'.1.2.2,
        f.information.get (e.1.2.1 + r) (e'.1.2.1 + c) * p e'.1.1 c).sum := by
    refine Result.foldlM_sum (fun m : SparseMatrix α => m.form u w) (fun m m' e' he' hstep => ?_) h
    obtain ⟨hget', hplace'⟩ := QuadraticCost.places_segment hf he'
    obtain ⟨column, hcolumn, rfl⟩ := block_step hget hget' hstep
    obtain ⟨hfit', hread'⟩ := hplace'.columnOf hcolumn
    rw [SparseMatrix.form_addBlock _ _ _ (hfit.trans htotal.le) (hfit'.trans htotal.le)]
    refine congrArg _ (Finset.sum_congr rfl fun r hr => ?_)
    rw [hread hu r (Finset.mem_range.1 hr)]
    refine congrArg _ (Finset.sum_congr rfl fun c hc => ?_)
    rw [hread' hw c (Finset.mem_range.1 hc),
      Matrix.get_ofFn _ (Finset.mem_range.1 hr) (Finset.mem_range.1 hc)]
  rw [hsum, sum_map_sum_comm]
  refine congrArg _ (Finset.sum_congr rfl fun r _ => ?_)
  rw [List.sum_map_mul_left, QuadraticCost.map_zipIdx_segments f fun e' => ∑ c ∈ range e'.2.2,
    f.information.get (e.1.2.1 + r) (e'.2.1 + c) * p e'.1 c, QuadraticCost.sum_segments hs,
    mul_comm]
  rfl

/-- What one variable of the cost adds to the system. -/
private theorem addQuadratic_step {e : (κ × ℕ × ℕ) × ℕ} (he : e ∈ f.segments.zipIdx)
    (h : (do
      let row ← layout.columnOf e.1.1
      let hessian ← f.keys.zipIdx.foldlM (fun (hessian : SparseMatrix α) (k', j) => do
        let column ← layout.columnOf k'
        return hessian.addBlock row column (← Result.inRange (f.block? e.2 j))) s.hessian
      { s with hessian }.addLinear row (← Result.inRange (f.linearTerm? e.2))) = .ok s') :
    (∀ {u w : ℕ → α} {d p : Point κ α}, layout.Reads u d → layout.Reads w p →
      s'.hessian.form u w = s.hessian.form u w +
        ∑ r ∈ range e.1.2.2, f.image p (e.1.2.1 + r) * d e.1.1 r) ∧
    (∀ {u : ℕ → α} {d : Point κ α}, layout.Reads u d → s'.linear.against u =
      s.linear.against u + ∑ r ∈ range e.1.2.2, Vec.get f.linear (e.1.2.1 + r) * d e.1.1 r) ∧
    s'.constraints = s.constraints ∧ s'.rhs = s.rhs := by
  obtain ⟨hget, hplace⟩ := QuadraticCost.places_segment hf he
  obtain ⟨row, hrow, h⟩ := Result.bind_eq_ok.1 h
  obtain ⟨hessian, hhessian, h⟩ := Result.bind_eq_ok.1 h
  obtain ⟨v, hv, h⟩ := Result.bind_eq_ok.1 h
  obtain ⟨linear, hlinear, h⟩ := Result.bind_eq_ok.1 h
  cases Result.pure_eq_ok.1 h
  rw [Result.inRange_eq_ok] at hv hlinear
  simp only [QuadraticCost.linearTerm?, hget, Option.bind_eq_bind, Option.bind_some] at hv
  refine ⟨form_blocks htotal hs hf he hrow hhessian, fun {u d} hu => ?_, rfl, rfl⟩
  have hpart : (v.against fun i => u (row + i)) =
      ∑ r ∈ range e.1.2.2, Vec.get f.linear (e.1.2.1 + r) * d e.1.1 r := by
    rw [Vec.against, Vec.length_of_slice hv]
    refine Finset.sum_congr rfl fun r hr => ?_
    have hr := Finset.mem_range.1 hr
    rw [Vec.get_of_slice hv hr, (hplace.columnOf hrow).2 hu r hr]
  rw [Vec.against_addAt hlinear, hpart]

theorem addsCost_addQuadratic (h : s.addQuadratic layout f = .ok s') :
    AddsCost layout s s' (.quadratic f) := by
  rw [addQuadratic] at h
  conv at h => enter [1, 3]; rw [QuadraticCost.zipIdx_keys]
  rw [List.foldlM_map] at h
  refine ⟨fun {u w d p} hu hw => ?_, fun {u d} hu => ?_, ?_, ?_⟩
  · rw [Result.foldlM_sum (fun t : ConstrainedSystem α => t.hessian.form u w)
      (fun t t' e he ht => (addQuadratic_step htotal hs hf he ht).1 hu hw) h,
      QuadraticCost.map_zipIdx_segments f fun e =>
        ∑ r ∈ range e.2.2, f.image p (e.2.1 + r) * d e.1 r, QuadraticCost.sum_segments hs]
    rfl
  · rw [Result.foldlM_sum (fun t : ConstrainedSystem α => t.linear.against u)
      (fun t t' e he ht => (addQuadratic_step htotal hs hf he ht).2.1 hu) h,
      QuadraticCost.map_zipIdx_segments f fun e =>
        ∑ r ∈ range e.2.2, Vec.get f.linear (e.2.1 + r) * d e.1 r, QuadraticCost.sum_segments hs,
      Factor.slope, QuadraticCost.slope_zero, sub_neg_eq_add]
  · exact Result.foldlM_keeps (fun t => t.constraints = s.constraints)
      (fun t t' e he hkeep ht => (addQuadratic_step htotal hs hf he ht).2.2.1.trans hkeep) rfl h
  · exact Result.foldlM_keeps (fun t => t.rhs = s.rhs)
      (fun t t' e he hkeep ht => (addQuadratic_step htotal hs hf he ht).2.2.2.trans hkeep) rfl h

end Quadratic

section LeastSquares
variable {f : LinearRows κ α} (hf : ∀ e ∈ f.keyDims, layout.Places e.1 e.2)
include hf

/-- The blocks that couple one variable to all variables of the rows. -/
private theorem form_products {t : κ × Matrix α} (ht : t ∈ f.terms) {row : ℕ}
    (hrow : layout.columnOf t.1 = .ok row) {m m' : SparseMatrix α}
    (h : f.terms.foldlM (fun (hessian : SparseMatrix α) (k', block') => do
      let column ← layout.columnOf k'
      return hessian.addBlock row column (← Result.inRange (t.2.transpose.mul? block'))) m = .ok m')
    {u w : ℕ → α} {d p : Point κ α} (hu : layout.Reads u d) (hw : layout.Reads w p) :
    m'.form u w = m.form u w +
      (t.2.transpose.mulVec ((List.range f.rows).map (f.form · p))).against (d t.1) := by
  obtain ⟨hfit, hread⟩ := (hf (t.1, t.2.cols) (List.mem_map_of_mem ht)).columnOf hrow
  have hblock : t.2.rows = f.rows := f.block_rows _ ht
  have hsum : m'.form u w = m.form u w + (f.terms.map fun t' => ∑ r ∈ range t.2.cols,
      d t.1 r * ∑ i ∈ range f.rows, t.2.get i r *
        ∑ c ∈ range t'.2.cols, t'.2.get i c * p t'.1 c).sum := by
    refine Result.foldlM_sum (fun m : SparseMatrix α => m.form u w) (fun m m' t' ht' hstep => ?_) h
    obtain ⟨column, block, hcolumn, rfl, hr, hc, hget⟩ := product_step ht ht' hstep
    obtain ⟨hfit', hread'⟩ := (hf (t'.1, t'.2.cols) (List.mem_map_of_mem ht')).columnOf hcolumn
    rw [SparseMatrix.form_addBlock _ _ _ (hr ▸ hfit.trans htotal.le)
      (hc ▸ hfit'.trans htotal.le), hr, hc]
    refine congrArg _ (Finset.sum_congr rfl fun r hr => ?_)
    have hr := Finset.mem_range.1 hr
    rw [hread hu r hr]
    simp only [Finset.mul_sum _ (fun c => t'.2.get _ c * p t'.1 c)]
    rw [Finset.sum_comm (s := range f.rows)]
    refine congrArg _ (Finset.sum_congr rfl fun c hc => ?_)
    have hc := Finset.mem_range.1 hc
    rw [hget r hr c hc, hread' hw c hc, Finset.sum_mul]
    exact Finset.sum_congr rfl fun i _ => mul_assoc _ _ _
  rw [hsum, sum_map_sum_comm, Vec.against, Matrix.length_mulVec, Matrix.rows_transpose]
  refine congrArg _ (Finset.sum_congr rfl fun r hr => ?_)
  have hr := Finset.mem_range.1 hr
  rw [List.sum_map_mul_left, sum_map_sum_comm, Matrix.get_mulVec _ hr (by simpa using hblock.symm),
    mul_comm, Matrix.cols_transpose, hblock]
  refine congrArg (· * d t.1 r) (Finset.sum_congr rfl fun i hi => ?_)
  have hi := Finset.mem_range.1 hi
  rw [List.sum_map_mul_left, Matrix.get_transpose _ hr (hblock ▸ hi), Vec.get_map_range _ hi]
  rfl

/-- What one variable of the rows adds to the system. -/
private theorem addLeastSquares_step {t : κ × Matrix α} (ht : t ∈ f.terms)
    (h : (do
      let row ← layout.columnOf t.1
      let _ ← Result.inRange (Vec.slice s.linear row t.2.cols)
      let hessian ← f.terms.foldlM (fun (hessian : SparseMatrix α) (k', block') => do
        let column ← layout.columnOf k'
        return hessian.addBlock row column (← Result.inRange (t.2.transpose.mul? block')))
        s.hessian
      { s with hessian }.addLinear row (t.2.transpose.mulVec f.rhs)) = .ok s') :
    (∀ {u w : ℕ → α} {d p : Point κ α}, layout.Reads u d → layout.Reads w p →
      s'.hessian.form u w = s.hessian.form u w +
        (t.2.transpose.mulVec ((List.range f.rows).map (f.form · p))).against (d t.1)) ∧
    (∀ {u : ℕ → α} {d : Point κ α}, layout.Reads u d → s'.linear.against u =
      s.linear.against u + (t.2.transpose.mulVec f.rhs).against (d t.1)) ∧
    s'.constraints = s.constraints ∧ s'.rhs = s.rhs := by
  obtain ⟨row, hrow, h⟩ := Result.bind_eq_ok.1 h
  obtain ⟨_, -, h⟩ := Result.bind_eq_ok.1 h
  obtain ⟨hessian, hhessian, h⟩ := Result.bind_eq_ok.1 h
  obtain ⟨linear, hlinear, h⟩ := Result.bind_eq_ok.1 h
  cases Result.pure_eq_ok.1 h
  rw [Result.inRange_eq_ok] at hlinear
  refine ⟨form_products htotal hf ht hrow hhessian, fun {u d} hu => ?_, rfl, rfl⟩
  have hplace := hf (t.1, t.2.cols) (List.mem_map_of_mem ht)
  have hpart : ((t.2.transpose.mulVec f.rhs).against fun i => u (row + i)) =
      (t.2.transpose.mulVec f.rhs).against (d t.1) :=
    Vec.against_congr fun r hr => (hplace.columnOf hrow).2 hu r (by simpa using hr)
  rw [Vec.against_addAt hlinear, hpart]

theorem addsCost_addLeastSquares (hcost : f.isConstrained = false)
    (h : s.addLeastSquares layout f = .ok s') : AddsCost layout s s' (.linear f) := by
  have hpairing {q : Vec α} (hq : q.length = f.rows) (d : Point κ α) :
      (f.terms.map fun t => (t.2.transpose.mulVec q).against (d t.1)).sum =
        ∑ row ∈ range f.rows, Vec.get q row * f.form row d := by
    refine Eq.trans ?_ (pairing_transpose hq f.block_rows d)
    rw [pairing, List.map_map]
    rfl
  refine ⟨fun {u w d p} hu hw => ?_, fun {u d} hu => ?_, ?_, ?_⟩
  · rw [Result.foldlM_sum (fun t : ConstrainedSystem α => t.hessian.form u w)
      (fun _ _ t ht hstep => (addLeastSquares_step htotal hf ht hstep).1 hu hw) h,
      hpairing (by simp), Factor.coupling, LinearRows.coupling, hcost, if_neg (by simp)]
    refine congrArg _ (Finset.sum_congr rfl fun row hrow => ?_)
    rw [Vec.get_map_range _ (Finset.mem_range.1 hrow)]
  · rw [Result.foldlM_sum (fun t : ConstrainedSystem α => t.linear.against u)
      (fun _ _ t ht hstep => (addLeastSquares_step htotal hf ht hstep).2.1 hu) h,
      hpairing rfl, Factor.slope, LinearRows.slope_zero hcost, sub_neg_eq_add]
  · exact Result.foldlM_keeps (fun t => t.constraints = s.constraints)
      (fun _ _ t ht hkeep hstep =>
        (addLeastSquares_step htotal hf ht hstep).2.2.1.trans hkeep) rfl h
  · exact Result.foldlM_keeps (fun t => t.rhs = s.rhs)
      (fun _ _ t ht hkeep hstep =>
        (addLeastSquares_step htotal hf ht hstep).2.2.2.trans hkeep) rfl h

end LeastSquares

section Equalities
variable {f : LinearRows κ α} (hf : ∀ e ∈ f.keyDims, layout.Places e.1 e.2)
include hf

/-- The coefficients of one equality row. -/
private theorem form_coefficients {row i : ℕ} {m m' : SparseMatrix α}
    (h : f.terms.foldlM (fun (constraints : SparseMatrix α) (k, block) => do
      let column ← layout.columnOf k
      return constraints.addRow i column (← Result.inRange (block.row? row))) m = .ok m')
    {y w : ℕ → α} {p : Point κ α} (hw : layout.Reads w p) :
    m'.form y w = m.form y w + y i * f.form row p := by
  have hsum : m'.form y w = m.form y w + (f.terms.map fun t =>
      y i * ∑ c ∈ range t.2.cols, t.2.get row c * p t.1 c).sum := by
    refine Result.foldlM_sum (fun m : SparseMatrix α => m.form y w) (fun m m' t ht hstep => ?_) h
    obtain ⟨column, hcolumn, rfl⟩ := coefficients_step hstep
    obtain ⟨hfit, hread⟩ := (hf (t.1, t.2.cols) (List.mem_map_of_mem ht)).columnOf hcolumn
    have hlen : column + (t.2.row row).length ≤ UInt64.size := by
      rw [Matrix.length_row]
      exact hfit.trans htotal.le
    rw [SparseMatrix.form_addRow _ _ _ hlen, Vec.against, Matrix.length_row]
    refine congrArg _ (congrArg _ (Finset.sum_congr rfl fun c hc => ?_))
    have hc := Finset.mem_range.1 hc
    rw [Matrix.get_row _ hc, hread hw c hc]
  rw [hsum, List.sum_map_mul_left]
  rfl

/-- One factor appends its equality rows, and leaves the costs as they are. -/
theorem stacks_addEqualities (h : s.addEqualities layout f = .ok s')
    {E : List ((Point κ α →ₗ[α] α) × α)} (hs : Stacks layout E s.constraints s.rhs) :
    Stacks layout (E ++ f.equalityRows.map f.equation) s'.constraints s'.rhs ∧
      s'.hessian = s.hessian ∧ s'.linear = s.linear := by
  unfold addEqualities at h
  generalize f.equalityRows = rows at h ⊢
  induction rows generalizing s E with
  | nil =>
    cases Result.pure_eq_ok.1 h
    exact ⟨by simpa using hs, rfl, rfl⟩
  | cons row rows ih =>
    rw [List.foldlM_cons, Result.bind_eq_ok] at h
    obtain ⟨t, ht, h⟩ := h
    obtain ⟨constraints, hterms, ht⟩ := Result.bind_eq_ok.1 ht
    obtain ⟨b, hb, ht⟩ := Result.bind_eq_ok.1 ht
    cases Result.pure_eq_ok.1 ht
    rw [Result.inRange_eq_ok] at hb
    have hone : Stacks layout (E ++ [f.equation row])
        { constraints with rows := (s.rhs ++ [b]).length } (s.rhs ++ [b]) := by
      obtain ⟨hlt, hb⟩ := List.getElem?_eq_some_iff.1 hb
      rw [show [b] = [f.equation row].map (·.2) by
        rw [← hb, ← Vec.get_eq_getElem hlt]
        rfl]
      refine hs.append fun y w p hw => (form_coefficients htotal hf hterms hw).trans ?_
      simp [LinearRows.equation]
    obtain ⟨hrest, hhessian, hlinear⟩ := ih hone h
    rw [List.append_assoc, List.singleton_append] at hrest
    exact ⟨hrest, hhessian, hlinear⟩

end Equalities

/-- The system has the costs and the equality rows of some factors. -/
structure Assembles (layout : Layout κ) (fs : List (Factor κ α)) (s : ConstrainedSystem α) :
    Prop where
  hessian : ∀ {u w : ℕ → α} {d p : Point κ α}, layout.Reads u d → layout.Reads w p →
    s.hessian.form u w = (fs.map (·.coupling p d)).sum
  linear : ∀ {u : ℕ → α} {d : Point κ α}, layout.Reads u d →
    s.linear.against u = -(fs.map (·.slope 0 d)).sum
  rows : Stacks layout (fs.flatMap Factor.equations) s.constraints s.rhs

omit htotal in
theorem Assembles.addCost {fs : List (Factor κ α)} {f : Factor κ α} (h : Assembles layout fs s)
    (hf : AddsCost layout s s' f) (hrows : f.equations = []) : Assembles layout (fs ++ [f]) s' where
  hessian hu hw := by simp [hf.hessian hu hw, h.hessian hu hw]
  linear hu := by
    rw [hf.linear hu, h.linear hu, List.map_append, List.sum_append, List.map_singleton,
      List.sum_singleton]
    ring
  rows := by simpa [hrows, hf.constraints, hf.rhs] using h.rows

/-- Every factor adds its cost or its equality rows. -/
theorem Assembles.addFactor {fs : List (Factor κ α)} {f : Factor κ α} (hs : Assembles layout fs s)
    (h : s.addFactor layout f = .ok s') (hstack : ∀ c, f = .quadratic c → c.Stackable)
    (hf : ∀ e ∈ f.keyDims, layout.Places e.1 e.2) : Assembles layout (fs ++ [f]) s' := by
  cases f with
  | quadratic c => exact hs.addCost (addsCost_addQuadratic htotal (hstack c rfl) hf h) rfl
  | linear c =>
    simp only [ConstrainedSystem.addFactor] at h
    split_ifs at h with hcost
    · have hkinds : c.kinds = none := Option.isNone_iff_eq_none.1 hcost
      refine hs.addCost (addsCost_addLeastSquares htotal hf ?_ h) ?_
      · simp [LinearRows.isConstrained, hkinds]
      · simp [Factor.equations, LinearRows.equalityRows, LinearRows.rowsOfKind, hkinds]
    · have hcon : c.isConstrained = true := by
        rw [LinearRows.isLeastSquares, Option.isNone_iff_eq_none] at hcost
        exact Option.isSome_iff_ne_none.2 hcost
      obtain ⟨hrows, hhessian, hlinear⟩ := stacks_addEqualities htotal hf h hs.rows
      refine ⟨fun hu hw => ?_, fun hu => ?_, by simpa [Factor.equations] using hrows⟩
      · simp [hhessian, hs.hessian hu hw, Factor.coupling, LinearRows.coupling, hcon]
      · simp [hlinear, hs.linear hu, Factor.slope, LinearRows.slope, hcon]

/-- The system of a graph has its costs and its equality rows. -/
theorem assembles_ofGraph {g : Graph κ α} (h : ofGraph layout g = .ok s)
    (hstack : ∀ c, .quadratic c ∈ g.factors → c.Stackable)
    (hg : ∀ f ∈ g.factors, ∀ e ∈ f.keyDims, layout.Places e.1 e.2) :
    Assembles layout g.factors s := by
  obtain ⟨linear, hlinear, h⟩ := Result.bind_eq_ok.1 h
  rw [Result.inRange_eq_ok, Vec.zeros?_eq_some] at hlinear
  have hstart : Assembles layout ([] : List (Factor κ α))
      ⟨.empty layout.total layout.total, linear, .empty 0 layout.total, []⟩ := by
    refine ⟨fun _ _ => rfl, fun _ => ?_, stacks_empty layout 0 layout.total⟩
    simp [Vec.against, hlinear.2, Vec.get_zeros]
  have hfold (l fs : List (Factor κ α)) {t : ConstrainedSystem α} (ht : Assembles layout fs t)
      (hl : ∀ f ∈ l, (∀ c, f = .quadratic c → c.Stackable) ∧
        ∀ e ∈ f.keyDims, layout.Places e.1 e.2)
      (h : l.foldlM (ConstrainedSystem.addFactor layout) t = .ok s) :
      Assembles layout (fs ++ l) s := by
    induction l generalizing fs t with
    | nil =>
      cases Result.pure_eq_ok.1 h
      rwa [List.append_nil]
    | cons f l ih =>
      rw [List.foldlM_cons, Result.bind_eq_ok] at h
      obtain ⟨t', ht', h⟩ := h
      obtain ⟨hf, hl⟩ := List.forall_mem_cons.1 hl
      rw [List.append_cons]
      exact ih _ (ht.addFactor htotal ht' hf.1 hf.2) hl h
  exact hfold g.factors [] hstart (fun f hf => ⟨fun c hc => hstack c (hc ▸ hf), hg f hf⟩) h

section Parts
omit htotal

/-- The coefficients of one more variable stand in row `i`. -/
def AddsCoefficients (layout : Layout κ) (f : Factor κ α) (i : ℕ) (m m' : SparseMatrix α) : Prop :=
  ∃ e ∈ f.keyDims, ∃ column v, layout.columnOf e.1 = .ok column ∧ v.length = e.2 ∧
    m' = m.addRow i column v

/-- One part of a factor enters the system: a block that couples two variables, a part of the linear
term, or a row below the others. -/
inductive AddsPart (layout : Layout κ) (f : Factor κ α) (s : ConstrainedSystem α) :
    ConstrainedSystem α → Prop
  | block {e e' : κ × ℕ} {row column : ℕ} {block : Matrix α} (he : e ∈ f.keyDims)
      (he' : e' ∈ f.keyDims) (hrow : layout.columnOf e.1 = .ok row)
      (hcolumn : layout.columnOf e'.1 = .ok column) (hrows : block.rows = e.2)
      (hcols : block.cols = e'.2) :
      AddsPart layout f s { s with hessian := s.hessian.addBlock row column block }
  | linear {offset : ℕ} {v : Vec α} {s' : ConstrainedSystem α} (h : s.addLinear offset v = .ok s') :
      AddsPart layout f s s'
  | row {constraints : SparseMatrix α} (b : α) (h : Relation.ReflTransGen
      (AddsCoefficients layout f s.rhs.length) s.constraints constraints) :
      AddsPart layout f s { s with
        constraints := { constraints with rows := (s.rhs ++ [b]).length }
        rhs := s.rhs ++ [b] }

/-- The blocks for one variable of a cost. -/
private theorem adds_quadraticBlocks {f : QuadraticCost κ α} {e : (κ × ℕ × ℕ) × ℕ}
    (he : e ∈ f.segments.zipIdx) {row : ℕ} (hrow : layout.columnOf e.1.1 = .ok row)
    {hessian : SparseMatrix α}
    (h : f.keys.zipIdx.foldlM (fun (hessian : SparseMatrix α) (k', j) => do
      let column ← layout.columnOf k'
      return hessian.addBlock row column (← Result.inRange (f.block? e.2 j))) s.hessian =
        .ok hessian) :
    Relation.ReflTransGen (AddsPart layout (.quadratic f)) s { s with hessian } := by
  rw [QuadraticCost.zipIdx_keys, List.foldlM_map] at h
  refine Result.foldlM_keeps (fun m : SparseMatrix α =>
    Relation.ReflTransGen (AddsPart layout (.quadratic f)) s { s with hessian := m })
    (fun m m' e' he' hm hok => ?_) .refl h
  have hget := List.mk_mem_zipIdx_iff_getElem?.1 he
  have hget' := List.mk_mem_zipIdx_iff_getElem?.1 he'
  obtain ⟨column, hcolumn, rfl⟩ := block_step hget hget' hok
  exact hm.tail (.block (QuadraticCost.mem_segments (List.mem_of_getElem? hget))
    (QuadraticCost.mem_segments (List.mem_of_getElem? hget')) hrow hcolumn rfl rfl)

/-- The products for one variable of some rows. -/
private theorem adds_products {f : LinearRows κ α} {t : κ × Matrix α} (ht : t ∈ f.terms) {row : ℕ}
    (hrow : layout.columnOf t.1 = .ok row) {hessian : SparseMatrix α}
    (h : f.terms.foldlM (fun (hessian : SparseMatrix α) (k', block') => do
      let column ← layout.columnOf k'
      return hessian.addBlock row column (← Result.inRange (t.2.transpose.mul? block')))
      s.hessian = .ok hessian) :
    Relation.ReflTransGen (AddsPart layout (.linear f)) s { s with hessian } := by
  refine Result.foldlM_keeps (fun m : SparseMatrix α =>
    Relation.ReflTransGen (AddsPart layout (.linear f)) s { s with hessian := m })
    (fun m m' t' ht' hm hok => ?_) .refl h
  obtain ⟨column, block, hcolumn, rfl, hrows, hcols, -⟩ := product_step ht ht' hok
  have he : (t.1, t.2.cols) ∈ (Factor.linear f).keyDims := List.mem_map_of_mem ht
  have he' : (t'.1, t'.2.cols) ∈ (Factor.linear f).keyDims := List.mem_map_of_mem ht'
  exact hm.tail (.block he he' hrow hcolumn hrows hcols)

/-- A factor enters the system part by part. -/
theorem adds_addFactor {f : Factor κ α} (h : s.addFactor layout f = .ok s') :
    Relation.ReflTransGen (AddsPart layout f) s s' := by
  cases f with
  | quadratic f =>
    rw [ConstrainedSystem.addFactor, addQuadratic] at h
    conv at h => enter [1, 3]; rw [QuadraticCost.zipIdx_keys]
    rw [List.foldlM_map] at h
    refine Result.foldlM_keeps (Relation.ReflTransGen (AddsPart layout (.quadratic f)) s)
      (fun t t' e he ht hstep => ht.trans ?_) .refl h
    obtain ⟨row, hrow, hstep⟩ := Result.bind_eq_ok.1 hstep
    obtain ⟨hessian, hhessian, hstep⟩ := Result.bind_eq_ok.1 hstep
    obtain ⟨v, -, hstep⟩ := Result.bind_eq_ok.1 hstep
    exact (adds_quadraticBlocks he hrow hhessian).tail (.linear hstep)
  | linear f =>
    simp only [ConstrainedSystem.addFactor] at h
    split_ifs at h
    · refine Result.foldlM_keeps (Relation.ReflTransGen (AddsPart layout (.linear f)) s)
        (fun u u' t ht hu hstep => hu.trans ?_) .refl h
      obtain ⟨row, hrow, hstep⟩ := Result.bind_eq_ok.1 hstep
      obtain ⟨_, -, hstep⟩ := Result.bind_eq_ok.1 hstep
      obtain ⟨hessian, hhessian, hstep⟩ := Result.bind_eq_ok.1 hstep
      exact (adds_products ht hrow hhessian).tail (.linear hstep)
    · refine Result.foldlM_keeps (Relation.ReflTransGen (AddsPart layout (.linear f)) s)
        (fun u u' row _ hu hstep => hu.tail ?_) .refl h
      obtain ⟨constraints, hterms, hstep⟩ := Result.bind_eq_ok.1 hstep
      obtain ⟨b, -, hstep⟩ := Result.bind_eq_ok.1 hstep
      cases Result.pure_eq_ok.1 hstep
      refine .row b (Result.foldlM_keeps (Relation.ReflTransGen
        (AddsCoefficients layout (.linear f) u.rhs.length) u.constraints)
        (fun m m' t ht hm hok => hm.tail ?_) .refl hterms)
      obtain ⟨column, hcolumn, rfl⟩ := coefficients_step hok
      exact ⟨(t.1, t.2.cols), List.mem_map_of_mem ht, column, _, hcolumn, Matrix.length_row _ _,
        rfl⟩

/-- What every part keeps, parts of a factor keep one after the other. -/
theorem keeps_adds {f : Factor κ α} {P : ConstrainedSystem α → Prop}
    (hP : ∀ t t', P t → AddsPart layout f t t' → P t')
    (h : Relation.ReflTransGen (AddsPart layout f) s s') (hs : P s) : P s' := by
  induction h with
  | refl => exact hs
  | tail _ hstep ih => exact hP _ _ ih hstep

theorem keeps_addFactor {f : Factor κ α} {P : ConstrainedSystem α → Prop}
    (hP : ∀ t t', P t → AddsPart layout f t t' → P t') (h : s.addFactor layout f = .ok s')
    (hs : P s) : P s' :=
  keeps_adds hP (adds_addFactor h) hs

end Parts

section Shape
omit htotal

/-- The matrix of the costs is square, and the linear term has a place for each of its rows. -/
structure Square (n : ℕ) (s : ConstrainedSystem α) : Prop where
  rows : s.hessian.rows = n
  cols : s.hessian.cols = n
  linear : s.linear.length = n

theorem Square.addLinear {n offset : ℕ} {v : Vec α} (h : Square n s)
    (hs : s.addLinear offset v = .ok s') : Square n s' := by
  obtain ⟨linear, hlinear, hs⟩ := Result.bind_eq_ok.1 hs
  cases Result.pure_eq_ok.1 hs
  rw [Result.inRange_eq_ok] at hlinear
  exact ⟨h.rows, h.cols, (Vec.length_of_addAt hlinear).trans h.linear⟩

theorem Square.addsPart {n : ℕ} {f : Factor κ α} (h : Square n s) (hs : AddsPart layout f s s') :
    Square n s' := by
  cases hs with
  | @block _ _ row column block _ _ _ _ _ _ =>
    obtain ⟨hr, hc⟩ := s.hessian.shape_addBlock row column block
    exact ⟨hr.trans h.rows, hc.trans h.cols, h.linear⟩
  | linear hs => exact h.addLinear hs
  | row _ _ => exact ⟨h.rows, h.cols, h.linear⟩

theorem square_ofGraph {g : Graph κ α} (h : ofGraph layout g = .ok s) :
    layout.total ≤ maxLength ∧ Square layout.total s := by
  obtain ⟨linear, hlinear, h⟩ := Result.bind_eq_ok.1 h
  rw [Result.inRange_eq_ok, Vec.zeros?_eq_some] at hlinear
  refine ⟨hlinear.1, Result.foldlM_keeps (Square layout.total)
    (fun t t' f _ ht hstep => keeps_addFactor (fun _ _ => Square.addsPart) hstep ht)
    ⟨rfl, rfl, ?_⟩ h⟩
  rw [hlinear.2, Vec.length_zeros]

private theorem Square.exists_addLinear {n offset : ℕ} {v : Vec α} (h : Square n s)
    (hv : offset + v.length ≤ n) : ∃ s', s.addLinear offset v = .ok s' := by
  have hfit : offset + v.length ≤ s.linear.length := h.linear ▸ hv
  obtain ⟨part, hpart⟩ := Option.isSome_iff_exists.1 (Vec.slice_isSome.2 hfit)
  have hlen : (Vec.add part v).length = v.length := by
    rw [Vec.length_add, Vec.length_of_slice hpart, min_self]
  have hadd : ∃ x, Vec.addAt s.linear offset v = some x :=
    ⟨_, Option.bind_eq_some_iff.2 ⟨part, hpart, overwrite_eq_some.2 ⟨hlen ▸ hfit, rfl⟩⟩⟩
  obtain ⟨x, hx⟩ := hadd
  exact ⟨_, Result.bind_eq_ok.2 ⟨x, Result.inRange_eq_ok.2 hx, rfl⟩⟩

private theorem exists_addQuadratic {f : QuadraticCost κ α} (h : Square layout.total s)
    (hs : f.Stackable) (hf : ∀ e ∈ f.keyDims, layout.Places e.1 e.2) :
    ∃ s', s.addQuadratic layout f = .ok s' := by
  rw [addQuadratic, QuadraticCost.zipIdx_keys, List.foldlM_map]
  refine Result.exists_foldlM (Square layout.total) (fun t e he ht => ?_) h
  obtain ⟨hget, hplace⟩ := QuadraticCost.places_segment hf he
  have hfit := QuadraticCost.segment_fits hs (List.mem_of_getElem? hget)
  obtain ⟨row, hrow, hend⟩ := hplace.exists_columnOf
  obtain ⟨hessian, hhessian⟩ : ∃ hessian, (f.segments.zipIdx.map fun e => (e.1.1, e.2)).foldlM
      (fun (hessian : SparseMatrix α) (k', j) => do
        let column ← layout.columnOf k'
        return hessian.addBlock row column (← Result.inRange (f.block? e.2 j))) t.hessian =
          .ok hessian := by
    rw [List.foldlM_map]
    refine Result.exists_foldlM (fun _ => True) (fun m e' he' _ => ?_) trivial
    obtain ⟨hget', hplace'⟩ := QuadraticCost.places_segment hf he'
    have hfit' := QuadraticCost.segment_fits hs (List.mem_of_getElem? hget')
    obtain ⟨column, hcolumn, -⟩ := hplace'.exists_columnOf
    have hblock : f.block? e.2 e'.2 = some (.ofFn e.1.2.2 e'.1.2.2 fun r c =>
        f.information.get (e.1.2.1 + r) (e'.1.2.1 + c)) := by
      simp only [QuadraticCost.block?, hget, hget', Option.bind_eq_bind, Option.bind_some,
        Matrix.block?]
      exact if_pos ⟨f.rows_information ▸ hfit, f.cols_information ▸ hfit'⟩
    exact ⟨_, Result.bind_eq_ok.2 ⟨column, hcolumn,
      Result.bind_eq_ok.2 ⟨_, Result.inRange_eq_ok.2 hblock, rfl⟩⟩, trivial⟩
  obtain ⟨v, hv⟩ := Option.isSome_iff_exists.1 (Vec.slice_isSome.2 hfit)
  have hlinear : f.linearTerm? e.2 = some v := by
    simp only [QuadraticCost.linearTerm?, hget, Option.bind_eq_bind, Option.bind_some, hv]
  have hsquare : Square layout.total { t with hessian } := keeps_adds (fun _ _ => Square.addsPart)
    (adds_quadraticBlocks he hrow (QuadraticCost.zipIdx_keys f ▸ hhessian)) ht
  obtain ⟨t', ht'⟩ := hsquare.exists_addLinear (Vec.length_of_slice hv ▸ hend)
  exact ⟨t', Result.bind_eq_ok.2 ⟨row, hrow, Result.bind_eq_ok.2 ⟨hessian, hhessian,
    Result.bind_eq_ok.2 ⟨v, Result.inRange_eq_ok.2 hlinear, ht'⟩⟩⟩, hsquare.addLinear ht'⟩

private theorem exists_addLeastSquares {f : LinearRows κ α} (h : Square layout.total s)
    (hf : ∀ e ∈ f.keyDims, layout.Places e.1 e.2)
    (hproducts : ∀ t ∈ f.terms, ∀ t' ∈ f.terms, t.2.cols * t'.2.cols ≤ maxLength) :
    ∃ s', s.addLeastSquares layout f = .ok s' := by
  refine Result.exists_foldlM (Square layout.total) (fun t e he ht => ?_) h
  have hplace {e : κ × Matrix α} (he : e ∈ f.terms) : layout.Places e.1 e.2.cols :=
    hf (e.1, e.2.cols) (List.mem_map_of_mem he)
  obtain ⟨row, hrow, hend⟩ := (hplace he).exists_columnOf
  obtain ⟨part, hpart⟩ := Option.isSome_iff_exists.1 (Vec.slice_isSome.2 (ht.linear ▸ hend))
  obtain ⟨hessian, hhessian⟩ : ∃ hessian, f.terms.foldlM
      (fun (hessian : SparseMatrix α) (k', block') => do
        let column ← layout.columnOf k'
        return hessian.addBlock row column (← Result.inRange (e.2.transpose.mul? block')))
      t.hessian = .ok hessian := by
    refine Result.exists_foldlM (fun _ => True) (fun m e' he' _ => ?_) trivial
    obtain ⟨column, hcolumn, -⟩ := (hplace he').exists_columnOf
    have hproduct : ∃ block, e.2.transpose.mul? e'.2 = some block :=
      ⟨_, if_neg (not_lt.2 (hproducts e he e' he'))⟩
    obtain ⟨block, hproduct⟩ := hproduct
    exact ⟨_, Result.bind_eq_ok.2 ⟨column, hcolumn,
      Result.bind_eq_ok.2 ⟨block, Result.inRange_eq_ok.2 hproduct, rfl⟩⟩, trivial⟩
  have hsquare : Square layout.total { t with hessian } :=
    keeps_adds (fun _ _ => Square.addsPart) (adds_products he hrow hhessian) ht
  have hend' : row + (e.2.transpose.mulVec f.rhs).length ≤ layout.total := by
    rwa [Matrix.length_mulVec, Matrix.rows_transpose]
  obtain ⟨t', ht'⟩ := hsquare.exists_addLinear hend'
  refine ⟨t', Result.bind_eq_ok.2 ⟨row, hrow, ?_⟩, hsquare.addLinear ht'⟩
  exact Result.bind_eq_ok.2 ⟨part, Result.inRange_eq_ok.2 hpart,
    Result.bind_eq_ok.2 ⟨hessian, hhessian, ht'⟩⟩

private theorem exists_addEqualities {f : LinearRows κ α} (s : ConstrainedSystem α)
    (hf : ∀ e ∈ f.keyDims, layout.Places e.1 e.2) : ∃ s', s.addEqualities layout f = .ok s' := by
  refine Result.exists_foldlM (fun _ => True) (fun t row hrow _ => ?_) trivial
  have hlt : row < f.rhs.length := LinearRows.rowKind?_lt (LinearRows.mem_rowsOfKind.1 hrow)
  obtain ⟨constraints, hconstraints⟩ : ∃ constraints, f.terms.foldlM
      (fun (constraints : SparseMatrix α) (k, block) => do
        let column ← layout.columnOf k
        return constraints.addRow t.rhs.length column (← Result.inRange (block.row? row)))
      t.constraints = .ok constraints := by
    refine Result.exists_foldlM (fun _ => True) (fun m e he _ => ?_) trivial
    obtain ⟨column, hcolumn, -⟩ := (hf (e.1, e.2.cols) (List.mem_map_of_mem he)).exists_columnOf
    have hcoefficients : e.2.row? row = some (e.2.row row) := if_pos (f.block_rows e he ▸ hlt)
    exact ⟨_, Result.bind_eq_ok.2 ⟨column, hcolumn,
      Result.bind_eq_ok.2 ⟨_, Result.inRange_eq_ok.2 hcoefficients, rfl⟩⟩, trivial⟩
  exact ⟨_, Result.bind_eq_ok.2 ⟨constraints, hconstraints, Result.bind_eq_ok.2
    ⟨_, Result.inRange_eq_ok.2 (List.getElem?_eq_getElem hlt), rfl⟩⟩, trivial⟩

/-- The system can be assembled if every variable has its place in a vector that can be stored, and
the products of the blocks of least-squares factors can be stored. -/
theorem exists_ofGraph {g : Graph κ α} (htotal : layout.total ≤ maxLength)
    (hstack : ∀ c, .quadratic c ∈ g.factors → c.Stackable)
    (hg : ∀ f ∈ g.factors, ∀ e ∈ f.keyDims, layout.Places e.1 e.2)
    (hproducts : ∀ c, .linear c ∈ g.factors → c.isLeastSquares = true → ∀ t ∈ c.terms,
      ∀ t' ∈ c.terms, t.2.cols * t'.2.cols ≤ maxLength) :
    ∃ s : ConstrainedSystem α, ofGraph layout g = .ok s := by
  have hzeros : Vec.zeros? layout.total = some (Vec.zeros layout.total : Vec α) := if_pos htotal
  have hfold : ∃ s, g.factors.foldlM (ConstrainedSystem.addFactor layout) {
      hessian := SparseMatrix.empty layout.total layout.total
      linear := (Vec.zeros layout.total : Vec α)
      constraints := SparseMatrix.empty 0 layout.total
      rhs := [] } = .ok s := by
    refine Result.exists_foldlM (Square layout.total) (fun t f hf ht => ?_)
      ⟨rfl, rfl, Vec.length_zeros _⟩
    have hstep : ∃ t', t.addFactor layout f = .ok t' := by
      cases f with
      | quadratic c => exact exists_addQuadratic ht (hstack c hf) (hg _ hf)
      | linear c =>
        rw [ConstrainedSystem.addFactor]
        split_ifs with hcost
        · exact exists_addLeastSquares ht (hg _ hf) (hproducts c hf hcost)
        · exact t.exists_addEqualities (hg _ hf)
    obtain ⟨t', ht'⟩ := hstep
    exact ⟨t', ht', keeps_addFactor (fun _ _ => Square.addsPart) ht' ht⟩
  obtain ⟨s, hs⟩ := hfold
  exact ⟨s, Result.bind_eq_ok.2 ⟨_, Result.inRange_eq_ok.2 hzeros, hs⟩⟩

/-- The constraint matrix has a row for every right-hand side, over all stacked variables. -/
theorem shape_constraints {g : Graph κ α} (h : ofGraph layout g = .ok s) :
    s.constraints.rows = s.rhs.length ∧ s.constraints.cols = layout.total := by
  obtain ⟨linear, -, h⟩ := Result.bind_eq_ok.1 h
  let Shaped (t : ConstrainedSystem α) : Prop :=
    t.constraints.rows = t.rhs.length ∧ t.constraints.cols = layout.total
  refine Result.foldlM_keeps Shaped (fun t t' f _ ht hstep => keeps_addFactor (P := Shaped)
    (fun u u' hu hpart => ?_) hstep ht) ⟨rfl, rfl⟩ h
  cases hpart with
  | block _ _ _ _ _ _ => exact hu
  | linear hlinear =>
    obtain ⟨_, -, hlinear⟩ := Result.bind_eq_ok.1 hlinear
    cases Result.pure_eq_ok.1 hlinear
    exact hu
  | @row constraints _ hadds =>
    have hcols : constraints.cols = layout.total := by
      induction hadds with
      | refl => exact hu.2
      | tail _ hstep ih =>
        obtain ⟨_, _, _, _, -, -, rfl⟩ := hstep
        exact (SparseMatrix.shape_addRow _ _ _ _).2.trans ih
    exact ⟨rfl, hcols⟩

/-- The entries of the costs lie in the square of the layout, and those of the rows lie one row
below the other. -/
structure Inside (layout : Layout κ) (s : ConstrainedSystem α) : Prop where
  hessian : s.hessian.Within layout.total layout.total
  constraints : s.constraints.Within s.rhs.length layout.total

theorem Inside.addsPart {f : Factor κ α} (h : Inside layout s)
    (hf : ∀ e ∈ f.keyDims, layout.Places e.1 e.2) (hs : AddsPart layout f s s') :
    Inside layout s' := by
  cases hs with
  | block he he' hrow hcolumn hrows hcols =>
    refine ⟨h.hessian.addBlock ?_ ?_, h.constraints⟩
    · exact hrows ▸ ((hf _ he).columnOf (α := α) hrow).1
    · exact hcols ▸ ((hf _ he').columnOf (α := α) hcolumn).1
  | linear hlinear =>
    obtain ⟨_, -, hlinear⟩ := Result.bind_eq_ok.1 hlinear
    cases Result.pure_eq_ok.1 hlinear
    exact ⟨h.hessian, h.constraints⟩
  | @row constraints b hadds =>
    have hrows : constraints.Within (s.rhs ++ [b]).length layout.total := by
      induction hadds with
      | refl => exact h.constraints.mono (by simp) le_rfl
      | tail _ hstep ih =>
        obtain ⟨e, he, column, v, hcolumn, hv, rfl⟩ := hstep
        exact ih.addRow (by simp) (hv ▸ ((hf e he).columnOf (α := α) hcolumn).1)
    exact ⟨h.hessian, hrows⟩

theorem inside_ofGraph {g : Graph κ α} (h : ofGraph layout g = .ok s)
    (hg : ∀ f ∈ g.factors, ∀ e ∈ f.keyDims, layout.Places e.1 e.2) : Inside layout s := by
  obtain ⟨linear, -, h⟩ := Result.bind_eq_ok.1 h
  exact Result.foldlM_keeps (Inside layout)
    (fun t t' f hf ht hstep => keeps_addFactor (fun _ _ hu => hu.addsPart (hg f hf)) hstep ht)
    ⟨fun e he => absurd he List.not_mem_nil, fun e he => absurd he List.not_mem_nil⟩ h

/-- All entries of the stationarity system lie inside. -/
theorem Inside.stationarity (h : Inside layout s) (hlen : s.linear.length = layout.total) :
    s.stationarity.matrix.isInside = true := by
  let size := s.linear.length + s.rhs.length
  suffices hfold : s.stationarity.matrix.Within size size ∧
      s.stationarity.matrix.rows = size ∧ s.stationarity.matrix.cols = size by
    obtain ⟨hwithin, hr, hc⟩ := hfold
    rw [SparseMatrix.isInside_iff_within, hr, hc]
    exact hwithin
  refine List.foldlRecOn (motive := fun m : SparseMatrix α =>
    m.Within size size ∧ m.rows = size ∧ m.cols = size) _ _ ⟨?_, rfl, rfl⟩ fun m hm e he => ?_
  · exact h.hessian.mono (hlen ▸ Nat.le_add_right _ _) (hlen ▸ Nat.le_add_right _ _)
  · obtain ⟨hrow, hcolumn⟩ := h.constraints e.1 (List.mem_map_of_mem he)
    rw [← hlen] at hcolumn
    have hi : s.linear.length + e.1.1 < size := Nat.add_lt_add_left hrow _
    have hj : e.1.2 < size := hcolumn.trans_le (Nat.le_add_right _ _)
    exact ⟨(hm.1.addEntry hi hj _).addEntry hj hi _, hm.2⟩

end Shape

end ConstrainedSystem

end Systems

end GaussianProgram
