import GaussianProgram.Proofs.Point
import GaussianProgram.Factor.Linear

/-! Rows as linear forms. A row's value, the residual of all rows and the least-squares cost are all
given by the same form of the point, and so are rows selected from another factor. -/
namespace GaussianProgram
open Finset (range)

namespace Matrix
variable {α : Type} [ExactScalar α]

theorem get_row (m : Matrix α) {i j : ℕ} (hj : j < m.cols) : Vec.get (m.row i) j = m.get i j :=
  Vec.get_map_range _ hj

omit [ExactScalar α] in
@[simp] theorem length_mulVec [Scalar α] (m : Matrix α) (v : Vec α) :
    (m.mulVec v).length = m.rows := by
  simp [mulVec]

theorem get_mulVec (m : Matrix α) {v : Vec α} {i : ℕ} (hi : i < m.rows) (hv : v.length = m.cols) :
    Vec.get (m.mulVec v) i = ∑ j ∈ range m.cols, m.get i j * Vec.get v j := by
  have hrow : Vec.get (m.mulVec v) i = Vec.combine (m.row i) v := by
    rw [Vec.get_eq_getElem (by simpa using hi)]
    simp [mulVec, rowList]
  rw [hrow, Vec.combine_eq_dot, Vec.dot_eq (by rw [length_row, hv]), length_row]
  exact Finset.sum_congr rfl fun j hj => by rw [get_row m (Finset.mem_range.1 hj)]

theorem get_transpose (m : Matrix α) {i j : ℕ} (hi : i < m.cols) (hj : j < m.rows) :
    m.transpose.get i j = m.get j i := get_ofFn _ hi hj

/-- Every entry of a product is a sum of products. -/
theorem get_of_mul? {m n p : Matrix α} (h : m.mul? n = some p) (hmn : m.cols = n.rows) :
    p.rows = m.rows ∧ p.cols = n.cols ∧ ∀ i < m.rows, ∀ j < n.cols,
      p.get i j = ∑ k ∈ range m.cols, m.get i k * n.get k j := by
  unfold mul? at h
  split_ifs at h
  cases h
  refine ⟨rfl, rfl, fun i hi j hj => ?_⟩
  have hrow : m.rowList.toArray.getD i [] = m.row i := by simp [rowList, hi]
  have hcolumn : n.columnList.toArray.getD j [] = n.column j := by simp [columnList, hj]
  rw [get_ofFn _ hi hj, hrow, hcolumn, Vec.combine_eq_dot,
    Vec.dot_eq (by rw [length_row, length_column, hmn]), length_row]
  apply Finset.sum_congr rfl
  intro k hk
  have hk := Finset.mem_range.1 hk
  rw [get_row m hk, column, Vec.get_map_range _ (hmn ▸ hk)]

end Matrix

namespace Assignment
variable {κ α : Type} [Key κ]

def HasDims (x : Assignment κ α) (dims : List (κ × ℕ)) : Prop :=
  ∀ e ∈ dims, x.dim? e.1 = some e.2

instance (x : Assignment κ α) (dims : List (κ × ℕ)) : Decidable (x.HasDims dims) :=
  inferInstanceAs (Decidable (∀ e ∈ dims, x.dim? e.1 = some e.2))

theorem HasDims.mono {x y : Assignment κ α} {dims : List (κ × ℕ)} (h : x.HasDims dims)
    (hxy : ∀ k n, x.dim? k = some n → y.dim? k = some n) : y.HasDims dims :=
  fun e he => hxy _ _ (h e he)

theorem HasDims.of_sameShape {x y : Assignment κ α} {dims : List (κ × ℕ)} (h : x.HasDims dims)
    (hs : x.SameShape y) : y.HasDims dims := fun e he => (hs e.1).symm.trans (h e he)

theorem hasDims_nil (x : Assignment κ α) : x.HasDims [] := by simp [HasDims]

theorem hasDims_cons {x : Assignment κ α} {k : κ} {n : ℕ} {dims : List (κ × ℕ)} :
    x.HasDims ((k, n) :: dims) ↔ x.dim? k = some n ∧ x.HasDims dims := by
  simp [HasDims]

end Assignment

section Blocks
variable {κ α : Type} [ExactScalar α]

/-- Sum of the products of the entries of some vectors with those of a point. -/
def pairing (parts : List (κ × Vec α)) (p : Point κ α) : α :=
  (parts.map fun e => ∑ i ∈ range e.2.length, Vec.get e.2 i * p e.1 i).sum

theorem pairing_nil (p : Point κ α) : pairing [] p = 0 := rfl

theorem pairing_cons (k : κ) (u : Vec α) (parts : List (κ × Vec α)) (p : Point κ α) :
    pairing ((k, u) :: parts) p = ∑ i ∈ range u.length, Vec.get u i * p k i + pairing parts p := by
  simp [pairing]

theorem pairing_zeros {parts : List (κ × Vec α)} (h : ∀ e ∈ parts, ∀ i, Vec.get e.2 i = 0)
    (p : Point κ α) : pairing parts p = 0 := by
  induction parts with
  | nil => rfl
  | cons e parts ih =>
    rw [pairing_cons, ih fun e he => h e (List.mem_cons_of_mem _ he)]
    simp [h e List.mem_cons_self]

def rowSum (terms : List (κ × Matrix α)) (row : ℕ) (p : Point κ α) : α :=
  (terms.map fun t => ∑ j ∈ range t.2.cols, t.2.get row j * p t.1 j).sum

theorem rowSum_nil (row : ℕ) (p : Point κ α) : rowSum [] row p = 0 := rfl

theorem rowSum_cons (k : κ) (block : Matrix α) (terms : List (κ × Matrix α)) (row : ℕ)
    (p : Point κ α) : rowSum ((k, block) :: terms) row p =
      ∑ j ∈ range block.cols, block.get row j * p k j + rowSum terms row p := by
  simp [rowSum]

theorem rowSum_add (terms : List (κ × Matrix α)) (row : ℕ) (p q : Point κ α) :
    rowSum terms row (p + q) = rowSum terms row p + rowSum terms row q := by
  simp only [rowSum, Pi.add_apply, mul_add, Finset.sum_add_distrib, List.sum_map_add]

theorem rowSum_smul (terms : List (κ × Matrix α)) (row : ℕ) (c : α) (p : Point κ α) :
    rowSum terms row (c • p) = c * rowSum terms row p := by
  simp only [rowSum, Pi.smul_apply, smul_eq_mul, ← List.sum_map_mul_left, Finset.mul_sum,
    mul_left_comm]

/-- Transposed blocks times a vector pair with a point as the vector does with the row sums. -/
theorem pairing_transpose {n : ℕ} {r : Vec α} (hr : r.length = n) {terms : List (κ × Matrix α)}
    (h : ∀ t ∈ terms, t.2.rows = n) (p : Point κ α) :
    pairing (terms.map fun t => (t.1, t.2.transpose.mulVec r)) p =
      ∑ row ∈ range n, Vec.get r row * rowSum terms row p := by
  induction terms with
  | nil => simp [pairing_nil, rowSum_nil]
  | cons t terms ih =>
    obtain ⟨k, block⟩ := t
    have hn : block.rows = n := h _ List.mem_cons_self
    have hpart : ∑ j ∈ range block.cols, Vec.get (block.transpose.mulVec r) j * p k j =
        ∑ row ∈ range n, Vec.get r row * ∑ j ∈ range block.cols, block.get row j * p k j := by
      simp only [Finset.mul_sum]
      rw [Finset.sum_comm]
      apply Finset.sum_congr rfl
      intro j hj
      have hj := Finset.mem_range.1 hj
      rw [Matrix.get_mulVec _ (by simpa using hj) (by simp [hr, hn]), Matrix.cols_transpose, hn,
        Finset.sum_mul]
      apply Finset.sum_congr rfl
      intro row hrow
      rw [Matrix.transpose, Matrix.get_ofFn _ hj (by rw [hn]; exact Finset.mem_range.1 hrow)]
      ring
    rw [List.map_cons, pairing_cons, Matrix.length_mulVec, Matrix.rows_transpose, hpart,
      ih fun t ht => h t (List.mem_cons_of_mem _ ht)]
    simp only [rowSum_cons, mul_add, Finset.sum_add_distrib]

end Blocks

namespace LinearRows
variable {κ α : Type} [Key κ] [ExactScalar α]

/-- Value of a row, without its right-hand side, as a linear form of the point. -/
def form (f : LinearRows κ α) (row : ℕ) : Point κ α →ₗ[α] α where
  toFun := rowSum f.terms row
  map_add' := rowSum_add f.terms row
  map_smul' := rowSum_smul f.terms row

theorem form_apply (f : LinearRows κ α) (row : ℕ) (p : Point κ α) :
    f.form row p = rowSum f.terms row p := rfl

/-- A row reads the entries of its variables only. -/
theorem form_ext (f : LinearRows κ α) (row : ℕ) {p q : Point κ α}
    (h : ∀ e ∈ f.keyDims, ∀ j < e.2, p e.1 j = q e.1 j) : f.form row p = f.form row q := by
  rw [form_apply, form_apply, rowSum, rowSum]
  refine congrArg List.sum (List.map_congr_left fun t ht => Finset.sum_congr rfl fun j hj => ?_)
  rw [h (t.1, t.2.cols) (List.mem_map_of_mem ht) j (Finset.mem_range.1 hj)]

/-- A row reads the variables of its factor only. -/
theorem form_congr (f : LinearRows κ α) (row : ℕ) {p q : Point κ α} (h : ∀ k ∈ f.keys, p k = q k) :
    f.form row p = f.form row q := by
  apply f.form_ext row
  intro e he j _
  obtain ⟨t, ht, rfl⟩ := List.mem_map.1 he
  rw [h t.1 (List.mem_map_of_mem ht)]

private theorem rowValue_terms {n row : ℕ} (hrow : row < n) (x : Assignment κ α)
    {l : List (κ × Matrix α)} (hl : ∀ t ∈ l, t.2.rows = n) (total value : α) :
    l.foldlM (fun total (k, block) => do
      let v ← Result.ofExcept (x.valueOf k block.cols)
      let coefficients ← Result.inRange (block.row? row)
      return total + Vec.dot coefficients v) total = (.ok value : Result (FactorError α) α) ↔
    x.HasDims (l.map fun t => (t.1, t.2.cols)) ∧ value = total + rowSum l row x.entries := by
  induction l generalizing total with
  | nil => simp [pure, Except.pure, Assignment.hasDims_nil, rowSum_nil, eq_comm]
  | cons t l ih =>
    obtain ⟨k, block⟩ := t
    have hblock : block.row? row = some (block.row row) := by
      have hn : block.rows = n := hl _ List.mem_cons_self
      simp [Matrix.row?, hn, hrow]
    simp only [List.foldlM_cons, Result.bind_eq_ok, Result.pure_eq_ok, Result.ofExcept_eq_ok,
      Assignment.valueOf_eq_ok, hblock, Result.inRange_some, Except.ok.injEq, List.map_cons,
      Assignment.hasDims_cons, Assignment.dim?_eq_some, rowSum_cons,
      ih fun t ht => hl t (List.mem_cons_of_mem _ ht)]
    have hdot {v : Vec α} (hv : x.get? k = some v) (hlen : v.length = block.cols) :
        Vec.dot (block.row row) v = ∑ j ∈ range block.cols, block.get row j * x.entries k j := by
      rw [Vec.dot_eq (by rw [Matrix.length_row, hlen]), Matrix.length_row]
      apply Finset.sum_congr rfl
      intro j hj
      rw [Matrix.get_row block (Finset.mem_range.1 hj), Assignment.entries_eq hv]
    constructor
    · rintro ⟨_, ⟨v, ⟨hv, hlen⟩, _, rfl, rfl⟩, hdims, rfl⟩
      exact ⟨⟨⟨v, hv, hlen⟩, hdims⟩, by rw [hdot hv hlen, add_assoc]⟩
    · rintro ⟨⟨⟨v, hv, hlen⟩, hdims⟩, rfl⟩
      exact ⟨_, ⟨v, ⟨hv, hlen⟩, _, rfl, rfl⟩, hdims, by rw [hdot hv hlen, add_assoc]⟩

/-- A row inside the factor has a value wherever all variables are there in their dimensions, and
the value is that of its form. -/
theorem rowValue_eq_ok {f : LinearRows κ α} {row : ℕ} {x : Assignment κ α} {value : α} :
    f.rowValue row x = .ok value ↔
      row < f.rows ∧ x.HasDims f.keyDims ∧ value = f.form row x.entries := by
  unfold rowValue
  by_cases hrow : row < f.rows
  · rw [if_neg (not_le.2 hrow), rowValue_terms hrow x f.block_rows, zero_add]
    simp only [hrow, true_and]
    rfl
  · simp [not_lt.1 hrow, hrow, Result.fail]

private theorem residual_terms {n : ℕ} (x : Assignment κ α) {l : List (κ × Matrix α)}
    (hl : ∀ t ∈ l, t.2.rows = n) {total : Vec α} (ht : total.length = n) (r : Vec α) :
    l.foldlM (fun total (k, block) => do
      let v ← x.valueOf k block.cols
      return Vec.add total (block.mulVec v)) total = (.ok r : Except (FactorError α) (Vec α)) ↔
    x.HasDims (l.map fun t => (t.1, t.2.cols)) ∧
      r = (List.range n).map fun row => Vec.get total row + rowSum l row x.entries := by
  induction l generalizing total with
  | nil =>
    have hid : total = (List.range n).map fun row => Vec.get total row := by
      apply Vec.ext_get (by simp [ht])
      intro i hi
      rw [Vec.get_map_range _ (ht ▸ hi)]
    simp [pure, Except.pure, Assignment.hasDims_nil, rowSum_nil, ← hid, eq_comm]
  | cons t l ih =>
    obtain ⟨k, block⟩ := t
    have hn : block.rows = n := hl _ List.mem_cons_self
    have hlen (v : Vec α) : (Vec.add total (block.mulVec v)).length = n := by simp [ht, hn]
    simp only [List.foldlM_cons, Result.bind_eq_ok, Result.pure_eq_ok, Assignment.valueOf_eq_ok,
      List.map_cons, Assignment.hasDims_cons, Assignment.dim?_eq_some, rowSum_cons]
    have hrows {v : Vec α} (hv : x.get? k = some v) (hd : v.length = block.cols) :
        ((List.range n).map fun row =>
          Vec.get (Vec.add total (block.mulVec v)) row + rowSum l row x.entries) =
        (List.range n).map fun row => Vec.get total row +
          (∑ j ∈ range block.cols, block.get row j * x.entries k j + rowSum l row x.entries) := by
      apply List.map_congr_left
      intro row hrow
      have hlt := List.mem_range.1 hrow
      rw [Vec.get_add (ht ▸ hlt) (by rw [Matrix.length_mulVec, hn]; exact hlt),
        block.get_mulVec (hn ▸ hlt) hd, add_assoc]
      simp only [Assignment.entries_eq hv]
    constructor
    · rintro ⟨_, ⟨v, ⟨hv, hd⟩, rfl⟩, h⟩
      obtain ⟨hdims, rfl⟩ := (ih (fun t ht => hl t (List.mem_cons_of_mem _ ht)) (hlen v)).1 h
      exact ⟨⟨⟨v, hv, hd⟩, hdims⟩, hrows hv hd⟩
    · rintro ⟨⟨⟨v, hv, hd⟩, hdims⟩, rfl⟩
      refine ⟨_, ⟨v, ⟨hv, hd⟩, rfl⟩, ?_⟩
      have hrest := ih (fun t ht => hl t (List.mem_cons_of_mem _ ht)) (hlen v)
      exact hrest.2 ⟨hdims, (hrows hv hd).symm⟩

def gap (f : LinearRows κ α) (row : ℕ) (p : Point κ α) : α := f.form row p - Vec.get f.rhs row

theorem residual_eq_ok {f : LinearRows κ α} {x : Assignment κ α} {r : Vec α} :
    f.residual x = .ok r ↔
      x.HasDims f.keyDims ∧ r = (List.range f.rows).map fun row => f.gap row x.entries := by
  unfold residual
  rw [residual_terms x f.block_rows (Vec.length_neg f.rhs)]
  simp only [Vec.get_neg, gap, form_apply, neg_add_eq_sub]
  rfl

/-- A least-squares cost is half the sum of the squares of its residuals. -/
theorem cost_eq_ok {f : LinearRows κ α} {x : Assignment κ α} {c : α} (hf : f.kinds = none) :
    f.cost x = .ok c ↔ x.HasDims f.keyDims ∧
      c = 0.5 * ∑ row ∈ range f.rows, f.gap row x.entries * f.gap row x.entries := by
  have hsq : Vec.normSq ((List.range f.rows).map fun row => f.gap row x.entries) =
      ∑ row ∈ range f.rows, f.gap row x.entries * f.gap row x.entries := by
    rw [Vec.normSq, Vec.inner_eq rfl, List.length_map, List.length_range]
    apply Finset.sum_congr rfl
    intro row hrow
    rw [Vec.get_map_range _ (Finset.mem_range.1 hrow)]
  simp only [cost, isConstrained, hf, Option.isSome_none, Bool.false_eq_true, if_false,
    Result.bind_eq_ok, Result.pure_eq_ok, residual_eq_ok]
  constructor
  · rintro ⟨_, ⟨hx, rfl⟩, rfl⟩
    exact ⟨hx, by rw [hsq]⟩
  · rintro ⟨hx, rfl⟩
    exact ⟨_, ⟨hx, rfl⟩, by rw [hsq]⟩

omit [ExactScalar α] in
/-- The residual is computed wherever all variables are there in their dimensions. -/
theorem exists_residual [Scalar α] {f : LinearRows κ α} {x : Assignment κ α}
    (hx : x.HasDims f.keyDims) : ∃ r, f.residual x = .ok r := by
  refine Result.exists_foldlM (fun _ => True) (fun total t ht _ => ?_) trivial
  obtain ⟨v, hv, hlen⟩ := Assignment.dim?_eq_some.1 (hx _ (List.mem_map_of_mem ht))
  exact ⟨_, Result.bind_eq_ok.2 ⟨v, Assignment.valueOf_eq_ok.2 ⟨hv, hlen⟩, rfl⟩, trivial⟩

omit [ExactScalar α] in
theorem exists_cost [Scalar α] {f : LinearRows κ α} {x : Assignment κ α}
    (hx : x.HasDims f.keyDims) : ∃ c, f.cost x = .ok c := by
  unfold cost
  split_ifs
  · exact ⟨0, rfl⟩
  · obtain ⟨r, hr⟩ := exists_residual hx
    exact ⟨_, Result.bind_eq_ok.2 ⟨r, hr, rfl⟩⟩

omit [ExactScalar α] in
/-- The gradient is computed where the residual is, and for constraints that can be stored. -/
theorem exists_gradient [Scalar α] {f : LinearRows κ α} {x : Assignment κ α}
    (hx : x.HasDims f.keyDims) (hmax : ∀ e ∈ f.keyDims, e.2 ≤ maxLength) :
    ∃ parts, f.gradient x = .ok parts := by
  unfold gradient
  split_ifs
  · refine Result.exists_mapM fun e he => ⟨(e.1, Vec.zeros e.2), Result.bind_eq_ok.2 ⟨_, ?_, rfl⟩⟩
    rw [Result.inRange_eq_ok, Vec.zeros?_eq_some.2 ⟨hmax e he, rfl⟩]
  · obtain ⟨r, hr⟩ := exists_residual hx
    exact ⟨_, Result.bind_eq_ok.2 ⟨r, Result.ofExcept_eq_ok.2 hr, rfl⟩⟩

omit [ExactScalar α] in
/-- Rows are selected where all of them are there, block by block. -/
theorem selectRows_eq_ok [Scalar α] {f f' : LinearRows κ α} {indices : List ℕ} {kind : RowKind} :
    f.selectRows indices kind = .ok f' ↔ (∀ row ∈ indices, row < f.rows) ∧
      f'.terms = f.terms.map (fun t => (t.1, t.2.selectRows indices)) ∧
      f'.rhs = indices.map (Vec.get f.rhs) ∧
      f'.kinds = some (List.replicate indices.length kind) := by
  unfold selectRows
  split
  next row hrow =>
    have hle : f.rows ≤ row := by simpa using List.find?_some hrow
    refine ⟨fun h => (nomatch h), fun h => ?_⟩
    exact absurd (h.1 row (List.mem_of_find?_eq_some hrow)) (not_lt.2 hle)
  next hall =>
    have hrows (row : ℕ) (hrow : row ∈ indices) : row < f.rows := by
      simpa using List.find?_eq_none.1 hall row hrow
    constructor
    · intro h
      cases h
      exact ⟨hrows, rfl, rfl, rfl⟩
    · obtain ⟨terms, rhs, kinds, _⟩ := f'
      rintro ⟨-, hterms, hrhs, hkinds⟩
      dsimp only at hterms hrhs hkinds
      subst hterms hrhs hkinds
      rfl

omit [ExactScalar α] in
/-- Rows can be selected exactly if all of them are there. -/
theorem exists_selectRows_iff [Scalar α] {f : LinearRows κ α} {indices : List ℕ} {kind : RowKind} :
    (∃ f', f.selectRows indices kind = .ok f') ↔ ∀ row ∈ indices, row < f.rows := by
  refine ⟨fun ⟨_, h⟩ => (selectRows_eq_ok.1 h).1, fun h => ?_⟩
  have hnone : indices.find? (fun row => decide (f.rows ≤ row)) = none := by simpa using h
  unfold selectRows
  split
  next hrow => cases hnone.symm.trans hrow
  next => exact ⟨_, rfl⟩

omit [ExactScalar α] in
/-- Every part of the gradient has the dimension of its variable. -/
theorem dims_gradient [Scalar α] {f : LinearRows κ α} {x : Assignment κ α}
    {parts : List (κ × Vec α)} (h : f.gradient x = .ok parts) {e : κ × Vec α} (he : e ∈ parts) :
    (e.1, e.2.length) ∈ f.keyDims := by
  unfold gradient at h
  split_ifs at h
  · obtain ⟨d, hd, hpart⟩ := Result.exists_of_mem_mapM h he
    obtain ⟨u, hu, hpart⟩ := Result.bind_eq_ok.1 hpart
    cases Result.pure_eq_ok.1 hpart
    rw [Result.inRange_eq_ok, Vec.zeros?_eq_some] at hu
    rwa [hu.2, Vec.length_zeros]
  · obtain ⟨r, -, h⟩ := Result.bind_eq_ok.1 h
    cases Result.pure_eq_ok.1 h
    obtain ⟨t, ht, rfl⟩ := List.mem_map.1 he
    rw [Matrix.length_mulVec, Matrix.rows_transpose]
    exact List.mem_map_of_mem ht

/-- Derivative of the cost along a direction: residuals times row values for a least-squares cost,
zero for constraints. -/
theorem pairing_gradient {f : LinearRows κ α} {x : Assignment κ α} {parts : List (κ × Vec α)}
    (h : f.gradient x = .ok parts) (p : Point κ α) :
    pairing parts p = if f.isConstrained then 0
      else ∑ row ∈ range f.rows, f.gap row x.entries * f.form row p := by
  unfold gradient at h
  split at h
  next hc =>
    rw [if_pos hc]
    refine pairing_zeros (fun e he i => ?_) p
    obtain ⟨d, _, hd⟩ := Result.exists_of_mem_mapM h he
    obtain ⟨u, hu, hd⟩ := Result.bind_eq_ok.1 hd
    rw [Result.inRange_eq_ok, Vec.zeros?_eq_some] at hu
    cases Result.pure_eq_ok.1 hd
    rw [hu.2, Vec.get_zeros]
  next hc =>
    obtain ⟨r, hr, h⟩ := Result.bind_eq_ok.1 h
    rw [Result.ofExcept_eq_ok, residual_eq_ok] at hr
    cases Result.pure_eq_ok.1 h
    rw [if_neg hc, hr.2, pairing_transpose (by simp [rows]) f.block_rows]
    refine Finset.sum_congr rfl fun row hrow => ?_
    rw [Vec.get_map_range _ (Finset.mem_range.1 hrow), form_apply]

end LinearRows

end GaussianProgram
