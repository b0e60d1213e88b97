import GaussianProgram.Proofs.Quadratic
import GaussianProgram.Linear.Sparse

/-! Sparse matrices as bilinear forms. What is added to a matrix is added to its form,
and products with vectors and with the matrix itself are read off the form of a matrix
whose entries lie inside. -/
namespace GaussianProgram
open Finset (range)

/-- The terms of a list, collected by an index of its members. -/
theorem sum_filter_mul {ε R : Type} [CommSemiring R] {l : List ε} {f : ε → ℕ} {n : ℕ}
    (h : ∀ e ∈ l, f e < n) (φ : ε → R) (u : ℕ → R) :
    ∑ i ∈ range n, ((l.filter (f · == i)).map φ).sum * u i =
      (l.map fun e => φ e * u (f e)).sum := by
  induction l with
  | nil => simp
  | cons e l ih =>
    obtain ⟨he, hl⟩ := List.forall_mem_cons.1 h
    have hsplit (i : ℕ) : (((e :: l).filter (f · == i)).map φ).sum * u i =
        (if f e = i then φ e * u i else 0) + ((l.filter (f · == i)).map φ).sum * u i := by
      by_cases hi : f e = i
      · simp [hi, add_mul]
      · simp [hi]
    simp only [hsplit, Finset.sum_add_distrib, ih hl, Finset.sum_ite_eq, Finset.mem_range, he,
      if_true, List.map_cons, List.sum_cons]

/-- What holds after a fold held before or was brought about by a member. -/
theorem foldl_iff {σ ε : Type} {P : σ → Prop} {A : ε → Prop} {step : σ → ε → σ} {l : List ε}
    (h : ∀ s, ∀ e ∈ l, (P (step s e) ↔ P s ∨ A e)) (s : σ) :
    P (l.foldl step s) ↔ P s ∨ ∃ e ∈ l, A e := by
  induction l generalizing s with
  | nil => simp
  | cons e l ih =>
    rw [List.foldl_cons, ih (fun s e he => h s e (List.mem_cons_of_mem _ he)),
      h s e List.mem_cons_self, or_assoc, List.exists_mem_cons_iff]

theorem sum_map_sum_comm {ε M : Type} [AddCommMonoid M] (l : List ε) (n : ℕ) (φ : ε → ℕ → M) :
    (l.map fun e => ∑ i ∈ range n, φ e i).sum = ∑ i ∈ range n, (l.map fun e => φ e i).sum := by
  induction l with
  | nil => simp
  | cons e l ih => simp only [List.map_cons, List.sum_cons, ih, Finset.sum_add_distrib]

theorem sum_zipIdx_range {β M : Type} [AddCommMonoid M] (f : ℕ → β) (φ : β × ℕ → M) (n start : ℕ) :
    ((((List.range n).map f).zipIdx start).map φ).sum = ∑ i ∈ range n, φ (f i, start + i) := by
  induction n with
  | zero => rfl
  | succ n ih =>
    rw [List.range_succ, List.map_append, List.zipIdx_append, List.map_append, List.sum_append, ih,
      Finset.sum_range_succ]
    simp

namespace Vec
variable {α : Type} [ExactScalar α]

def against (v : Vec α) (u : ℕ → α) : α := ∑ i ∈ range v.length, get v i * u i

theorem against_congr {v : Vec α} {u u' : ℕ → α} (h : ∀ i < v.length, u i = u' i) :
    v.against u = v.against u' :=
  Finset.sum_congr rfl fun i hi => by rw [h i (Finset.mem_range.1 hi)]

theorem against_append (v w : Vec α) (u : ℕ → α) :
    against (v ++ w) u = against v u + against w fun i => u (v.length + i) := by
  rw [against, List.length_append, Finset.sum_range_add]
  refine congrArg₂ _ (Finset.sum_congr rfl fun i hi => ?_) (Finset.sum_congr rfl fun i _ => ?_)
  · rw [get_append, if_pos (Finset.mem_range.1 hi)]
  · rw [get_append, if_neg (by omega), Nat.add_sub_cancel_left]

theorem sum_zipIdx (v : Vec α) (u : ℕ → α) :
    (v.zipIdx.map fun e => e.1 * u e.2).sum = against v u := by
  have hv : v = (List.range v.length).map (get v) :=
    ext_get (by simp) fun i hi => (get_map_range _ hi).symm
  conv_lhs => rw [hv, sum_zipIdx_range]
  simp only [Nat.zero_add, against]

end Vec

/-- What is added to the value under a key is added to a weighed sum of the values. -/
theorem SortedMap.sum_insert_add {κ α : Type} [Ord κ] [Std.TransOrd κ] [Std.LawfulEqOrd κ]
    [CommRing α] (m : SortedMap κ α) (k : κ) (a : α) (u : κ → α) :
    ((m.insert k ((m.get? k).getD 0 + a)).toList.map fun e => e.2 * u e.1).sum =
      (m.toList.map fun e => e.2 * u e.1).sum + a * u k := by
  rw [sum_insert]
  cases m.get? k with
  | none => simp
  | some b =>
    simp only [Option.map_some, Option.getD_some]
    ring

namespace SparseMatrix
variable {α : Type} [ExactScalar α]

section Shape
variable (m : SparseMatrix α) (i j : ℕ)

theorem shape_addRow (v : Vec α) :
    (m.addRow i j v).rows = m.rows ∧ (m.addRow i j v).cols = m.cols := by
  refine List.foldlRecOn (motive := fun t : SparseMatrix α => t.rows = m.rows ∧ t.cols = m.cols) _ _
    ⟨rfl, rfl⟩ fun t ht e _ => ?_
  simp only
  split_ifs
  · exact ht
  · exact ht

theorem shape_addBlock (block : Matrix α) :
    (m.addBlock i j block).rows = m.rows ∧ (m.addBlock i j block).cols = m.cols := by
  refine List.foldlRecOn (motive := fun t : SparseMatrix α => t.rows = m.rows ∧ t.cols = m.cols) _ _
    ⟨rfl, rfl⟩ fun t ht e _ => ?_
  obtain ⟨hr, hc⟩ := t.shape_addRow ((i + e.2) % UInt64.size) j e.1
  exact ⟨hr.trans ht.1, hc.trans ht.2⟩

end Shape

section Stored
variable (m : SparseMatrix α) (i j : ℕ) {e : ℕ × ℕ}

/-- A row stores its entries other than zero. -/
theorem mem_keys_addRow (v : Vec α) : e ∈ (m.addRow i j v).entries.keys ↔ e ∈ m.entries.keys ∨
    ∃ k < v.length, Vec.get v k ≠ 0 ∧ e = (i, (j + k) % UInt64.size) := by
  refine (foldl_iff (P := fun t : SparseMatrix α => e ∈ t.entries.keys)
    (A := fun a => a.1 ≠ 0 ∧ e = (i, (j + a.2) % UInt64.size)) (fun t a _ => ?_) m).trans
      (or_congr_right ⟨?_, ?_⟩)
  · dsimp only
    rw [ExactScalar.beq_eq]
    simp only [decide_eq_true_eq]
    split_ifs with ha
    · simp [ha]
    · rw [addEntry, SortedMap.mem_keys_insert, or_comm, and_iff_right ha]
  · rintro ⟨a, ha, hne, he⟩
    obtain ⟨hlt, hget⟩ := List.mem_zipIdx' ha
    exact ⟨a.2, hlt, Vec.get_eq_getElem hlt ▸ hget ▸ hne, he⟩
  · rintro ⟨k, hk, hne, he⟩
    exact ⟨(v[k], k), List.mk_mem_zipIdx_iff_getElem?.2 (List.getElem?_eq_getElem hk),
      Vec.get_eq_getElem hk ▸ hne, he⟩

/-- A block stores its entries other than zero. -/
theorem mem_keys_addBlock (block : Matrix α) :
    e ∈ (m.addBlock i j block).entries.keys ↔ e ∈ m.entries.keys ∨ ∃ r < block.rows,
      ∃ c < block.cols, block.get r c ≠ 0 ∧
        e = ((i + r) % UInt64.size, (j + c) % UInt64.size) := by
  refine (foldl_iff (P := fun t : SparseMatrix α => e ∈ t.entries.keys)
    (fun t a _ => mem_keys_addRow t _ _ a.1) m).trans (or_congr_right ⟨?_, ?_⟩)
  · rintro ⟨a, ha, c, hc, hne, he⟩
    obtain ⟨hlt, hrow⟩ := List.mem_zipIdx' ha
    have hrow : a.1 = block.row a.2 := by simpa [Matrix.rowList] using hrow
    rw [hrow, Matrix.length_row] at hc
    rw [hrow, Matrix.get_row _ hc] at hne
    exact ⟨a.2, by simpa using hlt, c, hc, hne, he⟩
  · rintro ⟨r, hr, c, hc, hne, he⟩
    refine ⟨(block.row r, r), List.mk_mem_zipIdx_iff_getElem?.2 ?_, c,
      (block.length_row r).symm ▸ hc, (Matrix.get_row _ hc).symm ▸ hne, he⟩
    rw [Matrix.rowList, List.getElem?_map, List.getElem?_range hr, Option.map_some]

end Stored

/-- The bilinear form of a matrix: rows are weighed by `u` and columns by `w`. -/
def form (m : SparseMatrix α) (u w : ℕ → α) : α :=
  (m.entries.toList.map fun e => e.2 * (u e.1.1 * w e.1.2)).sum

section Add
variable (m : SparseMatrix α) (u w : ℕ → α)

theorem form_addEntry (i j : ℕ) (a : α) :
    (m.addEntry i j a).form u w = m.form u w + a * (u i * w j) :=
  m.entries.sum_insert_add (i, j) a fun k => u k.1 * w k.2

/-- What a row adds to the form, if it does not wrap around. -/
theorem form_addRow {i j : ℕ} {v : Vec α} (h : j + v.length ≤ UInt64.size) :
    (m.addRow i j v).form u w = m.form u w + u i * v.against fun k => w (j + k) := by
  have hfold (v : Vec α) (n : ℕ) (m : SparseMatrix α) (h : j + (n + v.length) ≤ UInt64.size) :
      ((v.zipIdx n).foldl (fun m e =>
        if e.1 == 0 then m else m.addEntry i ((j + e.2) % UInt64.size) e.1) m).form u w =
          m.form u w + u i * ((v.zipIdx n).map fun e => e.1 * w (j + e.2)).sum := by
    induction v generalizing n m with
    | nil => simp
    | cons a v ih =>
      rw [List.length_cons] at h
      rw [List.zipIdx_cons, List.foldl_cons, ih _ _ (by omega), List.map_cons, List.sum_cons]
      simp only
      split_ifs with ha
      · rw [ExactScalar.beq_eq, decide_eq_true_eq] at ha
        rw [ha, zero_mul, zero_add]
      · rw [form_addEntry, Nat.mod_eq_of_lt (by omega)]
        ring
  rw [addRow, hfold v 0 m (by omega), Vec.sum_zipIdx v fun k => w (j + k)]

/-- What a block adds to the form, if it does not wrap around. -/
theorem form_addBlock {i j : ℕ} {block : Matrix α} (hi : i + block.rows ≤ UInt64.size)
    (hj : j + block.cols ≤ UInt64.size) : (m.addBlock i j block).form u w = m.form u w +
      ∑ r ∈ range block.rows, u (i + r) * ∑ c ∈ range block.cols, block.get r c * w (j + c) := by
  have hfold (l : List (Vec α)) (n : ℕ) (m : SparseMatrix α) (hn : i + (n + l.length) ≤ UInt64.size)
      (hl : ∀ v ∈ l, v.length = block.cols) :
      ((l.zipIdx n).foldl (fun m e => m.addRow ((i + e.2) % UInt64.size) j e.1) m).form u w =
        m.form u w + ((l.zipIdx n).map fun e =>
          u (i + e.2) * e.1.against fun k => w (j + k)).sum := by
    induction l generalizing n m with
    | nil => simp
    | cons v l ih =>
      rw [List.length_cons] at hn
      obtain ⟨hv, hl⟩ := List.forall_mem_cons.1 hl
      rw [List.zipIdx_cons, List.foldl_cons, ih _ _ (by omega) hl, form_addRow _ _ _ (hv ▸ hj),
        Nat.mod_eq_of_lt (by omega), List.map_cons, List.sum_cons, add_assoc]
  have hrows : (block.rowList.zipIdx.map fun e =>
      u (i + e.2) * e.1.against fun k => w (j + k)).sum =
      ∑ r ∈ range block.rows, u (i + r) * ∑ c ∈ range block.cols, block.get r c * w (j + c) := by
    rw [Matrix.rowList, sum_zipIdx_range]
    refine Finset.sum_congr rfl fun r _ => ?_
    rw [Nat.zero_add, Vec.against, Matrix.length_row]
    refine congrArg _ (Finset.sum_congr rfl fun c hc => ?_)
    rw [Matrix.get_row _ (Finset.mem_range.1 hc)]
  rw [addBlock, hfold _ 0 m (by simpa using hi) ?_, hrows]
  intro v hv
  obtain ⟨r, -, rfl⟩ := List.mem_map.1 hv
  exact block.length_row r

end Add

def rowForm (m : SparseMatrix α) (i : ℕ) (w : ℕ → α) : α :=
  ((m.entries.toList.filter (·.1.1 == i)).map fun e => e.2 * w e.1.2).sum

theorem rowForm_eq (m : SparseMatrix α) (i : ℕ) (w : ℕ → α) :
    m.rowForm i w = m.form (Pi.single i 1) w := by
  rw [rowForm, form]
  induction m.entries.toList with
  | nil => rfl
  | cons e l ih =>
    by_cases he : e.1.1 = i
    · simp [he, ih]
    · simp [he, ih]

@[simp] theorem length_mulVec (m : SparseMatrix α) (v : Vec α) : (m.mulVec v).length = m.rows := by
  simp [mulVec]

@[simp] theorem length_transposeMulVec (m : SparseMatrix α) (y : Vec α) :
    (m.transposeMulVec y).length = m.cols := by
  simp [transposeMulVec]

theorem get_mulVec (m : SparseMatrix α) (v : Vec α) {i : ℕ} (hi : i < m.rows) :
    Vec.get (m.mulVec v) i = m.rowForm i (Vec.get v) := by
  rw [mulVec, Vec.get_map_range _ hi, Vec.sum_eq, rowForm]

omit [ExactScalar α] in
theorem isInside_iff [Scalar α] {m : SparseMatrix α} :
    m.isInside = true ↔ ∀ e ∈ m.entries.toList, e.1.1 < m.rows ∧ e.1.2 < m.cols := by
  simp [isInside, SortedMap.keys]

section Within
variable {m : SparseMatrix α} {rows cols : ℕ}

def Within (m : SparseMatrix α) (rows cols : ℕ) : Prop :=
  ∀ e ∈ m.entries.keys, e.1 < rows ∧ e.2 < cols

theorem isInside_iff_within : m.isInside = true ↔ m.Within m.rows m.cols := by
  rw [isInside_iff, Within, SortedMap.keys, List.forall_mem_map]

omit [ExactScalar α] in
theorem Within.mono (h : m.Within rows cols) {rows' cols' : ℕ} (hr : rows ≤ rows')
    (hc : cols ≤ cols') : m.Within rows' cols' :=
  fun e he => (h e he).imp (·.trans_le hr) (·.trans_le hc)

theorem Within.addEntry (h : m.Within rows cols) {i j : ℕ} (hi : i < rows) (hj : j < cols) (a : α) :
    (m.addEntry i j a).Within rows cols := by
  intro e he
  rcases SortedMap.mem_keys_insert.1 he with rfl | he
  · exact ⟨hi, hj⟩
  · exact h e he

/-- A place that wraps around comes before the place where it would lie. -/
theorem Within.addRow (h : m.Within rows cols) {i j : ℕ} {v : Vec α} (hi : i < rows)
    (hj : j + v.length ≤ cols) : (m.addRow i j v).Within rows cols := by
  refine List.foldlRecOn (motive := fun t : SparseMatrix α => t.Within rows cols) _ _ h
    fun t ht e he => ?_
  have hlt : e.2 < v.length := (List.mem_zipIdx' he).1
  simp only
  split_ifs
  · exact ht
  · exact ht.addEntry hi ((Nat.mod_le _ _).trans_lt (by omega)) _

theorem Within.addBlock (h : m.Within rows cols) {i j : ℕ} {block : Matrix α}
    (hi : i + block.rows ≤ rows) (hj : j + block.cols ≤ cols) :
    (m.addBlock i j block).Within rows cols := by
  refine List.foldlRecOn (motive := fun t : SparseMatrix α => t.Within rows cols) _ _ h
    fun t ht e he => ?_
  obtain ⟨hlt, hrow⟩ := List.mem_zipIdx' he
  rw [Matrix.length_rowList] at hlt
  have hlen : e.1.length = block.cols := by
    rw [hrow]
    simp [Matrix.rowList]
  exact ht.addRow ((Nat.mod_le _ _).trans_lt (by omega)) (hlen ▸ hj)

end Within

section Inside
variable {m : SparseMatrix α} (hm : m.isInside = true)
include hm

theorem sum_rowForm (u w : ℕ → α) : ∑ i ∈ range m.rows, m.rowForm i w * u i = m.form u w := by
  simp only [rowForm]
  rw [sum_filter_mul fun e he => (isInside_iff.1 hm e he).1, form]
  exact congrArg List.sum (List.map_congr_left fun e _ => by ring)

/-- The product with a vector, row by row. -/
theorem against_mulVec (x : Vec α) (u : ℕ → α) :
    (m.mulVec x).against u = m.form u (Vec.get x) := by
  rw [← sum_rowForm hm, Vec.against]
  refine Finset.sum_congr (by simp) fun i hi => ?_
  rw [get_mulVec _ _ (by simpa using hi)]

/-- The product of the transpose with a vector, column by column. -/
theorem against_transposeMulVec (y : Vec α) (w : ℕ → α) :
    (m.transposeMulVec y).against w = m.form (Vec.get y) w := by
  have hcol (j : ℕ) (hj : j < m.cols) : Vec.get (m.transposeMulVec y) j =
      ((m.entries.toList.filter (·.1.2 == j)).map fun e => e.2 * Vec.get y e.1.1).sum := by
    rw [transposeMulVec, Vec.get_map_range _ hj, Vec.sum_eq]
  rw [Vec.against, length_transposeMulVec,
    Finset.sum_congr rfl fun j hj => by rw [hcol j (Finset.mem_range.1 hj)],
    sum_filter_mul fun e he => (isInside_iff.1 hm e he).2, form]
  exact congrArg List.sum (List.map_congr_left fun e _ => by ring)

end Inside

section Gram
variable (m : SparseMatrix α)

private theorem sum_gramRow (i : ℕ) (w : ℕ → α) :
    ((m.gramRow i).toList.map fun e => e.2 * w e.1).sum =
      ((m.entries.toList.filter (·.1.2 == i)).map fun e => e.2 * m.rowForm e.1.1 w).sum := by
  have hinner (a : α) (l : List ((ℕ × ℕ) × α)) (row : SortedMap ℕ α) :
      ((l.foldl (fun row e => row.insert e.1.2 ((row.get? e.1.2).getD 0 + a * e.2)) row).toList.map
        fun e => e.2 * w e.1).sum =
      (row.toList.map fun e => e.2 * w e.1).sum + a * (l.map fun e => e.2 * w e.1.2).sum := by
    induction l generalizing row with
    | nil => simp
    | cons e l ih =>
      rw [List.foldl_cons, ih, SortedMap.sum_insert_add, List.map_cons, List.sum_cons]
      ring
  have houter (l : List ((ℕ × ℕ) × α)) (row : SortedMap ℕ α) :
      ((l.foldl (fun row e => (m.entries.toList.filter (·.1.1 == e.1.1)).foldl (fun row e' =>
        row.insert e'.1.2 ((row.get? e'.1.2).getD 0 + e.2 * e'.2)) row) row).toList.map
          fun e => e.2 * w e.1).sum =
      (row.toList.map fun e => e.2 * w e.1).sum +
        (l.map fun e => e.2 * m.rowForm e.1.1 w).sum := by
    induction l generalizing row with
    | nil => simp
    | cons e l ih =>
      rw [List.foldl_cons, ih, hinner, List.map_cons, List.sum_cons, add_assoc]
      rfl
  rw [gramRow, houter]
  exact zero_add _

private def products (n : ℕ) : List ((ℕ × ℕ) × α) :=
  (List.range n).flatMap fun i => (m.gramRow i).toList.map fun e => ((i, e.1), e.2)

private theorem gram_eq :
    m.gram = ⟨m.cols, m.cols, SortedMap.ofList (m.products m.cols).reverse⟩ := rfl

private theorem mem_products {n : ℕ} {e : (ℕ × ℕ) × α} :
    e ∈ m.products n ↔ e.1.1 < n ∧ (e.1.2, e.2) ∈ (m.gramRow e.1.1).toList := by
  rw [products, List.mem_flatMap]
  constructor
  · rintro ⟨i, hi, he⟩
    obtain ⟨e', he', rfl⟩ := List.mem_map.1 he
    exact ⟨List.mem_range.1 hi, he'⟩
  · rintro ⟨hi, he⟩
    exact ⟨e.1.1, List.mem_range.2 hi, List.mem_map.2 ⟨_, he, rfl⟩⟩

private theorem nodup_products (n : ℕ) : ((m.products n).map (·.1)).Nodup := by
  rw [products, List.map_flatMap, List.nodup_flatMap]
  constructor
  · intro i _
    have hrow := (m.gramRow i).nodup_keys.map (Prod.mk_right_injective i)
    rw [SortedMap.keys, List.map_map] at hrow
    rwa [List.map_map]
  · refine List.nodup_range.imp fun {i j} hne e hi hj => hne ?_
    simp only [List.map_map, List.mem_map] at hi hj
    obtain ⟨a, -, rfl⟩ := hi
    obtain ⟨b, -, hb⟩ := hj
    exact (congrArg Prod.fst hb).symm

private theorem sum_products (n : ℕ) (u w : ℕ → α) :
    ((m.products n).map fun e => e.2 * (u e.1.1 * w e.1.2)).sum = ∑ i ∈ range n,
      ((m.entries.toList.filter (·.1.2 == i)).map fun e => e.2 * m.rowForm e.1.1 w).sum * u i := by
  induction n with
  | zero => rfl
  | succ n ih =>
    have hlast : m.products (n + 1) =
        m.products n ++ (m.gramRow n).toList.map fun e => ((n, e.1), e.2) := by
      rw [products, List.range_succ, List.flatMap_append, List.flatMap_singleton, products]
    rw [hlast, List.map_append, List.sum_append, ih, Finset.sum_range_succ, ← sum_gramRow,
      List.map_map, ← List.sum_map_mul_right]
    refine congrArg _ (congrArg List.sum (List.map_congr_left fun e _ => ?_))
    simp only [Function.comp_apply]
    ring

/-- The product stores the pairs of columns that have entries in one row. -/
theorem mem_keys_gram {i j : ℕ} : (i, j) ∈ m.gram.entries.keys ↔
    i < m.cols ∧ ∃ r, (r, i) ∈ m.entries.keys ∧ (r, j) ∈ m.entries.keys := by
  have hrow : j ∈ (m.gramRow i).keys ↔
      ∃ r, (r, i) ∈ m.entries.keys ∧ (r, j) ∈ m.entries.keys := by
    let Stores (row : SortedMap ℕ α) : Prop := j ∈ row.keys
    have hfold : Stores (m.gramRow i) ↔ Stores SortedMap.empty ∨
        ∃ e ∈ m.entries.toList.filter (·.1.2 == i),
          ∃ e' ∈ m.entries.toList.filter (·.1.1 == e.1.1), j = e'.1.2 := by
      refine foldl_iff (P := Stores) (fun row e _ => ?_) SortedMap.empty
      refine foldl_iff (P := Stores) (fun row e' _ => ?_) row
      exact SortedMap.mem_keys_insert.trans or_comm
    refine hfold.trans ⟨?_, ?_⟩
    · rintro (hj | ⟨e, he, e', he', rfl⟩)
      · exact absurd hj List.not_mem_nil
      · obtain ⟨he, hi⟩ := List.mem_filter.1 he
        obtain ⟨he', hr⟩ := List.mem_filter.1 he'
        refine ⟨e.1.1, ?_, ?_⟩
        · exact eq_of_beq hi ▸ List.mem_map_of_mem he
        · exact eq_of_beq hr ▸ List.mem_map_of_mem he'
    · rintro ⟨r, hi, hj⟩
      obtain ⟨e, he, hi⟩ := List.mem_map.1 hi
      obtain ⟨e', he', hj⟩ := List.mem_map.1 hj
      refine .inr ⟨e, List.mem_filter.2 ⟨he, by simp [hi]⟩, e', List.mem_filter.2 ⟨he', ?_⟩, ?_⟩
      · simp [hi, hj]
      · rw [hj]
  rw [← hrow, gram_eq, SortedMap.mem_keys_ofList, List.map_reverse, List.mem_reverse]
  constructor
  · intro h
    obtain ⟨e, he, heq⟩ := List.mem_map.1 h
    obtain ⟨hi, hj⟩ := m.mem_products.1 he
    rw [heq] at hi hj
    exact ⟨hi, List.mem_map_of_mem hj⟩
  · rintro ⟨hi, hj⟩
    obtain ⟨a, ha, rfl⟩ := List.mem_map.1 hj
    exact List.mem_map.2 ⟨((i, a.1), a.2), m.mem_products.2 ⟨hi, ha⟩, rfl⟩

variable {m} (hm : m.isInside = true)
include hm

/-- The form of the product of the transpose with the matrix itself. -/
theorem form_gram (u w : ℕ → α) : m.gram.form u w = m.form (m.rowForm · w) u := by
  have hnodup : ((m.products m.cols).reverse.map (·.1)).Nodup := by
    rw [List.map_reverse]
    exact List.nodup_reverse.2 (m.nodup_products _)
  rw [form, gram_eq, SortedMap.sum_ofList hnodup, List.map_reverse, List.sum_reverse, sum_products,
    sum_filter_mul fun e he => (isInside_iff.1 hm e he).2, form]
  exact congrArg List.sum (List.map_congr_left fun e _ => by ring)

theorem isInside_gram : m.gram.isInside = true := by
  rw [isInside_iff_within] at hm ⊢
  intro e he
  obtain ⟨hi, r, -, hj⟩ := m.mem_keys_gram.1 he
  exact ⟨hi, (hm _ hj).2⟩

end Gram

/-- Matrices of one shape that store the same numbers at the same places are equal. -/
theorem ext_get {m m' : SparseMatrix α} (hr : m.rows = m'.rows) (hc : m.cols = m'.cols)
    (hkeys : ∀ e, e ∈ m.entries.keys ↔ e ∈ m'.entries.keys)
    (hget : ∀ i j, m.get i j = m'.get i j) : m = m' := by
  have hentries : m.entries = m'.entries := by
    refine SortedMap.ext_get? fun e => ?_
    have hvalue := hget e.1 e.2
    rw [get, get] at hvalue
    by_cases he : e ∈ m.entries.keys
    · obtain ⟨a, ha⟩ := SortedMap.mem_keys_iff.1 he
      obtain ⟨a', ha'⟩ := SortedMap.mem_keys_iff.1 ((hkeys e).1 he)
      rw [ha, ha'] at hvalue ⊢
      exact congrArg some hvalue
    · rw [SortedMap.get?_eq_none_iff.2 he, SortedMap.get?_eq_none_iff.2 (mt (hkeys e).2 he)]
  cases m
  cases m'
  exact congr (congr (congrArg _ hr) hc) hentries

def Symmetric (m : SparseMatrix α) : Prop := ∀ i j, m.get i j = m.get j i

theorem get_eq_form (m : SparseMatrix α) (i j : ℕ) :
    m.get i j = m.form (Pi.single i 1) (Pi.single j 1) := by
  have hlist (l : List ((ℕ × ℕ) × α)) (hl : l.Pairwise fun a b => compare a.1 b.1 = .lt) :
      (SortedMap.lookup (i, j) l).getD 0 =
        (l.map fun e =>
          e.2 * ((Pi.single i 1 : ℕ → α) e.1.1 * (Pi.single j 1 : ℕ → α) e.1.2)).sum := by
    induction l with
    | nil => rfl
    | cons e l ih =>
      obtain ⟨⟨i', j'⟩, a⟩ := e
      obtain ⟨hlt, hl⟩ := List.pairwise_cons.1 hl
      rw [List.map_cons, List.sum_cons, ← ih hl]
      by_cases he : (i, j) = (i', j')
      · cases he
        rw [SortedMap.lookup_cons_self, SortedMap.lookup_eq_none hlt]
        simp
      · have hzero : (Pi.single i 1 : ℕ → α) i' * (Pi.single j 1 : ℕ → α) j' = 0 := by
          rw [Prod.mk.injEq, not_and_or] at he
          rcases he with he | he
          · rw [Pi.single_eq_of_ne (Ne.symm he), zero_mul]
          · rw [Pi.single_eq_of_ne (Ne.symm he), mul_zero]
        rw [SortedMap.lookup_cons_of_ne he, hzero, mul_zero, zero_add]
  exact hlist m.entries.toList m.entries.ascending

theorem symmetric_of_form {m : SparseMatrix α} (h : ∀ u w, m.form u w = m.form w u) :
    m.Symmetric := by
  intro i j
  rw [get_eq_form, get_eq_form, h]

theorem symmetric_gram {m : SparseMatrix α} (hm : m.isInside = true) : m.gram.Symmetric := by
  refine symmetric_of_form fun u w => ?_
  rw [form_gram hm, form_gram hm, ← sum_rowForm hm, ← sum_rowForm hm]
  exact Finset.sum_congr rfl fun i _ => mul_comm _ _

end SparseMatrix

end GaussianProgram
