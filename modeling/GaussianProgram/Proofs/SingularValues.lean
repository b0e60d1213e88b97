import GaussianProgram.Proofs.Rank

/-! Singular values of a matrix are determined up to their order, and they do not depend on the
order of its columns. So neither does the rank that is counted from them. -/
open Finset (range)

/-- Two diagonals that orthonormal columns bring to one form have the same entries. -/
theorem perm_of_orthonormal {R : Type*} [Field R] {n : ℕ} {u v : ℕ → ℕ → R} {d e : ℕ → R}
    (hu : ∀ k < n, ∀ l < n, ∑ i ∈ range n, u i k * u i l = if k = l then 1 else 0)
    (hv : ∀ k < n, ∀ l < n, ∑ i ∈ range n, v i k * v i l = if k = l then 1 else 0)
    (h : ∀ i < n, ∀ j < n,
      ∑ k ∈ range n, u i k * d k * u j k = ∑ k ∈ range n, v i k * e k * v j k) :
    ((List.range n).map d).Perm ((List.range n).map e) := by
  let square (u : ℕ → ℕ → R) : Matrix (Fin n) (Fin n) R := Matrix.of fun i k => u i k
  let form (u : ℕ → ℕ → R) (d : ℕ → R) : Matrix (Fin n) (Fin n) R :=
    square u * (Matrix.diagonal fun k : Fin n => d k) * (square u).transpose
  -- both diagonals are the roots of the characteristic polynomial of the form
  have hroots {u : ℕ → ℕ → R} (d : ℕ → R)
      (hu : ∀ k < n, ∀ l < n, ∑ i ∈ range n, u i k * u i l = if k = l then 1 else 0) :
      (form u d).charpoly.roots = ((List.range n).map d : Multiset R) := by
    have hone : (square u).transpose * square u = 1 := by
      ext k l
      rw [Matrix.mul_apply, Matrix.one_apply]
      simp only [Fin.ext_iff]
      rw [← hu k k.isLt l l.isLt]
      exact Fin.sum_univ_eq_sum_range (fun i => u i k * u i l) n
    have hmap : (Finset.univ : Finset (Fin n)).val.map (fun k : Fin n => d k) =
        ((List.range n).map d : Multiset R) := by
      rw [Fin.univ_val_map, List.ofFn_eq_map, ← List.map_coe_finRange_eq_range, List.map_map]
      rfl
    rw [Matrix.charpoly_mul_comm, ← Matrix.mul_assoc, hone, Matrix.one_mul,
      Matrix.charpoly_diagonal,
      ← hmap, ← Polynomial.roots_multiset_prod_X_sub_C (Multiset.map _ _), Multiset.map_map]
    rfl
  have hform : form u d = form v e := by
    have hentry (u : ℕ → ℕ → R) (d : ℕ → R) (i j : Fin n) :
        form u d i j = ∑ k ∈ range n, u i k * d k * u j k := by
      refine Matrix.mul_apply.trans ?_
      rw [← Fin.sum_univ_eq_sum_range (fun k => u i k * d k * u j k)]
      exact Finset.sum_congr rfl fun k _ => by rw [Matrix.mul_diagonal]; rfl
    ext i j
    rw [hentry, hentry, h i i.isLt j j.isLt]
  rw [← Multiset.coe_eq_coe, ← hroots d hu, ← hroots e hv, hform]

namespace GaussianProgram

namespace Matrix.HasSingularValues
variable {α : Type} [ExactScalar α] {m : Matrix α} {values values' : Vec α}

/-- The products of the rows have the squares of the singular values as their diagonal. -/
private theorem sum_rows (h : m.HasSingularValues values) :
    ∃ u, OrthonormalColumns m.rows u ∧ ∀ i < m.rows, ∀ j < m.rows,
      ∑ c ∈ range m.cols, m.get i c * m.get j c =
        ∑ k ∈ range m.rows, u i k * Vec.get values k ^ 2 * u j k := by
  obtain ⟨u, v, hu, hv, hm⟩ := h.decomposition
  have hzero (k : ℕ) (hk : k ∉ range (min m.rows m.cols)) : Vec.get values k = 0 :=
    Vec.get_of_length_le (by rw [h.length]; exact not_lt.1 (mt Finset.mem_range.2 hk))
  have hwide : range (min m.rows m.cols) ⊆ range m.cols :=
    Finset.range_subset_range.2 (min_le_right _ _)
  refine ⟨u, hu, fun i hi j hj => ?_⟩
  calc ∑ c ∈ range m.cols, m.get i c * m.get j c
      = ∑ c ∈ range m.cols, ∑ k ∈ range (min m.rows m.cols), ∑ l ∈ range (min m.rows m.cols),
          u i k * Vec.get values k * v c k * (u j l * Vec.get values l * v c l) := by
        refine Finset.sum_congr rfl fun c hc => ?_
        rw [hm i hi c (Finset.mem_range.1 hc), hm j hj c (Finset.mem_range.1 hc),
          Finset.sum_mul_sum]
    _ = ∑ k ∈ range (min m.rows m.cols), ∑ l ∈ range (min m.rows m.cols),
          u i k * Vec.get values k * (u j l * Vec.get values l) *
            ∑ c ∈ range m.cols, v c k * v c l := by
        rw [Finset.sum_comm]
        refine Finset.sum_congr rfl fun k _ => ?_
        rw [Finset.sum_comm]
        refine Finset.sum_congr rfl fun l _ => ?_
        rw [Finset.mul_sum]
        exact Finset.sum_congr rfl fun c _ => by ring
    _ = ∑ k ∈ range (min m.rows m.cols), u i k * Vec.get values k ^ 2 * u j k := by
        refine Finset.sum_congr rfl fun k hk => ?_
        rw [Finset.sum_eq_single_of_mem k hk fun l hl hne => ?_]
        · rw [hv k (Finset.mem_range.1 (hwide hk)) k (Finset.mem_range.1 (hwide hk)), if_pos rfl]
          ring
        · rw [hv k (Finset.mem_range.1 (hwide hk)) l (Finset.mem_range.1 (hwide hl)),
            if_neg hne.symm, mul_zero]
    _ = ∑ k ∈ range m.rows, u i k * Vec.get values k ^ 2 * u j k := by
        refine Finset.sum_subset (Finset.range_subset_range.2 (min_le_left _ _)) fun k _ hk => ?_
        rw [hzero k hk]
        ring

/-- The singular values of a matrix are the same in every decomposition, up to their order. -/
theorem perm (h : m.HasSingularValues values) (h' : m.HasSingularValues values') :
    values.Perm values' := by
  obtain ⟨u, hu, hsum⟩ := h.sum_rows
  obtain ⟨u', hu', hsum'⟩ := h'.sum_rows
  have hsquares := perm_of_orthonormal hu hu' fun i hi j hj =>
    (hsum i hi j hj).symm.trans (hsum' i hi j hj)
  have hpad {values : Vec α} (h : m.HasSingularValues values) :
      (List.range m.rows).map (Vec.get values) =
        values ++ Vec.zeros (m.rows - min m.rows m.cols) := by
    refine Vec.ext_get ?_ fun k hk => ?_
    · rw [List.length_map, List.length_range, List.length_append, h.length, Vec.length_zeros]
      omega
    · rw [Vec.get_map_range _ (by simpa using hk), get_append, Vec.get_zeros]
      split_ifs with hlt
      · rfl
      · exact Vec.get_of_length_le (not_lt.1 hlt)
  have hnonneg {values : Vec α} (h : m.HasSingularValues values) (k : ℕ) :
      0 ≤ Vec.get values k := by
    by_cases hk : k < values.length
    · rw [Vec.get_eq_getElem hk]
      exact h.nonneg _ (List.getElem_mem hk)
    · rw [Vec.get_of_length_le (not_lt.1 hk)]
  -- among numbers that are not negative a square has one root only
  let roots {values : Vec α} (h : m.HasSingularValues values) : List {a : α // 0 ≤ a} :=
    (List.range m.rows).map fun k => ⟨Vec.get values k, hnonneg h k⟩
  have hinj : Function.Injective fun a : {a : α // 0 ≤ a} => a.1 ^ 2 :=
    fun a b hab => Subtype.ext ((pow_left_inj₀ a.2 b.2 two_ne_zero).1 hab)
  have hroots : (roots h).Perm (roots h') := by
    rw [← List.map_perm_map_iff hinj, List.map_map, List.map_map]
    exact hsquares
  have hvalues := hroots.map Subtype.val
  rw [List.map_map, List.map_map] at hvalues
  have hperm : ((List.range m.rows).map (Vec.get values)).Perm
      ((List.range m.rows).map (Vec.get values')) := hvalues
  rwa [hpad h, hpad h', List.perm_append_right_iff] at hperm

/-- The order of the columns makes no difference to the singular values. -/
theorem of_columns {m' : Matrix α} (h : m.HasSingularValues values) (hrows : m'.rows = m.rows)
    (σ : Fin m.cols ≃ Fin m'.cols)
    (hσ : ∀ i < m.rows, ∀ c : Fin m.cols, m'.get i (σ c) = m.get i c) :
    m'.HasSingularValues values := by
  obtain ⟨u, v, hu, hv, hm⟩ := h.decomposition
  have hcols : m.cols = m'.cols := Fin.equiv_iff_eq.1 ⟨σ⟩
  let v' (c k : ℕ) : α := if hc : c < m'.cols then v (σ.symm ⟨c, hc⟩) k else 0
  have hv' (c : Fin m'.cols) (k : ℕ) : v' c k = v (σ.symm c) k := dif_pos c.isLt
  refine ⟨by rw [h.length, hrows, hcols], h.nonneg, u, v', hrows ▸ hu, fun k hk l hl => ?_,
    fun i hi j hj => ?_⟩
  · rw [← hcols] at hk hl
    rw [← hv k hk l hl, ← Fin.sum_univ_eq_sum_range (fun c => v' c k * v' c l),
      ← Fin.sum_univ_eq_sum_range (fun c => v c k * v c l), ← Equiv.sum_comp σ.symm]
    exact Finset.sum_congr rfl fun c _ => by rw [hv', hv']
  · have hi : i < m.rows := hrows ▸ hi
    have hmove := hσ i hi (σ.symm ⟨j, hj⟩)
    rw [Equiv.apply_symm_apply] at hmove
    have hmin : min m'.rows m'.cols = min m.rows m.cols := by rw [hrows, hcols]
    rw [hmin, hmove, hm i hi _ (σ.symm ⟨j, hj⟩).isLt]
    exact Finset.sum_congr rfl fun k _ => by rw [hv' ⟨j, hj⟩ k]

end Matrix.HasSingularValues

section Solver
variable {α : Type} [ExactScalar α]

/-- Singular values are found wherever a matrix has any, and nothing else is. -/
structure ExactSingularValues (singularValues : Matrix α → Option (Vec α)) : Prop where
  sound : ∀ m values, singularValues m = some values → m.HasSingularValues values
  complete : ∀ m values, m.HasSingularValues values → ∃ values', singularValues m = some values'

/-- Exact singular values of two matrices with the same columns are the same, up to their order. -/
theorem ExactSingularValues.rel {f f' : Matrix α → Option (Vec α)} (hf : ExactSingularValues f)
    (hf' : ExactSingularValues f') {m m' : Matrix α} (hrows : m'.rows = m.rows)
    (σ : Fin m.cols ≃ Fin m'.cols)
    (hσ : ∀ i < m.rows, ∀ c : Fin m.cols, m'.get i (σ c) = m.get i c) :
    Option.Rel List.Perm (f m) (f' m') := by
  have hback (i : ℕ) (hi : i < m'.rows) (c : Fin m'.cols) : m.get i (σ.symm c) = m'.get i c := by
    rw [← hσ i (hrows ▸ hi), Equiv.apply_symm_apply]
  cases hvalues : f m with
  | some values =>
    have h := hf.sound m values hvalues
    obtain ⟨values', hvalues'⟩ := hf'.complete m' values (h.of_columns hrows σ hσ)
    rw [hvalues']
    exact .some ((h.of_columns hrows σ hσ).perm (hf'.sound m' values' hvalues'))
  | none =>
    cases hvalues' : f' m' with
    | none => exact .none
    | some values' =>
      have h := (hf'.sound m' values' hvalues').of_columns hrows.symm σ.symm hback
      obtain ⟨values, hsome⟩ := hf.complete m values' h
      cases hvalues.symm.trans hsome

/-- Rows with the same entries in other columns have the same singular values. -/
theorem ExactSingularValues.rel_ofRows {f f' : Matrix α → Option (Vec α)}
    (hf : ExactSingularValues f) (hf' : ExactSingularValues f') {rows rows' : List (Vec α)}
    {n n' : ℕ} (σ : Fin n ≃ Fin n')
    (h : List.Forall₂ (fun d d' => ∀ c, Vec.get d' (σ c) = Vec.get d c) rows rows') :
    Option.Rel List.Perm (f (.ofFn rows.length n fun i j => Vec.get (rows.getD i []) j))
      (f' (.ofFn rows'.length n' fun i j => Vec.get (rows'.getD i []) j)) := by
  have hlen : rows.length = rows'.length := h.length_eq
  have hentry (i : ℕ) (hi : i < rows.length) (c : Fin n) :
      (Matrix.ofFn rows'.length n' fun i j => Vec.get (rows'.getD i []) j).get i (σ c) =
        (Matrix.ofFn rows.length n fun i j => Vec.get (rows.getD i []) j).get i c := by
    have hi' : i < rows'.length := hlen ▸ hi
    rw [Matrix.get_ofFn _ hi' (σ c).isLt, Matrix.get_ofFn _ hi c.isLt,
      List.getD_eq_getElem _ _ hi, List.getD_eq_getElem _ _ hi']
    exact h.get hi hi' c
  exact hf.rel hf' hlen.symm σ hentry

/-- The rank does not depend on the order of the singular values. -/
theorem Graph.numericalRank_perm {values values' : Vec α} (h : values.Perm values')
    (tolerance : α) : numericalRank tolerance values = numericalRank tolerance values' := by
  have hmost : values.foldl Scalar.max 0 = values'.foldl Scalar.max (0 : α) :=
    h.foldl_eq' (fun a _ b _ c => max_right_comm c a b) 0
  rw [numericalRank, numericalRank, hmost, h.countP_eq]

end Solver

end GaussianProgram
