import GaussianProgram.Proofs.Working
import GaussianProgram.Proofs.Scatter
import GaussianProgram.Proofs.Table

/-! Rows by themselves, all together and selected. The value of a row, its entry of the residual and
its coefficients describe one row, and selected rows are described by those of their factor. -/
namespace GaussianProgram

theorem Vec.get_map_get {α : Type} [Scalar α] {u : Vec α} {indices : List ℕ} {i : ℕ}
    (hi : i < indices.length) : get (indices.map (get u)) i = get u indices[i] := by
  rw [get_eq_getElem (by rwa [List.length_map]), List.getElem_map]

/-- The product of selected rows has the selected entries of the product. -/
theorem Matrix.mulVec_selectRows {α : Type} [Scalar α] {m : Matrix α} {indices : List ℕ}
    (h : ∀ row ∈ indices, row < m.rows) (v : Vec α) :
    (m.selectRows indices).mulVec v = indices.map (Vec.get (m.mulVec v)) := by
  have hlen : ((m.selectRows indices).mulVec v).length = indices.length := by
    simp [mulVec, selectRows]
  refine List.ext_getElem (by rw [hlen, List.length_map]) fun i hi hi' => ?_
  have hlt : i < indices.length := hlen ▸ hi
  have hrow := h _ (List.getElem_mem hlt)
  have hparts := row?_selectRows (List.getElem?_eq_getElem hlt) hrow
  have hheight : i < (m.selectRows indices).rows := hlt
  rw [row?, row?, if_pos hheight, if_pos hrow, Option.some.injEq] at hparts
  rw [List.getElem_map, Vec.get_eq_getElem (by simpa [mulVec] using hrow)]
  simp only [mulVec, rowList, List.getElem_map, List.getElem_range, hparts]

namespace LinearRows
variable {κ α : Type} [Key κ]

section Choice
variable [Scalar α] {f f' : LinearRows κ α} {indices : List ℕ} {kind : RowKind}

/-- A refusal names the first row that is not there. -/
theorem selectRows_eq_error {e : FactorError α} (h : f.selectRows indices kind = .error e) :
    ∃ before bad after, indices = before ++ bad :: after ∧ (∀ row ∈ before, row < f.rows) ∧
      f.rows ≤ bad ∧ e = .invalidDimension f.rows bad := by
  unfold selectRows at h
  split at h
  next bad hbad =>
    cases h
    obtain ⟨hle, before, after, hsplit, hbefore⟩ := List.find?_eq_some_iff_append.1 hbad
    refine ⟨before, bad, after, hsplit, fun row hrow => ?_, of_decide_eq_true hle, rfl⟩
    simpa using hbefore row hrow
  · cases h

omit [Scalar α] in
/-- What is stored of rows can be built again. -/
theorem build_eq (f : LinearRows κ α) : build f.terms f.rhs f.kinds f.kinds_length = .ok f := by
  have hfirst : firstRepeated [] (f.terms.map (·.1)) = none :=
    firstRepeated_eq_none.2 ⟨f.keys_nodup, by simp⟩
  have hfind : f.terms.find? (fun t => t.2.rows != f.rhs.length) = none :=
    List.find?_eq_none.2 fun t ht => by simp [f.block_rows t ht]
  unfold build
  rw [dif_neg f.terms_ne_nil]
  split
  · simp_all
  · split
    · simp_all
    · rfl

/-- Selected rows are rows that the constructor of constraints accepts. -/
theorem constrained_selectRows (h : f.selectRows indices kind = .ok f') :
    constrained f'.terms f'.rhs (List.replicate indices.length kind) = .ok f' := by
  obtain ⟨-, -, hrhs, hkinds⟩ := selectRows_eq_ok.1 h
  have hlen : (List.replicate indices.length kind).length = f'.rhs.length := by simp [hrhs]
  have hbuild := build_eq f'
  simp only [hkinds] at hbuild
  exact (dif_pos hlen).trans hbuild

/-- The coefficients of a selected row are those of its row. -/
theorem rowCoefficients?_selectRows (h : f.selectRows indices kind = .ok f') {i row : ℕ}
    (hi : indices[i]? = some row) (position : ℕ) :
    f'.rowCoefficients? i position = f.rowCoefficients? row position := by
  obtain ⟨hrows, hterms, -⟩ := selectRows_eq_ok.1 h
  have hrow : row < f.rows := hrows row (List.mem_of_getElem? hi)
  rw [rowCoefficients?, rowCoefficients?, block?, block?, hterms, List.getElem?_map]
  cases ht : f.terms[position]? with
  | none => rfl
  | some t =>
    have hlt : row < t.2.rows := (f.block_rows t (List.mem_of_getElem? ht)).symm ▸ hrow
    exact Matrix.row?_selectRows hi hlt

theorem rhs_selectRows (h : f.selectRows indices kind = .ok f') {i row : ℕ}
    (hi : indices[i]? = some row) : f'.rhs[i]? = f.rhs[row]? := by
  obtain ⟨hrows, -, hrhs, -⟩ := selectRows_eq_ok.1 h
  have hrow : row < f.rhs.length := hrows row (List.mem_of_getElem? hi)
  simp [hrhs, hi, Vec.get, hrow]

end Choice

variable [ExactScalar α] {f f' : LinearRows κ α} {indices : List ℕ} {kind : RowKind}

private theorem residual_selected (x : Assignment κ α) {n : ℕ} (h : ∀ row ∈ indices, row < n)
    {l : List (κ × Matrix α)} (hl : ∀ t ∈ l, t.2.rows = n) {total : Vec α}
    (htotal : total.length = n) :
    (l.map fun t => (t.1, t.2.selectRows indices)).foldlM (fun total (k, block) => do
      let v ← x.valueOf k block.cols
      return Vec.add total (block.mulVec v)) (indices.map (Vec.get total)) =
    Except.map (fun r => indices.map (Vec.get r)) (l.foldlM (fun total (k, block) => do
      let v ← x.valueOf k block.cols
      return Vec.add total (block.mulVec v)) total) := by
  induction l generalizing total with
  | nil => rfl
  | cons t l ih =>
    have hn : t.2.rows = n := hl t List.mem_cons_self
    have hcols : (t.2.selectRows indices).cols = t.2.cols := rfl
    rw [List.map_cons, List.foldlM_cons, List.foldlM_cons]
    dsimp only
    rw [hcols]
    cases x.valueOf t.1 t.2.cols with
    | error e => rfl
    | ok v =>
      have hstep : Vec.add (indices.map (Vec.get total)) ((t.2.selectRows indices).mulVec v) =
          indices.map (Vec.get (Vec.add total (t.2.mulVec v))) := by
        rw [Matrix.mulVec_selectRows fun row hrow => hn.symm ▸ h row hrow]
        refine Vec.ext_get (by simp) fun i hi => ?_
        have hi : i < indices.length := by simpa using hi
        have hrow : indices[i] < n := h _ (List.getElem_mem hi)
        rw [Vec.get_add (by simpa using hi) (by simpa using hi), Vec.get_map_get hi,
          Vec.get_map_get hi, Vec.get_map_get hi, Vec.get_add (htotal.symm ▸ hrow)
            (by rw [Matrix.length_mulVec, hn]; exact hrow)]
      have hlen : (Vec.add total (t.2.mulVec v)).length = n := by
        rw [Vec.length_add, Matrix.length_mulVec, htotal, hn, min_self]
      refine Eq.trans ?_ (ih (fun t ht => hl t (List.mem_cons_of_mem _ ht)) hlen)
      rw [← hstep]
      rfl

/-- The residual of selected rows has the selected entries of the residual, and it fails where that
does, for the same cause. -/
theorem residual_selectRows (h : f.selectRows indices kind = .ok f') (x : Assignment κ α) :
    f'.residual x = (f.residual x).map fun r => indices.map (Vec.get r) := by
  obtain ⟨hrows, hterms, hrhs, -⟩ := selectRows_eq_ok.1 h
  have hneg : Vec.neg (indices.map (Vec.get f.rhs)) = indices.map (Vec.get (Vec.neg f.rhs)) := by
    rw [Vec.neg, List.map_map]
    exact List.map_congr_left fun row _ => (Vec.get_neg f.rhs row).symm
  have hselected := residual_selected x hrows f.block_rows (Vec.length_neg f.rhs)
  rw [← hneg] at hselected
  rw [residual, hterms, hrhs]
  exact hselected

/-- A row inside the factor has a value where the residual of the factor has, which is what the
residual adds to its right-hand side. -/
theorem rowValue_iff_residual {row : ℕ} (hrow : row < f.rows) {x : Assignment κ α} :
    ((∃ v, f.rowValue row x = .ok v) ↔ ∃ r, f.residual x = .ok r) ∧
      ∀ v r, f.rowValue row x = .ok v → f.residual x = .ok r →
        r[row]? = some (v - Vec.get f.rhs row) := by
  simp only [rowValue_eq_ok, residual_eq_ok]
  refine ⟨⟨?_, ?_⟩, ?_⟩
  · rintro ⟨_, -, hx, -⟩
    exact ⟨_, hx, rfl⟩
  · rintro ⟨_, hx, -⟩
    exact ⟨_, hrow, hx, rfl⟩
  · rintro v r ⟨-, -, rfl⟩ ⟨-, rfl⟩
    simp [hrow, gap]

/-- The value of a row is the sum of the products of its coefficients with the variables. -/
theorem rowValue_eq_sum {row : ℕ} {x : Assignment κ α} {value : α}
    (h : f.rowValue row x = .ok value) :
    ∃ c w : Fin f.terms.length → Vec α,
      (∀ i : Fin f.terms.length, f.rowCoefficients? row i = some (c i) ∧
        x.get? f.terms[i.1].1 = some (w i) ∧ (c i).length = (w i).length) ∧
      value = ∑ i, Vec.dot (c i) (w i) := by
  obtain ⟨hrow, hx, rfl⟩ := rowValue_eq_ok.1 h
  have hvalue (i : Fin f.terms.length) : ∃ w, x.get? f.terms[i.1].1 = some w ∧
      w.length = f.terms[i.1].2.cols :=
    Assignment.dim?_eq_some.1 (hx _ (List.mem_map_of_mem (List.getElem_mem i.2)))
  choose w hw hlen using hvalue
  refine ⟨fun i => f.terms[i.1].2.row row, w, fun i => ⟨?_, hw i, ?_⟩, ?_⟩
  · have hlt : row < f.terms[i.1].2.rows := (f.block_rows _ (List.getElem_mem i.2)).symm ▸ hrow
    simp [rowCoefficients?, block?, Matrix.row?, hlt]
  · rw [Matrix.length_row, hlen]
  · rw [form_apply, rowSum, ← Fin.sum_univ_fun_getElem]
    refine Finset.sum_congr rfl fun i _ => ?_
    rw [Vec.dot_eq (by rw [Matrix.length_row, hlen]), Matrix.length_row]
    refine Finset.sum_congr rfl fun j hj => ?_
    rw [Matrix.get_row _ (Finset.mem_range.1 hj), Assignment.entries_eq (hw i)]

/-- The rows at the given indices, all of one kind, as rows of their own. -/
structure IsSelection (f : LinearRows κ α) (indices : List ℕ) (kind : RowKind)
    (f' : LinearRows κ α) : Prop where
  keyDims : f'.keyDims = f.keyDims
  kinds : f'.kinds = some (List.replicate indices.length kind)
  rows : f'.rows = indices.length
  coefficients : ∀ i row : ℕ, indices[i]? = some row →
    ∀ position, f'.rowCoefficients? i position = f.rowCoefficients? row position
  rhs : ∀ i row : ℕ, indices[i]? = some row → f'.rhs[i]? = f.rhs[row]?
  residual : ∀ x : Assignment κ α,
    f'.residual x = (f.residual x).map fun r => indices.map (Vec.get r)
  keys_nodup : f'.keys.Nodup
  block_rows : ∀ t ∈ f'.terms, t.2.rows = indices.length
  built : constrained f'.terms f'.rhs (List.replicate indices.length kind) = .ok f'

theorem isSelection_selectRows (h : f.selectRows indices kind = .ok f') :
    f.IsSelection indices kind f' := by
  obtain ⟨hdims, hkinds, -⟩ := selectRows_spec h
  have hrows : f'.rows = indices.length := by
    rw [LinearRows.rows, ← f'.kinds_length _ (Option.mem_def.2 hkinds), List.length_replicate]
  exact {
    keyDims := hdims
    kinds := hkinds
    rows := hrows
    coefficients := fun _ _ hi => rowCoefficients?_selectRows h hi
    rhs := fun _ _ hi => rhs_selectRows h hi
    residual := residual_selectRows h
    keys_nodup := f'.keys_nodup
    block_rows := fun t ht => (f'.block_rows t ht).trans hrows
    built := constrained_selectRows h }

/-- A row is described alike by its value, by its entry of the residual and by its coefficients.
Rows that are all there can be selected, in any order and repeatedly, and are then described as they
were; a refusal names the first that is not there. -/
theorem rows_spec (f : LinearRows κ α) :
    (∀ row < f.rows, ∀ x : Assignment κ α,
      ((∃ v, f.rowValue row x = .ok v) ↔ ∃ r, f.residual x = .ok r) ∧
      ∀ v r, f.rowValue row x = .ok v → f.residual x = .ok r →
        r[row]? = some (v - Vec.get f.rhs row) ∧
        ∃ c w : Fin f.terms.length → Vec α,
          (∀ i : Fin f.terms.length, f.rowCoefficients? row i = some (c i) ∧
            x.get? f.terms[i.1].1 = some (w i) ∧ (c i).length = (w i).length) ∧
          v = ∑ i, Vec.dot (c i) (w i)) ∧
    ∀ (indices : List ℕ) (kind : RowKind),
      ((∃ f', f.selectRows indices kind = .ok f') ↔ ∀ row ∈ indices, row < f.rows) ∧
      (∀ f', f.selectRows indices kind = .ok f' → f.IsSelection indices kind f') ∧
      ∀ e, f.selectRows indices kind = .error e →
        ∃ before bad after, indices = before ++ bad :: after ∧ (∀ row ∈ before, row < f.rows) ∧
          f.rows ≤ bad ∧ e = .invalidDimension f.rows bad := by
  refine ⟨fun row hrow x => ?_, fun indices kind =>
    ⟨exists_selectRows_iff, fun f' => isSelection_selectRows, fun e => selectRows_eq_error⟩⟩
  obtain ⟨hiff, hentry⟩ := rowValue_iff_residual hrow (x := x)
  exact ⟨hiff, fun v r hv hr => ⟨hentry v r hv hr, rowValue_eq_sum hv⟩⟩

/-- The second row of the budget has the value three where the variables are three and four. It can
be selected twice, on both sides of the first row; a third row is refused. -/
theorem budget_rows :
    (∃ r, (budget 1 0 5).residual (SortedMap.ofList [(0, [3]), (1, [4])]) = .ok r ∧
      r[1]? = some (-2 : ℚ)) ∧
    (∃ c w : Fin 2 → Vec ℚ, (∀ i : Fin 2, (budget 1 0 5).rowCoefficients? 1 i = some (c i) ∧
      (c i).length = (w i).length) ∧ 3 = ∑ i, Vec.dot (c i) (w i)) ∧
    (∃ f', (budget 1 0 5).selectRows [1, 0, 1] .equality = .ok f' ∧ f'.rows = 3 ∧
      f'.residual (SortedMap.ofList [(0, [3]), (1, [4])]) = .ok [-2, 5, -2]) ∧
    (budget 1 0 5).selectRows [0, 2, 1] .equality = .error (.invalidDimension 2 2) := by
  obtain ⟨hrow, hselect⟩ := rows_spec (budget 1 0 5)
  have hvalue : (budget 1 0 5).rowValue 1 (SortedMap.ofList [(0, [3]), (1, [4])]) = .ok 3 := by
    decide +kernel
  obtain ⟨hiff, hentry⟩ := hrow 1 (by decide) (SortedMap.ofList [(0, [3]), (1, [4])])
  obtain ⟨r, hr⟩ := hiff.1 ⟨3, hvalue⟩
  obtain ⟨hget, c, w, hparts, hsum⟩ := hentry 3 r hvalue hr
  obtain ⟨hsome, hspec, -⟩ := hselect [1, 0, 1] .equality
  obtain ⟨f', hf'⟩ := hsome.2 (by decide)
  have hselection := hspec f' hf'
  obtain ⟨hnone, -, hrefuse⟩ := hselect [0, 2, 1] .equality
  refine ⟨⟨r, hr, hget.trans (by decide +kernel)⟩,
    ⟨c, w, fun i => ⟨(hparts i).1, (hparts i).2.2⟩, hsum⟩, ⟨f', hf', hselection.rows, ?_⟩, ?_⟩
  · rw [hselection.residual]
    decide +kernel
  · cases h : (budget 1 0 5).selectRows [0, 2, 1] .equality with
    | ok f => exact absurd (hnone.1 ⟨f, h⟩ 2 (by decide)) (by decide)
    | error e =>
      obtain ⟨before, bad, after, hsplit, -, hbad, rfl⟩ := hrefuse e h
      have hmem : bad ∈ [0, 2, 1] := hsplit ▸ List.mem_append_right _ List.mem_cons_self
      have htwo : 2 ≤ bad := hbad
      obtain rfl : bad = 2 := by
        simp only [List.mem_cons, List.not_mem_nil, or_false] at hmem
        omega
      rfl

end LinearRows

end GaussianProgram
