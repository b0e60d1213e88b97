import GaussianProgram.Multiplier.Active
import GaussianProgram.Proofs.Layout

/-! Rows over the stacked variables. A row has a part for each of its keys; a selection
of rows keeps the parts, and a dense row has them in the segments of their keys,
whatever the scalars are. -/
namespace GaussianProgram

/-- Overwriting the segment of a key in the parts of all keys replaces its part. -/
theorem Vec.overwrite_flatMap {κ α : Type} [DecidableEq κ] {pre post : List (κ × ℕ)} {k : κ}
    (hpre : k ∉ pre.map (·.1)) (hpost : k ∉ post.map (·.1)) (v : Vec α) {φ : κ × ℕ → Vec α}
    (hφ : ∀ e ∈ pre ++ (k, v.length) :: post, (φ e).length = e.2) :
    overwrite ((pre ++ (k, v.length) :: post).flatMap φ) (sumDims (pre.map (·.2))) v =
      some ((pre ++ (k, v.length) :: post).flatMap fun e => if e.1 = k then v else φ e) := by
  have hother {l : List (κ × ℕ)} (h : k ∉ l.map (·.1)) :
      (l.flatMap fun e => if e.1 = k then v else φ e) = l.flatMap φ :=
    List.flatMap_congr fun e he => if_neg fun hk => h (hk ▸ List.mem_map_of_mem he)
  have hown : (φ (k, v.length)).length = v.length :=
    hφ _ (List.mem_append_right _ List.mem_cons_self)
  have hlen : (pre.flatMap φ).length = sumDims (pre.map (·.2)) := by
    rw [List.length_flatMap, sumDims_eq_sum]
    exact congrArg List.sum (List.map_congr_left fun e he => hφ e (List.mem_append_left _ he))
  rw [List.flatMap_append, List.flatMap_cons, List.flatMap_append, List.flatMap_cons, hother hpre,
    hother hpost, if_pos rfl, overwrite, if_pos]
  · rw [List.take_left' hlen, ← List.append_assoc (pre.flatMap φ),
      List.drop_left' (by rw [List.length_append, hlen, hown]), List.append_assoc]
  · rw [List.length_append, List.length_append, hlen, hown]
    omega

theorem Vec.flatMap_zeros {κ α : Type} [Scalar α] (dims : List (κ × ℕ)) :
    (dims.flatMap fun e => zeros e.2) = (zeros (sumDims (dims.map (·.2))) : Vec α) := by
  induction dims with
  | nil => rfl
  | cons e dims ih =>
    rw [List.flatMap_cons, ih, List.map_cons, sumDims_cons, zeros, zeros, zeros,
      List.replicate_append_replicate]

theorem Vec.map_get_range {α : Type} [Scalar α] (v : Vec α) :
    (List.range v.length).map (get v) = v :=
  ext_get (by simp) fun _ hi => get_map_range _ (by simpa using hi)

namespace Matrix
variable {α : Type} [Scalar α]

theorem column_ofColumns {n : ℕ} {columns : List (Vec α)} {j : ℕ} {v : Vec α}
    (hj : columns[j]? = some v) (hv : v.length = n) : (ofColumns n columns).column j = v := by
  obtain ⟨hlt, hget⟩ := List.getElem?_eq_some_iff.1 hj
  rw [← Vec.map_get_range v, hv]
  refine List.map_congr_left fun i hi => ?_
  have hi : i < n := List.mem_range.1 hi
  rw [ofColumns, get_ofFn _ hi hlt, List.getD_eq_getElem _ _ hlt, hget]

theorem row?_selectRows {m : Matrix α} {indices : List ℕ} {i row : ℕ}
    (hi : indices[i]? = some row) (hrow : row < m.rows) :
    (m.selectRows indices).row? i = m.row? row := by
  obtain ⟨hlt, hget⟩ := List.getElem?_eq_some_iff.1 hi
  have hheight : i < (m.selectRows indices).rows := hlt
  rw [row?, row?, if_pos hheight, if_pos hrow]
  refine congrArg some (List.map_congr_left fun j hj => ?_)
  have hj : j < m.cols := List.mem_range.1 hj
  rw [selectRows, get_ofFn _ hlt hj, List.getD_eq_getElem _ _ hlt, hget]

/-- The matrix of vectors of one length has them as its rows. -/
theorem rowList_ofFn {rows : List (Vec α)} {n : ℕ} (h : ∀ v ∈ rows, v.length = n) :
    (ofFn rows.length n fun i j => Vec.get (rows.getD i []) j).rowList = rows := by
  refine List.ext_getElem (by simp) fun i hi hi' => ?_
  have hrow : rows.getD i [] = rows[i] := List.getD_eq_getElem _ _ hi'
  simp only [rowList, List.getElem_map, List.getElem_range]
  rw [← Vec.map_get_range rows[i], h _ (List.getElem_mem hi')]
  refine List.map_congr_left fun j hj => ?_
  have hj : j < n := List.mem_range.1 hj
  rw [get_ofFn _ hi' hj, hrow]

end Matrix

namespace LinearRows
variable {κ α : Type} [Key κ] [Scalar α] {f : LinearRows κ α}

/-- Coefficients of one row for one key, none if there is no such key or row. -/
def part? (f : LinearRows κ α) (k : κ) (row : ℕ) : Option (Vec α) :=
  (f.terms.find? fun t => decide (t.1 = k)).bind fun t => t.2.row? row

theorem part?_eq {k : κ} {block : Matrix α} (h : (k, block) ∈ f.terms) (row : ℕ) :
    f.part? k row = block.row? row := by
  have hfind (l : List (κ × Matrix α)) (hl : (l.map (·.1)).Nodup) (hmem : (k, block) ∈ l) :
      l.find? (fun t => decide (t.1 = k)) = some (k, block) := by
    induction l with
    | nil => cases hmem
    | cons t l ih =>
      obtain ⟨hnot, hl⟩ := List.nodup_cons.1 hl
      rcases List.mem_cons.1 hmem with rfl | hmem
      · exact List.find?_cons_of_pos (decide_eq_true rfl)
      · have hne : t.1 ≠ k := fun he => hnot (List.mem_map.2 ⟨_, hmem, he.symm⟩)
        rw [List.find?_cons_of_neg (by simpa using hne), ih hl hmem]
  rw [part?, hfind f.terms f.keys_nodup h]
  rfl

theorem part?_of_notMem {k : κ} (h : k ∉ f.keys) (row : ℕ) : f.part? k row = none := by
  have hfind : f.terms.find? (fun t => decide (t.1 = k)) = none :=
    List.find?_eq_none.2 fun t ht he => h (of_decide_eq_true he ▸ List.mem_map_of_mem ht)
  rw [part?, hfind]
  rfl

/-- A row has a part for every key, as long as the block of the key is wide. -/
theorem exists_part? {k : κ} (hk : k ∈ f.keys) {row : ℕ} (hrow : row < f.rows) {n : ℕ}
    (hn : ∀ e ∈ f.keyDims, e.1 = k → e.2 = n) : ∃ v, f.part? k row = some v ∧ v.length = n := by
  obtain ⟨⟨k, block⟩, ht, rfl⟩ := List.mem_map.1 hk
  refine ⟨block.row row, ?_, ?_⟩
  · rw [part?_eq ht]
    exact if_pos (f.block_rows _ ht ▸ hrow)
  · rw [Matrix.length_row]
    exact hn _ (List.mem_map_of_mem ht) rfl

/-- The part of the key at a position, where it has its first place. -/
theorem rowCoefficients?_eq {k : κ} {position : ℕ} (h : f.keys[position]? = some k) (row : ℕ) :
    f.rowCoefficients? row position = f.part? k row := by
  rw [keys, List.getElem?_map] at h
  obtain ⟨⟨_, block⟩, hterm, rfl⟩ := Option.map_eq_some_iff.1 h
  rw [part?_eq (List.mem_of_getElem? hterm), rowCoefficients?, block?, hterm]
  rfl

/-- The rows at the given indices, with their coefficients and right-hand sides, as equalities. -/
structure Selects (f : LinearRows κ α) (indices : List ℕ) (f' : LinearRows κ α) : Prop where
  keys : f'.keys = f.keys
  kinds : f'.kinds = some (List.replicate indices.length .equality)
  part : ∀ i row : ℕ, indices[i]? = some row → ∀ k, f'.part? k i = f.part? k row
  rhs : ∀ i row : ℕ, indices[i]? = some row → f'.rhs[i]? = f.rhs[row]?

theorem exists_selects (f : LinearRows κ α) {indices : List ℕ} (h : ∀ row ∈ indices, row < f.rows) :
    ∃ f', f.selectRows indices .equality = .ok f' ∧ f.Selects indices f' := by
  obtain ⟨f', hsel⟩ := exists_selectRows_iff.2 h
  obtain ⟨-, hterms, hrhs, hkinds⟩ := selectRows_eq_ok.1 hsel
  have hkeys : f'.keys = f.keys := by simp [keys, hterms]
  refine ⟨f', hsel, hkeys, hkinds, fun i row hi k => ?_, fun i row hi => ?_⟩
  · have hrow := h row (List.mem_of_getElem? hi)
    by_cases hk : k ∈ f.keys
    · obtain ⟨⟨k, block⟩, ht, rfl⟩ := List.mem_map.1 hk
      rw [part?_eq ht, ← Matrix.row?_selectRows hi (f.block_rows _ ht ▸ hrow)]
      exact part?_eq (hterms ▸ List.mem_map.2 ⟨_, ht, rfl⟩) i
    · rw [part?_of_notMem hk]
      exact part?_of_notMem (hkeys.symm ▸ hk) i
  · have hrow : row < f.rhs.length := h row (List.mem_of_getElem? hi)
    simp [hrhs, hi, Vec.get, hrow]

/-- One row over the stacked variables: the part of every key, zeros where there is none. -/
def scattered (f : LinearRows κ α) (dims : SortedMap κ ℕ) (row : ℕ) : Vec α :=
  dims.toList.flatMap fun e => (f.part? e.1 row).getD (Vec.zeros e.2)

section Dense
variable {dims : SortedMap κ ℕ} (hf : ∀ e ∈ f.keyDims, dims.get? e.1 = some e.2) {row : ℕ}
  (hrow : row < f.rows)
include hf hrow

theorem length_part {e : κ × ℕ} (he : e ∈ dims.toList) :
    ((f.part? e.1 row).getD (Vec.zeros e.2)).length = e.2 := by
  by_cases hk : e.1 ∈ f.keys
  · have hdim (e' : κ × ℕ) (he' : e' ∈ f.keyDims) (hkey : e'.1 = e.1) : e'.2 = e.2 := by
      have hget := hf e' he'
      rw [hkey, SortedMap.get?_eq_some_iff.2 he] at hget
      exact (Option.some.inj hget).symm
    obtain ⟨v, hv, hlen⟩ := exists_part? hk hrow hdim
    rw [hv, Option.getD_some, hlen]
  · rw [part?_of_notMem hk, Option.getD_none, Vec.length_zeros]

theorem length_scattered : (f.scattered dims row).length = sumDims dims.values := by
  rw [scattered, List.length_flatMap, SortedMap.values, sumDims_eq_sum]
  exact congrArg List.sum (List.map_congr_left fun e he => length_part hf hrow he)

/-- A fold that writes the blocks of some keys into the stacked entries. -/
theorem foldlM_overwrite (hmax : sumDims dims.values ≤ maxLength)
    {step : Vec α → κ × ℕ → Result (SolverError α) (Vec α)}
    (hstep : ∀ dense e offset v, (Layout.ofDimensions dims).offset? e.1 = some offset →
      f.rowCoefficients? row e.2 = some v →
      step dense e = Result.inRange (Vec.overwrite dense offset v))
    (l : List (κ × ℕ)) (hl : ∀ e ∈ l, f.keys[e.2]? = some e.1) {φ : κ × ℕ → Vec α}
    (hφ : ∀ e ∈ dims.toList, (φ e).length = e.2) : l.foldlM step (dims.toList.flatMap φ) =
      .ok (dims.toList.flatMap fun e => if e.1 ∈ l.map (·.1) then
        (f.part? e.1 row).getD (Vec.zeros e.2) else φ e) := by
  have hsize : sumDims dims.values < UInt64.size := hmax.trans_lt (by decide)
  -- A written block replaces the value of `φ` at its key, so the induction is for every `φ`.
  induction l generalizing φ with
  | nil => simp [pure, Except.pure]
  | cons e l ih =>
    obtain ⟨k, position⟩ := e
    obtain ⟨hkey, hrest⟩ := List.forall_mem_cons.1 hl
    have hk : k ∈ f.keys := List.mem_of_getElem? hkey
    obtain ⟨⟨k, block⟩, ht, rfl⟩ := List.mem_map.1 hk
    have hdim : dims.get? k = some block.cols := hf _ (List.mem_map_of_mem ht)
    have hv : f.part? k row = some (block.row row) := by
      rw [part?_eq ht]
      exact if_pos (f.block_rows _ ht ▸ hrow)
    have hlen : (block.row row).length = block.cols := block.length_row row
    obtain ⟨pre, post, hsplit, hpre, hpost, hsegment⟩ := Layout.exists_segment hsize hdim
    have hput : Vec.overwrite (dims.toList.flatMap φ) (sumDims (pre.map (·.2))) (block.row row) =
        some (dims.toList.flatMap fun e => if e.1 = k then block.row row else φ e) := by
      rw [hsplit, ← hlen] at hφ ⊢
      exact Vec.overwrite_flatMap hpre hpost _ hφ
    have hnext : ∀ e ∈ dims.toList,
        (if e.1 = k then block.row row else φ e).length = e.2 := fun e he => by
      split_ifs with hek
      · have hget := SortedMap.get?_eq_some_iff.2 he
        rw [hek, hdim] at hget
        rw [hlen, Option.some.inj hget]
      · exact hφ e he
    rw [List.foldlM_cons, hstep _ (k, position) _ _ (by rw [Layout.offset?, hsegment]; rfl)
      ((rowCoefficients?_eq hkey row).trans hv)]
    refine Result.bind_eq_ok.2 ⟨_, Result.inRange_eq_ok.2 hput, (ih hrest hnext).trans ?_⟩
    refine congrArg Except.ok (List.flatMap_congr fun e _ => ?_)
    by_cases hlater : e.1 ∈ l.map (·.1)
    · simp [hlater]
    · by_cases hek : e.1 = k
      · simp [hek, hv]
      · simp [hlater, hek]

/-- A dense row is the scattered row. -/
theorem denseRow_eq_ok (hmax : sumDims dims.values ≤ maxLength) :
    Graph.denseRow (Layout.ofDimensions dims) f row = .ok (f.scattered dims row) := by
  have hsize : sumDims dims.values < UInt64.size := hmax.trans_lt (by decide)
  have hstart : Vec.zeros? (Layout.ofDimensions dims).total =
      some (dims.toList.flatMap fun e => (Vec.zeros e.2 : Vec α)) := by
    rw [Layout.total_ofDimensions hsize, Vec.zeros?_eq_some]
    exact ⟨hmax, Vec.flatMap_zeros dims.toList⟩
  have hkeys : f.keys.zipIdx.map (·.1) = f.keys := List.zipIdx_map_fst 0 _
  rw [Graph.denseRow, hstart]
  refine (foldlM_overwrite hf hrow hmax (fun dense e offset v hoffset hv => ?_) f.keys.zipIdx
    (fun e he => List.mk_mem_zipIdx_iff_getElem?.1 he)
    fun e _ => Vec.length_zeros e.2).trans (congrArg Except.ok (List.flatMap_congr fun e _ => ?_))
  · simp only [hoffset, hv, Result.inRange_some]
    rfl
  · rw [hkeys]
    split_ifs with hk
    · rfl
    · rw [part?_of_notMem hk, Option.getD_none]

end Dense

end LinearRows

end GaussianProgram
