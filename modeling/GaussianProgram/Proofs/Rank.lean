import GaussianProgram.Proofs.ActiveRows
import GaussianProgram.Proofs.Independence
import GaussianProgram.Proofs.Scatter

/-! The check of the rank. With exact singular values and no tolerance independent rows pass it:
where a singular value is missing or zero, some combination of the rows vanishes. -/
namespace GaussianProgram
open Finset (range)

def SolverError.IsDegenerate {α : Type} : SolverError α → Prop
  | degenerateActiveSet _ _ => True
  | _ => False

theorem SolverError.isOwn_isDegenerate {α : Type} : IsOwn (IsDegenerate (α := α)) :=
  ⟨fun _ => id, fun _ => id, fun _ => id⟩

section SingularValues
variable {α : Type} [ExactScalar α]

def OrthonormalColumns (n : ℕ) (u : ℕ → ℕ → α) : Prop :=
  ∀ k < n, ∀ l < n, ∑ i ∈ range n, u i k * u i l = if k = l then 1 else 0

/-- The values are the diagonal `D` of a singular value decomposition `U D Vᵀ` of the matrix. -/
structure Matrix.HasSingularValues (m : Matrix α) (values : Vec α) : Prop where
  length : values.length = min m.rows m.cols
  nonneg : ∀ a ∈ values, 0 ≤ a
  decomposition : ∃ u v, OrthonormalColumns m.rows u ∧ OrthonormalColumns m.cols v ∧
    ∀ i < m.rows, ∀ j < m.cols,
      m.get i j = ∑ k ∈ range (min m.rows m.cols), u i k * Vec.get values k * v j k

/-- Without a tolerance the rank is the count of the positive singular values. -/
theorem Graph.numericalRank_zero (values : Vec α) :
    numericalRank 0 values = values.countP fun a => decide (0 < a) := by
  simp only [numericalRank, zero_mul]

/-- With fewer positive values than rows some value is missing or zero. -/
private theorem exists_zero_value {m : Matrix α} {values : Vec α} (h : m.HasSingularValues values)
    (hlt : values.countP (fun a => decide (0 < a)) < m.rows) :
    ∃ k < m.rows, k < min m.rows m.cols → Vec.get values k = 0 := by
  by_cases hall : ∀ a ∈ values, decide (0 < a) = true
  · rw [List.countP_eq_length.2 hall] at hlt
    exact ⟨values.length, hlt, fun hk => absurd (h.length ▸ hk) (lt_irrefl _)⟩
  · push Not at hall
    obtain ⟨a, ha, hnot⟩ := hall
    obtain ⟨k, hk, rfl⟩ := List.getElem_of_mem ha
    have hle : k < min m.rows m.cols := h.length ▸ hk
    refine ⟨k, hle.trans_le (min_le_left _ _), fun _ => ?_⟩
    rw [Vec.get_eq_getElem hk]
    exact le_antisymm (not_lt.1 fun hpos => hnot (decide_eq_true hpos)) (h.nonneg _ ha)

/-- With fewer positive values than rows some combination of the rows vanishes. -/
theorem Matrix.HasSingularValues.exists_combination {m : Matrix α} {values : Vec α}
    (h : m.HasSingularValues values)
    (hlt : values.countP (fun a => decide (0 < a)) < m.rows) :
    ∃ y : ℕ → α, (∃ i < m.rows, y i ≠ 0) ∧
      ∀ j < m.cols, ∑ i ∈ range m.rows, y i * m.get i j = 0 := by
  obtain ⟨k, hk, hzero⟩ := exists_zero_value h hlt
  obtain ⟨u, v, hu, -, hm⟩ := h.decomposition
  refine ⟨fun i => u i k, ?_, fun j hj => ?_⟩
  · by_contra hnone
    push Not at hnone
    have hone := hu k hk k hk
    rw [if_pos rfl, Finset.sum_eq_zero fun i hi => by
      rw [hnone i (Finset.mem_range.1 hi), zero_mul]] at hone
    exact zero_ne_one hone
  · calc ∑ i ∈ range m.rows, u i k * m.get i j
        = ∑ i ∈ range m.rows, ∑ l ∈ range (min m.rows m.cols),
            Vec.get values l * v j l * (u i k * u i l) := by
          refine Finset.sum_congr rfl fun i hi => ?_
          rw [hm i (Finset.mem_range.1 hi) j hj, Finset.mul_sum]
          exact Finset.sum_congr rfl fun l _ => by ring
      _ = ∑ l ∈ range (min m.rows m.cols),
            Vec.get values l * v j l * ∑ i ∈ range m.rows, u i k * u i l := by
          rw [Finset.sum_comm]
          exact Finset.sum_congr rfl fun l _ => by rw [Finset.mul_sum]
      _ = 0 := by
          refine Finset.sum_eq_zero fun l hl => ?_
          have hl := Finset.mem_range.1 hl
          rw [hu k hk l (hl.trans_le (min_le_left _ _))]
          split_ifs with he
          · rw [← he, hzero (he ▸ hl), zero_mul, zero_mul]
          · rw [mul_zero]

end SingularValues

namespace LinearRows
variable {κ α : Type} [Key κ] [ExactScalar α]

def coefficients (f : LinearRows κ α) (row : ℕ) : Point κ α := fun k j => f.form row (unitPoint k j)

end LinearRows

namespace Graph
variable {κ α : Type} [Key κ] [ExactScalar α] {g : Graph κ α} {w : WorkingSet}
  {dims : SortedMap κ ℕ}

/-- A dense row is the stack of its coefficients. -/
private theorem denseRow_eq (hdims : g.keyDimensions = .ok dims)
    (hsize : sumDims dims.values < UInt64.size) {f : LinearRows κ α} (hf : .linear f ∈ g.factors)
    {row : ℕ} (hrow : row < f.rows) {d : Vec α}
    (h : denseRow (Layout.ofDimensions dims) f row = .ok d) :
    d = stackOf dims.toList (f.coefficients row) := by
  have hget : ∀ e ∈ f.keyDims, dims.get? e.1 = some e.2 := fun e he =>
    (keyDimensions_spec hdims).2 ⟨_, hf, he⟩
  have hmax : sumDims dims.values ≤ maxLength := by
    obtain ⟨_, hstart, -⟩ := Result.bind_eq_ok.1 h
    rw [Result.inRange_eq_ok, Vec.zeros?_eq_some, Layout.total_ofDimensions hsize] at hstart
    exact hstart.1
  rw [LinearRows.denseRow_eq_ok hget hrow hmax] at h
  rw [← Except.ok.inj h, LinearRows.scattered, stackOf_eq_flatMap]
  refine List.flatMap_congr fun e he => ?_
  by_cases hk : e.1 ∈ f.keys
  · obtain ⟨⟨k, block⟩, ht, hkey⟩ := List.mem_map.1 hk
    obtain ⟨k', n⟩ := e
    cases hkey
    have hcols : block.cols = n := by
      have hdim := hget _ (List.mem_map_of_mem ht)
      rw [SortedMap.get?_eq_some_iff.2 he] at hdim
      exact (Option.some.inj hdim).symm
    have hpart : f.part? k row = some (block.row row) := by
      rw [LinearRows.part?_eq ht]
      exact if_pos (f.block_rows _ ht ▸ hrow)
    rw [hpart, Option.getD_some, Matrix.row, ← hcols]
    exact List.map_congr_left fun j hj =>
      (LinearRows.form_unitPoint ht (List.mem_range.1 hj) row).symm
  · have hzero : (List.range e.2).map (f.coefficients row e.1) =
        (List.range e.2).map fun _ => (0 : α) :=
      List.map_congr_left fun j _ => LinearRows.form_unitPoint_of_notMem hk row j
    rw [LinearRows.part?_of_notMem hk, Option.getD_none, hzero, List.map_const', List.length_range,
      Vec.zeros]

/-- The coefficients of a row times a point are the value of the row. -/
private theorem sum_coefficients (hdims : g.keyDimensions = .ok dims) {f : LinearRows κ α}
    (hf : .linear f ∈ g.factors) (row : ℕ) (v : Point κ α) :
    ∑ c ∈ range (sumDims dims.values), Vec.get (stackOf dims.toList (f.coefficients row)) c *
      Vec.get (stackOf dims.toList v) c = f.form row v := by
  have hget {e : κ × ℕ} (he : e ∈ f.keyDims) : dims.get? e.1 = some e.2 :=
    (keyDimensions_spec hdims).2 ⟨_, hf, he⟩
  have hkeys : ∀ k ∈ f.keys, k ∈ dims.keys.toFinset := by
    intro k hk
    rw [← Factor.keys_linear] at hk
    obtain ⟨e, he, rfl⟩ := List.mem_map.1 hk
    exact List.mem_toFinset.2 (SortedMap.mem_keys_iff.2 ⟨e.2, hget he⟩)
  rw [SortedMap.values, sum_stackOf, f.form_eq_sum row (n := fun k => (dims.get? k).getD 0) hkeys
    (fun e he => by rw [hget he]; rfl), List.sum_toFinset _ dims.nodup_keys, SortedMap.keys,
    List.map_map]
  refine congrArg List.sum (List.map_congr_left fun e he => ?_)
  rw [Function.comp_apply, SortedMap.get?_eq_some_iff.2 he]
  rfl

/-- The dense rows stand for the active rows, one by one. -/
theorem denseActiveRows_spec (hdims : g.keyDimensions = .ok dims)
    (hsize : sumDims dims.values < UInt64.size) {rows : List (Vec α)}
    (h : g.denseActiveRows w (Layout.ofDimensions dims) = .ok rows) :
    List.Forall₂ (fun r d => ∀ v, ∑ c ∈ range (sumDims dims.values),
      Vec.get d c * Vec.get (stackOf dims.toList v) c = g.rowForm r v) (g.activeRows w) rows := by
  obtain ⟨parts, hparts, h⟩ := Result.bind_eq_ok.1 h
  cases Result.pure_eq_ok.1 h
  rw [activeRows, List.flatMap]
  apply List.rel_flatten
  refine List.forall₂_map_left_iff.2 (Result.forall₂_of_mapM hparts fun e he part hpart => ?_)
  obtain ⟨hc, -⟩ := mem_participating.1 he
  have hmem := mem_factors_of_constraintAt? hc
  refine List.forall₂_map_left_iff.2 (Result.forall₂_of_mapM hpart fun row hrow d hd v => ?_)
  have hlt : row < e.2.rows := List.mem_range.1 (List.mem_filter.1 hrow).1
  rw [denseRow_eq hdims hsize hmem hlt hd, sum_coefficients hdims hmem,
    rowForm_eq (r := ⟨e.1, row⟩) hc]

/-- No combination of the dense rows vanishes but the trivial one. -/
private theorem Independent.eq_zero (h : g.Independent w) {rows : List (Vec α)}
    (hrows : List.Forall₂ (fun r d => ∀ v, ∑ c ∈ range (sumDims dims.values),
      Vec.get d c * Vec.get (stackOf dims.toList v) c = g.rowForm r v) (g.activeRows w) rows)
    {y : ℕ → α} (hy : ∀ c < sumDims dims.values,
      ∑ i ∈ range rows.length, y i * Vec.get (rows.getD i []) c = 0) {i : ℕ}
    (hi : i < rows.length) : y i = 0 := by
  have hlen : rows.length = (g.activeRows w).length := hrows.length_eq.symm
  have hind : LinearIndependent α fun i : Fin rows.length =>
      g.rowForm ((g.activeRows w).get (i.cast hlen)) := by
    refine LinearIndependent.comp h (fun i : Fin rows.length =>
      ⟨(g.activeRows w).get (i.cast hlen), mem_activeRows.1 (List.get_mem _ _)⟩) fun a b hab => ?_
    simpa using (nodup_activeRows g w).injective_get (congrArg Subtype.val hab)
  refine Fintype.linearIndependent_iff.1 hind (fun i => y i) ?_ ⟨i, hi⟩
  apply LinearMap.ext
  intro v
  have hform (i : Fin rows.length) : g.rowForm ((g.activeRows w).get (i.cast hlen)) v =
      ∑ c ∈ range (sumDims dims.values),
        Vec.get (rows.getD i []) c * Vec.get (stackOf dims.toList v) c := by
    rw [List.getD_eq_getElem _ _ i.isLt]
    exact (hrows.get (hlen ▸ i.isLt) i.isLt v).symm
  simp only [LinearMap.sum_apply, LinearMap.smul_apply, smul_eq_mul, hform, Finset.mul_sum]
  rw [Finset.sum_comm]
  refine Finset.sum_eq_zero fun c hc => ?_
  simp only [← mul_assoc, ← Finset.sum_mul]
  rw [Fin.sum_univ_eq_sum_range fun i => y i * Vec.get (rows.getD i []) c,
    hy c (Finset.mem_range.1 hc), zero_mul]

/-- Independent rows pass the check, whatever else it may fail for. -/
theorem Independent.checkActiveRank (h : g.Independent w)
    (hsize : ∀ dims, g.keyDimensions = .ok dims → sumDims dims.values < UInt64.size)
    {singularValues : Matrix α → Option (Vec α)}
    (hs : ∀ m values, singularValues m = some values → m.HasSingularValues values) :
    (g.checkActiveRank singularValues w 0).Avoids SolverError.IsDegenerate := by
  apply Result.avoids_bind_of_ok (Result.avoids_graph SolverError.isOwn_isDegenerate _)
  intro dims hdims
  rw [Result.mapCause_eq_ok, dimensions, Result.mapCause_eq_ok, Result.ofExcept_eq_ok] at hdims
  have htotal := Layout.total_ofDimensions (hsize dims hdims)
  apply Result.avoids_bind_of_ok (avoids_denseActiveRows (fun _ => id) g w _)
  intro rows hrows
  have hspec := denseActiveRows_spec hdims (hsize dims hdims) hrows
  split_ifs
  · exact Result.avoids_ok ()
  · exact Result.avoids_outOfRange
  · apply Result.avoids_bind_of_ok (Result.avoids_inRange _)
    intro values hvalues
    rw [Result.inRange_eq_ok] at hvalues
    simp only [numericalRank_zero]
    split_ifs with hlt
    · exfalso
      obtain ⟨y, ⟨i, hi, hyi⟩, hy⟩ := (hs _ _ hvalues).exists_combination hlt
      rw [Matrix.rows_ofFn] at hi hy
      refine hyi (h.eq_zero hspec (fun c hc => ?_) hi)
      rw [← htotal] at hc
      rw [← hy c hc]
      refine Finset.sum_congr rfl fun i hi => ?_
      rw [Matrix.get_ofFn _ (Finset.mem_range.1 hi) hc]
    · exact Result.avoids_ok ()

end Graph

namespace Solver
variable {κ α σ : Type} [Key κ] [ExactScalar α] {s : Solver κ α σ} {w : WorkingSet}
  {x : Assignment κ α}

omit [ExactScalar α] in
/-- The variables of a graph have no more entries than an assignment that a run may start from. -/
theorem sumDims_le_of_restrict {g : Graph κ α} {initial : Assignment κ α}
    (h : restrict g initial = .ok x) {dims : SortedMap κ ℕ} (hdims : g.keyDimensions = .ok dims) :
    sumDims dims.values ≤ initial.totalDimension := by
  have hinitial : initial.HasDims dims.toList := fun e he => by
    obtain ⟨f, hf, hmem⟩ :=
      (Graph.keyDimensions_spec hdims).1 (SortedMap.get?_eq_some_iff.2 he)
    exact covers_of_restrict h f hf e hmem
  exact hinitial.sumDims_le (List.Nodup.of_map _ dims.nodup_keys)

omit [ExactScalar α] in
theorem Starts.sumDims_le [Scalar α] {s : Solver κ α σ} {initial : Assignment κ α}
    (h : s.Starts initial w x) {dims : SortedMap κ ℕ} (hdims : s.graph.keyDimensions = .ok dims) :
    sumDims dims.values ≤ initial.totalDimension := sumDims_le_of_restrict h.point hdims

/-- A run of the loop from a tight working set of independent rows, all of which pass the check of
their rank, does not end because of it. -/
theorem Runs.not_degenerate (hs : s.KeepsRows) (htol : s.config.feasibilityTolerance = 0)
    (hrank : ∀ w, s.graph.Independent w → (s.checkRank w).Avoids SolverError.IsDegenerate)
    {initialCost : α} {fuel i : ℕ} {D : List WorkingSet} {events : List (Event κ α)}
    {result : Result (Error α) (Optimum κ α)} (h : s.Runs initialCost fuel i D w x events result)
    (hx : s.graph.Tight w x) (hw : s.graph.Independent w) (e : SolverError α)
    (he : result = .error (.cause (.solver e))) : ¬e.IsDegenerate := by
  induction h with
  | limit =>
    cases he
    exact id
  | failed hfails =>
    cases he
    exact hfails.avoids SolverError.isOwn_isDegenerate (hrank _ hw) e rfl
  | converged _ _ => cases he
  | cycled _ _ _ _ =>
    cases he
    exact id
  | dropped hiter _ _ _ ih =>
    exact ih (hiter.tight hs htol hx) (hiter.independent hs htol hx hw) he
  | stepped hiter _ _ ih =>
    exact ih (hiter.tight hs htol hx) (hiter.independent hs htol hx hw) he

/-- From a tight working set of independent rows every iteration that succeeds leads to such a
working set again. With exact singular values and no tolerance for the rank, a run that starts there
never ends because its active rows depend on each other; its assignment has fewer entries than there
are 64-bit words, as any that is stored. -/
theorem optimize_independent (hs : s.KeepsRows) (htol : s.config.feasibilityTolerance = 0)
    (hvalues : ∀ m values, s.singularValues m = some values → m.HasSingularValues values) :
    (∀ st st' o, s.iterate.run.run st = (.ok o, st') → s.graph.Tight st.workingSet st.point →
      s.graph.Independent st.workingSet →
        s.graph.Tight st'.workingSet st'.point ∧ s.graph.Independent st'.workingSet) ∧
    (s.config.rankTolerance = 0 → ∀ initial w eliminator,
      initial.totalDimension < UInt64.size → s.graph.Tight w initial → s.graph.Independent w →
        ∀ rank rows, (s.optimize initial w eliminator).1 ≠
          .error (.cause (.solver (.degenerateActiveSet rank rows)))) := by
  constructor
  · intro st st' o h hx hw
    have hiter := iterate_ok h
    exact ⟨hiter.tight hs htol hx, hiter.independent hs htol hx hw⟩
  · intro hzero initial w eliminator hsize hinitial hw rank rows
    rcases hrun : s.optimize initial w eliminator with ⟨result, st⟩
    intro hresult
    rcases optimize_cases hrun with ⟨-, failure, rfl, hlate⟩ | ⟨x, cost, hstarts, -, hruns⟩
    · cases hresult
      exact hlate _ rfl trivial
    · refine hruns.not_degenerate hs htol (fun v hv => ?_) (hstarts.agrees.1 w hinitial) hw _
        hresult trivial
      rw [checkRank, hzero]
      exact hv.checkActiveRank (fun dims hdims => (hstarts.sumDims_le hdims).trans_lt hsize) hvalues

end Solver

def Matrix.singleValue? (m : Matrix ℚ) : Option (Vec ℚ) :=
  if m.rows = 1 ∧ m.cols = 1 then some [|m.get 0 0|] else none

theorem Matrix.hasSingularValues_single {m : Matrix ℚ} {values : Vec ℚ}
    (h : m.singleValue? = some values) : m.HasSingularValues values := by
  unfold singleValue? at h
  split_ifs at h with hshape
  cases h
  obtain ⟨hr, hc⟩ := hshape
  refine ⟨by simp [hr, hc], by simp, fun _ _ => if m.get 0 0 < 0 then -1 else 1, fun _ _ => 1,
    fun k hk l hl => ?_, fun k hk l hl => ?_, fun i hi j hj => ?_⟩
  · rw [hr, Nat.lt_one_iff] at hk hl
    rw [hr, Finset.sum_range_one, hk, hl, if_pos (rfl : 0 = 0)]
    split_ifs <;> norm_num
  · rw [hc, Nat.lt_one_iff] at hk hl
    rw [hc, Finset.sum_range_one, hk, hl, if_pos rfl, one_mul]
  · rw [hr, Nat.lt_one_iff] at hi
    rw [hc, Nat.lt_one_iff] at hj
    rw [hr, hc, hi, hj, min_self, Finset.sum_range_one, mul_one]
    split_ifs with hneg
    · simp [Vec.get, abs_of_neg hneg]
    · simp [Vec.get, abs_of_nonneg (not_lt.1 hneg)]

namespace Solver

def halfLineRank : Solver ℕ ℚ Unit :=
  { halfLine with
    config := { halfLine.config with rankTolerance := 0 }
    singularValues := Matrix.singleValue? }

/-- The first iteration on the half-line takes the row into the working set, and no run from there
finds the row dependent. -/
theorem halfLine_independent :
    (∃ o st', halfLineRank.iterate.run.run ⟨WorkingSet.empty, .single 0 0, (), []⟩ = (.ok o, st') ∧
      st'.workingSet.rows = [⟨1, 0⟩] ∧ halfLineRank.graph.Independent st'.workingSet) ∧
    ∀ rank rows, (halfLineRank.optimize (.single 0 0) WorkingSet.empty ()).1 ≠
      .error (.cause (.solver (.degenerateActiveSet rank rows))) := by
  have hs : halfLineRank.KeepsRows := keepsRows_of_table rfl (by decide +kernel)
  have htight : halfLineRank.graph.Tight WorkingSet.empty (.single 0 0) := by
    refine Graph.tight_of_slacks (fun _ => 1) (by decide +kernel) fun r hr => ?_
    refine ⟨?_, zero_le_one, fun hmem => absurd hmem List.not_mem_nil⟩
    revert r
    decide +kernel
  have hind : halfLineRank.graph.Independent WorkingSet.empty := by
    have hnone : halfLineRank.graph.rowsOfKind .equality = [] := by decide +kernel
    refine (linearIndepOn_empty ℚ _).mono fun r hr => ?_
    rcases hr with hk | ⟨-, hmem⟩
    · exact absurd (Graph.mem_rowsOfKind.2 hk) (by simp [hnone])
    · exact absurd hmem List.not_mem_nil
  obtain ⟨hstep, hrun⟩ :=
    optimize_independent hs rfl fun m values => Matrix.hasSingularValues_single
  refine ⟨?_, hrun rfl _ _ () (by decide +kernel) htight hind⟩
  have hrows : (match halfLineRank.iterate.run.run ⟨WorkingSet.empty, .single 0 0, (), []⟩ with
      | (.ok _, st') => decide (st'.workingSet.rows = [⟨1, 0⟩])
      | (.error _, _) => false) = true := by decide +kernel
  split at hrows
  next o st' hok => exact ⟨o, st', hok, of_decide_eq_true hrows, (hstep _ _ _ hok htight hind).2⟩
  next => cases hrows

end Solver

end GaussianProgram
