import GaussianProgram.Proofs.WellPosed

/-! Multipliers of the working problem. Its equations are the active rows in their order, and where
these are independent the dual graph at a solution has the multipliers that the stationarity system
has found there, up to the signs of equality rows. -/
namespace GaussianProgram
open Finset (range)

/-- Elements that are left out do not matter where nothing is made of them. -/
private theorem flatMap_filter {β γ : Type} {l : List β} {p : β → Bool} {f : β → List γ}
    (h : ∀ b ∈ l, p b = false → f b = []) : (l.filter p).flatMap f = l.flatMap f := by
  induction l with
  | nil => rfl
  | cons b l ih =>
    obtain ⟨hb, hl⟩ := List.forall_mem_cons.1 h
    rw [List.flatMap_cons, ← ih hl]
    cases hp : p b with
    | true => rw [List.filter_cons_of_pos hp, List.flatMap_cons]
    | false => rw [List.filter_cons_of_neg (by simp [hp]), hb hp, List.nil_append]

/-- Selected rows are equations in the order of the selection. -/
theorem LinearRows.equations_selectRows {κ α : Type} [Key κ] [ExactScalar α]
    {f f' : LinearRows κ α} {indices : List ℕ} (h : f.selectRows indices .equality = .ok f') :
    (Factor.linear f').equations = indices.map f.equation := by
  obtain ⟨-, hkinds, hrows⟩ := selectRows_spec h
  have hall : f'.equalityRows = List.range indices.length := by
    rw [equalityRows, rowsOfKind, hkinds, Option.getD_some, List.filter_eq_self.2,
      List.zipIdx_map_snd, List.length_replicate, List.range_eq_range']
    rintro ⟨kind, i⟩ he
    cases List.eq_of_mem_replicate (List.fst_mem_of_mem_zipIdx he)
    rfl
  refine List.ext_getElem (by simp [Factor.equations, hall]) fun i hi hi' => ?_
  have hlt : i < indices.length := by simpa using hi'
  obtain ⟨-, hform, hrhs⟩ := hrows i _ (List.getElem?_eq_getElem hlt)
  simp [Factor.equations, hall, equation, hform, hrhs]

namespace Graph
variable {κ α : Type} [Key κ] {g : Graph κ α} {w : WorkingSet}

section Order
variable [Scalar α]

/-- The active rows are in graph order, and those of one factor in ascending order. -/
theorem ascending_activeRows (g : Graph κ α) (w : WorkingSet) : (g.activeRows w).Pairwise fun a b =>
    a.factor < b.factor ∨ a.factor = b.factor ∧ a.row < b.row := by
  refine List.pairwise_flatMap.2 ⟨fun e _ => ?_, (g.ascending_constraints.filter _).imp ?_⟩
  · exact List.pairwise_map.2 ((List.pairwise_lt_range.filter _).imp fun hlt => .inr ⟨rfl, hlt⟩)
  · intro a b hlt r hr r' hr'
    obtain ⟨row, -, rfl⟩ := List.mem_map.1 hr
    obtain ⟨row', -, rfl⟩ := List.mem_map.1 hr'
    exact .inl hlt

/-- The active rows of all constraint factors, whether or not they participate. -/
theorem activeRows_eq (g : Graph κ α) (w : WorkingSet) : g.activeRows w = g.indexed.flatMap fun e =>
    e.2.constraint?.toList.flatMap fun c => (activeRowsOf w e.1 c).map (ConstraintRow.mk e.1) := by
  rw [activeRows, participating, flatMap_filter, flatMap_constraints]
  rintro ⟨i, c⟩ hmem hnot
  refine List.map_eq_nil_iff.2 (List.eq_nil_iff_forall_not_mem.2 fun row hrow => ?_)
  have hin : (i, c) ∈ g.participating w := mem_participating.2
    ⟨mem_constraints.1 hmem, row, (mem_activeRowsOf.1 hrow).imp_right And.right⟩
  exact Bool.false_ne_true (hnot.symm.trans (List.mem_filter.1 hin).2)

/-- The enforced rows of a factor are its active rows, in the same order. -/
theorem Admits.enforcedRows_eq (hw : g.Admits w) {i : ℕ} {c : LinearRows κ α}
    (hc : g.constraintAt? i = some c) : enforcedRows w i c = activeRowsOf w i c := by
  have henforced : (enforcedRows w i c).Pairwise (· < ·) :=
    List.pairwise_map.2 ((SortedSet.ofKeys _).ascending.imp Nat.compare_eq_lt.1)
  refine henforced.eq_of_mem_iff (List.pairwise_lt_range.filter _) fun row => ?_
  rw [mem_enforcedRows]
  refine (or_congr_right ⟨fun hin => ⟨?_, hin⟩, And.right⟩).trans mem_activeRowsOf.symm
  obtain ⟨_, hat, hk⟩ := rowKind?_eq_some.1 (hw _ hin)
  cases Option.some.inj (hc.symm.trans hat)
  exact hk

end Order

variable [ExactScalar α]

section Equations

private theorem equations_workingFactor (hw : g.Admits w) {e : ℕ × Factor κ α}
    (he : e ∈ g.indexed) {o : Option (Factor κ α)} (h : workingFactor? w e.1 e.2 = .ok o) :
    o.toList.flatMap Factor.equations = e.2.constraint?.toList.flatMap fun c =>
      (activeRowsOf w e.1 c).map fun row => g.equation ⟨e.1, row⟩ := by
  obtain ⟨hc, rfl⟩ | ⟨c, hc, hrows⟩ := workingFactor?_eq_ok.1 h
  · simp [hc, equations_of_cost hc]
  · have hat : g.constraintAt? e.1 = some c :=
      constraintAt?_eq_some.2 ⟨_, mem_indexed.1 he, hc⟩
    have hequations : (enforcedRows w e.1 c).map c.equation =
        (activeRowsOf w e.1 c).map fun row => g.equation ⟨e.1, row⟩ := by
      rw [hw.enforcedRows_eq hat]
      exact List.map_congr_left fun row _ => (equation_eq (r := ⟨e.1, row⟩) hat).symm
    simp only [hc, Option.toList_some, List.flatMap_cons, List.flatMap_nil, List.append_nil,
      ← hequations]
    obtain ⟨hnone, rfl⟩ | ⟨-, c', hsel, rfl⟩ := hrows
    · rw [hnone]
      rfl
    · rw [← LinearRows.equations_selectRows hsel]
      exact List.append_nil _

/-- The equations of the working problem are the active rows of the graph, in their order. -/
theorem equations_working (hw : g.Admits w) {working : Graph κ α}
    (h : g.workingGraph w = .ok working) :
    working.factors.flatMap Factor.equations = (g.activeRows w).map g.equation := by
  obtain ⟨factors, hmap, rfl⟩ := workingGraph_eq_ok.1 h
  have heq : factors.map (fun o => o.toList.flatMap Factor.equations) = g.indexed.map fun e =>
      e.2.constraint?.toList.flatMap fun c =>
        (activeRowsOf w e.1 c).map fun row => g.equation ⟨e.1, row⟩ := by
    refine Eq.symm ?_
    rw [← List.forall₂_eq_eq_eq, List.forall₂_map_left_iff, List.forall₂_map_right_iff]
    exact Result.forall₂_of_mapM hmap fun e he o ho => (equations_workingFactor hw he ho).symm
  rw [List.filterMap_eq_flatMap_toList, List.flatMap_assoc, activeRows_eq, List.map_flatMap]
  refine (List.flatMap_def.trans (congrArg List.flatten heq)).trans ?_
  rw [← List.flatMap_def]
  refine List.flatMap_congr fun e _ => ?_
  rw [List.map_flatMap]
  refine List.flatMap_congr fun c _ => ?_
  rw [List.map_map]
  rfl

end Equations

section Multipliers
variable {x : Assignment κ α} {grad : Assignment κ α} {dual : Graph ℕ α}

/-- Where the active rows are independent, at most one assignment leaves no residual. -/
theorem IsDual.eq_of_hasNoGap (h : g.IsDual w grad dual) (hgrad : g.gradient x = .ok grad)
    (hind : g.Independent w) {d d' : Assignment ℕ α} (hd : dual.Fits d) (hd' : dual.Fits d')
    (hgap : dual.HasNoGap d.entries) (hgap' : dual.HasNoGap d'.entries) : d = d' := by
  obtain ⟨ddims, hddims⟩ := h.exists_keyDimensions
  refine hd.eq_of_hasNoGap hddims (fun e he i n hn row hrow => ?_) hd' hgap hgap'
  obtain ⟨hidle, hweighted⟩ := (h.vanishes_iff hgrad).1 he
  obtain ⟨c, hc, rfl⟩ := (h.get?_dims hgrad hddims).1 hn
  exact independent_iff_participating.1 hind _ hidle hweighted _ hc row hrow

def signed (g : Graph κ α) (w : WorkingSet) (y : ℕ → α) : Point ℕ α := fun i row =>
  g.sign w ⟨i, row⟩ * y ((g.activeRows w).idxOf ⟨i, row⟩)

theorem signed_getElem? {y : ℕ → α} {n : ℕ} {r : ConstraintRow}
    (h : (g.activeRows w)[n]? = some r) : g.signed w y r.factor r.row = g.sign w r * y n := by
  obtain ⟨hn, rfl⟩ := List.getElem?_eq_some_iff.1 h
  exact congrArg (fun i => g.sign w _ * y i) ((nodup_activeRows g w).idxOf_getElem n hn)

theorem signed_of_not {r : ConstraintRow} (hr : ¬g.IsActive w r) (y : ℕ → α) :
    g.signed w y r.factor r.row = 0 := by
  suffices hsign : g.sign w r = 0 from (congrArg (· * _) hsign).trans (zero_mul _)
  rw [sign]
  cases hc : g.constraintAt? r.factor with
  | none => rfl
  | some c =>
    have hnone : (signOf w r.factor c r.row : Option α) = none := by
      rw [← Option.not_isSome_iff_eq_none, signOf_isSome]
      exact fun hk => hr (isActive_iff_exists.2 ⟨c, hc, hk⟩)
    rw [Option.bind_some, hnone, Option.getD_none]

/-- Weighed by their signs a second time, the rows have their multipliers as weights. -/
theorem weighted_signed (y : ℕ → α) (v : Point κ α) : g.weighted w (g.signed w y) v =
    ((g.activeRows w).zipIdx.map fun e => y e.2 * g.rowForm e.1 v).sum := by
  have hfst : ((g.activeRows w).zipIdx.map fun e => y e.2 * g.rowForm e.1 v) =
      (g.activeRows w).map fun r => y ((g.activeRows w).idxOf r) * g.rowForm r v := by
    conv_rhs => rw [← List.zipIdx_map_fst 0 (g.activeRows w), List.map_map]
    refine List.map_congr_left fun e he => ?_
    obtain ⟨hn, hget⟩ := List.getElem?_eq_some_iff.1 (List.mk_mem_zipIdx_iff_getElem?.1 he)
    rw [List.zipIdx_map_fst]
    simp only [Function.comp_apply, ← hget, (nodup_activeRows g w).idxOf_getElem e.2 hn]
  rw [weighted_apply, hfst, ← List.sum_toFinset _ (nodup_activeRows g w)]
  refine Finset.sum_congr rfl fun r hr => ?_
  change g.sign w r * (g.sign w r * y _ * g.rowForm r v) = _
  rw [mul_assoc, ← mul_assoc, sign_mul_self (mem_activeSet.1 hr), one_mul]

section Solution
variable {dims wdims : SortedMap κ ℕ} {working : Graph κ α} {s : ConstrainedSystem α}
  (hdims : g.keyDimensions = .ok dims) (hworking : g.workingGraph w = .ok working)
  (hwdims : working.keyDimensions = .ok wdims)
include hdims hworking hwdims

/-- The working problem has no more variables than the graph. -/
theorem sumDims_working_le : sumDims wdims.values ≤ sumDims dims.values := by
  refine sumDims_le_of_subset (List.Nodup.of_map _ wdims.nodup_keys) fun e he => ?_
  obtain ⟨f, hf, hmem⟩ := (keyDimensions_spec hwdims).1 (SortedMap.get?_eq_some_iff.2 he)
  obtain ⟨f₀, hf₀, heq⟩ := exists_keyDims_of_mem_workingGraph hworking hf
  exact SortedMap.get?_eq_some_iff.1 ((keyDimensions_spec hdims).2 ⟨f₀, hf₀, heq ▸ hmem⟩)

variable (hsize : sumDims dims.values < UInt64.size)
  (hs : ConstrainedSystem.ofGraph (Layout.ofDimensions wdims) working = .ok s)
include hsize hs

/-- The system has the costs of the working problem and its equality rows. -/
theorem assembles_working :
    ConstrainedSystem.Assembles (Layout.ofDimensions wdims) working.factors s := by
  have hword := (sumDims_working_le hdims hworking hwdims).trans_lt hsize
  exact ConstrainedSystem.assembles_ofGraph (Layout.total_lt wdims) hs
    (fun c hc => stackable_of_size hwdims hword hc) (places_keyDims hwdims hword)

/-- The constraint rows of the system are the active rows, in their order. -/
theorem stacks_working (hw : g.Admits w) : Stacks (Layout.ofDimensions wdims)
    ((g.activeRows w).map g.equation) s.constraints s.rhs := by
  rw [← equations_working hw hworking]
  exact (assembles_working hdims hworking hwdims hsize hs).rows

/-- A solution of the stationarity system balances the gradient, where the signs of the rows are
those of their multipliers. -/
theorem balances_of_stationarity (hw : g.Admits w) {z : Vec α}
    (hz : s.stationarity.matrix.mulVec z = s.stationarity.rhs)
    (hx : (Layout.ofDimensions wdims).Reads (Vec.get z) x.entries) :
    g.Balances w x.entries (g.signed w fun n => Vec.get z (s.linear.length + n)) := by
  have hword := (sumDims_working_le hdims hworking hwdims).trans_lt hsize
  have hassembles := assembles_working hdims hworking hwdims hsize hs
  obtain ⟨-, hsquare⟩ := ConstrainedSystem.square_ofGraph hs
  have hin := (ConstrainedSystem.inside_ofGraph hs (places_keyDims hwdims hword)).stationarity
    hsquare.linear
  have hsolution := ConstrainedSystem.isSolution_of_stationarity hword hsquare.linear hin hz
  intro v
  rw [← slope_working hworking, hassembles.slope_eq hx hsolution, weighted_signed,
    equations_working hw hworking, List.zipIdx_map, List.map_map, List.sum_neg, List.map_map]
  exact congrArg List.sum (List.map_congr_left fun e _ => neg_mul _ _)

end Solution

end Multipliers

/-- The two ways to multipliers agree. At a solution of the stationarity system of the working
problem, whose constraint rows are the active rows by factor and then by row, the dual graph has
exactly one least-squares solution if the active rows are independent. It has the multiplier of its
row for every inequality row of the working set, the negated one for every equality row, and zero
for idle rows. The bound is that of a stored vector, which has to hold the unknowns. -/
theorem dualGraph_multipliers {dims : SortedMap κ ℕ} (hdims : g.keyDimensions = .ok dims)
    (hw : g.Admits w) (hind : g.Independent w) {x : Assignment κ α} (hx : g.Covers x)
    (hsize : sumDims dims.values + sumDims ((g.participating w).map fun e => e.2.rows) < maxLength)
    {working : Graph κ α} (hworking : g.workingGraph w = .ok working) {wdims : SortedMap κ ℕ}
    (hwdims : working.keyDimensions = .ok wdims) {s : ConstrainedSystem α}
    (hs : ConstrainedSystem.ofGraph (Layout.ofDimensions wdims) working = .ok s) {z : Vec α}
    (hz : s.stationarity.matrix.mulVec z = s.stationarity.rhs)
    (hread : (Layout.ofDimensions wdims).Reads (Vec.get z) x.entries) :
    (∀ r, r ∈ g.activeRows w ↔ g.IsActive w r) ∧
      (g.activeRows w).Pairwise (fun a b =>
        a.factor < b.factor ∨ a.factor = b.factor ∧ a.row < b.row) ∧
      s.rhs = (g.activeRows w).map (fun r => g.slack r 0) ∧
      (∀ n r, (g.activeRows w)[n]? = some r → ∀ u p, (Layout.ofDimensions wdims).Reads u p →
        s.constraints.rowForm n u = g.rowForm r p) ∧
      ∃ dual d, g.dualGraph w x = .ok dual ∧ dual.Minimizes d ∧
        (∀ d', dual.Minimizes d' → d' = d) ∧
        (∀ n r, (g.activeRows w)[n]? = some r →
          (g.rowKind? r = some .inequality →
            (d.get? r.factor).bind (·[r.row]?) = some (Vec.get z (s.linear.length + n))) ∧
          (g.rowKind? r = some .equality →
            (d.get? r.factor).bind (·[r.row]?) = some (-Vec.get z (s.linear.length + n)))) ∧
        ∀ r, g.IsIdle w r → (d.get? r.factor).bind (·[r.row]?) = some 0 := by
  have hmax : sumDims dims.values ≤ maxLength := (Nat.le_add_right _ _).trans hsize.le
  have hword : sumDims dims.values < UInt64.size := hmax.trans_lt (by decide)
  have hstacks := stacks_working hdims hworking hwdims hword hs hw
  have hbalances := balances_of_stationarity hdims hworking hwdims hword hs hw hz hread
  obtain ⟨grad, dual, hgrad, hdual, hd⟩ := exists_isDual hdims hmax w hx
  have hg := hd.isLeastSquares
  obtain ⟨ddims, hddims⟩ := hd.exists_keyDimensions
  -- The signed multipliers are an assignment of the dual graph, because they are zero elsewhere.
  obtain ⟨d, hdim, hentries⟩ : ∃ d : Assignment ℕ α, (∀ i, d.dim? i = ddims.get? i) ∧
      d.entries = g.signed w fun n => Vec.get z (s.linear.length + n) := by
    refine Assignment.exists_entries fun i row hne => ?_
    have hr : g.IsActive w ⟨i, row⟩ := by
      by_contra hnot
      exact hne (signed_of_not hnot _)
    obtain ⟨c, hc, -, hrow⟩ := mem_participating_of_isActive hr
    exact ⟨c.rows, (hd.get?_dims hgrad hddims).2 ⟨c, hc, rfl⟩, hrow⟩
  have hfits : dual.Fits d := fits_of_dims hddims hdim
  have hgap : dual.HasNoGap d.entries := fun c hc row hrow => by
    rw [hentries]
    obtain ⟨_, he, -, hzero⟩ :=
      hbalances.gap_eq_zero (fun r hr => signed_of_not hr _) hgrad hd _ hc
    cases he
    exact hzero row hrow
  refine ⟨fun _ => mem_activeRows, ascending_activeRows g w, ?_, fun n r hr u p hu => ?_,
    dual, d, hdual, hgap.minimizes hg hfits, fun d' hd' => ?_, fun n r hr => ?_, fun r hr => ?_⟩
  · rw [hstacks.rhs, List.map_map]
    rfl
  · exact hstacks.rowForm (by rw [List.getElem?_map, hr, Option.map_some]) hu
  · exact hd.eq_of_hasNoGap hgrad hind hd'.fits hfits (hd'.hasNoGap hg hfits hgap) hgap
  · have hactive := mem_activeRows.1 (List.mem_of_getElem? hr)
    obtain ⟨c, hc, -, hrow⟩ := mem_participating_of_isActive hactive
    rw [hd.getElem?_of_covers hgrad hfits.1 hc hrow, hentries, signed_getElem? hr]
    constructor
    · intro hk
      rcases hactive with heq | ⟨-, hin⟩
      · cases hk.symm.trans heq
      · rw [sign_inequality hk hin, one_mul]
    · intro hk
      rw [sign_equality hk, neg_one_mul]
  · obtain ⟨hnot, c, hc, hrow⟩ := hr
    rw [hd.getElem?_of_covers hgrad hfits.1 hc hrow, hentries, signed_of_not hnot]

/-- With the second variable at its bound, the budget leaves minus two for the first one. The
multipliers of the budget and the bound are eight and minus eight in the stationarity system. -/
theorem capped_multipliers : ∃ dual d,
    capped.dualGraph (.ofRows [⟨2, 0⟩]) (SortedMap.ofList [(0, [-2]), (1, [4])]) = .ok dual ∧
      dual.Minimizes d ∧ (∀ d', dual.Minimizes d' → d' = d) ∧
      (d.get? 1).bind (·[0]?) = some (-8 : ℚ) ∧ (d.get? 2).bind (·[0]?) = some (-8 : ℚ) ∧
      (d.get? 1).bind (·[1]?) = some (0 : ℚ) := by
  have hdims : capped.keyDimensions = .ok (SortedMap.ofList [(0, 1), (1, 1)]) := rfl
  have hrun : (match capped.workingGraph (.ofRows [⟨2, 0⟩]) with
    | .error _ => false
    | .ok working => match working.keyDimensions with
      | .error _ => false
      | .ok wdims => match ConstrainedSystem.ofGraph (Layout.ofDimensions wdims) working with
        | .error _ => false
        | .ok s => decide (wdims = SortedMap.ofList [(0, 1), (1, 1)] ∧ s.linear.length = 2 ∧
            s.stationarity.matrix.mulVec [-2, 4, 8, -8] = s.stationarity.rhs)) = true := by
    decide +kernel
  split at hrun
  · cases hrun
  next working hworking =>
  split at hrun
  · cases hrun
  next wdims hwdims =>
  split at hrun
  · cases hrun
  next s hs =>
  obtain ⟨rfl, hlen, hz⟩ := of_decide_eq_true hrun
  have hread : (Layout.ofDimensions (SortedMap.ofList [(0, 1), (1, 1)])).Reads
      (Vec.get [-2, 4, 8, -8])
      (Assignment.entries (SortedMap.ofList [(0, [-2]), (1, [4])]) : Point ℕ ℚ) := by
    intro k segment hk
    have hall : ∀ e ∈ (Layout.ofDimensions (SortedMap.ofList [(0, 1), (1, 1)])).segments.toList,
        ∀ j < e.2.dim, Vec.get [-2, 4, 8, -8] (e.2.offset + j) =
          (Assignment.entries (SortedMap.ofList [(0, [-2]), (1, [4])]) : Point ℕ ℚ) e.1 j := by
      decide +kernel
    exact hall (k, segment) (SortedMap.get?_eq_some_iff.1 hk)
  obtain ⟨-, -, -, -, dual, d, hdual, hmin, hunique, hrows, hidle⟩ :=
    dualGraph_multipliers hdims (by decide) capped_independent (by decide) (by decide +kernel)
      hworking hwdims hs hz hread
  refine ⟨dual, d, hdual, hmin, hunique, ?_, ?_, ?_⟩
  · rw [(hrows 0 ⟨1, 0⟩ (by decide +kernel)).2 (by decide), hlen]
    rfl
  · rw [(hrows 1 ⟨2, 0⟩ (by decide +kernel)).1 (by decide), hlen]
    rfl
  · refine hidle ⟨1, 1⟩ ⟨?_, .budget 1 0 5, mem_participating.2 ⟨rfl, 0, .inl rfl⟩, by decide⟩
    rw [← mem_activeRows]
    decide

end Graph

end GaussianProgram
