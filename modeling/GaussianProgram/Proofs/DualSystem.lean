import GaussianProgram.Proofs.Independence
import GaussianProgram.Proofs.LeastSquares
import GaussianProgram.Proofs.Start

/-! The dual graph as a system for the multipliers. It is stated wherever the point has all
variables. Its residuals vanish exactly where the Lagrangian is stationary and idle rows have no
multiplier, and it determines the multipliers exactly if the active rows are independent. -/
namespace GaussianProgram
open Finset (range)

namespace Graph
variable {κ α : Type} [Key κ] [ExactScalar α] {g : Graph κ α} {w : WorkingSet}

section Existence

omit [ExactScalar α] in
/-- The dual graph is stated wherever the point has all variables, if these can be stored in
one vector. -/
theorem exists_dualGraph [Scalar α] {dims : SortedMap κ ℕ} (hdims : g.keyDimensions = .ok dims)
    (hmax : sumDims dims.values ≤ maxLength) (w : WorkingSet) {x : Assignment κ α}
    (hx : g.Covers x) : ∃ dual, g.dualGraph w x = .ok dual := by
  by_cases hempty : g.participating w = []
  · exact ⟨empty, dualGraph_eq_ok.2 (.inl ⟨hempty, rfl⟩)⟩
  · obtain ⟨grad, hgrad⟩ := exists_gradient hdims hmax hx
    have hfactor (e : κ × Vec α) (he : e ∈ grad.toList) :
        ∃ o, stationarityFactor? w (g.participating w) e.1 e.2 = .ok o := by
      have hpart (f : ℕ × LinearRows κ α) (hf : f ∈ g.participating w) (e' : κ × ℕ)
          (he' : e' ∈ f.2.keyDims) (hk : e'.1 = e.1) : e'.2 = e.2.length :=
        eq_length_of_mem_gradient hgrad
          (mem_factors_of_constraintAt? (mem_participating.1 hf).1) he' he hk
      exact (exists_stationarityFactor? w e.1 e.2 (nodup_participating g w) hpart).imp
        fun _ => And.left
    obtain ⟨conditions, hconditions⟩ := Result.exists_mapM hfactor
    obtain ⟨pinned, hpinned⟩ := exists_pins w (g.participating w)
    exact ⟨_, dualGraph_eq_ok.2 (.inr ⟨hempty, grad, conditions, pinned, hgrad, hconditions,
      hpinned, rfl⟩)⟩

/-- It is the dual graph of the gradient there. -/
theorem exists_isDual {dims : SortedMap κ ℕ} (hdims : g.keyDimensions = .ok dims)
    (hmax : sumDims dims.values ≤ maxLength) (w : WorkingSet) {x : Assignment κ α}
    (hx : g.Covers x) : ∃ grad dual, g.gradient x = .ok grad ∧ g.dualGraph w x = .ok dual ∧
      g.IsDual w grad dual := by
  obtain ⟨grad, hgrad⟩ := exists_gradient hdims hmax hx
  obtain ⟨dual, hdual⟩ := exists_dualGraph hdims hmax w hx
  refine ⟨grad, dual, hgrad, hdual, ?_⟩
  rcases dualGraph_spec hdual with ⟨hnone, rfl⟩ | ⟨_, hgrad', hd⟩
  · exact isDual_empty hnone grad
  · cases hgrad.symm.trans hgrad'
    exact hd

end Existence

section Size

private theorem rows_conditions {l : List (κ × Vec α)} {conditions : List (Option (LinearRows ℕ α))}
    (h : List.Forall₂ (fun e o => stationarityFactor? w (g.participating w) e.1 e.2 = .ok o) l
      conditions) : sumDims ((conditions.filterMap id).map LinearRows.rows) ≤
        sumDims (l.map fun e => e.2.length) := by
  induction h with
  | nil => exact le_rfl
  | cons he _ ih =>
    rcases stationarityFactor?_spec he with ⟨rfl, -⟩ | ⟨c, rfl, -, hcond, -⟩
    · exact ih.trans (Nat.le_add_left _ _)
    · exact Nat.add_le_add hcond.rows.le ih

private theorem rows_pins {pinned : List (LinearRows ℕ α)}
    (h : pins w (g.participating w) = .ok pinned) : sumDims (pinned.map LinearRows.rows) ≤
      sumDims ((g.participating w).map fun e => e.2.rows) := by
  have hone : pinned.map LinearRows.rows = pinned.map fun _ => 1 :=
    List.map_congr_left fun c hc => by
      obtain ⟨r, -, hpin, -⟩ := (pins_spec h).1 c hc
      exact hpin.rows
  obtain ⟨lists, hlists, h⟩ := Result.bind_eq_ok.1 h
  cases Result.pure_eq_ok.1 h
  rw [hone, sumDims_eq_sum, sumDims_eq_sum, List.map_const', List.sum_replicate, smul_eq_mul,
    mul_one, List.length_flatten]
  refine List.Forall₂.sum_le_sum (List.forall₂_map_left_iff.2 (List.forall₂_map_right_iff.2 ?_))
  refine (Result.forall₂_of_mapM hlists (R := fun e l => l.length ≤ e.2.rows) ?_).flip
  intro e _ l hl
  rw [← (Result.mapM_eq_ok.1 hl).length_eq]
  exact (List.length_filter_le _ _).trans_eq List.length_range

/-- The dual graph has at most a row for every entry of a variable and for every row of a
participating factor. -/
theorem rows_dualGraph {dims : SortedMap κ ℕ} (hdims : g.keyDimensions = .ok dims)
    {x : Assignment κ α} {dual : Graph ℕ α} (h : g.dualGraph w x = .ok dual) :
    sumDims ((dual.factors.filterMap Factor.linear?).map LinearRows.rows) ≤
      sumDims dims.values + sumDims ((g.participating w).map fun e => e.2.rows) := by
  obtain ⟨-, rfl⟩ | ⟨-, grad, conditions, pinned, hgrad, hconditions, hpinned, rfl⟩ :=
    dualGraph_eq_ok.1 h
  · exact Nat.zero_le _
  · have hlinear (l : List (LinearRows ℕ α)) :
        (l.map Factor.linear).filterMap Factor.linear? = l := by
      rw [List.filterMap_map]
      exact List.filterMap_some
    have htotal : sumDims (grad.toList.map fun e => e.2.length) = sumDims dims.values := by
      obtain ⟨⟨_, hdims', hgrad⟩, -⟩ := gradient_spec hgrad
      cases hdims.symm.trans hdims'
      rw [← Elimination.totalDimension_eq hgrad, Assignment.totalDimension, SortedMap.values,
        List.map_map]
      rfl
    rw [hlinear, List.map_append, sumDims_append, ← htotal]
    exact Nat.add_le_add (rows_conditions (Result.mapM_eq_ok.1 hconditions)) (rows_pins hpinned)

end Size

section Residuals
variable {x : Assignment κ α} {grad : Assignment κ α} {dual : Graph ℕ α}

theorem IsDual.isLeastSquares (h : g.IsDual w grad dual) : dual.isLeastSquares = true :=
  isLeastSquares_iff.2 fun f hf => by
    obtain ⟨c, rfl, ⟨_, _, -, -, hcond⟩ | ⟨_, -, hpin⟩⟩ := h.factors f hf
    · exact ⟨c, rfl, hcond.kinds⟩
    · exact ⟨c, rfl, hpin.kinds⟩

/-- A dual graph has least-squares factors only. -/
theorem isLeastSquares_dualGraph (h : g.dualGraph w x = .ok dual) : dual.isLeastSquares = true := by
  rcases dualGraph_spec h with ⟨-, rfl⟩ | ⟨_, -, hdual⟩
  · rfl
  · exact hdual.isLeastSquares

/-- The variables of the dual graph are the participating factors, with an entry for every row. -/
theorem IsDual.mem_keyDims (h : g.IsDual w grad dual) (hgrad : g.gradient x = .ok grad) {i n : ℕ} :
    (∃ f ∈ dual.factors, (i, n) ∈ f.keyDims) ↔ ∃ c, (i, c) ∈ g.participating w ∧ c.rows = n := by
  constructor
  · rintro ⟨f, hf, he⟩
    exact h.keyDims f hf _ he
  · rintro ⟨c, hc, rfl⟩
    obtain ⟨t, ht⟩ := List.exists_mem_of_ne_nil _ c.terms_ne_nil
    have hk : t.1 ∈ c.keys := List.mem_map_of_mem ht
    have he : (t.1, t.2.cols) ∈ c.keyDims := List.mem_map_of_mem ht
    obtain ⟨part, hpart, -⟩ :=
      exists_part hgrad (mem_factors_of_constraintAt? (mem_participating.1 hc).1) he
    obtain ⟨f, hf, hcond⟩ := h.condition t.1 part ⟨_, hc, hk⟩ hpart
    exact ⟨_, hf, hcond.keyDims i c hc hk⟩

/-- An assignment covers the dual graph if it has an entry for every row of the
participating factors. -/
theorem IsDual.covers_iff (h : g.IsDual w grad dual) (hgrad : g.gradient x = .ok grad)
    {d : Assignment ℕ α} :
    dual.Covers d ↔ ∀ e ∈ g.participating w, d.dim? e.1 = some e.2.rows := by
  constructor
  · intro hd e he
    obtain ⟨f, hf, hdims⟩ := (h.mem_keyDims hgrad).2 ⟨e.2, he, rfl⟩
    exact hd f hf _ hdims
  · intro hd f hf e he
    obtain ⟨c, hc, hrows⟩ := h.keyDims f hf e he
    rw [← hrows]
    exact hd _ hc

/-- An assignment that covers the dual graph has a multiplier for every row of the
participating factors. -/
theorem IsDual.getElem?_of_covers (h : g.IsDual w grad dual) (hgrad : g.gradient x = .ok grad)
    {d : Assignment ℕ α} (hd : dual.Covers d) {i row : ℕ} {c : LinearRows κ α}
    (hc : (i, c) ∈ g.participating w) (hrow : row < c.rows) :
    (d.get? i).bind (·[row]?) = some (d.entries i row) :=
  Assignment.getElem?_of_dim? ((h.covers_iff hgrad).1 hd _ hc) hrow

/-- What holds of all rows of the dual graph holds for all touched entries and all idle rows. -/
private theorem IsDual.forall_rows_iff (h : g.IsDual w grad dual)
    {P : LinearRows ℕ α → ℕ → Prop} {Q : κ → ℕ → Prop} {R : ConstraintRow → Prop}
    (hcondition : ∀ k part c, grad.get? k = some part → g.IsCondition w k part c →
      ∀ j < part.length, (P c j ↔ Q k j))
    (hpin : ∀ r c, g.IsPin w r c → (P c 0 ↔ R r)) :
    (∀ c, .linear c ∈ dual.factors → ∀ row < c.rows, P c row) ↔
      (∀ r, g.IsIdle w r → R r) ∧
        ∀ k, g.Touches w k → ∀ part, grad.get? k = some part → ∀ j < part.length, Q k j := by
  constructor
  · intro hall
    refine ⟨fun r hr => ?_, fun k hk part hpart j hj => ?_⟩
    · obtain ⟨c, hc, hp⟩ := h.pin r hr
      exact (hpin r c hp).1 (hall c hc 0 (hp.rows ▸ one_pos))
    · obtain ⟨c, hc, hcond⟩ := h.condition k part hk hpart
      exact (hcondition k part c hpart hcond j hj).1 (hall c hc j (hcond.rows ▸ hj))
  · rintro ⟨hidle, htouched⟩ c hc row hrow
    obtain ⟨_, he, ⟨k, part, hk, hpart, hcond⟩ | ⟨r, hr, hp⟩⟩ := h.factors _ hc
    · cases he
      rw [hcond.rows] at hrow
      exact (hcondition k part c hpart hcond row hrow).2 (htouched k hk part hpart row hrow)
    · cases he
      rw [hp.rows, Nat.lt_one_iff] at hrow
      rw [hrow]
      exact (hpin r c hp).2 (hidle r hr)

/-- The dual graph has no residual exactly where the gradient is balanced at all entries that
participating factors touch and idle rows have no multiplier. -/
theorem IsDual.hasNoGap_iff (h : g.IsDual w grad dual) {d : Point ℕ α} : dual.HasNoGap d ↔
    (∀ r, g.IsIdle w r → d r.factor r.row = 0) ∧
      ∀ k, g.Touches w k → ∀ part, grad.get? k = some part → ∀ j < part.length,
        grad.entries k j + g.weighted w d (unitPoint k j) = 0 := by
  refine h.forall_rows_iff (P := fun c row => c.gap row d = 0)
    (Q := fun k j => grad.entries k j + g.weighted w d (unitPoint k j) = 0)
    (R := fun r => d r.factor r.row = 0) (fun k part c hpart hcond j hj => ?_) fun r c hp => ?_
  · rw [hcond.gap d j hj, Assignment.entries_eq hpart, add_comm]
  · rw [hp.gap]

/-- All rows of the dual graph vanish exactly along multipliers of active rows that add up to no
linear form. -/
theorem IsDual.vanishes_iff (h : g.IsDual w grad dual) (hgrad : g.gradient x = .ok grad)
    {d : Point ℕ α} : dual.Vanishes d ↔
      (∀ r, g.IsIdle w r → d r.factor r.row = 0) ∧ g.weighted w d = 0 := by
  have hform (c : LinearRows ℕ α) (row : ℕ) : c.form row d = c.gap row d - c.gap row 0 := by
    rw [LinearRows.gap, LinearRows.gap, map_zero, sub_sub_sub_cancel_right, sub_zero]
  have hzero : g.weighted w (0 : Point ℕ α) = 0 := by simp [weighted]
  refine (h.forall_rows_iff (P := fun c row => c.form row d = 0)
    (Q := fun k j => g.weighted w d (unitPoint k j) = 0) (R := fun r => d r.factor r.row = 0)
    (fun k part c _ hcond j hj => ?_) fun r c hp => ?_).trans (and_congr_right fun _ => ?_)
  · rw [hform, hcond.gap d j hj, hcond.gap 0 j hj, hzero, LinearMap.zero_apply, zero_add,
      add_sub_cancel_right]
  · rw [hform, hp.gap, hp.gap, Pi.zero_apply, Pi.zero_apply, sub_zero]
  · constructor
    · intro hall
      rw [← hzero]
      refine weighted_ext hgrad fun e he k hk part hpart j hj => ?_
      rw [hall k ⟨e, he, hk⟩ part hpart j hj, hzero, LinearMap.zero_apply]
    · intro hw k _ part _ j _
      rw [hw, LinearMap.zero_apply]

end Residuals

section Dimensions
variable {x : Assignment κ α} {grad : Assignment κ α} {dual : Graph ℕ α} {ddims : SortedMap ℕ ℕ}

theorem IsDual.exists_keyDimensions (h : g.IsDual w grad dual) :
    ∃ ddims, dual.keyDimensions = .ok ddims :=
  Graph.exists_keyDimensions (fun i => ((g.constraintAt? i).map LinearRows.rows).getD 0)
    fun f hf e he => by
      obtain ⟨c, hc, hrows⟩ := h.keyDims f hf e he
      simp [(mem_participating.1 hc).1, hrows]

/-- The dimension of a variable is the number of rows of its factor. -/
theorem IsDual.get?_dims (h : g.IsDual w grad dual) (hgrad : g.gradient x = .ok grad)
    (hddims : dual.keyDimensions = .ok ddims) {i n : ℕ} :
    ddims.get? i = some n ↔ ∃ c, (i, c) ∈ g.participating w ∧ c.rows = n :=
  (keyDimensions_spec hddims).trans (h.mem_keyDims hgrad)

theorem IsDual.sumDims_le (h : g.IsDual w grad dual) (hgrad : g.gradient x = .ok grad)
    (hddims : dual.keyDimensions = .ok ddims) :
    sumDims ddims.values ≤ sumDims ((g.participating w).map fun e => e.2.rows) := by
  have hsubset : ddims.toList ⊆ (g.participating w).map fun e => (e.1, e.2.rows) := fun e he => by
    obtain ⟨c, hc, hrows⟩ := (h.get?_dims hgrad hddims).1 (SortedMap.get?_eq_some_iff.2 he)
    exact List.mem_map.2 ⟨_, hc, congrArg (e.1, ·) hrows⟩
  have hle := sumDims_le_of_subset (List.Nodup.of_map _ ddims.nodup_keys) hsubset
  rwa [List.map_map] at hle

end Dimensions

section Rank

theorem weighted_congr {d d' : Point ℕ α}
    (h : ∀ r : ConstraintRow, g.IsActive w r → d r.factor r.row = d' r.factor r.row) :
    g.weighted w d = g.weighted w d' :=
  Finset.sum_congr rfl fun r hr => by rw [h r (mem_activeSet.1 hr)]

/-- The active rows are independent if no multipliers of them but zero add up to no form. -/
theorem independent_iff : g.Independent w ↔ ∀ d : Point ℕ α, g.weighted w d = 0 →
    ∀ r, g.IsActive w r → d r.factor r.row = 0 := by
  have hset : {r | g.IsActive w r} = ↑(g.activeSet w) :=
    Set.ext fun r => mem_activeSet.symm
  have hsign {r : ConstraintRow} (hr : g.IsActive w r) : g.sign w r ≠ 0 := fun h => by
    simpa [h] using sign_mul_self (α := α) hr
  rw [Independent, hset, linearIndepOn_finset_iff]
  constructor
  · intro h d hd r hr
    have hzero := h (fun r => g.sign w r * d r.factor r.row) hd r (mem_activeSet.2 hr)
    exact (mul_eq_zero.1 hzero).resolve_left (hsign hr)
  · intro h c hc r hr
    refine (mul_eq_zero.1 (h (fun i row => g.sign w ⟨i, row⟩ * c ⟨i, row⟩) ?_ r
      (mem_activeSet.1 hr))).resolve_left (hsign (mem_activeSet.1 hr))
    rw [← hc]
    refine Finset.sum_congr rfl fun r hr => ?_
    change (g.sign w r * (g.sign w r * c r)) • g.rowForm r = _
    rw [← mul_assoc, sign_mul_self (mem_activeSet.1 hr), one_mul]

def onActive (g : Graph κ α) (w : WorkingSet) (d : Point ℕ α) : Point ℕ α := fun i row =>
  if ⟨i, row⟩ ∈ g.activeSet w then d i row else 0

theorem onActive_of_isActive {r : ConstraintRow} (hr : g.IsActive w r) (d : Point ℕ α) :
    g.onActive w d r.factor r.row = d r.factor r.row := if_pos (mem_activeSet.2 hr)

theorem onActive_of_not {r : ConstraintRow} (hr : ¬g.IsActive w r) (d : Point ℕ α) :
    g.onActive w d r.factor r.row = 0 := if_neg fun h => hr (mem_activeSet.1 h)

theorem weighted_onActive (d : Point ℕ α) : g.weighted w (g.onActive w d) = g.weighted w d :=
  weighted_congr fun _ hr => onActive_of_isActive hr d

/-- Independence is what the multipliers of all rows of participating factors need to be zero where
those of idle rows are. -/
theorem independent_iff_participating : g.Independent w ↔ ∀ d : Point ℕ α,
    (∀ r, g.IsIdle w r → d r.factor r.row = 0) → g.weighted w d = 0 →
      ∀ e ∈ g.participating w, ∀ row < e.2.rows, d e.1 row = 0 := by
  rw [independent_iff]
  constructor
  · intro h d hidle hd e he row hrow
    by_cases hr : g.IsActive w ⟨e.1, row⟩
    · exact h d hd _ hr
    · exact hidle ⟨e.1, row⟩ ⟨hr, e.2, he, hrow⟩
  · intro h d hd r hr
    obtain ⟨c, hc, -, hrow⟩ := mem_participating_of_isActive hr
    rw [← onActive_of_isActive hr d]
    exact h (g.onActive w d) (fun a ha => onActive_of_not ha.1 d)
      ((weighted_onActive d).trans hd) _ hc _ hrow

/-- The columns of the dual graph are independent exactly if the active rows are. -/
theorem IsDual.fullColumnRank_iff {x : Assignment κ α} {grad : Assignment κ α} {dual : Graph ℕ α}
    (h : g.IsDual w grad dual) (hgrad : g.gradient x = .ok grad) {ddims : SortedMap ℕ ℕ}
    (hddims : dual.keyDimensions = .ok ddims) (hsize : sumDims ddims.values < UInt64.size)
    {s : LeastSquaresSystem α}
    (hs : LeastSquaresSystem.ofGraph (Layout.ofDimensions ddims) dual = .ok s)
    (hrows : s.rhs.length ≤ UInt64.size) : s.jacobian.FullColumnRank ↔ g.Independent w := by
  rw [LeastSquaresSystem.fullColumnRank_ofGraph hddims hsize hs hrows,
    independent_iff_participating]
  refine forall_congr' fun d => ?_
  rw [h.vanishes_iff hgrad, and_imp]
  refine imp_congr_right fun _ => imp_congr_right fun _ => ?_
  constructor
  · intro hzero e he row hrow
    exact hzero e.1 e.2.rows ((h.get?_dims hgrad hddims).2 ⟨e.2, he, rfl⟩) row hrow
  · intro hzero i n hi row hrow
    obtain ⟨c, hc, rfl⟩ := (h.get?_dims hgrad hddims).1 hi
    exact hzero _ hc row hrow

end Rank

end Graph

end GaussianProgram
