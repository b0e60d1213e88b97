import GaussianProgram.Proofs.Multipliers

/-! Active rows in three places. The working problem, the rows whose rank is checked and the dual
graph are made from the same rows of a graph, in the same order and with the same coefficients,
whatever the scalars are. -/
namespace GaussianProgram

/-- Options that are there where a condition holds, and are related to the members then. -/
private theorem forall₂_filterMap {β γ : Type} {p : β → Prop} [DecidablePred p] {R : β → γ → Prop}
    {l : List β} {os : List (Option γ)}
    (h : List.Forall₂ (fun b o => o = none ∧ ¬p b ∨ ∃ c, o = some c ∧ p b ∧ R b c) l os) :
    List.Forall₂ R (l.filter fun b => decide (p b)) (os.filterMap id) := by
  induction h with
  | nil => exact .nil
  | cons hb _ ih =>
    rcases hb with ⟨rfl, hp⟩ | ⟨c, rfl, hp, hR⟩
    · rwa [List.filter_cons_of_neg (by simpa using hp), List.filterMap_cons_none rfl]
    · rw [List.filter_cons_of_pos (by simpa using hp)]
      exact .cons hR ih

namespace Graph
variable {κ α : Type} [Key κ] {g : Graph κ α} {w : WorkingSet}

def owners (g : Graph κ α) (L : List ConstraintRow) : List (ℕ × LinearRows κ α) :=
  g.constraints.filter fun e => decide (∃ r ∈ L, r.factor = e.1)

def others (g : Graph κ α) (L : List ConstraintRow) : List ConstraintRow :=
  (g.owners L).flatMap fun e =>
    ((List.range e.2.rows).map (ConstraintRow.mk e.1)).filter fun r => decide (r ∉ L)

variable [Scalar α]

def scattered (g : Graph κ α) (dims : SortedMap κ ℕ) (r : ConstraintRow) : Vec α :=
  ((g.constraintAt? r.factor).map (·.scattered dims r.row)).getD []

def activeMatrix (g : Graph κ α) (dims : SortedMap κ ℕ) (w : WorkingSet) : Matrix α :=
  Matrix.ofFn (g.activeRows w).length (sumDims dims.values) fun i j =>
    Vec.get (((g.activeRows w).map (g.scattered dims)).getD i []) j

/-- What the listed rows leave of a factor: a cost as it is, a constraint with its listed rows,
ascending and each once, as equalities, or nothing if it has none. -/
def IsWorkingPart (L : List ConstraintRow) (e : ℕ × Factor κ α) (o : Option (Factor κ α)) : Prop :=
  e.2.constraint? = none ∧ o = some e.2 ∨ ∃ c rows, e.2.constraint? = some c ∧
    rows.Pairwise (· < ·) ∧ (∀ row, row ∈ rows ↔ ⟨e.1, row⟩ ∈ L) ∧
      (rows = [] ∧ o = none ∨ rows ≠ [] ∧ ∃ c', o = some (.linear c') ∧ c.Selects rows c')

/-- The column of a row's multiplier in the condition for a key: the coefficients of a listed row,
negated for an equality, and zeros for any other row. -/
def IsColumn (L : List ConstraintRow) (e : ℕ × LinearRows κ α) (k : κ) (n row : ℕ)
    (column : Vec α) : Prop :=
  if ⟨e.1, row⟩ ∈ L then ∃ v, e.2.part? k row = some v ∧
    column = if e.2.rowKind? row = some .equality then Vec.neg v else v
  else column = Vec.zeros n

/-- The condition for a key: a term with the columns of all rows for each factor that has a listed
row and the key, in graph order, and the negated part of the gradient. -/
structure IsStationarity (g : Graph κ α) (L : List ConstraintRow) (k : κ) (part : Vec α)
    (c : LinearRows ℕ α) : Prop where
  terms : List.Forall₂ (fun e t => t.1 = e.1 ∧ t.2.rows = part.length ∧ t.2.cols = e.2.rows ∧
    ∀ row < e.2.rows, IsColumn L e k part.length row (t.2.column row))
    ((g.owners L).filter fun e => decide (k ∈ e.2.keys)) c.terms
  rhs : c.rhs = Vec.neg part
  kinds : c.kinds = none

def IsUnitPin (g : Graph κ α) (r : ConstraintRow) (c : LinearRows ℕ α) : Prop :=
  ∃ f, g.constraintAt? r.factor = some f ∧
    c.terms = [(r.factor, Matrix.ofFn 1 f.rows fun _ j => if j = r.row then 1 else 0)] ∧
      c.rhs = Vec.zeros 1 ∧ c.kinds = none

/-- The factors are the conditions for all keys that a factor with a listed row has, in key order,
and then a pin for each other row of such a factor, in graph order. -/
inductive IsDualOver (g : Graph κ α) (L : List ConstraintRow) (grad : Assignment κ α) :
    Graph ℕ α → Prop where
  | mk (conditions pinned : List (LinearRows ℕ α))
      (hconditions : List.Forall₂ (fun e c => g.IsStationarity L e.1 e.2 c)
        (grad.toList.filter fun e => decide (∃ f ∈ g.owners L, e.1 ∈ f.2.keys)) conditions)
      (hpinned : List.Forall₂ g.IsUnitPin (g.others L) pinned) :
      IsDualOver g L grad ⟨(conditions ++ pinned).map .linear⟩

section Working

/-- Active rows are those of a working set whose rows are all inequalities, and all equalities. -/
theorem Admits.mem_activeRows (hw : g.Admits w) {r : ConstraintRow} :
    r ∈ g.activeRows w ↔ g.rowKind? r = some .equality ∨ r ∈ w.rows := by
  rw [Graph.mem_activeRows, IsActive]
  exact or_congr_right ⟨And.right, fun hr => ⟨hw r hr, hr⟩⟩

theorem mem_activeRowsOf_iff {i : ℕ} {c : LinearRows κ α} (hc : g.constraintAt? i = some c)
    {row : ℕ} : row ∈ activeRowsOf w i c ↔ ⟨i, row⟩ ∈ g.activeRows w := by
  rw [Graph.mem_activeRows, isActive_iff_exists, mem_activeRowsOf]
  exact ⟨fun hk => ⟨c, hc, hk⟩, fun ⟨_, hc', hk⟩ => Option.some.inj (hc.symm.trans hc') ▸ hk⟩

/-- The working problem is made of what the active rows leave of the factors. -/
theorem Admits.exists_workingGraph (hw : g.Admits w) : ∃ parts,
    g.workingGraph w = .ok ⟨parts.filterMap id⟩ ∧
      List.Forall₂ (IsWorkingPart (g.activeRows w)) g.indexed parts := by
  have hfactor (e : ℕ × Factor κ α) (he : e ∈ g.indexed) : ∃ o,
      workingFactor? w e.1 e.2 = .ok o ∧ IsWorkingPart (g.activeRows w) e o := by
    cases hc : e.2.constraint? with
    | none => exact ⟨_, workingFactor?_eq_ok.2 (.inl ⟨hc, rfl⟩), .inl ⟨hc, rfl⟩⟩
    | some c =>
      have hat : g.constraintAt? e.1 = some c := constraintAt?_eq_some.2 ⟨_, mem_indexed.1 he, hc⟩
      have hrows := hw.enforcedRows_eq hat
      have hpart {o : Option (Factor κ α)} (ho : activeRowsOf w e.1 c = [] ∧ o = none ∨
          activeRowsOf w e.1 c ≠ [] ∧
            ∃ c', o = some (.linear c') ∧ c.Selects (activeRowsOf w e.1 c) c') :
          IsWorkingPart (g.activeRows w) e o :=
        .inr ⟨c, _, hc, List.pairwise_lt_range.filter _, fun _ => mem_activeRowsOf_iff hat, ho⟩
      by_cases hnone : activeRowsOf w e.1 c = []
      · exact ⟨none, workingFactor?_eq_ok.2 (.inr ⟨c, hc, .inl ⟨hrows.trans hnone, rfl⟩⟩),
          hpart (.inl ⟨hnone, rfl⟩)⟩
      · have hlt (row : ℕ) (hrow : row ∈ activeRowsOf w e.1 c) : row < c.rows :=
          List.mem_range.1 (List.mem_filter.1 hrow).1
        obtain ⟨c', hsel, hc'⟩ := c.exists_selects hlt
        have hok : workingFactor? w e.1 e.2 = .ok (some (.linear c')) :=
          workingFactor?_eq_ok.2 (.inr ⟨c, hc, .inr (hrows ▸ ⟨hnone, c', hsel, rfl⟩)⟩)
        exact ⟨_, hok, hpart (.inr ⟨hnone, c', rfl, hc'⟩)⟩
  obtain ⟨parts, hparts, hall⟩ := Result.exists_forall₂_mapM hfactor
  exact ⟨parts, workingGraph_eq_ok.2 ⟨parts, hparts, rfl⟩, hall⟩

end Working

section Rank
variable {dims : SortedMap κ ℕ} (hdims : g.keyDimensions = .ok dims)
include hdims

omit [Scalar α] in
theorem get?_of_constraintAt? {i : ℕ} {c : LinearRows κ α} (hc : g.constraintAt? i = some c) :
    ∀ e ∈ c.keyDims, dims.get? e.1 = some e.2 := fun _ he =>
  (keyDimensions_spec hdims).2 ⟨_, mem_factors_of_constraintAt? hc, he⟩

theorem length_scattered {r : ConstraintRow} (hr : r ∈ g.activeRows w) :
    (g.scattered dims r).length = sumDims dims.values := by
  obtain ⟨c, hc, hk⟩ := isActive_iff_exists.1 (mem_activeRows.1 hr)
  have hrow : r.row < c.rows :=
    hk.elim LinearRows.rowKind?_lt fun hk => LinearRows.rowKind?_lt hk.1
  rw [scattered, hc]
  exact LinearRows.length_scattered (get?_of_constraintAt? hdims hc) hrow

theorem denseActiveRows_eq_ok (w : WorkingSet) (hmax : sumDims dims.values ≤ maxLength) :
    g.denseActiveRows w (Layout.ofDimensions dims) =
      .ok ((g.activeRows w).map (g.scattered dims)) := by
  have hfactor (e : ℕ × LinearRows κ α) (he : e ∈ g.participating w) :
      (activeRowsOf w e.1 e.2).mapM (denseRow (Layout.ofDimensions dims) e.2) =
        .ok ((activeRowsOf w e.1 e.2).map fun row => g.scattered dims ⟨e.1, row⟩) := by
    have hc := (mem_participating.1 he).1
    refine Result.mapM_eq_map fun row hrow => ?_
    rw [LinearRows.denseRow_eq_ok (get?_of_constraintAt? hdims hc)
      (List.mem_range.1 (List.mem_filter.1 hrow).1) hmax, scattered, hc]
    rfl
  refine Result.bind_eq_ok.2 ⟨_, Result.mapM_eq_map hfactor, congrArg Except.ok ?_⟩
  rw [activeRows, List.map_flatMap, List.flatMap]
  refine congrArg List.flatten (List.map_congr_left fun e _ => ?_)
  rw [List.map_map]
  rfl

/-- Without active rows there is nothing to check, and over no variables there is no matrix.
Elsewhere the rank is that of the scattered active rows. -/
theorem checkActiveRank_eq (singularValues : Matrix α → Option (Vec α)) (w : WorkingSet)
    (tolerance : α) (hmax : sumDims dims.values ≤ maxLength) :
    g.checkActiveRank singularValues w tolerance =
      if g.activeRows w = [] then .ok ()
      else if sumDims dims.values = 0 then .error .outOfRange
      else (do
        let rank := numericalRank tolerance
          (← Result.inRange (singularValues (g.activeMatrix dims w)))
        if rank < (g.activeRows w).length then
          Result.fail (.degenerateActiveSet rank (g.activeRows w).length)
        else .ok ()) := by
  have htotal := Layout.total_ofDimensions (hmax.trans_lt (by decide) : _ < UInt64.size)
  have hdimensions : g.dimensions.mapCause SolverError.graph = .ok dims := by
    rw [Result.mapCause_eq_ok, dimensions, Result.mapCause_eq_ok, Result.ofExcept_eq_ok, hdims]
  rw [checkActiveRank, hdimensions]
  simp only [bind, Except.bind, denseActiveRows_eq_ok hdims w hmax, htotal, List.isEmpty_iff,
    List.map_eq_nil_iff, List.length_map]
  split_ifs
  · rfl
  · rfl
  · rfl

/-- The rank that is checked is that of the scattered active rows. -/
theorem exists_rank_matrix (w : WorkingSet) (hmax : sumDims dims.values ≤ maxLength)
    (hpos : 0 < sumDims dims.values) (hne : g.activeRows w ≠ []) : ∃ m : Matrix α,
      m.rowList = (g.activeRows w).map (g.scattered dims) ∧ m.cols = sumDims dims.values ∧
        ∀ singularValues tolerance values, singularValues m = some values →
          (g.checkActiveRank singularValues w tolerance = .ok () ↔
            (g.activeRows w).length ≤ numericalRank tolerance values) := by
  have hlen : ∀ v ∈ (g.activeRows w).map (g.scattered dims), v.length = sumDims dims.values := by
    rw [List.forall_mem_map]
    exact fun r hr => length_scattered hdims hr
  have hrows := Matrix.rowList_ofFn hlen
  rw [List.length_map] at hrows
  refine ⟨g.activeMatrix dims w, hrows, rfl, fun singularValues tolerance values hvalues => ?_⟩
  rw [checkActiveRank_eq hdims _ _ _ hmax, if_neg hne, if_neg hpos.ne', hvalues]
  change (if _ then _ else _) = _ ↔ _
  split_ifs with hlt
  · simp [Result.fail, hlt]
  · simpa using hlt

/-- The check leaves the range exactly where active rows have no singular values. -/
theorem checkActiveRank_eq_outOfRange {singularValues : Matrix α → Option (Vec α)} {w : WorkingSet}
    {tolerance : α} (hmax : sumDims dims.values ≤ maxLength) :
    g.checkActiveRank singularValues w tolerance = .error .outOfRange ↔ g.activeRows w ≠ [] ∧
      (sumDims dims.values = 0 ∨ singularValues (g.activeMatrix dims w) = none) := by
  rw [checkActiveRank_eq hdims _ _ _ hmax]
  split_ifs with hnone hzero
  · simp [hnone]
  · simp [hnone, hzero]
  · cases singularValues (g.activeMatrix dims w) with
    | none => simp [hnone, bind, Except.bind]
    | some values =>
      change (if _ then _ else _) = _ ↔ _
      split_ifs
      · simp [Result.fail, hzero]
      · simp [hzero]

end Rank

section Dual

/-- Factors participate if they have an active row. -/
theorem Admits.participating_eq (hw : g.Admits w) :
    g.participating w = g.owners (g.activeRows w) := by
  refine List.filter_congr fun e he => Bool.eq_iff_iff.2 ?_
  have hmem : e ∈ g.participating w ↔ ∃ r ∈ g.activeRows w, r.factor = e.1 := by
    rw [mem_participating, and_iff_right (mem_constraints.1 he)]
    simp only [hw.mem_activeRows, rowKind?_eq_some]
    constructor
    · rintro ⟨row, hk | hin⟩
      · exact ⟨⟨e.1, row⟩, .inl ⟨e.2, mem_constraints.1 he, hk⟩, rfl⟩
      · exact ⟨⟨e.1, row⟩, .inr hin, rfl⟩
    · rintro ⟨⟨i, row⟩, ⟨c, hc, hk⟩ | hin, rfl⟩
      · cases Option.some.inj ((mem_constraints.1 he).symm.trans hc)
        exact ⟨row, .inl hk⟩
      · exact ⟨row, .inr hin⟩
  rw [decide_eq_true_eq, ← hmem, participating, List.mem_filter, and_iff_right he]

section Term
variable {k : κ} {n i : ℕ} {f : LinearRows κ α} (hn : ∀ e ∈ f.keyDims, e.1 = k → e.2 = n)
include hn

variable (hone : ∀ a : α, a * 1 = a) (hneg : ∀ a : α, a * -1 = -a)
include hone hneg

theorem isColumn_signedPart (hc : g.constraintAt? i = some f)
    (hk : k ∈ f.keys) {row : ℕ} (hrow : row < f.rows) :
    (signedPart w i f k n row).length = n ∧
      IsColumn (g.activeRows w) (i, f) k n row (signedPart w i f k n row) := by
  obtain ⟨v, hv, hlen⟩ := f.exists_part? hk hrow hn
  have hmem : ⟨i, row⟩ ∈ g.activeRows w ↔ (signOf w i f row : Option α).isSome = true := by
    rw [← mem_activeRowsOf_iff hc, mem_activeRowsOf, signOf_isSome]
  unfold IsColumn signedPart
  rw [hv]
  simp only [hmem]
  cases hs : (signOf w i f row : Option α) with
  | none => simp
  | some sign =>
    simp only [Option.isSome_some, if_true, Option.getD_some, Vec.length_scale]
    refine ⟨hlen, v, rfl, ?_⟩
    rw [signOf] at hs
    cases hkind : f.rowKind? row with
    | none => simp [hkind, rowSign] at hs
    | some kind =>
      cases kind with
      | equality =>
        rw [hkind] at hs
        cases hs
        exact List.map_congr_left fun a _ => hneg a
      | inequality =>
        cases hin : w.contains ⟨i, row⟩ with
        | false => simp [hkind, hin, rowSign] at hs
        | true =>
          rw [hkind, hin] at hs
          cases hs
          exact (List.map_congr_left fun a _ => hone a).trans v.map_id

end Term

/-- Rows with these columns as their terms are the condition for the key. -/
theorem isStationarity_of_terms (hone : ∀ a : α, a * 1 = a) (hneg : ∀ a : α, a * -1 = -a)
    {k : κ} {part : Vec α} (hn : ∀ e ∈ g.owners (g.activeRows w), ∀ e' ∈ e.2.keyDims, e'.1 = k →
      e'.2 = part.length) {c : LinearRows ℕ α} (hterms : c.terms =
        ((g.owners (g.activeRows w)).filter fun e => decide (k ∈ e.2.keys)).map
          (columnsOf w k part.length))
    (hrhs : c.rhs = Vec.neg part) (hkinds : c.kinds = none) :
    g.IsStationarity (g.activeRows w) k part c := by
  refine ⟨?_, hrhs, hkinds⟩
  rw [hterms, List.forall₂_map_right_iff, List.forall₂_same]
  intro e he
  obtain ⟨hmem, hk⟩ := List.mem_filter.1 he
  have hat := mem_constraints.1 (List.mem_filter.1 hmem).1
  refine ⟨rfl, rfl, by simp [columnsOf, Matrix.ofColumns], fun row hrow => ?_⟩
  obtain ⟨hlen, hcolumn⟩ :=
    isColumn_signedPart (hn e hmem) hone hneg (w := w) hat (of_decide_eq_true hk) hrow
  rwa [columnsOf, Matrix.column_ofColumns (v := signedPart w e.1 e.2 k part.length row)
    (by simp [hrow]) hlen]

variable (hw : g.Admits w)
include hw

/-- A condition is stated for a key exactly if some factor with an active row has it. -/
theorem Admits.exists_stationarityFactor (hone : ∀ a : α, a * 1 = a) (hneg : ∀ a : α, a * -1 = -a)
    {k : κ} {part : Vec α} (hn : ∀ e ∈ g.owners (g.activeRows w), ∀ e' ∈ e.2.keyDims, e'.1 = k →
      e'.2 = part.length) : ∃ o, stationarityFactor? w (g.participating w) k part = .ok o ∧
        (o = none ∧ (¬∃ e ∈ g.owners (g.activeRows w), k ∈ e.2.keys) ∨
          ∃ c, o = some c ∧ (∃ e ∈ g.owners (g.activeRows w), k ∈ e.2.keys) ∧
            g.IsStationarity (g.activeRows w) k part c) := by
  rw [hw.participating_eq]
  have hnodup : ((g.owners (g.activeRows w)).map (·.1)).Nodup :=
    List.pairwise_map.2 (g.pairwise_constraints.filter _)
  obtain ⟨o, ho, ⟨rfl, hnone⟩ | ⟨c, rfl, hterms, hrhs, hkinds⟩⟩ :=
    exists_stationarityFactor? w k part hnodup hn
  · exact ⟨none, ho, .inl ⟨rfl, by simpa [List.filter_eq_nil_iff] using hnone⟩⟩
  · obtain ⟨t, ht⟩ := List.exists_mem_of_ne_nil _ c.terms_ne_nil
    rw [hterms] at ht
    obtain ⟨e, he, -⟩ := List.mem_map.1 ht
    obtain ⟨hmem, hk⟩ := List.mem_filter.1 he
    exact ⟨_, ho, .inr ⟨c, rfl, ⟨e, hmem, of_decide_eq_true hk⟩,
      isStationarity_of_terms hone hneg hn hterms hrhs hkinds⟩⟩

/-- Every row that is not active, of a factor with an active row, has a pin. -/
theorem Admits.exists_pins : ∃ pinned, pins w (g.participating w) = .ok pinned ∧
    List.Forall₂ g.IsUnitPin (g.others (g.activeRows w)) pinned := by
  have hpin (e : ℕ × LinearRows κ α) (he : e ∈ g.owners (g.activeRows w)) (row : ℕ) :
      ∃ c : LinearRows ℕ α, pin e.1 e.2.rows row = .ok c ∧ g.IsUnitPin ⟨e.1, row⟩ c := by
    obtain ⟨c, hc, hspec⟩ := exists_pin (α := α) e.1 e.2.rows row
    exact ⟨c, hc, e.2, mem_constraints.1 (List.mem_filter.1 he).1, hspec⟩
  have hrows (e : ℕ × LinearRows κ α) (he : e ∈ g.owners (g.activeRows w)) :
      ∃ l, ((List.range e.2.rows).filter fun row => (signOf w e.1 e.2 row : Option α).isNone).mapM
        (pin e.1 e.2.rows) = .ok l ∧ List.Forall₂ g.IsUnitPin
          (((List.range e.2.rows).map (ConstraintRow.mk e.1)).filter fun r =>
            decide (r ∉ g.activeRows w)) l := by
    have hsame : ((List.range e.2.rows).map (ConstraintRow.mk e.1)).filter
        (fun r => decide (r ∉ g.activeRows w)) =
          ((List.range e.2.rows).filter fun row => (signOf w e.1 e.2 row : Option α).isNone).map
            (ConstraintRow.mk e.1) := by
      have hat := mem_constraints.1 (List.mem_filter.1 he).1
      rw [List.filter_map]
      refine congrArg _ (List.filter_congr fun row _ => Bool.eq_iff_iff.2 ?_)
      rw [Function.comp_apply, decide_eq_true_eq, ← mem_activeRowsOf_iff hat, mem_activeRowsOf,
        ← signOf_isSome (α := α)]
      simp
    obtain ⟨l, hl, hall⟩ := Result.exists_forall₂_mapM (fun row _ => hpin e he row)
    exact ⟨l, hl, hsame ▸ List.forall₂_map_left_iff.2 hall⟩
  obtain ⟨lists, hlists, hall⟩ := Result.exists_forall₂_mapM hrows
  rw [pins, hw.participating_eq]
  refine ⟨lists.flatten, Result.bind_eq_ok.2 ⟨lists, hlists, rfl⟩, ?_⟩
  rw [others, List.flatMap]
  exact List.rel_flatten (List.forall₂_map_left_iff.2 hall)

/-- The dual graph is made from the active rows. -/
theorem Admits.exists_isDualOver (hone : ∀ a : α, a * 1 = a) (hneg : ∀ a : α, a * -1 = -a)
    {x grad : Assignment κ α} (hgrad : g.gradient x = .ok grad) : ∃ dual,
      g.dualGraph w x = .ok dual ∧ g.IsDualOver (g.activeRows w) grad dual := by
  have hpart (e : κ × Vec α) (he : e ∈ grad.toList) (f : ℕ × LinearRows κ α)
      (hf : f ∈ g.owners (g.activeRows w)) (e' : κ × ℕ) (he' : e' ∈ f.2.keyDims)
      (hk : e'.1 = e.1) : e'.2 = e.2.length :=
    eq_length_of_mem_gradient hgrad
      (mem_factors_of_constraintAt? (mem_constraints.1 (List.mem_filter.1 hf).1)) he' he hk
  obtain ⟨conditions, hconditions, hall⟩ := Result.exists_forall₂_mapM fun e he =>
    hw.exists_stationarityFactor hone hneg (hpart e he)
  obtain ⟨pinned, hpinned, hpins⟩ := hw.exists_pins
  have hdual : g.IsDualOver (g.activeRows w) grad
      ⟨(conditions.filterMap id ++ pinned).map .linear⟩ :=
    .mk _ pinned (forall₂_filterMap hall) hpins
  by_cases hempty : g.participating w = []
  · refine ⟨empty, dualGraph_eq_ok.2 (.inl ⟨hempty, rfl⟩), .mk [] [] ?_ ?_⟩
    · rw [← hw.participating_eq, hempty]
      simp
    · rw [others, ← hw.participating_eq, hempty]
      exact .nil
  · exact ⟨_, dualGraph_eq_ok.2 (.inr ⟨hempty, grad, conditions, pinned, hgrad, hconditions,
      hpinned, rfl⟩), hdual⟩

end Dual

end Graph

end GaussianProgram
