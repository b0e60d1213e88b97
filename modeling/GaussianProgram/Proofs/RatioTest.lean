import GaussianProgram.Proofs.RowOrder

/-! The ratio test. Nothing blocks exactly if the candidate satisfies every row outside the
working set, wherever the step begins; otherwise the row that blocks is the first of those
that are reached first. -/
namespace GaussianProgram.Graph

variable {κ α : Type} [Key κ]

section Scan
variable [Scalar α]

/-- The candidate satisfies the row, or the row is in the working set. -/
def Passes (g : Graph κ α) (w : WorkingSet) (tolerance : α) (candidate : Assignment κ α)
    (r : ConstraintRow) : Prop :=
  r ∈ w.rows ∨ ∃ after, g.rowSlack r candidate = .ok after ∧ -tolerance ≤ after

/-- The row is outside the working set and is reached at the fraction `t` of the way. -/
def Blocks (g : Graph κ α) (w : WorkingSet) (tolerance : α) (current candidate : Assignment κ α)
    (r : ConstraintRow) (t : α) : Prop :=
  r ∉ w.rows ∧ ∃ before after, g.rowSlack r current = .ok before ∧
    g.rowSlack r candidate = .ok after ∧ ¬-tolerance ≤ after ∧ t = stepFraction before after

variable {g : Graph κ α} {w : WorkingSet} {tolerance : α} {current candidate : Assignment κ α}

/-- A row blocks at one fraction only. -/
theorem Blocks.unique {r : ConstraintRow} {t t' : α}
    (h : g.Blocks w tolerance current candidate r t)
    (h' : g.Blocks w tolerance current candidate r t') : t = t' := by
  obtain ⟨-, before, after, hb, ha, -, rfl⟩ := h
  obtain ⟨-, _, _, hb', ha', -, rfl⟩ := h'
  cases hb.symm.trans hb'
  cases ha.symm.trans ha'
  rfl

/-- A row that is satisfied does not block. -/
theorem Passes.not_blocks {r : ConstraintRow} (h : g.Passes w tolerance candidate r) (t : α) :
    ¬g.Blocks w tolerance current candidate r t := by
  rintro ⟨hnew, before, after, -, ha, hlow, -⟩
  obtain ⟨_, ha', hle⟩ := h.resolve_left hnew
  cases ha.symm.trans ha'
  exact hlow hle

private def scanRow (g : Graph κ α) (w : WorkingSet) (tolerance : α)
    (current candidate : Assignment κ α) (best : Option (ConstraintRow × α)) (r : ConstraintRow) :
    Result (FactorError α) (Option (ConstraintRow × α)) :=
  if w.contains r then .ok best
  else match g.constraintAt? r.factor with
  | none => .ok best
  | some f => do
    match ← blockingFraction? f r.row tolerance current candidate with
    | none => return best
    | some fraction => return earlier best r fraction

private theorem scanRow_ok {r : ConstraintRow} (hr : r ∈ g.inequalityRows)
    {best next : Option (ConstraintRow × α)} :
    scanRow g w tolerance current candidate best r = .ok next ↔
      (g.Passes w tolerance candidate r ∧ next = best) ∨
        ∃ t, g.Blocks w tolerance current candidate r t ∧ next = earlier best r t := by
  obtain ⟨f, hf, -⟩ := rowKind?_eq_some.1 (mem_inequalityRows.1 hr)
  by_cases hw : r ∈ w.rows
  · simp [scanRow, WorkingSet.contains_iff.2 hw, Passes, Blocks, hw, eq_comm]
  have hcontains : w.contains r = false := by
    rw [Bool.eq_false_iff, ne_eq, WorkingSet.contains_iff]
    exact hw
  simp only [scanRow, hcontains, Bool.false_eq_true, if_false, hf, Passes, Blocks, hw, false_or,
    not_false_iff, true_and, rowSlack, blockingFraction?, Result.inRange_some, Result.bind_eq_ok,
    Result.inRange_eq_ok, Except.ok.injEq, exists_eq_left', Result.pure_eq_ok]
  constructor
  · rintro ⟨o, ⟨b, hb, v, hv, ho⟩, hnext⟩
    split_ifs at ho with hafter
    · cases Result.pure_eq_ok.1 ho
      exact .inl ⟨⟨_, ⟨b, hb, v, hv, rfl⟩, hafter⟩, (Result.pure_eq_ok.1 hnext).symm⟩
    · obtain ⟨u, hu, ho⟩ := Result.bind_eq_ok.1 ho
      cases Result.pure_eq_ok.1 ho
      exact .inr ⟨_, ⟨_, _, ⟨b, hb, u, hu, rfl⟩, ⟨b, hb, v, hv, rfl⟩, hafter, rfl⟩,
        (Result.pure_eq_ok.1 hnext).symm⟩
  · rintro (⟨⟨_, ⟨b, hb, v, hv, rfl⟩, hafter⟩, rfl⟩ |
      ⟨_, ⟨_, _, ⟨b, hb, u, hu, rfl⟩, ⟨b', hb', v, hv, rfl⟩, hafter, rfl⟩, rfl⟩)
    · exact ⟨none, ⟨b, hb, v, hv, by rw [if_pos hafter]; rfl⟩, rfl⟩
    · cases Option.some.inj (hb.symm.trans hb')
      refine ⟨some _, ⟨b, hb, v, hv, ?_⟩, rfl⟩
      rw [if_neg hafter, hu]
      rfl

private theorem earlier_ne_none (best : Option (ConstraintRow × α)) (r : ConstraintRow) (t : α) :
    earlier best r t ≠ none := by
  unfold earlier
  split_ifs with hall
  · simp
  · intro hn
    simp [hn] at hall

private theorem scan_none {l : List ConstraintRow} (hl : ∀ r ∈ l, r ∈ g.inequalityRows)
    {best : Option (ConstraintRow × α)} :
    l.foldlM (scanRow g w tolerance current candidate) best = .ok none ↔
      best = none ∧ ∀ r ∈ l, g.Passes w tolerance candidate r := by
  induction l generalizing best with
  | nil => simp [pure, Except.pure]
  | cons r l ih =>
    obtain ⟨hr, hl⟩ := List.forall_mem_cons.1 hl
    rw [List.foldlM_cons, Result.bind_eq_ok, List.forall_mem_cons]
    constructor
    · rintro ⟨next, hnext, hscan⟩
      obtain ⟨rfl, hrest⟩ := (ih hl).1 hscan
      rcases (scanRow_ok hr).1 hnext with ⟨hpass, hb⟩ | ⟨t, -, hb⟩
      · exact ⟨hb.symm, hpass, hrest⟩
      · exact absurd hb.symm (earlier_ne_none best r t)
    · rintro ⟨rfl, hpass, hrest⟩
      exact ⟨none, (scanRow_ok hr).2 (.inl ⟨hpass, rfl⟩), (ih hl).2 ⟨rfl, hrest⟩⟩

/-- Nothing blocks exactly if the candidate satisfies every inequality row outside the working set.
Where the step begins makes no difference. -/
theorem stepSize_eq_none : g.stepSize w tolerance current candidate = .ok none ↔
    ∀ r, g.rowKind? r = some .inequality → g.Passes w tolerance candidate r := by
  have h : g.stepSize w tolerance current candidate = .ok none ↔
      (none : Option (ConstraintRow × α)) = none ∧
        ∀ r ∈ g.inequalityRows, g.Passes w tolerance candidate r := scan_none fun r hr => hr
  simp only [true_and, mem_inequalityRows] at h
  exact h

/-- The ratio test gives an answer where every row is either satisfied or reached. -/
theorem exists_stepSize (h : ∀ r, g.rowKind? r = some .inequality →
    g.Passes w tolerance candidate r ∨ ∃ t, g.Blocks w tolerance current candidate r t) :
    ∃ best, g.stepSize w tolerance current candidate = .ok best := by
  refine Result.exists_foldlM (f := scanRow g w tolerance current candidate) (fun _ => True)
    (fun best r hr _ => ?_) trivial
  rcases h r (mem_inequalityRows.1 hr) with hpass | ⟨t, hblock⟩
  · exact ⟨best, (scanRow_ok hr).2 (.inl ⟨hpass, rfl⟩), trivial⟩
  · exact ⟨_, (scanRow_ok hr).2 (.inr ⟨t, hblock, rfl⟩), trivial⟩

/-- A row that blocks is an inequality row outside the working set. -/
theorem blocking_row {r : ConstraintRow} {t : α}
    (h : g.stepSize w tolerance current candidate = .ok (some (r, t))) :
    g.rowKind? r = some .inequality ∧ r ∉ w.rows := by
  have hfold := Result.foldlM_keeps (l := g.inequalityRows)
    (f := scanRow g w tolerance current candidate)
    (fun best => ∀ e ∈ best, g.rowKind? e.1 = some .inequality ∧ e.1 ∉ w.rows) ?_ (by simp) h
  · exact hfold (r, t) rfl
  · intro best next a ha hbest hnext e he
    rcases (scanRow_ok ha).1 hnext with ⟨-, rfl⟩ | ⟨t', hblock, rfl⟩
    · exact hbest e he
    · unfold earlier at he
      split_ifs at he
      · cases he
        exact ⟨mem_inequalityRows.1 ha, hblock.1⟩
      · exact hbest e he

end Scan

section Exact
variable [ExactScalar α] {g : Graph κ α} {w : WorkingSet} {tolerance : α}
  {current candidate : Assignment κ α}

/-- The ratio test passes or weighs each row, and keeps the first of those that are
reached first. -/
private theorem scan_kept {l : List ConstraintRow} (hl : ∀ r ∈ l, r ∈ g.inequalityRows)
    (hascending : l.Pairwise (compare · · = .lt)) {best : Option (ConstraintRow × α)}
    (h : l.foldlM (scanRow g w tolerance current candidate) none = .ok best) :
    (∀ r ∈ l, g.Passes w tolerance candidate r ∨ ∃ t, g.Blocks w tolerance current candidate r t) ∧
      Kept (g.Blocks w tolerance current candidate) l best := by
  induction l using List.reverseRecOn generalizing best with
  | nil =>
    cases Result.pure_eq_ok.1 h
    exact ⟨fun _ hr => absurd hr List.not_mem_nil, Kept.nil⟩
  | append_singleton l a ih =>
    rw [List.foldlM_append, Result.bind_eq_ok] at h
    obtain ⟨mid, hmid, h⟩ := h
    rw [List.foldlM_cons, Result.bind_eq_ok] at h
    obtain ⟨next, hnext, h⟩ := h
    cases Result.pure_eq_ok.1 h
    obtain ⟨hbefore, -, hlater⟩ := List.pairwise_append.1 hascending
    obtain ⟨hall, hkept⟩ := ih (fun r hr => hl r (List.mem_append_left _ hr)) hbefore hmid
    have ha : a ∈ l ++ [a] := by simp
    have hcases (hlast : g.Passes w tolerance candidate a ∨
        ∃ t, g.Blocks w tolerance current candidate a t) : ∀ r ∈ l ++ [a],
        g.Passes w tolerance candidate r ∨ ∃ t, g.Blocks w tolerance current candidate r t :=
      List.forall_mem_append.2 ⟨hall, List.forall_mem_singleton.2 hlast⟩
    rcases (scanRow_ok (hl a ha)).1 hnext with ⟨hpass, rfl⟩ | ⟨t, hblock, rfl⟩
    · exact ⟨hcases (.inl hpass), hkept.skip hpass.not_blocks⟩
    · refine ⟨hcases (.inr ⟨t, hblock⟩), hkept.offer (fun r hr => hlater r hr a (by simp)) ?_⟩
      exact fun t' => ⟨fun h' => h'.unique hblock, fun he => he ▸ hblock⟩

/-- The row that the ratio test finds is the first of those that block first. -/
theorem firstLeast_of_stepSize {r : ConstraintRow} {t : α}
    (h : g.stepSize w tolerance current candidate = .ok (some (r, t))) :
    FirstLeast (fun r t => g.rowKind? r = some .inequality ∧
      g.Blocks w tolerance current candidate r t) r t := by
  obtain ⟨-, hkept⟩ := scan_kept (fun r hr => hr) g.ascending_inequalityRows h
  have hmem {r : ConstraintRow} {t : α} : (g.rowKind? r = some .inequality ∧
      g.Blocks w tolerance current candidate r t) ↔
        r ∈ g.inequalityRows ∧ g.Blocks w tolerance current candidate r t := by
    rw [mem_inequalityRows]
  exact ⟨hmem.2 hkept.offered, fun r' t' h' => hkept.least r' t' (hmem.1 h'),
    fun r' h' => hkept.first r' (hmem.1 h')⟩

/-- The row that the ratio test finds blocks, and no row blocks before it. -/
theorem stepSize_eq_some {r : ConstraintRow} {t : α}
    (h : g.stepSize w tolerance current candidate = .ok (some (r, t))) :
    g.rowKind? r = some .inequality ∧ g.Blocks w tolerance current candidate r t ∧
      ∀ r', g.rowKind? r' = some .inequality → g.Passes w tolerance candidate r' ∨
        ∃ t', g.Blocks w tolerance current candidate r' t' ∧ t ≤ t' := by
  have hfirst := firstLeast_of_stepSize h
  obtain ⟨hall, -⟩ := scan_kept (fun r hr => hr) g.ascending_inequalityRows h
  refine ⟨hfirst.offered.1, hfirst.offered.2, fun r' hr' => ?_⟩
  refine (hall r' (mem_inequalityRows.2 hr')).imp_right ?_
  rintro ⟨t', hblock⟩
  exact ⟨t', hblock, not_lt.1 (hfirst.least r' t' ⟨hr', hblock⟩)⟩

theorem stepFraction_nonneg (before after : α) : 0 ≤ stepFraction before after := by
  unfold stepFraction
  simp only
  split_ifs
  · exact ExactScalar.clampUnit_nonneg _
  · exact le_rfl

theorem stepFraction_le_one (before after : α) : stepFraction before after ≤ 1 := by
  unfold stepFraction
  simp only
  split_ifs
  · exact ExactScalar.clampUnit_le_one _
  · exact zero_le_one

theorem fraction_mem {r : ConstraintRow} {t : α}
    (h : g.stepSize w tolerance current candidate = .ok (some (r, t))) : 0 ≤ t ∧ t ≤ 1 := by
  obtain ⟨-, ⟨-, before, after, -, -, -, rfl⟩, -⟩ := stepSize_eq_some h
  exact ⟨stepFraction_nonneg before after, stepFraction_le_one before after⟩

/-- From a nonnegative slack to a negative one the fraction reaches the row exactly. -/
theorem stepFraction_mul {before after : α} (hb : 0 ≤ before) (ha : after < 0) :
    stepFraction before after * (before - after) = before := by
  have hpos : 0 < before - after := by linarith
  have hle : before / (before - after) ≤ 1 := (div_le_one hpos).2 (by linarith)
  rw [stepFraction, if_pos hpos, ExactScalar.clampUnit_of_mem (div_nonneg hb hpos.le) hle]
  exact div_mul_cancel₀ before hpos.ne'

/-- Up to the fraction at which a row blocks, its slack falls below neither zero nor what it was at
the start. -/
theorem min_le_slack {before after t : α} (h0 : 0 ≤ t) (ht : t ≤ stepFraction before after)
    (hle : after ≤ before) (ha : after < 0) : min before 0 ≤ (1 - t) * before + t * after := by
  rcases le_or_gt 0 before with hb | hb
  · have hreach := mul_le_mul_of_nonneg_right ht (sub_nonneg.2 hle)
    rw [stepFraction_mul hb ha] at hreach
    rw [min_eq_right hb]
    linarith
  · have hzero : stepFraction before after = 0 := by
      unfold stepFraction
      simp only
      split_ifs with hpos
      · exact ExactScalar.clampUnit_of_nonpos (div_nonpos_of_nonpos_of_nonneg hb.le hpos.le)
      · rfl
    have htzero : t = 0 := le_antisymm (hzero ▸ ht) h0
    rw [htzero]
    simp

end Exact

end GaussianProgram.Graph
