import GaussianProgram.Proofs.RowOrder
import GaussianProgram.Proofs.Table

/-! The scan for the row to drop. It finds a row of the working set, the first of those with the
least multiplier, and it finds none exactly if no multiplier is below the tolerance. Nothing but the
order of the numbers counts. -/
namespace GaussianProgram.Graph

variable {κ α : Type} [Key κ] {g : Graph κ α} {duals : Assignment ℕ α}

/-- The row of the working set is an inequality row of the graph, and the assignment has this
multiplier for it. -/
def Weighs (g : Graph κ α) (w : WorkingSet) (duals : Assignment ℕ α) (r : ConstraintRow)
    (multiplier : α) : Prop :=
  r ∈ w.rows ∧ g.rowKind? r = some .inequality ∧
    ∃ v, duals.get? r.factor = some v ∧ v[r.row]? = some multiplier

theorem weighs_iff {w : WorkingSet} {r : ConstraintRow} {multiplier : α} :
    g.Weighs w duals r multiplier ↔ r ∈ w.rows ∧ g.multiplier? duals r = some multiplier := by
  rw [Weighs, multiplier?, Option.ite_none_right_eq_some, isInequality_iff,
    Option.bind_eq_some_iff]

/-- A row of a graph that can be stored has coordinates that are signed words. -/
theorem signedCoordinates_of_rowKind? (hsize : g.size < 2 ^ 63)
    (hrows : ∀ i c, g.constraintAt? i = some c → c.rows < 2 ^ 63) {r : ConstraintRow}
    {kind : RowKind} (hr : g.rowKind? r = some kind) :
    signedCoordinates (some r) = ((r.factor : ℤ), (r.row : ℤ)) := by
  obtain ⟨c, hc, hk⟩ := rowKind?_eq_some.1 hr
  obtain ⟨f, hf, -⟩ := constraintAt?_eq_some.1 hc
  have hfactor : r.factor < g.size := (List.getElem?_eq_some_iff.1 hf).1
  have hrow : r.row < c.rows := LinearRows.rowKind?_lt hk
  have hword : UInt64.size / 2 = 2 ^ 63 := rfl
  rw [signedCoordinates, if_pos]
  exact ⟨hword ▸ hfactor.trans hsize, hword ▸ hrow.trans (hrows _ c hc)⟩

section Scan
variable [Scalar α] {tolerance : α}

private def weigh (g : Graph κ α) (duals : Assignment ℕ α) (tolerance : α)
    (worst : Option (ConstraintRow × α)) (r : ConstraintRow) : Option (ConstraintRow × α) :=
  match g.multiplier? duals r with
  | none => worst
  | some multiplier =>
    if multiplier < -tolerance ∧ worst.all fun (_, least) => decide (multiplier < least) then
      some (r, multiplier)
    else worst

private theorem weigh_cases (g : Graph κ α) (duals : Assignment ℕ α) (tolerance : α)
    (worst : Option (ConstraintRow × α)) (r : ConstraintRow) :
    weigh g duals tolerance worst r = worst ∨ ∃ multiplier,
      weigh g duals tolerance worst r = some (r, multiplier) ∧
        g.multiplier? duals r = some multiplier ∧ multiplier < -tolerance := by
  unfold weigh
  split
  · exact .inl rfl
  next multiplier hm =>
    split_ifs with hlt
    · exact .inr ⟨multiplier, rfl, hm, hlt.1⟩
    · exact .inl rfl

private theorem foldl_weigh_mem {l : List ConstraintRow} {worst : Option (ConstraintRow × α)}
    {r : ConstraintRow} {multiplier : α}
    (h : l.foldl (weigh g duals tolerance) worst = some (r, multiplier)) :
    worst = some (r, multiplier) ∨
      r ∈ l ∧ g.multiplier? duals r = some multiplier ∧ multiplier < -tolerance := by
  induction l generalizing worst with
  | nil => exact .inl h
  | cons a l ih =>
    rcases ih h with hw | ⟨hmem, hlow⟩
    · rcases weigh_cases g duals tolerance worst a with hkeep | ⟨_, hnew, hlow⟩
      · exact .inl (hkeep.symm.trans hw)
      · cases hnew.symm.trans hw
        exact .inr ⟨List.mem_cons_self, hlow⟩
    · exact .inr ⟨List.mem_cons_of_mem a hmem, hlow⟩

theorem mem_of_worstRow? {w : WorkingSet} {r : ConstraintRow}
    (h : g.worstRow? w duals tolerance = some r) : r ∈ w.rows := by
  obtain ⟨⟨r', multiplier⟩, hfold, rfl⟩ := Option.map_eq_some_iff.1 h
  exact ((foldl_weigh_mem hfold).resolve_left (by simp)).1

/-- A row is dropped for a multiplier below the tolerance. -/
theorem multiplier_of_worstRow? {w : WorkingSet} {r : ConstraintRow}
    (h : g.worstRow? w duals tolerance = some r) :
    ∃ multiplier, g.multiplier? duals r = some multiplier ∧ multiplier < -tolerance := by
  obtain ⟨⟨r', multiplier⟩, hfold, rfl⟩ := Option.map_eq_some_iff.1 h
  exact ⟨multiplier, ((foldl_weigh_mem hfold).resolve_left (by simp)).2⟩

end Scan

section Order
variable [Scalar α] [IsStrictOrder α (· < ·)] {tolerance : α}

variable (g duals tolerance) in
/-- The scan keeps the first of the least multipliers below the tolerance. -/
private theorem foldl_weigh_kept {l : List ConstraintRow}
    (hascending : l.Pairwise (compare · · = .lt)) :
    Kept (fun r multiplier => g.multiplier? duals r = some multiplier ∧ multiplier < -tolerance) l
      (l.foldl (weigh g duals tolerance) none) := by
  induction l using List.reverseRecOn with
  | nil => exact Kept.nil
  | append_singleton l a ih =>
    obtain ⟨hbefore, -, hlater⟩ := List.pairwise_append.1 hascending
    have hkept := ih hbefore
    rw [List.foldl_append, List.foldl_cons, List.foldl_nil]
    generalize l.foldl (weigh g duals tolerance) none = worst at hkept ⊢
    cases hm : g.multiplier? duals a with
    | none =>
      have hkeep : weigh g duals tolerance worst a = worst := by simp [weigh, hm]
      rw [hkeep]
      refine hkept.skip ?_
      rintro t ⟨ht, -⟩
      cases hm.symm.trans ht
    | some multiplier =>
      by_cases hlow : multiplier < -tolerance
      · have hweigh : weigh g duals tolerance worst a = earlier worst a multiplier := by
          simp [weigh, earlier, hm, hlow]
        rw [hweigh]
        refine hkept.offer (fun r hr => hlater r hr a (by simp)) fun t => ?_
        rw [hm, Option.some.injEq]
        exact ⟨fun ht => ht.1.symm, fun ht => ⟨ht.symm, ht ▸ hlow⟩⟩
      · have hkeep : weigh g duals tolerance worst a = worst := by simp [weigh, hm, hlow]
        rw [hkeep]
        refine hkept.skip ?_
        rintro t ⟨ht, hless⟩
        cases hm.symm.trans ht
        exact hlow hless

/-- The scan finds nothing only if no multiplier of the working set is below the tolerance. -/
theorem not_lt_of_worstRow? {w : WorkingSet} (h : g.worstRow? w duals tolerance = none)
    {r : ConstraintRow} (hr : r ∈ w.rows) {multiplier : α}
    (hm : g.multiplier? duals r = some multiplier) : ¬multiplier < -tolerance := by
  have hkept := foldl_weigh_kept g duals tolerance w.ascending_rows
  rw [show w.rows.foldl (weigh g duals tolerance) none = none from Option.map_eq_none_iff.1 h]
    at hkept
  exact fun hlow => hkept r hr multiplier ⟨hm, hlow⟩

/-- The row that the scan finds is the first of those with the least multiplier below
the tolerance. -/
theorem firstLeast_of_worstRow? {w : WorkingSet} {r : ConstraintRow}
    (h : g.worstRow? w duals tolerance = some r) : ∃ multiplier,
      FirstLeast (fun r multiplier => r ∈ w.rows ∧ g.multiplier? duals r = some multiplier ∧
        multiplier < -tolerance) r multiplier := by
  obtain ⟨⟨_, multiplier⟩, hfold, rfl⟩ := Option.map_eq_some_iff.1 h
  have hkept := foldl_weigh_kept g duals tolerance w.ascending_rows
  rw [show w.rows.foldl (weigh g duals tolerance) none = some (_, multiplier) from hfold] at hkept
  exact ⟨multiplier, hkept⟩

/-- The scan finds a row exactly if some multiplier is below the tolerance. -/
theorem exists_worstRow?_iff {w : WorkingSet} : (∃ r, g.worstRow? w duals tolerance = some r) ↔
    ∃ r multiplier, g.Weighs w duals r multiplier ∧ multiplier < -tolerance := by
  simp only [weighs_iff]
  constructor
  · rintro ⟨r, hr⟩
    obtain ⟨multiplier, hm⟩ := firstLeast_of_worstRow? hr
    exact ⟨r, multiplier, ⟨hm.offered.1, hm.offered.2.1⟩, hm.offered.2.2⟩
  · rintro ⟨r, multiplier, ⟨hr, hm⟩, hlow⟩
    refine Option.ne_none_iff_exists'.1 fun hnone => ?_
    exact not_lt_of_worstRow? hnone hr hm hlow

end Order

section Exact
variable [ExactScalar α] {tolerance : α}

/-- No row is to be dropped only if no multiplier of the working set is below the tolerance. -/
theorem le_multiplier_of_worstRow? {w : WorkingSet} (h : g.worstRow? w duals tolerance = none)
    {r : ConstraintRow} (hr : r ∈ w.rows) {multiplier : α}
    (hm : g.multiplier? duals r = some multiplier) : -tolerance ≤ multiplier :=
  not_lt.1 (not_lt_of_worstRow? h hr hm)

end Exact

section Worst
variable [Scalar α] [IsStrictTotalOrder α (· < ·)] {σ : Type}

/-- The row to drop. There is one exactly if an inequality row of the working set has a multiplier
below the tolerance; it has the least of all multipliers and comes first of the rows that have it.
Its coordinates are reported, and the pair of minus ones only where there is no such row. -/
theorem worstRow?_spec (s : Solver κ α σ) (hsize : s.graph.size < 2 ^ 63)
    (hrows : ∀ i c, s.graph.constraintAt? i = some c → c.rows < 2 ^ 63) (w : WorkingSet)
    (duals : Assignment ℕ α) (tolerance : α) :
    ((∃ r, s.graph.worstRow? w duals tolerance = some r) ↔
      ∃ r multiplier, s.graph.Weighs w duals r multiplier ∧ multiplier < -tolerance) ∧
    (∀ r, s.graph.worstRow? w duals tolerance = some r → ∃ multiplier,
      s.graph.Weighs w duals r multiplier ∧ multiplier < -tolerance ∧
        ∀ r' multiplier', s.graph.Weighs w duals r' multiplier' → r' ≠ r →
          multiplier < multiplier' ∨ multiplier = multiplier' ∧ compare r r' = .lt) ∧
    s.worstRow? w duals = s.graph.worstRow? w duals s.config.dualTolerance ∧
    (∀ r, s.worstRow? w duals = some r →
      signedCoordinates (s.worstRow? w duals) = ((r.factor : ℤ), (r.row : ℤ))) ∧
    (signedCoordinates (s.worstRow? w duals) = (-1, -1) ↔ s.worstRow? w duals = none) := by
  have hcoordinates (r : ConstraintRow) (hr : s.worstRow? w duals = some r) :
      signedCoordinates (s.worstRow? w duals) = ((r.factor : ℤ), (r.row : ℤ)) := by
    obtain ⟨multiplier, hm⟩ := firstLeast_of_worstRow? hr
    have hkind := (weighs_iff.2 ⟨hm.offered.1, hm.offered.2.1⟩).2.1
    rw [hr]
    exact signedCoordinates_of_rowKind? hsize hrows hkind
  refine ⟨exists_worstRow?_iff, fun r hr => ?_, rfl, hcoordinates, fun hpair => ?_, fun hnone => ?_⟩
  · obtain ⟨multiplier, hm⟩ := firstLeast_of_worstRow? hr
    obtain ⟨hmem, hmultiplier, hlow⟩ := hm.offered
    refine ⟨multiplier, weighs_iff.2 ⟨hmem, hmultiplier⟩, hlow, fun r' multiplier' h' hne => ?_⟩
    obtain ⟨hmem', hmultiplier'⟩ := weighs_iff.1 h'
    rcases trichotomous_of (· < ·) multiplier multiplier' with hless | rfl | hmore
    · exact .inl hless
    · exact .inr ⟨rfl, hm.first r' ⟨hmem', hmultiplier', hlow⟩ hne⟩
    · refine absurd hmore (hm.least r' multiplier' ⟨hmem', hmultiplier', ?_⟩)
      exact trans_of (· < ·) hmore hlow
  · refine Option.eq_none_iff_forall_ne_some.2 fun r hr => ?_
    rw [hcoordinates r hr, Prod.mk.injEq] at hpair
    omega
  · rw [hnone]
    rfl

/-- Of two rows with the same multiplier the first is dropped, and its coordinates are reported. -/
theorem twoBounds_worstRow? : ∃ r,
    Solver.twoBounds.worstRow? (.ofRows [⟨1, 0⟩, ⟨2, 0⟩])
      (SortedMap.ofList [(1, [-2]), (2, [-2])]) = some r ∧ r = ⟨1, 0⟩ ∧
    signedCoordinates (Solver.twoBounds.worstRow? (.ofRows [⟨1, 0⟩, ⟨2, 0⟩])
      (SortedMap.ofList [(1, [-2]), (2, [-2])])) = (1, 0) := by
  have hsize : Solver.twoBounds.graph.size < 2 ^ 63 := by decide
  have hrows : ∀ i c, Solver.twoBounds.graph.constraintAt? i = some c → c.rows < 2 ^ 63 := by
    intro i c hc
    have hone : ∀ e ∈ Solver.twoBounds.graph.constraints, e.2.rows = 1 := by decide +kernel
    rw [hone (i, c) (mem_constraints.2 hc)]
    decide
  have hfound : Solver.twoBounds.worstRow? (.ofRows [⟨1, 0⟩, ⟨2, 0⟩])
      (SortedMap.ofList [(1, [-2]), (2, [-2])]) = some ⟨1, 0⟩ := by decide +kernel
  obtain ⟨-, -, -, hcoordinates, -⟩ := worstRow?_spec Solver.twoBounds hsize hrows
    (.ofRows [⟨1, 0⟩, ⟨2, 0⟩]) (SortedMap.ofList [(1, [-2]), (2, [-2])]) 0
  exact ⟨⟨1, 0⟩, hfound, rfl, hcoordinates _ hfound⟩

end Worst

end GaussianProgram.Graph
