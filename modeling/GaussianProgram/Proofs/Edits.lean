import GaussianProgram.Proofs.Stall
import GaussianProgram.Proofs.Termination

/-! Histories of working sets. What a set holds after any sequence of edits is known row by row from
the last edit of the row, all views of a set describe the same rows, and the cycling guard finds
exactly the sets with these rows. -/
namespace GaussianProgram

/-- Lists in strictly ascending order are equal if they have the same members. -/
theorem eq_of_ascending {κ : Type} [Ord κ] [Std.TransOrd κ] {l l' : List κ}
    (hl : l.Pairwise (compare · · = .lt)) (hl' : l'.Pairwise (compare · · = .lt))
    (h : ∀ a, a ∈ l ↔ a ∈ l') : l = l' := by
  have hanti : Std.Antisymm fun a b : κ => compare a b = .lt :=
    ⟨fun a b hab hba => by
      rw [Std.OrientedCmp.gt_of_lt hba] at hab
      nomatch hab⟩
  have hirrefl : Std.Irrefl fun a b : κ => compare a b = .lt :=
    ⟨fun a ha => by simp [Std.ReflCmp.compare_self] at ha⟩
  exact hl.eq_of_mem_iff hl' h

/-- A request to change a working set. -/
inductive Edit where
  | insert (r : ConstraintRow)
  | remove (r : ConstraintRow)

namespace Edit

def row : Edit → ConstraintRow
  | insert r => r
  | remove r => r

def apply (w : WorkingSet) : Edit → Bool × WorkingSet
  | insert r => w.insert r
  | remove r => w.remove r

def last? (edits : List Edit) (r : ConstraintRow) : Option Edit :=
  (edits.filter fun e => decide (e.row = r)).getLast?

theorem last?_append_of_row {e : Edit} {r : ConstraintRow} (h : e.row = r) (edits : List Edit) :
    last? (edits ++ [e]) r = some e := by
  rw [last?, List.filter_append, List.filter_cons_of_pos (by simpa using h), List.filter_nil,
    List.getLast?_concat]

theorem last?_append_of_ne {e : Edit} {r : ConstraintRow} (h : e.row ≠ r) (edits : List Edit) :
    last? (edits ++ [e]) r = last? edits r := by
  rw [last?, List.filter_append, List.filter_cons_of_neg (by simpa using h), List.filter_nil,
    List.append_nil, last?]

end Edit

namespace WorkingSet
variable {w : WorkingSet} {r : ConstraintRow}

def after (w : WorkingSet) (edits : List Edit) : WorkingSet :=
  edits.foldl (fun w e => (e.apply w).2) w

theorem after_append (w : WorkingSet) (edits : List Edit) (e : Edit) :
    w.after (edits ++ [e]) = (e.apply (w.after edits)).2 := List.foldl_append

/-- A request decides about its own row and leaves the others. -/
theorem mem_rows_apply {e : Edit} :
    r ∈ (e.apply w).2.rows ↔ e = .insert r ∨ r ∈ w.rows ∧ e ≠ .remove r := by
  cases e with
  | insert a => simp [Edit.apply, mem_rows_insert, eq_comm]
  | remove a => simp [Edit.apply, mem_rows_remove, eq_comm, and_comm]

/-- After a history a row is in the set if its last edit has inserted it, or if it was there from
the start and nothing has removed it. -/
theorem mem_rows_after {edits : List Edit} : r ∈ (w.after edits).rows ↔
    Edit.last? edits r = some (.insert r) ∨ r ∈ w.rows ∧ .remove r ∉ edits := by
  induction edits using List.reverseRecOn with
  | nil => simp [after, Edit.last?]
  | append_singleton edits e ih =>
    rw [after_append, mem_rows_apply, ih]
    by_cases he : e.row = r
    · rw [Edit.last?_append_of_row he]
      cases e with
      | insert a =>
        obtain rfl : a = r := he
        simp
      | remove a =>
        obtain rfl : a = r := he
        simp
    · have hinsert : e ≠ .insert r := fun h => he (h ▸ rfl)
      have hremove : e ≠ .remove r := fun h => he (h ▸ rfl)
      simp [Edit.last?_append_of_ne he, hinsert, hremove, hremove.symm]

/-- A request answers whether the set has changed. -/
theorem answer_iff_ne (w : WorkingSet) (e : Edit) : (e.apply w).1 = true ↔ (e.apply w).2 ≠ w := by
  cases e with
  | insert a =>
    have hsame : (w.insert a).2 = w ↔ a ∈ w.rows := by
      refine ⟨fun h => h ▸ mem_rows_insert.2 (.inl rfl), fun ha => ext_rows fun r => ?_⟩
      exact mem_rows_insert.trans (or_iff_right_of_imp fun hr => hr ▸ ha)
    rw [Edit.apply, ne_eq, hsame, ← contains_iff]
    simp [insert]
  | remove a =>
    have hsame : (w.remove a).2 = w ↔ a ∉ w.rows := by
      refine ⟨fun h ha => (mem_rows_remove.1 (h.symm ▸ ha)).1 rfl, fun ha => ext_rows fun r => ?_⟩
      exact mem_rows_remove.trans (and_iff_right_of_imp fun hr he => ha (he ▸ hr))
    rw [Edit.apply, ne_eq, hsame, not_not, ← contains_iff]
    rfl

theorem size_eq_card (w : WorkingSet) : w.size = w.rowSet.card := by
  rw [rowSet, List.toFinset_card_of_nodup w.nodup_rows, rows, SortedMap.keys, List.length_map]
  rfl

/-- An insertion that answers so has added one row. -/
theorem size_insert (w : WorkingSet) (r : ConstraintRow) :
    (w.insert r).2.size = w.size + (w.insert r).1.toNat := by
  rw [size_eq_card, size_eq_card, rowSet_insert, insert]
  cases hr : w.contains r with
  | true => simp [Finset.insert_eq_of_mem (mem_rowSet.2 (contains_iff.1 hr))]
  | false =>
    have hnew : r ∉ w.rowSet := fun hmem => by
      rw [contains_iff.2 (mem_rowSet.1 hmem)] at hr
      cases hr
    simp [Finset.card_insert_of_notMem hnew]

/-- A removal that answers so has taken out one row. -/
theorem size_remove (w : WorkingSet) (r : ConstraintRow) :
    (w.remove r).2.size + (w.remove r).1.toNat = w.size := by
  rw [size_eq_card, size_eq_card, rowSet_remove, remove]
  cases hr : w.contains r with
  | true => exact Finset.card_erase_add_one (mem_rowSet.2 (contains_iff.1 hr))
  | false =>
    have hnone : r ∉ w.rowSet := fun hmem => by
      rw [contains_iff.2 (mem_rowSet.1 hmem)] at hr
      cases hr
    rw [Finset.erase_eq_of_notMem hnone]
    rfl

theorem ascending_rowsOf (w : WorkingSet) (i : ℕ) : (w.rowsOf i).Pairwise (· < ·) := by
  refine List.pairwise_map.2 ((w.ascending_rows.filter _).imp_of_mem fun {a b} ha hb hlt => ?_)
  have ha : a.factor = i := eq_of_beq (List.mem_filter.1 ha).2
  have hb : b.factor = i := eq_of_beq (List.mem_filter.1 hb).2
  rcases ConstraintRow.compare_eq_lt.1 hlt with hlt | ⟨-, hlt⟩
  · omega
  · exact hlt

theorem ascending_factors (w : WorkingSet) : w.factors.keys.Pairwise (· < ·) :=
  w.factors.ascending_keys.imp Nat.compare_eq_lt.1

theorem mem_factors {i : ℕ} : i ∈ w.factors.keys ↔ w.rowsOf i ≠ [] := by
  rw [factors, SortedSet.mem_keys_ofKeys, List.mem_map]
  constructor
  · rintro ⟨r, hr, rfl⟩
    exact List.ne_nil_of_mem (mem_rowsOf.2 hr)
  · intro hne
    obtain ⟨row, hrow⟩ := List.exists_mem_of_ne_nil _ hne
    exact ⟨_, mem_rowsOf.1 hrow, rfl⟩

/-- The rows of the factors, one factor after the other, are the rows of the set. -/
theorem flatMap_rowsOf (w : WorkingSet) :
    (w.factors.keys.flatMap fun i => (w.rowsOf i).map (ConstraintRow.mk i)) = w.rows := by
  refine eq_of_ascending (List.pairwise_flatMap.2 ⟨fun i _ => ?_, ?_⟩) w.ascending_rows fun r => ?_
  · refine List.pairwise_map.2 ((w.ascending_rowsOf i).imp fun hlt => ?_)
    exact ConstraintRow.compare_eq_lt.2 (.inr ⟨rfl, hlt⟩)
  · refine w.ascending_factors.imp fun {i j} hlt a ha b hb => ?_
    obtain ⟨_, -, rfl⟩ := List.mem_map.1 ha
    obtain ⟨_, -, rfl⟩ := List.mem_map.1 hb
    exact ConstraintRow.compare_eq_lt.2 (.inl hlt)
  · simp only [List.mem_flatMap, List.mem_map, mem_rowsOf]
    constructor
    · rintro ⟨i, -, row, hr, rfl⟩
      exact hr
    · exact fun hr =>
        ⟨r.factor, mem_factors.2 (List.ne_nil_of_mem (mem_rowsOf.2 hr)), r.row, hr, rfl⟩

/-- The rows from one to another, both of them included. -/
def between (w : WorkingSet) (first last : ConstraintRow) : List ConstraintRow :=
  w.rows.filter fun r => (compare first r).isLE && (compare r last).isLE

/-- As long as row indices are words, the rows of a factor are those from its first row to that with
the largest index. -/
theorem rowsOf_eq_between (h : ∀ r ∈ w.rows, r.row < UInt64.size) (i : ℕ) :
    w.rowsOf i = (w.between ⟨i, 0⟩ ⟨i, UInt64.size - 1⟩).map (·.row) := by
  refine congrArg (List.map _) (List.filter_congr fun r hr => ?_)
  have hlt := h r hr
  rw [Bool.eq_iff_iff, beq_iff_eq, Bool.and_eq_true, ConstraintRow.compare_eq,
    ConstraintRow.compare_eq, compare_pair, compare_pair, isLE_comparePair, isLE_comparePair]
  simp only [ConstraintRow.pair]
  omega

/-- Sets are equal, and compare as equal, if each has the rows of the other. -/
theorem eq_iff_contains {v w : WorkingSet} : v = w ↔ ∀ r, v.contains r = w.contains r := by
  refine ⟨fun h r => by rw [h], fun h => ext_rows fun r => ?_⟩
  rw [← contains_iff, ← contains_iff, h]

theorem compare_eq_iff {v w : WorkingSet} : compare v w = .eq ↔ v = w := by
  have hrows : compare v.rows w.rows = .eq ↔ v.rows = w.rows := SortedMap.compare_eq_iff
  exact hrows.trans ⟨fun h => ext_rows fun r => by rw [h], fun h => by rw [h]⟩

/-- The set has exactly the given rows, in their order, and all its views are views of them. -/
structure Shows (w : WorkingSet) (S : Set ConstraintRow) : Prop where
  contains : ∀ r, w.contains r = true ↔ r ∈ S
  iterates : ∀ r, r ∈ w.rows ↔ r ∈ S
  ascending : w.rows.Pairwise fun a b => a.factor < b.factor ∨ a.factor = b.factor ∧ a.row < b.row
  size : w.size = S.ncard
  rowsOf : ∀ i, (w.rowsOf i).Pairwise (· < ·) ∧ ∀ row, row ∈ w.rowsOf i ↔ ⟨i, row⟩ ∈ S
  rowsOf_words : (∀ r ∈ S, r.row < UInt64.size) →
    ∀ i, w.rowsOf i = (w.between ⟨i, 0⟩ ⟨i, UInt64.size - 1⟩).map (·.row)
  factors : w.factors.keys.Pairwise (· < ·) ∧ ∀ i, i ∈ w.factors.keys ↔ w.rowsOf i ≠ []
  concatenated :
    (w.factors.keys.flatMap fun i => (w.rowsOf i).map (ConstraintRow.mk i)) = w.rows

theorem shows_of_mem {S : Set ConstraintRow} (h : ∀ r, r ∈ w.rows ↔ r ∈ S) : w.Shows S where
  contains r := contains_iff.trans (h r)
  iterates := h
  ascending := w.ascending_rows.imp ConstraintRow.compare_eq_lt.1
  size := by
    have hset : S = w.rowSet := Set.ext fun r => by rw [← h r, Finset.mem_coe, mem_rowSet]
    rw [hset, Set.ncard_coe_finset, size_eq_card]
  rowsOf i := ⟨w.ascending_rowsOf i, fun row => mem_rowsOf.trans (h _)⟩
  rowsOf_words hS := rowsOf_eq_between fun r hr => hS r ((h r).1 hr)
  factors := ⟨w.ascending_factors, fun _ => mem_factors⟩
  concatenated := w.flatMap_rowsOf

end WorkingSet

/-- After an iteration that drops a row, the guard ends the run exactly if the working set before it
has been recorded. -/
theorem Solver.loop_cycling_iff {κ α σ : Type} [Key κ] [Scalar α] {s : Solver κ α σ}
    (hdetect : s.config.detectCycling = true) {st st₁ : RunState κ α σ} {row : ConstraintRow}
    (hexec : Run.exec s.iterate st = (.ok (.dropped row), st₁)) {cost : α}
    (hcost : s.graph.cost st₁.point = .ok cost) {initialCost previous : α} {fuel i : ℕ}
    {D : List WorkingSet} :
    (Run.exec (s.loop initialCost (fuel + 1) i previous D) st).1 =
      .error (.cause (.solver (.cycling i))) ↔ st.workingSet ∈ D := by
  rcases hloop : Run.exec (s.loop initialCost (fuel + 1) i previous D) st with ⟨result, st'⟩
  cases loop_turns hloop with
  | failed hexec' _ => cases hexec.symm.trans hexec'
  | costless hexec' hcost' _ =>
    cases hexec.symm.trans hexec'
    cases hcost.symm.trans hcost'
  | converged hexec' _ => cases hexec.symm.trans hexec'
  | cycled _ _ _ hmem _ => exact iff_of_true rfl hmem
  | dropped _ _ hnew hrest =>
    refine iff_of_false (fun hcycling => ?_) (hnew hdetect)
    -- A run that has gone on can only be ended by the guard at a later iteration.
    obtain ⟨_, -, hruns⟩ := loop_runs hrest
    obtain ⟨k, -, hk, -⟩ := hruns.drops_of_cycling hcycling
    omega
  | stepped hexec' _ _ => cases hexec.symm.trans hexec'

namespace WorkingSet

/-- After any edits of any initial rows a set shows the rows whose last edit has inserted them and
those that were there from the start and have never been removed. A request answers whether it has
changed the set, and by one row then. Sets are equal exactly if they have the same rows, so the
guard against cycling stops at a set with the rows of a recorded one and at no other. -/
theorem edited_spec :
    (∀ (initial : List ConstraintRow) (edits : List Edit), ((ofRows initial).after edits).Shows
      {r | Edit.last? edits r = some (.insert r) ∨ r ∈ initial ∧ .remove r ∉ edits}) ∧
    (∀ (w : WorkingSet) (e : Edit), (e.apply w).1 = true ↔ (e.apply w).2 ≠ w) ∧
    (∀ (w : WorkingSet) (r : ConstraintRow),
      (w.insert r).2.size = w.size + (w.insert r).1.toNat ∧
        (w.remove r).2.size + (w.remove r).1.toNat = w.size) ∧
    (∀ v w : WorkingSet, (v = w ↔ ∀ r, v.contains r = w.contains r) ∧
      (compare v w = .eq ↔ ∀ r, v.contains r = w.contains r)) ∧
    ∀ {κ α σ : Type} [Key κ] [Scalar α] (s : Solver κ α σ) (st st₁ : RunState κ α σ)
      (row : ConstraintRow) (cost initialCost previous : α) (fuel i : ℕ) (D : List WorkingSet),
      s.config.detectCycling = true → Run.exec s.iterate st = (.ok (.dropped row), st₁) →
      s.graph.cost st₁.point = .ok cost →
      ((Run.exec (s.loop initialCost (fuel + 1) i previous D) st).1 =
          .error (.cause (.solver (.cycling i))) ↔
        ∃ v ∈ D, ∀ r, v.contains r = st.workingSet.contains r) := by
  refine ⟨fun initial edits => shows_of_mem fun r => ?_, answer_iff_ne,
    fun w r => ⟨w.size_insert r, w.size_remove r⟩,
    fun v w => ⟨eq_iff_contains, compare_eq_iff.trans eq_iff_contains⟩, ?_⟩
  · have hinitial : r ∈ (ofRows initial).rows ↔ r ∈ initial := SortedSet.mem_keys_ofKeys
    rw [mem_rows_after, hinitial]
    rfl
  · intro κ α σ _ _ s st st₁ row cost initialCost previous fuel i D hdetect hexec hcost
    rw [Solver.loop_cycling_iff hdetect hexec hcost]
    simp only [← eq_iff_contains, exists_eq_right]

/-- Edits that bring in the bound and take out the row with the largest index leave the bound alone.
A run that drops the bound is stopped if the set of these edits has been recorded. -/
theorem looseHalfLine_edited : ∃ w : WorkingSet, ∃ st₁,
    w = (ofRows [⟨1, UInt64.size - 1⟩]).after [.insert ⟨1, 0⟩, .remove ⟨1, UInt64.size - 1⟩] ∧
      w.contains ⟨1, 0⟩ = true ∧ ¬w.contains ⟨1, UInt64.size - 1⟩ = true ∧
      Run.exec Solver.looseHalfLine.iterate ⟨.ofRows [⟨1, 0⟩], .single 0 3, (), []⟩ =
        (.ok (.dropped ⟨1, 0⟩), st₁) ∧
      (Run.exec (Solver.looseHalfLine.loop (-3) 1 0 (-3) [w])
        ⟨.ofRows [⟨1, 0⟩], .single 0 3, (), []⟩).1 = .error (.cause (.solver (.cycling 0))) := by
  obtain ⟨hshows, -, -, hequal, hguard⟩ := edited_spec
  have hok : (Run.exec Solver.looseHalfLine.iterate ⟨.ofRows [⟨1, 0⟩], .single 0 3, (), []⟩).1 =
      .ok (.dropped ⟨1, 0⟩) := by decide +kernel
  have hcost : Solver.looseHalfLine.graph.cost (Run.exec Solver.looseHalfLine.iterate
      ⟨.ofRows [⟨1, 0⟩], .single 0 3, (), []⟩).2.point = .ok (-3) := by decide +kernel
  have hcontains := (hshows [⟨1, UInt64.size - 1⟩]
    [.insert ⟨1, 0⟩, .remove ⟨1, UInt64.size - 1⟩]).contains
  refine ⟨_, _, rfl, (hcontains _).2 (.inl rfl), fun hmax => ?_, Prod.ext hok rfl, ?_⟩
  · rcases (hcontains _).1 hmax with hlast | ⟨-, hnever⟩
    · cases hlast
    · exact hnever (List.mem_cons_of_mem _ List.mem_cons_self)
  · refine (hguard _ _ _ _ _ _ _ _ _ _ rfl (Prod.ext hok rfl) hcost).2
      ⟨_, List.mem_singleton_self _, (hequal _ _).1.1 ?_⟩
    decide +kernel

end WorkingSet

end GaussianProgram
