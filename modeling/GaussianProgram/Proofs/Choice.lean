import GaussianProgram.Proofs.RenamedProblem

/-! Answers by choice. The only minimum of a graph can be chosen, and so can its singular values.
Where the answers to some graphs are known they may come from a table, so that a run can be followed
with an eliminator that is exact for all graphs. -/
namespace GaussianProgram
open Finset (range)

section Minima
variable {κ α : Type} [Key κ] [ExactScalar α]

open Classical in
/-- The only minimum of a graph, if there is one. -/
noncomputable def Graph.pick (g : Graph κ α) : Reply κ α :=
  ⟨if h : ∃ x, g.IsSolution x then .ok h.choose else Result.fail .singularMatrix, []⟩

theorem Graph.pick_eq_ok {g : Graph κ α} {x : Assignment κ α} :
    g.pick.result = .ok x ↔ g.IsSolution x := by
  unfold pick
  dsimp only
  split_ifs with h
  · rw [Except.ok.injEq]
    constructor
    · rintro rfl
      exact h.choose_spec
    · intro hx
      exact hx.2 _ h.choose_spec.1
  · simp only [Result.fail, reduceCtorEq, false_iff]
    exact fun hx => h ⟨x, hx⟩

variable [DecidableEq α]

/-- The answer that a table has for a graph, and the minimum of a graph that is not in it. -/
noncomputable def Graph.known (table : List (Graph κ α × Assignment κ α)) (g : Graph κ α) :
    Reply κ α :=
  match (Elimination.lookup table g).result with
  | .ok x => ⟨.ok x, []⟩
  | .error _ => g.pick

theorem Graph.known_eq_ok {table : List (Graph κ α × Assignment κ α)}
    (htable : ∀ e ∈ table, e.1.IsSolution e.2) {g : Graph κ α} {x : Assignment κ α} :
    (known table g).result = .ok x ↔ g.IsSolution x := by
  unfold known
  cases hlookup : (Elimination.lookup table g).result with
  | ok y =>
    have hy : g.IsSolution y := htable _ (Elimination.mem_of_lookup hlookup)
    dsimp only
    rw [Except.ok.injEq]
    constructor
    · rintro rfl
      exact hy
    · exact fun hx => hx.2 y hy.1
  | error e => exact pick_eq_ok

end Minima

namespace Matrix
variable {α : Type} [ExactScalar α]

open Classical in
noncomputable def pickSingularValues (m : Matrix α) : Option (Vec α) :=
  if h : ∃ values, m.HasSingularValues values then some h.choose else none

/-- Every row has a one in the column that `σ` gives it, and zeros elsewhere. -/
def IsAlong (m : Matrix α) (σ : Equiv.Perm ℕ) : Prop :=
  m.rows ≤ m.cols ∧ (∀ k < m.cols, σ k < m.cols) ∧
    ∀ i < m.rows, ∀ j < m.cols, m.get i j = if j = σ i then 1 else 0

instance [DecidableEq α] (m : Matrix α) (σ : Equiv.Perm ℕ) : Decidable (m.IsAlong σ) :=
  inferInstanceAs (Decidable (_ ∧ _ ∧ _))

/-- All singular values of rows along different axes are one. -/
theorem IsAlong.hasSingularValues {m : Matrix α} {σ : Equiv.Perm ℕ} (h : m.IsAlong σ) :
    m.HasSingularValues (List.replicate m.rows 1) := by
  obtain ⟨hle, hσ, hm⟩ := h
  have hmin : min m.rows m.cols = m.rows := min_eq_left hle
  refine ⟨by rw [List.length_replicate, hmin], fun a ha => ?_,
    fun i k => if i = k then 1 else 0, fun j k => if j = σ k then 1 else 0,
    fun k hk l _ => ?_, fun k hk l _ => ?_, fun i hi j hj => ?_⟩
  · rw [List.eq_of_mem_replicate ha]
    exact zero_le_one
  · rw [Finset.sum_eq_single_of_mem k (Finset.mem_range.2 hk) fun i _ hne => by simp [hne]]
    simp
  · have hmem := Finset.mem_range.2 (hσ k hk)
    rw [Finset.sum_eq_single_of_mem (σ k) hmem fun i _ hne => by simp [hne]]
    simp [σ.injective.eq_iff]
  · have hone : Vec.get (List.replicate m.rows (1 : α)) i = 1 := by simp [Vec.get, hi]
    rw [hmin, hm i hi j hj, Finset.sum_eq_single_of_mem i (Finset.mem_range.2 hi)]
    · simp [hone]
    · intro k _ hne
      simp [hne.symm]

/-- Ones for a matrix along some of the given axes, and some singular values of any other one. -/
noncomputable def knownSingularValues [DecidableEq α] (axes : List (Equiv.Perm ℕ)) (m : Matrix α) :
    Option (Vec α) :=
  if ∃ σ ∈ axes, m.IsAlong σ then some (List.replicate m.rows 1) else m.pickSingularValues

end Matrix

section SingularValues
variable {α : Type} [ExactScalar α]

theorem exactSingularValues_pick :
    ExactSingularValues (Matrix.pickSingularValues (α := α)) := by
  refine ⟨fun m values h => ?_, fun m values h => ⟨_, dif_pos ⟨values, h⟩⟩⟩
  unfold Matrix.pickSingularValues at h
  split_ifs at h with hm
  cases h
  exact hm.choose_spec

theorem exactSingularValues_known [DecidableEq α] (axes : List (Equiv.Perm ℕ)) :
    ExactSingularValues (Matrix.knownSingularValues (α := α) axes) := by
  refine ⟨fun m values h => ?_, fun m values h => ?_⟩
  · unfold Matrix.knownSingularValues at h
    split_ifs at h with hm
    · cases h
      obtain ⟨σ, -, hσ⟩ := hm
      exact hσ.hasSingularValues
    · exact exactSingularValues_pick.sound m values h
  · unfold Matrix.knownSingularValues
    split_ifs
    · exact ⟨_, rfl⟩
    · exact exactSingularValues_pick.complete m values h

end SingularValues

theorem LinearRows.value_single (k : ℕ) (b : ℚ) (p : Point ℕ ℚ) :
    (LinearRows.single k b none).value p = 1 / 2 * (p k 0 - b) ^ 2 := by
  have hrows : (LinearRows.single k b none).rows = 1 := rfl
  rw [value, hrows, Finset.sum_range_one, gap, form_single, ExactScalar.half_eq]
  exact congrArg (1 / 2 * ·) (pow_two (p k 0 - b)).symm

namespace Graph

section Factors
variable {κ α : Type} [Key κ] [ExactScalar α] {g : Graph κ α} {x : Assignment κ α}

/-- An assignment at which every factor costs least by itself is the only minimum if each factor
costs more wherever its variables are different. -/
theorem isSolution_of_factors (hx : g.Fits x) (hreads : ∀ f ∈ g.factors, f.Readable x)
    (hrows : ∀ r, g.rowKind? r = some .equality → g.rowSlack r x = .ok 0)
    (hle : ∀ y : Assignment κ α, (∀ r, g.rowKind? r = some .equality → g.rowSlack r y = .ok 0) →
      ∀ f ∈ g.factors, f.value x.entries ≤ f.value y.entries ∧
        (f.value y.entries ≤ f.value x.entries → ∀ e ∈ f.keyDims, ∀ j < e.2,
          x.entries e.1 j = y.entries e.1 j)) : g.IsSolution x := by
  refine ⟨⟨hx, hrows, _, cost_eq_ok.2 ⟨hreads, rfl⟩, fun y cost _ hy hcost => ?_⟩, fun y hy => ?_⟩
  · rw [(cost_eq_ok.1 hcost).2]
    exact List.sum_le_sum fun f hf => (hle y hy f hf).1
  · obtain ⟨least, hleast, hmin⟩ := hy.least
    have hyx := hmin x _ hx hrows (cost_eq_ok.2 ⟨hreads, rfl⟩)
    rw [(cost_eq_ok.1 hleast).2] at hyx
    refine Eq.symm (hx.ext_entries hy.fits fun f hf => (hle y hy.rows f hf).2 ?_)
    -- no factor costs less at `y`, so one that costs more makes the whole cost more
    by_contra hlt
    exact absurd hyx (not_le.2 (List.sum_lt_sum _ _ (fun f hf => (hle y hy.rows f hf).1)
      ⟨f, hf, not_le.1 hlt⟩))

end Factors

/-- Rows that compare one variable each with a number. -/
def singles (rows : List (ℕ × ℚ × Option RowKind)) : Graph ℕ ℚ :=
  ⟨rows.map fun e => .linear (.single e.1 e.2.1 e.2.2)⟩

section Singles
variable {rows : List (ℕ × ℚ × Option RowKind)} {x y : Assignment ℕ ℚ}

theorem entry_of_rows
    (hrows : ∀ r, (singles rows).rowKind? r = some .equality → (singles rows).rowSlack r x = .ok 0)
    {k : ℕ} {b : ℚ} (h : (k, b, some .equality) ∈ rows) : x.entries k 0 = b := by
  obtain ⟨i, hi⟩ := List.mem_iff_getElem?.1 h
  have hc : (singles rows).constraintAt? i = some (.single k b (some .equality)) := by
    rw [constraintAt?_eq_some]
    exact ⟨_, by rw [singles, List.getElem?_map, hi]; rfl, rfl⟩
  have hslack := (rowSlack_eq_ok.1 (hrows ⟨i, 0⟩ (rowKind?_eq_some.2 ⟨_, hc, rfl⟩))).2
  rw [slack_eq hc, LinearRows.form_single] at hslack
  exact (sub_eq_zero.1 hslack.symm).symm

/-- All rows are equalities or costs, and the equalities hold. So do the costs, but those of
variables that have an equality row. -/
def IsMet (rows : List (ℕ × ℚ × Option RowKind)) (x : Assignment ℕ ℚ) : Prop :=
  ∀ e ∈ rows, e.2.2 = some .equality ∧ x.entries e.1 0 = e.2.1 ∨
    e.2.2 = none ∧ (x.entries e.1 0 = e.2.1 ∨ ∃ e' ∈ rows, e'.1 = e.1 ∧ e'.2.2 = some .equality)

instance (rows : List (ℕ × ℚ × Option RowKind)) (x : Assignment ℕ ℚ) : Decidable (IsMet rows x) :=
  inferInstanceAs (Decidable (∀ e ∈ rows, _))

theorem IsMet.entry_eq (h : IsMet rows x) {k : ℕ} {b : ℚ} (he : (k, b, some .equality) ∈ rows) :
    x.entries k 0 = b := by
  rcases h _ he with ⟨-, hb⟩ | ⟨hnone, -⟩
  · exact hb
  · cases hnone

theorem mem_singles {f : Factor ℕ ℚ} (hf : f ∈ (singles rows).factors) :
    ∃ k b kind, (k, b, kind) ∈ rows ∧ f = .linear (.single k b kind) := by
  obtain ⟨⟨k, b, kind⟩, he, rfl⟩ := List.mem_map.1 hf
  exact ⟨k, b, kind, he, rfl⟩

theorem IsMet.rowSlack_eq (hmet : IsMet rows x) (hx : (singles rows).Fits x) {r : ConstraintRow}
    (hr : (singles rows).rowKind? r = some .equality) : (singles rows).rowSlack r x = .ok 0 := by
  obtain ⟨c, hc, hk⟩ := rowKind?_eq_some.1 hr
  have hf := mem_factors_of_constraintAt? hc
  obtain ⟨k, b, kind, he, hf'⟩ := mem_singles hf
  cases hf'
  have hlt := LinearRows.rowKind?_lt hk
  obtain ⟨i, row⟩ := r
  obtain rfl : row = 0 := Nat.lt_one_iff.1 hlt
  refine rowSlack_eq_ok.2 ⟨⟨_, hc, hlt, hx.1 _ hf⟩, ?_⟩
  obtain rfl : kind = some .equality := by
    cases kind with
    | none => cases hk
    | some kind => exact hk
  rw [slack_eq hc, LinearRows.form_single, hmet.entry_eq he]
  exact (sub_self b).symm

/-- No assignment on the equality rows has a factor of less cost. It has none of the same cost
either, unless it has the same variable in it. -/
theorem IsMet.value_le (hmet : IsMet rows x)
    (hy : ∀ r, (singles rows).rowKind? r = some .equality → (singles rows).rowSlack r y = .ok 0)
    {f : Factor ℕ ℚ} (hf : f ∈ (singles rows).factors) : f.value x.entries ≤ f.value y.entries ∧
      (f.value y.entries ≤ f.value x.entries →
        ∀ e ∈ f.keyDims, ∀ j < e.2, x.entries e.1 j = y.entries e.1 j) := by
  obtain ⟨k, b, kind, he, rfl⟩ := mem_singles hf
  have hpinned {b' : ℚ} (he' : (k, b', some .equality) ∈ rows) : x.entries k 0 = y.entries k 0 :=
    (hmet.entry_eq he').trans (entry_of_rows hy he').symm
  have hvariable (h : x.entries k 0 = y.entries k 0) : ∀ e ∈ [(k, 1)], ∀ j < e.2,
      x.entries e.1 j = y.entries e.1 j := by
    intro e he j hj
    cases List.mem_singleton.1 he
    obtain rfl := Nat.lt_one_iff.1 hj
    exact h
  -- an equality row costs nothing, a free variable is where its cost vanishes, and a variable with an
  -- equality row cannot move
  rcases hmet _ he with ⟨rfl, -⟩ | ⟨rfl, hb | ⟨⟨_, b', _⟩, he', rfl, rfl⟩⟩
  · exact ⟨le_rfl, fun _ => hvariable (hpinned he)⟩
  · simp only [Factor.value, LinearRows.value_single]
    rw [hb, sub_self, zero_pow two_ne_zero, mul_zero]
    refine ⟨by positivity, fun hle => hvariable ?_⟩
    have hsq : (y.entries k 0 - b) ^ 2 ≤ 0 := by linarith
    have hzero := (pow_eq_zero_iff two_ne_zero).1 (le_antisymm hsq (sq_nonneg _))
    rw [hb, sub_eq_zero.1 hzero]
  · have hsame := hpinned he'
    simp only [Factor.value, LinearRows.value_single]
    rw [hsame]
    exact ⟨le_rfl, fun _ => hvariable hsame⟩

/-- An assignment that meets the rows is the only minimum. -/
theorem isSolution_singles (hx : (singles rows).Fits x) (hmet : IsMet rows x) :
    (singles rows).IsSolution x := by
  refine isSolution_of_factors hx (fun f hf => ?_) (fun r hr => hmet.rowSlack_eq hx hr)
    fun y hy f hf => hmet.value_le hy hf
  obtain ⟨k, b, kind, -, rfl⟩ := mem_singles hf
  exact fun _ => hx.1 _ hf

end Singles

end Graph

end GaussianProgram
