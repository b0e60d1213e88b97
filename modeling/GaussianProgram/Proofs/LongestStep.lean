import GaussianProgram.Proofs.RatioTest
import GaussianProgram.Proofs.Table

/-! The step of the ratio test is the longest along which no row that the candidate violates is
crossed, and it is computed without a division by zero. -/
namespace GaussianProgram

/-- An outcome that was computed without a division by zero. Beside it stands no outcome at all. -/
def Result.defined {ε β : Type} (r : Result ε β) : ExceptT (Failure ε) Option β :=
  ExceptT.mk (some r)

namespace Result
variable {ε β γ : Type}

theorem defined_pure (b : β) : (defined (pure b) : ExceptT (Failure ε) Option β) = pure b := rfl

theorem defined_bind (r : Result ε β) (f : β → Result ε γ) :
    defined (r >>= f) = defined r >>= fun b => defined (f b) := by
  cases r <;> rfl

theorem foldlM_defined {δ : Type} (f : β → δ → Result ε β) (l : List δ) (b : β) :
    l.foldlM (fun b a => defined (f b a)) b = defined (l.foldlM f b) := by
  induction l generalizing b with
  | nil => rfl
  | cons a l ih =>
    rw [List.foldlM_cons, List.foldlM_cons, defined_bind]
    exact bind_congr ih

end Result

theorem ExactScalar.clampUnit_eq {α : Type} [ExactScalar α] (x : α) :
    Scalar.clampUnit x = max 0 (min 1 x) := by
  unfold Scalar.clampUnit
  split_ifs with h0 h1
  · rw [min_eq_right (h0.le.trans zero_le_one), max_eq_left h0.le]
  · rw [min_eq_left h1.le, max_eq_right zero_le_one]
  · rw [min_eq_right (not_lt.1 h1), max_eq_right (not_lt.1 h0)]

namespace Graph
variable {κ α : Type} [Key κ] [ExactScalar α]

section Division

def quotient? (a b : α) : Option α := if b = 0 then none else some (a / b)

/-- The fraction at which a row is reached, none if it takes a division by zero. -/
def stepFraction? (before after : α) : Option α :=
  let denominator := before - after
  if 0 < denominator then (quotient? before denominator).map Scalar.clampUnit else some 0

def blockingFractionGuarded (f : LinearRows κ α) (row : ℕ) (tolerance : α)
    (current candidate : Assignment κ α) :
    ExceptT (Failure (FactorError α)) Option (Option α) := do
  let b ← Result.defined (Result.inRange f.rhs[row]?)
  let after := b - (← Result.defined (f.rowValue row candidate))
  if -tolerance ≤ after then return none
  let before := b - (← Result.defined (f.rowValue row current))
  return some (← ExceptT.lift (stepFraction? before after))

def stepSizeGuarded (g : Graph κ α) (w : WorkingSet) (tolerance : α)
    (current candidate : Assignment κ α) :
    ExceptT (Failure (FactorError α)) Option (Option (ConstraintRow × α)) :=
  g.inequalityRows.foldlM (fun best r =>
    if w.contains r then return best
    else match g.constraintAt? r.factor with
    | none => return best
    | some f => do
      match ← blockingFractionGuarded f r.row tolerance current candidate with
      | none => return best
      | some fraction => return earlier best r fraction) none

/-- A divisor is positive. -/
theorem stepFraction?_eq (before after : α) :
    stepFraction? before after = some (stepFraction before after) := by
  simp only [stepFraction?, stepFraction]
  split_ifs with hpos
  · rw [quotient?, if_neg hpos.ne']
    rfl
  · rfl

theorem blockingFractionGuarded_eq (f : LinearRows κ α) (row : ℕ) (tolerance : α)
    (current candidate : Assignment κ α) :
    blockingFractionGuarded f row tolerance current candidate =
      Result.defined (blockingFraction? f row tolerance current candidate) := by
  unfold blockingFractionGuarded blockingFraction?
  rw [Result.defined_bind]
  refine bind_congr fun b => ?_
  rw [Result.defined_bind]
  refine bind_congr fun v => ?_
  dsimp only
  split_ifs with hafter
  · rfl
  · rw [Result.defined_bind]
    refine bind_congr fun u => ?_
    rw [stepFraction?_eq]
    rfl

/-- The ratio test never divides by zero, whatever it is given. -/
theorem stepSizeGuarded_eq (g : Graph κ α) (w : WorkingSet) (tolerance : α)
    (current candidate : Assignment κ α) : g.stepSizeGuarded w tolerance current candidate =
      Result.defined (g.stepSize w tolerance current candidate) := by
  unfold stepSizeGuarded stepSize
  rw [← Result.foldlM_defined]
  congr 1
  funext best r
  split_ifs with hw
  · rfl
  cases g.constraintAt? r.factor with
  | none => rfl
  | some f =>
    dsimp only
    rw [Result.defined_bind, blockingFractionGuarded_eq]
    refine bind_congr fun fraction => ?_
    cases fraction <;> rfl

end Division

section Longest

def Outside (g : Graph κ α) (w : WorkingSet) (r : ConstraintRow) : Prop :=
  g.rowKind? r = some .inequality ∧ r ∉ w.rows

def Violates (g : Graph κ α) (w : WorkingSet) (tolerance : α) (candidate : Assignment κ α)
    (r : ConstraintRow) : Prop :=
  g.Outside w r ∧ g.slack r candidate.entries < -tolerance

def HasRow (g : Graph κ α) (x : Assignment κ α) (r : ConstraintRow) : Prop :=
  ∀ c, g.constraintAt? r.factor = some c → x.HasDims c.keyDims

/-- The fraction of the way at which the slack of a row is used up, in the unit interval. -/
def reach (before after : α) : α :=
  if 0 < before - after then max 0 (min 1 (before / (before - after))) else 0

/-- What holds of the row and the fraction that a step goes. -/
structure IsLongestStep (g : Graph κ α) (w : WorkingSet) (tolerance : α)
    (current candidate : Assignment κ α) (r : ConstraintRow) (t : α) : Prop where
  violates : g.Violates w tolerance candidate r
  nonneg : 0 ≤ t
  le_one : t ≤ 1
  first : FirstLeast (fun r t => g.Violates w tolerance candidate r ∧
    t = reach (g.slack r current.entries) (g.slack r candidate.entries)) r t
  longest : (∀ r', g.Violates w tolerance candidate r' → 0 ≤ g.slack r' current.entries) →
    t < 1 ∧
    (∀ u, 0 ≤ u → u ≤ t → ∀ r', g.Violates w tolerance candidate r' →
      0 ≤ g.slack r' (current.entries + u • (candidate.entries - current.entries))) ∧
    g.slack r (current.entries + t • (candidate.entries - current.entries)) = 0 ∧
    ∀ u, t < u → u ≤ 1 →
      g.slack r (current.entries + u • (candidate.entries - current.entries)) < 0

variable {g : Graph κ α} {w : WorkingSet} {tolerance : α} {current candidate : Assignment κ α}

theorem stepFraction_eq_reach (before after : α) :
    stepFraction before after = reach before after := by
  simp only [stepFraction, reach, ExactScalar.clampUnit_eq]

theorem HasRow.rowSlack_eq {x : Assignment κ α} {r : ConstraintRow} (h : g.HasRow x r)
    {kind : RowKind} (hr : g.rowKind? r = some kind) :
    g.rowSlack r x = .ok (g.slack r x.entries) := by
  obtain ⟨c, hc, hk⟩ := rowKind?_eq_some.1 hr
  exact rowSlack_eq_ok.2 ⟨⟨c, hc, LinearRows.rowKind?_lt hk, h c hc⟩, rfl⟩

/-- The candidate satisfies a row or violates it. -/
theorem passes_iff {r : ConstraintRow} (hr : g.rowKind? r = some .inequality)
    (hp : g.Outside w r → g.HasRow candidate r) :
    g.Passes w tolerance candidate r ↔ ¬g.Violates w tolerance candidate r := by
  by_cases hw : r ∈ w.rows
  · exact iff_of_true (.inl hw) fun h => h.1.2 hw
  · have hslack := (hp ⟨hr, hw⟩).rowSlack_eq hr
    simp [Passes, Violates, Outside, hw, hr, hslack]

/-- The rows that block are those that the candidate violates, where their slack is used up. -/
theorem blocks_iff (hp : ∀ r, g.Outside w r → g.HasRow candidate r)
    (hx : ∀ r, g.Violates w tolerance candidate r → g.HasRow current r)
    {r : ConstraintRow} {t : α} :
    (g.rowKind? r = some .inequality ∧ g.Blocks w tolerance current candidate r t) ↔
      g.Violates w tolerance candidate r ∧
        t = reach (g.slack r current.entries) (g.slack r candidate.entries) := by
  constructor
  · rintro ⟨hr, hw, before, after, hbefore, hafter, hlow, rfl⟩
    cases ((hp r ⟨hr, hw⟩).rowSlack_eq hr).symm.trans hafter
    have hviolates : g.Violates w tolerance candidate r := ⟨⟨hr, hw⟩, not_le.1 hlow⟩
    cases ((hx r hviolates).rowSlack_eq hr).symm.trans hbefore
    exact ⟨hviolates, stepFraction_eq_reach _ _⟩
  · rintro ⟨hviolates, rfl⟩
    obtain ⟨hr, hw⟩ := hviolates.1
    exact ⟨hr, hw, _, _, (hx r hviolates).rowSlack_eq hr, (hp r ⟨hr, hw⟩).rowSlack_eq hr,
      not_le.2 hviolates.2, (stepFraction_eq_reach _ _).symm⟩

/-- From a row that holds towards one that does not, the slack falls evenly, and it is used up where
the row is reached. -/
theorem slack_way {r : ConstraintRow} {p q : Point κ α} (hp : 0 ≤ g.slack r p)
    (hq : g.slack r q < 0) (u : α) : g.slack r (p + u • (q - p)) =
      (reach (g.slack r p) (g.slack r q) - u) * (g.slack r p - g.slack r q) := by
  have hmul := stepFraction_mul hp hq
  rw [stepFraction_eq_reach] at hmul
  calc g.slack r (p + u • (q - p)) = g.slack r p - u * (g.slack r p - g.slack r q) := by
        rw [slack_segment]
        ring
    _ = reach (g.slack r p) (g.slack r q) * (g.slack r p - g.slack r q) -
          u * (g.slack r p - g.slack r q) := by rw [hmul]
    _ = _ := (sub_mul _ _ _).symm

/-- The answer of the ratio test is the longest step. -/
theorem isLongestStep_of_stepSize (htolerance : 0 ≤ tolerance)
    (hp : ∀ r, g.Outside w r → g.HasRow candidate r)
    (hx : ∀ r, g.Violates w tolerance candidate r → g.HasRow current r) {r : ConstraintRow} {t : α}
    (h : g.stepSize w tolerance current candidate = .ok (some (r, t))) :
    g.IsLongestStep w tolerance current candidate r t := by
  have hfirst := firstLeast_of_stepSize h
  simp only [blocks_iff hp hx] at hfirst
  obtain ⟨h0, h1⟩ := fraction_mem h
  refine ⟨hfirst.offered.1, h0, h1, hfirst, fun hholds => ?_⟩
  have hneg {r' : ConstraintRow} (hr' : g.Violates w tolerance candidate r') :
      g.slack r' candidate.entries < 0 := hr'.2.trans_le (neg_nonpos.2 htolerance)
  have hfall {r' : ConstraintRow} (hr' : g.Violates w tolerance candidate r') :
      0 < g.slack r' current.entries - g.slack r' candidate.entries :=
    sub_pos.2 ((hneg hr').trans_le (hholds r' hr'))
  have hr := hfirst.offered.1
  have hbeyond (u : α) (hu : t < u) :
      g.slack r (current.entries + u • (candidate.entries - current.entries)) < 0 := by
    rw [slack_way (hholds r hr) (hneg hr), ← hfirst.offered.2]
    exact mul_neg_of_neg_of_pos (sub_neg.2 hu) (hfall hr)
  have hreached :
      g.slack r (current.entries + t • (candidate.entries - current.entries)) = 0 := by
    rw [slack_way (hholds r hr) (hneg hr), ← hfirst.offered.2, sub_self, zero_mul]
  refine ⟨lt_of_le_of_ne h1 fun hone => ?_, fun u _ hu r' hr' => ?_, hreached,
    fun u hu _ => hbeyond u hu⟩
  · rw [hone, one_smul, add_sub_cancel] at hreached
    exact (hneg hr).ne hreached
  · rw [slack_way (hholds r' hr') (hneg hr')]
    refine mul_nonneg (sub_nonneg.2 (hu.trans ?_)) (hfall hr').le
    exact not_lt.1 (hfirst.least r' _ ⟨hr', rfl⟩)

/-- The ratio test. It finds nothing exactly if the candidate satisfies every inequality row outside
the working set. Otherwise it finds the first of the rows that are reached first, and the step is
the longest that crosses none of them. It never divides by zero. -/
theorem stepSize_spec (g : Graph κ α) (w : WorkingSet) (tolerance : α)
    (current candidate : Assignment κ α) :
    g.stepSizeGuarded w tolerance current candidate =
      Result.defined (g.stepSize w tolerance current candidate) ∧
    (0 ≤ tolerance → (∀ r, g.Outside w r → g.HasRow candidate r) →
      (∀ r, g.Violates w tolerance candidate r → g.HasRow current r) →
      (g.stepSize w tolerance current candidate = .ok none ↔
        ∀ r, g.Outside w r → -tolerance ≤ g.slack r candidate.entries) ∧
      ((∃ r, g.Violates w tolerance candidate r) → ∃ r t,
        g.stepSize w tolerance current candidate = .ok (some (r, t)) ∧
          g.IsLongestStep w tolerance current candidate r t)) := by
  refine ⟨g.stepSizeGuarded_eq w tolerance current candidate, fun htolerance hp hx => ?_⟩
  have hnone : g.stepSize w tolerance current candidate = .ok none ↔
      ∀ r, g.Outside w r → -tolerance ≤ g.slack r candidate.entries := by
    rw [stepSize_eq_none]
    constructor
    · intro hall r hr
      exact not_lt.1 fun hlow => (passes_iff hr.1 (hp r)).1 (hall r hr.1) ⟨hr, hlow⟩
    · exact fun hall r hr => (passes_iff hr (hp r)).2 fun hv => not_lt.2 (hall r hv.1) hv.2
  refine ⟨hnone, ?_⟩
  rintro ⟨r, hr⟩
  obtain ⟨best, hbest⟩ : ∃ best, g.stepSize w tolerance current candidate = .ok best := by
    refine exists_stepSize fun r hr => ?_
    by_cases hv : g.Violates w tolerance candidate r
    · exact .inr ⟨_, ((blocks_iff hp hx).2 ⟨hv, rfl⟩).2⟩
    · exact .inl ((passes_iff hr (hp r)).2 hv)
  cases best with
  | none => exact absurd (hnone.1 hbest r hr.1) (not_le.2 hr.2)
  | some found => exact ⟨found.1, found.2, hbest, isLongestStep_of_stepSize htolerance hp hx hbest⟩

/-- From `0` towards `4` the bound at `1` is reached a quarter of the way, before the bound
at `3`. -/
theorem twoBounds_stepSize :
    Solver.twoBounds.graph.stepSize .empty 0 (.single 0 0) (.single 0 4) =
      .ok (some (⟨1, 0⟩, 1 / 4)) ∧
    Solver.twoBounds.graph.IsLongestStep .empty 0 (.single 0 0) (.single 0 4) ⟨1, 0⟩ (1 / 4) := by
  have hkeys : ∀ r a, Solver.twoBounds.graph.HasRow (.single 0 a) r := by
    intro r a c hc
    exact (fits_single (List.cons_ne_nil _ _) (by decide) a).1 _ (mem_factors_of_constraintAt? hc)
  have hfound : Solver.twoBounds.graph.stepSize .empty 0 (.single 0 0) (.single 0 4) =
      .ok (some (⟨1, 0⟩, 1 / 4)) := by decide +kernel
  obtain ⟨-, hspec⟩ := stepSize_spec Solver.twoBounds.graph .empty 0 (.single 0 0) (.single 0 4)
  obtain ⟨hnone, hsome⟩ := hspec le_rfl (fun r _ => hkeys r 4) (fun r _ => hkeys r 0)
  have hviolated : ∃ r, Solver.twoBounds.graph.Violates .empty 0 (.single 0 4) r := by
    by_contra hall
    have hpasses := hnone.2 fun r hr => not_lt.1 fun hlow => hall ⟨r, hr, hlow⟩
    cases hfound.symm.trans hpasses
  obtain ⟨r, t, hanswer, hlongest⟩ := hsome hviolated
  cases hfound.symm.trans hanswer
  exact ⟨hfound, hlongest⟩

end Longest

end Graph

end GaussianProgram
