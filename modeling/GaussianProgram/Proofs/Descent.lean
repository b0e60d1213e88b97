import GaussianProgram.Proofs.Stationary

/-! Monotone descent. With an exact eliminator and no tolerance the working set stays
tight, and every step falls, because the candidate is the minimum over a space that holds
the whole way to it. -/
namespace GaussianProgram

namespace Graph
variable {κ α : Type} [Key κ] [ExactScalar α]

/-- The assignment satisfies the equality rows of the graph and minimizes its cost among all
that do. -/
structure Minimizes (g : Graph κ α) (x : Assignment κ α) : Prop where
  fits : g.Fits x
  rows : ∀ r, g.rowKind? r = some .equality → g.rowSlack r x = .ok 0
  least : ∃ least, g.cost x = .ok least ∧ ∀ y cost, g.Fits y →
    (∀ r, g.rowKind? r = some .equality → g.rowSlack r y = .ok 0) → g.cost y = .ok cost →
      least ≤ cost

/-- Where the cost is convex, a stationary point is a minimum. -/
theorem Stationary.minimizes {g : Graph κ α} {x : Assignment κ α} (h : g.Stationary x)
    (hsym : g.Symmetric) (hpsd : g.PositiveSemidefinite) {least : α}
    (hleast : g.cost x = .ok least) : g.Minimizes x := by
  refine ⟨h.fits, h.rows, least, hleast, fun y cost _ hy hcost => ?_⟩
  obtain ⟨L, hL, hslope⟩ := h.exists_slope
  have hzero : L (y.entries - x.entries) = 0 :=
    eq_zero_of_mem_span (fun r hr => rowForm_sub_eq_zero (h.rows r hr) (hy r hr)) hL
  have hle := value_add_slope_le hsym hpsd x.entries y.entries
  rw [hslope, hzero, add_zero] at hle
  rwa [(cost_eq_ok.1 hleast).2, (cost_eq_ok.1 hcost).2]

theorem Stationary.readable {g : Graph κ α} {x : Assignment κ α} (h : g.Stationary x) :
    ∀ f ∈ g.factors, f.Readable x := by
  obtain ⟨grad, hgrad, -⟩ := h.gradient
  exact readable_of_gradient hgrad

/-- Every active row holds with equality, and every other inequality row is satisfied. -/
structure Tight (g : Graph κ α) (w : WorkingSet) (x : Assignment κ α) : Prop where
  active : ∀ r, g.IsActive w r → g.rowSlack r x = .ok 0
  inactive : ∀ r, g.rowKind? r = some .inequality → r ∉ w.rows →
    ∃ slack, g.rowSlack r x = .ok slack ∧ 0 ≤ slack

theorem Tight.feasible {g : Graph κ α} {w : WorkingSet} {x : Assignment κ α} (h : g.Tight w x) :
    g.Feasible 0 x := by
  refine ⟨fun r hr => ⟨0, h.active r (.inl hr), by rw [abs_zero]⟩, fun r hr => ?_⟩
  rw [neg_zero]
  by_cases hw : r ∈ w.rows
  · exact ⟨0, h.active r (.inr ⟨hr, hw⟩), le_rfl⟩
  · exact h.inactive r hr hw

theorem Tight.of_feasible {g : Graph κ α} {w : WorkingSet} {x : Assignment κ α}
    (hactive : ∀ r, g.IsActive w r → g.rowSlack r x = .ok 0) (h : g.Feasible 0 x) : g.Tight w x :=
  ⟨hactive, fun r hr _ => by simpa using h.inequality r hr⟩

/-- Tightness of a working set from the slacks of all rows. -/
theorem tight_of_slacks {g : Graph κ α} {w : WorkingSet} {x : Assignment κ α}
    (slack : ConstraintRow → α) (hequality : ∀ r ∈ g.rowsOfKind .equality, g.rowSlack r x = .ok 0)
    (hinequality : ∀ r ∈ g.rowsOfKind .inequality,
      g.rowSlack r x = .ok (slack r) ∧ 0 ≤ slack r ∧ (r ∈ w.rows → slack r = 0)) :
    g.Tight w x := by
  refine ⟨fun r hr => ?_, fun r hr _ => ?_⟩
  · rcases hr with hk | ⟨hk, hw⟩
    · exact hequality r (mem_rowsOfKind.2 hk)
    · obtain ⟨hok, -, hzero⟩ := hinequality r (mem_rowsOfKind.2 hk)
      rw [hok, hzero hw]
  · obtain ⟨hok, hle, -⟩ := hinequality r (mem_rowsOfKind.2 hr)
    exact ⟨_, hok, hle⟩

theorem Tight.remove {g : Graph κ α} {w : WorkingSet} {x : Assignment κ α} (h : g.Tight w x)
    (row : ConstraintRow) : g.Tight (w.remove row).2 x := by
  exact .of_feasible (fun r hr => h.active r hr.of_remove) h.feasible

end Graph

namespace Solver
variable {κ α σ : Type} [Key κ] [ExactScalar α] {s : Solver κ α σ} {w w' : WorkingSet}
  {x y : Assignment κ α}

/-- Every answer of the eliminator is a minimum of the graph it was given. -/
def Minimizes (s : Solver κ α σ) : Prop :=
  ∀ (g : Graph κ α) (state : σ) (x : Assignment κ α),
    (s.eliminator.primal g state).1.result = .ok x → g.Minimizes x

theorem Minimizes.keepsRows (hs : s.Minimizes) : s.KeepsRows :=
  fun g state x h => (hs g state x h).rows

/-- Where the cost is convex, an exact answer is a minimum of the working problem. -/
theorem Solves.minimizes (hs : s.Exact) (hsym : s.graph.Symmetric)
    (hpsd : s.graph.PositiveSemidefinite) {working : Graph κ α} {solution : Assignment κ α}
    (h : s.Solves w working solution) : working.Minimizes solution := by
  obtain ⟨hworking, state, hanswer⟩ := h
  have hstationary := hs.primal _ _ _ hanswer
  refine hstationary.minimizes (hsym.workingGraph hworking) (fun d => ?_)
    (Graph.cost_eq_ok.2 ⟨hstationary.readable, rfl⟩)
  rw [Graph.curvature_working hworking]
  exact hpsd d

private theorem halfLine_minimizes : halfLine.Minimizes := by
  have hmin {rows : List (LinearRows ℕ ℚ)} {x : Assignment ℕ ℚ} (least : ℚ)
      (hx : (Graph.parabola rows).Stationary x) (hcost : (Graph.parabola rows).cost x = .ok least) :
      (Graph.parabola rows).Minimizes x :=
    hx.minimizes (Graph.parabola_symmetric rows) (Graph.parabola_positiveSemidefinite rows) hcost
  intro g state x h
  have hx := halfLine_exact.primal g state x h
  rcases List.mem_pair.1 (Elimination.mem_of_lookup h) with he | he
  · cases he
    exact hmin (-4) hx (by decide +kernel)
  · cases he
    exact hmin (-3) hx (by decide +kernel)

/-- The way from a point to the candidate, whose variables it has. -/
structure Reaches (s : Solver κ α σ) (w : WorkingSet) (x : Assignment κ α)
    (working : Graph κ α) (solution : Assignment κ α) : Prop where
  solves : s.graph.workingGraph w = .ok working
  minimizes : working.Minimizes solution
  dims : ∀ k n, (x.update solution).dim? k = some n → x.dim? k = some n

section Reaches
variable {working : Graph κ α} {solution : Assignment κ α}

theorem Reaches.sameShape (h : s.Reaches w x working solution) :
    x.SameShape (x.update solution) := by
  rw [← Assignment.update_update_self]
  exact Assignment.sameShape_update h.dims

private theorem Reaches.dims_solution (h : s.Reaches w x working solution) (k : κ) (n : ℕ)
    (hk : solution.dim? k = some n) : x.dim? k = some n := by
  obtain ⟨v, hv, hn⟩ := Assignment.dim?_eq_some.1 hk
  refine h.dims k n (Assignment.dim?_eq_some.2 ⟨v, ?_, hn⟩)
  rw [Assignment.get?_update, hv]
  rfl

private theorem Reaches.readable_working (h : s.Reaches w x working solution) {f : Factor κ α}
    (hf : f ∈ working.factors) {y : Assignment κ α} (hy : y.HasDims f.keyDims) : f.Readable y := by
  obtain ⟨least, hleast, -⟩ := h.minimizes.least
  exact ((Graph.cost_eq_ok.1 hleast).1 f hf).mono fun e he _ => hy e he

/-- The point has a cost. -/
theorem Reaches.readable (h : s.Reaches w x working solution) :
    ∀ f ∈ s.graph.factors, f.Readable x :=
  Graph.readable_of_working h.solves fun f hf =>
    h.readable_working hf ((h.minimizes.fits.1 f hf).mono h.dims_solution)

private theorem Reaches.value_solution (h : s.Reaches w x working solution) :
    working.value solution.entries = s.graph.value (x.update solution).entries := by
  rw [← Graph.value_working h.solves]
  apply working.value_congr
  intro f hf k hk
  funext i
  exact (Assignment.entries_update (h.minimizes.fits.1.mem_keys hf hk) i).symm

/-- No point where the active rows hold with equality is better than the candidate. -/
theorem Reaches.le_value (h : s.Reaches w x working solution) {z : Assignment κ α}
    (hz : working.Covers z)
    (hactive : ∀ r, s.graph.IsActive w r → s.graph.slack r z.entries = 0) :
    s.graph.value (x.update solution).entries ≤ s.graph.value z.entries := by
  obtain ⟨z', hfits, hget⟩ := hz.exists_fits
  have hsame {f : Factor κ α} (hf : f ∈ working.factors) {k : κ} (hk : k ∈ f.keys) :
      z'.entries k = z.entries k := by
    funext i
    rw [Assignment.entries, Assignment.entries, hget f hf k hk]
  obtain ⟨least, hleast, hmin⟩ := h.minimizes.least
  obtain ⟨-, rfl⟩ := Graph.cost_eq_ok.1 hleast
  have hrows (r : ConstraintRow) (hr : working.rowKind? r = some .equality) :
      working.rowSlack r z' = .ok 0 := by
    obtain ⟨a, ha, -, hslack⟩ := Graph.exists_active_of_working h.solves hr
    have hcongr : working.slack r z'.entries = working.slack r z.entries := by
      apply Graph.slack_congr r
      intro c hc k hk
      rw [← Factor.keys_linear] at hk
      exact hsame (Graph.mem_factors_of_constraintAt? hc) hk
    rw [hfits.1.rowSlack_eq hr, hcongr, hslack, hactive a ha]
  have hcost : working.cost z' = .ok (working.value z'.entries) :=
    Graph.cost_eq_ok.2 ⟨fun f hf => h.readable_working hf (hfits.1 f hf), rfl⟩
  have hle := hmin z' _ hfits hrows hcost
  rwa [h.value_solution, working.value_congr fun f hf k hk => hsame hf hk,
    Graph.value_working h.solves] at hle

/-- Where the active rows hold with equality, no point on the way to the candidate is better. -/
theorem Reaches.value_le (h : s.Reaches w x working solution)
    (hactive : ∀ r, s.graph.IsActive w r → s.graph.rowSlack r x = .ok 0) (t : α) :
    s.graph.value (x.update solution).entries ≤
      s.graph.value (x.entries + t • ((x.update solution).entries - x.entries)) := by
  obtain ⟨z, hz⟩ := Assignment.exists_stepTowards h.dims t
  rw [← Assignment.entries_stepTowards hz (x.mem_keys_update_of_mem solution)]
  refine h.le_value ((h.minimizes.fits.1.mono h.dims_solution).of_sameShape
    (Assignment.sameShape_stepTowards hz)) fun a ha => ?_
  obtain ⟨r, hr, hrow⟩ := Graph.exists_working_of_active h.solves ha
  have hend := Graph.rowSlack_update (x := x) (hrow _ _ (h.minimizes.rows r hr))
  rw [Assignment.entries_stepTowards hz (x.mem_keys_update_of_mem solution), Graph.slack_segment,
    ← (Graph.rowSlack_eq_ok.1 (hactive a ha)).2, ← (Graph.rowSlack_eq_ok.1 hend).2, mul_zero,
    mul_zero, add_zero]

/-- The way to the candidate moves variables of the graph only. -/
private theorem Reaches.moves (h : s.Reaches w x working solution) {k : κ} {i : ℕ}
    (hki : ((x.update solution).entries - x.entries) k i ≠ 0) : ∃ f ∈ s.graph.factors,
      ∃ e ∈ f.keyDims, ∃ i < e.2, ((x.update solution).entries - x.entries) e.1 i ≠ 0 := by
  have hget : (x.update solution).get? k = (solution.get? k).or (x.get? k) :=
    Assignment.get?_update x solution k
  cases hv : solution.get? k with
  | none =>
    rw [hv, Option.none_or] at hget
    exact absurd (by simp [Assignment.entries, hget]) hki
  | some v =>
    rw [hv, Option.some_or] at hget
    obtain ⟨f, hf, hk⟩ := h.minimizes.fits.2 k (SortedMap.mem_keys_iff.2 ⟨v, hv⟩)
    obtain ⟨e, he, rfl⟩ := List.mem_map.1 hk
    obtain ⟨u, hu, hlen⟩ := Assignment.dim?_eq_some.1 (h.minimizes.fits.1 f hf e he)
    cases Option.some.inj (hv.symm.trans hu)
    obtain ⟨x₀, hx₀, hlen₀⟩ := Assignment.dim?_eq_some.1
      (h.dims_solution e.1 e.2 (h.minimizes.fits.1 f hf e he))
    obtain ⟨f₀, hf₀, hdims⟩ := Graph.exists_keyDims_of_mem_workingGraph h.solves hf
    refine ⟨f₀, hf₀, e, hdims ▸ he, i, ?_, hki⟩
    by_contra hi
    apply hki
    rw [Pi.sub_apply, Pi.sub_apply, Assignment.entries_eq hget, Assignment.entries_eq hx₀,
      Vec.get_of_length_le (by omega), Vec.get_of_length_le (by omega), sub_zero]

/-- A step to the candidate, or a part of the way, lowers the cost, and strictly so if it moves the
point and the cost is positive definite. -/
theorem Reaches.descends (h : s.Reaches w x working solution) (hsym : s.graph.Symmetric)
    (hpsd : s.graph.PositiveSemidefinite)
    (hactive : ∀ r, s.graph.IsActive w r → s.graph.rowSlack r x = .ok 0) {t : α} (h0 : 0 ≤ t)
    (h1 : t ≤ 1) {z : Assignment κ α} (hshape : x.SameShape z)
    (hz : z.entries = x.entries + t • ((x.update solution).entries - x.entries)) :
    ∃ before after, s.graph.cost x = .ok before ∧ s.graph.cost z = .ok after ∧ after ≤ before ∧
      (s.graph.PositiveDefinite → z ≠ x → after < before) := by
  set d := (x.update solution).entries - x.entries with hd
  have hreadable : ∀ f ∈ s.graph.factors, f.Readable z := fun f hf =>
    (h.readable f hf).mono fun e _ he => (hshape e.1).symm.trans he
  have hle : s.graph.value z.entries ≤ s.graph.value x.entries - t / 4 * s.graph.curvature d := by
    rw [hz]
    exact Graph.value_step_le hsym (h.value_le hactive (1 / 2)) (hpsd d) h0 h1
  have hquarter : 0 ≤ t / 4 := div_nonneg h0 (by norm_num)
  refine ⟨_, _, Graph.cost_eq_ok.2 ⟨h.readable, rfl⟩, Graph.cost_eq_ok.2 ⟨hreadable, rfl⟩, ?_, ?_⟩
  · have hdrop := mul_nonneg hquarter (hpsd d)
    linarith
  · intro hpd hne
    obtain ⟨k, i, hki⟩ : ∃ k i, z.entries k i ≠ x.entries k i := by
      by_contra hall
      refine hne (Assignment.ext_entries (fun k => (hshape k).symm) ?_)
      funext k i
      by_contra hki
      exact hall ⟨k, i, hki⟩
    have hmove : t * d k i ≠ 0 := by
      intro hzero
      apply hki
      rw [hz]
      simp only [Pi.add_apply, Pi.smul_apply, smul_eq_mul, hzero, add_zero]
    have ht : 0 < t := lt_of_le_of_ne h0 fun he => hmove (by rw [← he, zero_mul])
    have hdki : d k i ≠ 0 := fun he => hmove (by rw [he, mul_zero])
    have hpos : 0 < s.graph.curvature d := hpd d (h.moves hdki)
    have hdrop := mul_pos (div_pos ht (by norm_num : (0 : α) < 4)) hpos
    linarith

end Reaches

/-- An iteration that accepts the candidate leaves a tight working set, whatever it began with. -/
theorem Accepts.tight (hs : s.KeepsRows) (htol : s.config.feasibilityTolerance = 0) {distance : α}
    (h : s.Accepts w x y distance) : s.graph.Tight w y := by
  obtain ⟨hactive, hinactive⟩ := h.rowSlack hs
  refine ⟨hactive, fun r hr hw => ?_⟩
  obtain ⟨after, hafter, hle⟩ := hinactive r hr hw
  exact ⟨after, hafter, by rwa [htol, neg_zero] at hle⟩

/-- A blocked step keeps the active rows tight and reaches the blocking row exactly. -/
theorem blocked_tight (hs : s.KeepsRows) (htol : s.config.feasibilityTolerance = 0)
    {working : Graph κ α} {solution : Assignment κ α} {row : ConstraintRow} {t : α}
    (hsolves : s.Solves w working solution)
    (hblock : s.graph.stepSize w s.config.feasibilityTolerance x (x.update solution) =
      .ok (some (row, t)))
    (hstep : x.stepTowards (x.update solution) t = (.ok (), y)) (hx : s.graph.Tight w x) :
    s.graph.Tight (w.insert row).2 y := by
  have hfeasible := (Iterates.blocked hsolves hblock hstep).feasible hs htol.ge (htol ▸ hx.feasible)
  rw [htol] at hfeasible
  refine .of_feasible (fun r hr => ?_) hfeasible
  by_cases hactive : s.graph.IsActive w r
  · obtain ⟨kind, hkind⟩ := hr.exists_kind
    obtain ⟨after, -, hy, hcase⟩ :=
      blocked_rows hs hsolves hblock hstep hkind (hx.active r hactive)
    obtain ⟨-, rfl⟩ := hcase.resolve_right fun hn => hn.1 hactive
    rwa [mul_zero, mul_zero, add_zero] at hy
  · obtain ⟨hineq, ⟨hnew, before, after, hb, ha, hlt, rfl⟩, -⟩ := Graph.stepSize_eq_some hblock
    have hrow : r = row := by
      rcases hr with hk | ⟨hk, hmem⟩
      · exact absurd (.inl hk) hactive
      · exact (WorkingSet.mem_rows_insert.1 hmem).resolve_right fun hw => hactive (.inr ⟨hk, hw⟩)
    subst hrow
    obtain ⟨_, hslack, hnonneg⟩ := hx.inactive r hineq hnew
    cases Except.ok.inj (hslack.symm.trans hb)
    have hreach := Graph.stepFraction_mul hnonneg (by
      simpa [htol] using hlt : after < 0)
    have hzero : (1 - Graph.stepFraction before after) * before +
        Graph.stepFraction before after * after = 0 := by linarith
    rw [← hzero]
    exact Graph.rowSlack_stepTowards hstep (x.mem_keys_update_of_mem solution) hb ha

/-- An iteration that succeeds from a tight working set leaves a tight one. -/
theorem Iterates.tight (hs : s.KeepsRows) (htol : s.config.feasibilityTolerance = 0)
    {o : Outcome α} (h : s.Iterates w x o w' y) (hx : s.graph.Tight w x) :
    s.graph.Tight w' y := by
  cases h with
  | blocked hsolves hblock hstep => exact blocked_tight hs htol hsolves hblock hstep hx
  | moved ha _ => exact ha.tight hs htol
  | converged ha _ _ => exact ha.tight hs htol
  | dropped ha _ _ => exact (ha.tight hs htol).remove _

/-- An iteration that succeeds from a tight working set, of which the eliminator finds minima,
leaves a tight one, and the cost does not rise; if the cost is positive definite, it falls whenever
the point moves. -/
theorem Iterates.falls (hs : s.KeepsRows)
    (hmin : ∀ {working : Graph κ α} {solution : Assignment κ α},
      s.Solves w working solution → working.Minimizes solution) (hsym : s.graph.Symmetric)
    (hpsd : s.graph.PositiveSemidefinite) (htol : s.config.feasibilityTolerance = 0)
    {o : Outcome α} (h : s.Iterates w x o w' y) (hx : s.graph.Tight w x) :
    s.graph.Tight w' y ∧ ∃ before after, s.graph.cost x = .ok before ∧
      s.graph.cost y = .ok after ∧ after ≤ before ∧
      (s.graph.PositiveDefinite → y ≠ x → after < before) := by
  have haccepted {y : Assignment κ α} {distance : α} (ha : s.Accepts w x y distance) :
      ∃ before after, s.graph.cost x = .ok before ∧ s.graph.cost y = .ok after ∧
        after ≤ before ∧ (s.graph.PositiveDefinite → y ≠ x → after < before) := by
    obtain ⟨working, solution, hsolves, rfl, -, hdistance⟩ := ha
    have hreaches : s.Reaches w x working solution := ⟨hsolves.1, hmin hsolves,
      fun k n => Assignment.dim?_of_maxAbsDiff hdistance⟩
    refine hreaches.descends hsym hpsd hx.active zero_le_one le_rfl hreaches.sameShape ?_
    rw [one_smul, add_sub_cancel]
  refine ⟨h.tight hs htol hx, ?_⟩
  cases h with
  | blocked hsolves hblock hstep =>
    obtain ⟨h0, h1⟩ := Graph.fraction_mem hblock
    have hreaches : s.Reaches w x _ _ := ⟨hsolves.1, hmin hsolves,
      fun k n => Assignment.dim?_of_stepTowards hstep⟩
    refine hreaches.descends hsym hpsd hx.active h0 h1 (Assignment.sameShape_stepTowards hstep) ?_
    exact Assignment.entries_stepTowards hstep (x.mem_keys_update_of_mem _)
  | moved ha _ => exact haccepted ha
  | converged ha _ _ => exact haccepted ha
  | dropped ha _ _ => exact haccepted ha

/-- An iteration that succeeds from a tight working set leaves one, and the cost does not rise; if
the cost is positive definite, it falls whenever the point moves. -/
theorem Iterates.descends (hs : s.Minimizes) (hsym : s.graph.Symmetric)
    (hpsd : s.graph.PositiveSemidefinite) (htol : s.config.feasibilityTolerance = 0)
    {o : Outcome α} (h : s.Iterates w x o w' y) (hx : s.graph.Tight w x) :
    s.graph.Tight w' y ∧ ∃ before after, s.graph.cost x = .ok before ∧
      s.graph.cost y = .ok after ∧ after ≤ before ∧
      (s.graph.PositiveDefinite → y ≠ x → after < before) :=
  h.falls hs.keepsRows (fun ⟨_, _, hanswer⟩ => hs _ _ _ hanswer) hsym hpsd htol hx

def reportedCosts (events : List (Event κ α)) : List α :=
  events.filterMap fun
    | .metrics cost _ => some cost
    | _ => none

omit [ExactScalar α] in
private theorem reportedCosts_notices (st : RunState κ α σ) :
    reportedCosts st.notices = reportedCosts st.events := by
  rw [reportedCosts, reportedCosts, RunState.notices, List.filterMap_filter]
  congr 1
  funext e
  cases e <;> rfl

/-- From a tight working set the costs of a run of the loop never rise. -/
theorem Runs.costs_antitone (hs : s.Minimizes) (hsym : s.graph.Symmetric)
    (hpsd : s.graph.PositiveSemidefinite) (htol : s.config.feasibilityTolerance = 0)
    {initialCost : α} {fuel i : ℕ} {D : List WorkingSet} {events : List (Event κ α)}
    {result : Result (Error α) (Optimum κ α)} (h : s.Runs initialCost fuel i D w x events result)
    (hx : s.graph.Tight w x) {cost : α} (hcost : s.graph.cost x = .ok cost) :
    (cost :: reportedCosts events).Pairwise (· ≥ ·) := by
  have hstep {w w' : WorkingSet} {x y : Assignment κ α} {o : Outcome α} {i : ℕ} {cost next : α}
      (events : List (Event κ α)) (hiter : s.Iterates w x o w' y) (hx : s.graph.Tight w x)
      (hcost : s.graph.cost x = .ok cost) (hnext : s.graph.cost y = .ok next)
      (hrest : s.graph.Tight w' y → (next :: reportedCosts events).Pairwise (· ≥ ·)) :
      (cost :: reportedCosts (shown next o w' y i ++ events)).Pairwise (· ≥ ·) := by
    obtain ⟨hy, _, _, hb, ha, hle, -⟩ := hiter.descends hs hsym hpsd htol hx
    cases Except.ok.inj (hcost.symm.trans hb)
    cases Except.ok.inj (hnext.symm.trans ha)
    have hpair := hrest hy
    refine List.pairwise_cons.2 ⟨fun c hc => ?_, hpair⟩
    rcases List.mem_cons.1 hc with rfl | hc
    · exact hle
    · exact ((List.pairwise_cons.1 hpair).1 c hc).trans hle
  induction h generalizing cost with
  | limit => exact List.pairwise_singleton _ _
  | failed _ => exact List.pairwise_singleton _ _
  | converged hiter hnext =>
    exact hstep [] hiter hx hcost hnext fun _ => List.pairwise_singleton _ _
  | cycled hiter hnext _ _ =>
    exact hstep [] hiter hx hcost hnext fun _ => List.pairwise_singleton _ _
  | dropped hiter hnext _ _ ih => exact hstep _ hiter hx hcost hnext fun hy => ih hy hnext
  | stepped hiter hnext _ ih => exact hstep _ hiter hx hcost hnext fun hy => ih hy hnext

/-- A start keeps the slacks and the cost of the initial assignment. -/
theorem Starts.agrees {initial : Assignment κ α} (h : s.Starts initial w x) :
    (∀ v, s.graph.Tight v initial → s.graph.Tight v x) ∧
      ∀ before after, s.graph.cost initial = .ok before → s.graph.cost x = .ok after →
        after = before := by
  have hfits := (restrict_spec h.point).1
  have hrow {r : ConstraintRow} {kind : RowKind} (hr : s.graph.rowKind? r = some kind) {slack : α}
      (hi : s.graph.rowSlack r initial = .ok slack) : s.graph.rowSlack r x = .ok slack := by
    rw [hfits.1.rowSlack_eq hr, (Graph.rowSlack_eq_ok.1 hi).2, slack_of_restrict h.point]
  constructor
  · intro v hv
    refine ⟨fun r hr => ?_, fun r hr hnot => ?_⟩
    · obtain ⟨kind, hkind⟩ := hr.exists_kind
      exact hrow hkind (hv.active r hr)
    · obtain ⟨slack, hslack, hle⟩ := hv.inactive r hr hnot
      exact ⟨slack, hrow hr hslack, hle⟩
  · intro before after hb ha
    rw [(Graph.cost_eq_ok.1 hb).2, (Graph.cost_eq_ok.1 ha).2]
    exact s.graph.value_congr fun f hf k hk => entries_of_restrict h.point hf hk

/-- Every iteration that succeeds from a tight working set leaves one and does not raise the cost,
every iteration that accepts the candidate leaves a tight working set, and so the reported costs of
a run from a feasible assignment and the empty working set never rise. -/
theorem optimize_descends (hs : s.Minimizes) (hsym : s.graph.Symmetric)
    (hpsd : s.graph.PositiveSemidefinite) (htol : s.config.feasibilityTolerance = 0) :
    (∀ st st' o, s.iterate.run.run st = (.ok o, st') →
      (s.graph.Tight st.workingSet st.point → s.graph.Tight st'.workingSet st'.point ∧
        ∃ before after, s.graph.cost st.point = .ok before ∧ s.graph.cost st'.point = .ok after ∧
          after ≤ before ∧
          (s.graph.PositiveDefinite → st'.point ≠ st.point → after < before)) ∧
      ((∀ fraction row, o ≠ .stepTaken fraction (some row)) →
        s.graph.Tight st'.workingSet st'.point)) ∧
    ∀ initial eliminator, s.graph.Tight WorkingSet.empty initial →
      (reportedCosts (s.optimize initial WorkingSet.empty eliminator).2.events).Pairwise (· ≥ ·) ∧
      ∀ cost, s.graph.cost initial = .ok cost →
        ∀ c ∈ reportedCosts (s.optimize initial WorkingSet.empty eliminator).2.events,
          c ≤ cost := by
  constructor
  · intro st st' o h
    have hiter := iterate_ok h
    refine ⟨hiter.descends hs hsym hpsd htol, fun hfree => ?_⟩
    generalize st'.workingSet = w' at hiter ⊢
    generalize st'.point = y at hiter ⊢
    cases hiter with
    | blocked _ _ _ => exact absurd rfl (hfree _ _)
    | moved ha _ => exact ha.tight hs.keepsRows htol
    | converged ha _ _ => exact ha.tight hs.keepsRows htol
    | dropped ha _ _ => exact (ha.tight hs.keepsRows htol).remove _
  · intro initial eliminator hinitial
    rcases hrun : s.optimize initial WorkingSet.empty eliminator with ⟨result, st⟩
    simp only [← reportedCosts_notices]
    rcases optimize_cases hrun with ⟨hnone, -⟩ | ⟨x, cost, hstarts, hcost, hruns⟩
    · simp [hnone, reportedCosts]
    · obtain ⟨htight, hsame⟩ := hstarts.agrees
      have hpair := hruns.costs_antitone hs hsym hpsd htol (htight _ hinitial) hcost
      obtain ⟨hle, hpair⟩ := List.pairwise_cons.1 hpair
      exact ⟨hpair, fun before hb c hc => hsame before cost hb hcost ▸ hle c hc⟩

/-- The run on the half-line begins at a feasible point and reports its new cost twice. -/
theorem halfLine_descends : halfLine.graph.Tight WorkingSet.empty (.single 0 0) ∧
    reportedCosts (halfLine.optimize (.single 0 0) WorkingSet.empty ()).2.events = [-3, -3] ∧
    (reportedCosts (halfLine.optimize (.single 0 0) WorkingSet.empty ()).2.events).Pairwise
      (· ≥ ·) := by
  have htight : halfLine.graph.Tight WorkingSet.empty (.single 0 0) := by
    have hkind : halfLine.graph.rowsOfKind .equality = [] := by decide +kernel
    have hslack : ∀ r ∈ halfLine.graph.rowsOfKind .inequality,
        halfLine.graph.rowSlack r (.single 0 0) = .ok 1 := by decide +kernel
    refine ⟨fun r hr => ?_, fun r hr _ => ⟨1, hslack r (Graph.mem_rowsOfKind.2 hr), zero_le_one⟩⟩
    rcases hr with hr | ⟨-, hr⟩
    · exact absurd (Graph.mem_rowsOfKind.2 hr) (by simp [hkind])
    · exact absurd hr List.not_mem_nil
  obtain ⟨-, hrun⟩ := optimize_descends halfLine_minimizes (Graph.parabola_symmetric _)
    (Graph.parabola_positiveSemidefinite _) rfl
  exact ⟨htight, by decide +kernel, (hrun (.single 0 0) () htight).1⟩

end Solver

end GaussianProgram
