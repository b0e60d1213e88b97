import GaussianProgram.Proofs.Elimination
import GaussianProgram.Proofs.WorstRow
import GaussianProgram.Solver.Observer

/-! The cycling guard. A point at which a row is dropped from a working set is the minimum of its
working problem; between two drops from one working set the cost cannot fall, and so, if it is
positive definite, no iteration moves the point. -/
namespace GaussianProgram

namespace Solver

section Trace
variable {κ α σ : Type} [Key κ] [Scalar α] {s : Solver κ α σ} {w v : WorkingSet}
  {x : Assignment κ α} {i j : ℕ} {entries : List (TraceEntry κ α)}

def recorded (st : RunState κ α σ) : List (TraceEntry κ α) :=
  Observer.replay [Observer.recorder] st.events []

/-- The iteration with this index dropped a row from the working set `v`. Before the first iteration
the working set is `w`. -/
def DropsFrom (w : WorkingSet) (entries : List (TraceEntry κ α)) (i : ℕ) (v : WorkingSet) : Prop :=
  (w :: entries.map (·.workingSet))[i]? = some v ∧
    ∃ row ∈ v.rows, (entries[i]?).map (·.workingSet) = some (v.remove row).2

/-- The iterations with these indices and all between them end at one point. -/
def StandsStill (entries : List (TraceEntry κ α)) (i j : ℕ) : Prop :=
  ∃ x, ∀ k, i ≤ k → k ≤ j → (entries[k]?).map (·.point) = some x

/-- Recorded iterations that follow each other, from a working set and a point. -/
inductive Steps (s : Solver κ α σ) :
    ℕ → WorkingSet → Assignment κ α → List (TraceEntry κ α) → Prop
  | nil {i : ℕ} {w : WorkingSet} {x : Assignment κ α} : Steps s i w x []
  | cons {i : ℕ} {w w' : WorkingSet} {x y : Assignment κ α} {o : Outcome α}
      {entries : List (TraceEntry κ α)} (hiter : s.Iterates w x o w' y)
      (hrest : Steps s (i + 1) w' y entries) : Steps s i w x (⟨i, y, w'⟩ :: entries)

def visits (events : List (Event κ α)) : List (TraceEntry κ α) :=
  events.filterMap fun
    | .visited x w i => some ⟨i, x, w⟩
    | _ => none

omit [Scalar α] in
private theorem recorded_eq (st : RunState κ α σ) : recorded st = visits st.notices := by
  have hfold (events : List (Event κ α)) (entries : List (TraceEntry κ α)) :
      Observer.replay [Observer.recorder] events entries =
        entries ++ visits (events.filter fun e => !e.isReport) := by
    induction events generalizing entries with
    | nil => simp [Observer.replay, visits]
    | cons e events ih =>
      have hstep := ih (Observer.recorder.handle entries e)
      cases e <;> simpa [Observer.replay, Observer.handle, Observer.recorder, visits,
        Event.isReport] using hstep
  exact (hfold st.events []).trans (List.nil_append _)

/-- A run of the loop records iterations that follow each other. -/
private theorem Runs.steps {initialCost : α} {fuel i : ℕ} {D : List WorkingSet}
    {events : List (Event κ α)} {result : Result (Error α) (Optimum κ α)}
    (h : s.Runs initialCost fuel i D w x events result) : s.Steps i w x (visits events) := by
  induction h with
  | limit => exact .nil
  | failed _ => exact .nil
  | converged hiter _ => exact .cons hiter .nil
  | cycled hiter _ _ _ => exact .cons hiter .nil
  | dropped hiter _ _ _ ih => exact .cons hiter ih
  | stepped hiter _ _ ih => exact .cons hiter ih

/-- Recorded iterations are numbered one after the other. -/
theorem Steps.iteration (h : s.Steps i w x entries) {k : ℕ} {e : TraceEntry κ α}
    (he : entries[k]? = some e) : e.iteration = i + k := by
  induction h generalizing k with
  | nil => simp at he
  | cons _ _ ih =>
    cases k with
    | zero =>
      cases he
      rfl
    | succ k => rw [ih (by simpa using he), Nat.add_right_comm, Nat.add_assoc]

omit [Scalar α] in
/-- Drops after the first iteration are drops of the iterations that follow. -/
theorem dropsFrom_cons {e : TraceEntry κ α} {k : ℕ} :
    DropsFrom w (e :: entries) (k + 1) v ↔ DropsFrom e.workingSet entries k v := by
  simp [DropsFrom]

/-- A run of the loop ends by the guard only if its last iteration and one before it drop a row from
the same working set. -/
theorem Runs.drops_of_cycling {initialCost : α} {fuel i : ℕ} {D : List WorkingSet}
    {events : List (Event κ α)} {result : Result (Error α) (Optimum κ α)}
    (h : s.Runs initialCost fuel i D w x events result)
    (hcycling : result = .error (.cause (.solver (.cycling j)))) :
    ∃ k v, j = i + k ∧ DropsFrom w (visits events) k v ∧
      (v ∈ D ∨ ∃ m < k, DropsFrom w (visits events) m v) := by
  induction h with
  | limit => cases hcycling
  | failed hfails =>
    cases hcycling
    exact absurd trivial (hfails.avoids SolverError.isOwn_givesUp (s.avoids_checkRank _) _ rfl)
  | converged _ _ => cases hcycling
  | @cycled _ _ _ w w' _ _ row _ hiter _ _ hmem =>
    cases hcycling
    cases hiter with
    | dropped _ _ hworst =>
      exact ⟨0, w, rfl, ⟨rfl, row, Graph.mem_of_worstRow? hworst, rfl⟩, .inl hmem⟩
  | @dropped _ _ _ w w' _ _ row _ _ _ hiter _ _ _ ih =>
    obtain ⟨k, v, rfl, hdrop, hearlier⟩ := ih hcycling
    refine ⟨k + 1, v, by omega, dropsFrom_cons.2 hdrop, ?_⟩
    rcases hearlier with hmem | ⟨m, hm, hfirst⟩
    · split_ifs at hmem with hdetect
      · rcases List.mem_cons.1 hmem with rfl | hmem
        · cases hiter with
          | dropped _ _ hworst =>
            exact .inr ⟨0, Nat.succ_pos k, rfl, row, Graph.mem_of_worstRow? hworst, rfl⟩
        · exact .inl hmem
      · exact .inl hmem
    · exact .inr ⟨m + 1, Nat.succ_lt_succ hm, dropsFrom_cons.2 hfirst⟩
  | stepped _ _ _ ih =>
    obtain ⟨k, v, rfl, hdrop, hearlier⟩ := ih hcycling
    refine ⟨k + 1, v, by omega, dropsFrom_cons.2 hdrop, hearlier.imp_right ?_⟩
    rintro ⟨m, hm, hfirst⟩
    exact ⟨m + 1, Nat.succ_lt_succ hm, dropsFrom_cons.2 hfirst⟩

/-- An iteration that takes a row out of the working set has accepted the candidate. -/
theorem Iterates.accepts_of_remove {o : Outcome α} {w' : WorkingSet} {y : Assignment κ α}
    (h : s.Iterates w x o w' y) {row : ConstraintRow} (hrow : row ∈ w.rows)
    (hremove : w' = (w.remove row).2) : ∃ distance, s.Accepts w x y distance := by
  have hgone : row ∉ w'.rows := fun hmem => (WorkingSet.mem_rows_remove.1 (hremove ▸ hmem)).1 rfl
  cases h with
  | blocked _ _ _ => exact absurd (WorkingSet.mem_rows_insert.2 (.inr hrow)) hgone
  | moved _ _ => exact absurd hrow hgone
  | converged _ _ _ => exact absurd hrow hgone
  | dropped haccepts _ _ => exact ⟨_, haccepts⟩

/-- An iteration that drops a row splits the record: it accepts a candidate for the working set, and
the later iterations follow the drop. -/
theorem Steps.exists_of_dropsFrom (h : s.Steps i w x entries) {k : ℕ}
    (hk : DropsFrom w entries k v) :
    ∃ x' y distance, ∃ row ∈ v.rows, s.Accepts v x' y distance ∧
      (entries[k]?).map (·.point) = some y ∧
        s.Steps (i + k + 1) (v.remove row).2 y (entries.drop (k + 1)) := by
  induction h generalizing k with
  | nil =>
    obtain ⟨-, row, -, hafter⟩ := hk
    simp at hafter
  | @cons i w w' x y o entries hiter hrest ih =>
    cases k with
    | zero =>
      obtain ⟨hbefore, row, hrow, hafter⟩ := hk
      cases hbefore
      cases hafter
      obtain ⟨distance, haccepts⟩ := hiter.accepts_of_remove hrow rfl
      exact ⟨x, y, distance, row, hrow, haccepts, rfl, hrest⟩
    | succ k =>
      obtain ⟨x', y', distance, row, hrow, haccepts, hpoint, hsteps⟩ := ih (dropsFrom_cons.1 hk)
      refine ⟨x', y', distance, row, hrow, haccepts, by simpa using hpoint, ?_⟩
      rwa [Nat.add_right_comm i 1 k] at hsteps

end Trace

section Exact
variable {κ α σ : Type} [Key κ] [ExactScalar α] {s : Solver κ α σ} {w v : WorkingSet}
  {x x' y y' : Assignment κ α} {entries : List (TraceEntry κ α)}

/-- A candidate that was accepted costs no more than another one for the same working set. -/
theorem Accepts.value_le (hs : s.Exact) (hsym : s.graph.Symmetric)
    (hpsd : s.graph.PositiveSemidefinite) {distance distance' : α}
    (h : s.Accepts w x y distance) (h' : s.Accepts w x' y' distance') :
    s.graph.value y.entries ≤ s.graph.value y'.entries := by
  obtain ⟨hactive, -⟩ := h'.rowSlack hs.keepsRows
  obtain ⟨working, solution, hsolves, rfl, -, hdistance⟩ := h
  obtain ⟨working', solution', hsolves', rfl, -⟩ := h'
  cases Except.ok.inj (hsolves.1.symm.trans hsolves'.1)
  have hreaches : s.Reaches w x working solution := ⟨hsolves.1, hsolves.minimizes hs hsym hpsd,
    fun k n => Assignment.dim?_of_maxAbsDiff hdistance⟩
  have hcovers : working.Covers (x'.update solution') := by
    refine (hsolves'.minimizes hs hsym hpsd).fits.1.mono fun k n hk => ?_
    rw [Assignment.dim?_update, hk, Option.some_or]
  exact hreaches.le_value hcovers fun r hr => (Graph.rowSlack_eq_ok.1 (hactive r hr)).2.symm

/-- The cost never rises from a tight working set on, and at a point that costs as much as the first
one no iteration has moved the point. -/
private theorem Steps.falls (hs : s.Exact) (hsym : s.graph.Symmetric)
    (hpd : s.graph.PositiveDefinite) (htol : s.config.feasibilityTolerance = 0) {i : ℕ}
    (h : s.Steps i w x entries) (hx : s.graph.Tight w x) {k : ℕ} {e : TraceEntry κ α}
    (he : entries[k]? = some e) : s.graph.value e.point.entries ≤ s.graph.value x.entries ∧
      (s.graph.value x.entries ≤ s.graph.value e.point.entries →
        ∀ m ≤ k, (entries[m]?).map (·.point) = some x) := by
  induction h generalizing k with
  | nil => simp at he
  | @cons i w w' x y o entries hiter hrest ih =>
    have hpsd := hpd.positiveSemidefinite
    obtain ⟨hy, _, _, hbefore, hafter, hle, hlt⟩ := hiter.falls hs.keepsRows
      (Solves.minimizes hs hsym hpsd) hsym hpsd htol hx
    obtain ⟨-, rfl⟩ := Graph.cost_eq_ok.1 hbefore
    obtain ⟨-, rfl⟩ := Graph.cost_eq_ok.1 hafter
    have hstays (hback : s.graph.value x.entries ≤ s.graph.value y.entries) : y = x := by
      by_contra hne
      exact (hlt hpd hne).not_ge hback
    cases k with
    | zero =>
      cases he
      refine ⟨hle, fun hback m hm => ?_⟩
      obtain rfl := Nat.le_zero.1 hm
      exact congrArg some (hstays hback)
    | succ k =>
      obtain ⟨hlater, hsame⟩ := ih hy (by simpa using he)
      refine ⟨hlater.trans hle, fun hback m hm => ?_⟩
      obtain rfl := hstays (hback.trans hlater)
      cases m with
      | zero => rfl
      | succ m => simpa using hsame hback m (Nat.le_of_succ_le_succ hm)

/-- Between two drops from one working set no iteration moves the point: both end at the minimum of
its working problem, so the cost has not fallen between them. -/
theorem Steps.standsStill (hs : s.Exact) (hsym : s.graph.Symmetric)
    (hpd : s.graph.PositiveDefinite) (htol : s.config.feasibilityTolerance = 0) {n i j : ℕ}
    (h : s.Steps n w x entries) (hij : i < j) (hi : DropsFrom w entries i v)
    (hj : DropsFrom w entries j v) : StandsStill entries i j := by
  obtain ⟨_, y, _, row, -, haccepts, hpoint, hrest⟩ := h.exists_of_dropsFrom hi
  obtain ⟨_, z, _, _, -, haccepts', hpoint', -⟩ := h.exists_of_dropsFrom hj
  obtain ⟨e, he, rfl⟩ := Option.map_eq_some_iff.1 hpoint'
  have hlater (m : ℕ) (hm : i < m) : (entries.drop (i + 1))[m - (i + 1)]? = entries[m]? := by
    rw [List.getElem?_drop, Nat.add_sub_cancel' hm]
  obtain ⟨-, hsame⟩ := hrest.falls hs hsym hpd htol ((haccepts.tight hs.keepsRows htol).remove row)
    ((hlater j hij).trans he)
  have hback := haccepts.value_le hs hsym hpd.positiveSemidefinite haccepts'
  refine ⟨y, fun m him hmj => ?_⟩
  rcases him.eq_or_lt with rfl | hlt
  · exact hpoint
  · rw [← hlater m hlt]
    exact hsame hback _ (Nat.sub_le_sub_right hmj _)

/-- The iterations of a run are numbered from zero, no point moves between two drops from one
working set, and a run that the cycling guard ends at an iteration has dropped a row from one
working set there and at an earlier iteration. -/
theorem optimize_stalls (hs : s.Exact) (hsym : s.graph.Symmetric) (hpd : s.graph.PositiveDefinite)
    (htol : s.config.feasibilityTolerance = 0) (initial : Assignment κ α) (w : WorkingSet)
    (eliminator : σ) (result : Result (Error α) (Optimum κ α)) (st : RunState κ α σ)
    (hrun : s.optimize initial w eliminator = (result, st)) :
    (∀ (k : ℕ) (e : TraceEntry κ α), (recorded st)[k]? = some e → e.iteration = k) ∧
    (∀ i j v, i < j → DropsFrom w (recorded st) i v → DropsFrom w (recorded st) j v →
      StandsStill (recorded st) i j) ∧
    ∀ j, result = .error (.cause (.solver (.cycling j))) →
      ∃ i v, i < j ∧ DropsFrom w (recorded st) i v ∧ DropsFrom w (recorded st) j v ∧
        StandsStill (recorded st) i j := by
  rw [recorded_eq]
  rcases optimize_cases hrun with ⟨hnone, failure, rfl, hearly⟩ | ⟨x, cost, -, -, hruns⟩
  · have hempty : visits st.notices = [] := by rw [hnone, visits, List.filterMap_nil]
    rw [hempty]
    refine ⟨fun _ _ he => (List.not_mem_nil (List.mem_of_getElem? he)).elim, ?_, fun j hj => ?_⟩
    · rintro i j v - ⟨-, _, -, hafter⟩
      cases hafter
    · cases hj
      exact absurd trivial (hearly _ rfl)
  · have hsteps := hruns.steps
    refine ⟨fun k e he => (hsteps.iteration he).trans (Nat.zero_add k),
      fun i j v => hsteps.standsStill hs hsym hpd htol, fun j hj => ?_⟩
    obtain ⟨k, v, rfl, hlast, hearlier⟩ := hruns.drops_of_cycling hj
    obtain ⟨i, hik, hfirst⟩ := hearlier.resolve_left List.not_mem_nil
    rw [Nat.zero_add]
    exact ⟨i, v, hik, hfirst, hlast, hsteps.standsStill hs hsym hpd htol hik hfirst hlast⟩

end Exact

end Solver

/-- Half the squared distance of a point in space from `(0, 0, 1)`. -/
def LinearRows.distance : LinearRows ℕ ℚ where
  terms := [(0, ⟨3, 3, #[1, 0, 0, 0, 1, 0, 0, 0, 1], rfl⟩)]
  rhs := [0, 0, 1]
  kinds := none
  terms_ne_nil := List.cons_ne_nil _ _
  keys_nodup := by simp
  block_rows := by simp
  kinds_length := by simp

/-- Six half-spaces that meet in the origin. -/
def LinearRows.halfSpaces : LinearRows ℕ ℚ where
  terms := [(0, ⟨6, 3, #[
    33, -44, 11,
    2, -3, 1,
    2, -2, 1,
    -8, -6, 2,
    -1, -2, 1,
    -4, 1, 1], rfl⟩)]
  rhs := [0, 0, 0, 0, 0, 0]
  kinds := some (List.replicate 6 .inequality)
  terms_ne_nil := List.cons_ne_nil _ _
  keys_nodup := by simp
  block_rows := by simp
  kinds_length := by simp

def Graph.cone : Graph ℕ ℚ := ⟨[.linear .distance, .linear .halfSpaces]⟩

private theorem Graph.cone_symmetric : cone.Symmetric := by
  rintro f (_ | ⟨_, _ | ⟨_, hf⟩⟩)
  cases hf

private theorem Graph.cone_positiveDefinite : cone.PositiveDefinite := by
  rintro d ⟨f, hf, e, he, i, hi, hne⟩
  have hcurvature : cone.curvature d = d 0 0 * d 0 0 + d 0 1 * d 0 1 + d 0 2 * d 0 2 := by
    simp [curvature, cone, Factor.curvature, LinearRows.curvature, LinearRows.isConstrained,
      LinearRows.distance, LinearRows.halfSpaces, LinearRows.rows, Finset.sum_range_succ,
      LinearRows.form_apply, rowSum, Matrix.get]
  have hdim : e = (0, 3) := by
    rcases List.mem_pair.1 hf with rfl | rfl <;> exact List.mem_singleton.1 he
  subst hdim
  have hsquare (j : ℕ) : 0 ≤ d 0 j * d 0 j := mul_self_nonneg _
  have hpos : 0 < d 0 i * d 0 i := mul_self_pos.2 hne
  rw [hcurvature]
  interval_cases i <;> linarith [hsquare 0, hsquare 1, hsquare 2]

/-- Elimination over the rational numbers that gives no answer without entries. -/
def Elimination.rational : Eliminator ℕ ℚ Unit where
  primal g _ := (answer g, ())
  dual g _ := (answer g, ())
where
  answer (g : Graph ℕ ℚ) : Reply ℕ ℚ :=
    match eliminate Backend.rational .qr g with
    | .ok x =>
      if 0 < x.totalDimension % UInt64.size then ⟨.ok x, []⟩
      else ⟨.error (.cause .singularMatrix), [.linear .singularMatrix]⟩
    | .error e => ⟨.error e, []⟩

private theorem Elimination.rational_stationary {g : Graph ℕ ℚ} {x : Assignment ℕ ℚ}
    (h : (rational.answer g).result = .ok x) : g.Stationary x := by
  unfold rational.answer at h
  split at h
  next y hy =>
    split_ifs at h with hsize
    cases h
    exact eliminate_stationary Backend.rational_exact
      (fun hk : SolverKind.qr = .cholesky => nomatch hk) hy hsize
  next => cases h

/-- The multipliers at the apex of the cone change sign in a circle. -/
def Solver.cone : Solver ℕ ℚ Unit where
  graph := .cone
  config := { Config.default with feasibilityTolerance := 0 }
  eliminator := Elimination.rational
  singularValues m := some (List.replicate m.rows 1)

/-- A run that begins at the apex takes in three rows, exchanges them six times without a move, and
is back at its first three rows. -/
theorem Solver.cone_stalls : ∃ result st,
    cone.optimize (SortedMap.ofList [(0, [0, 0, 0])]) WorkingSet.empty () = (result, st) ∧
      result = .error (.cause (.solver (.cycling 15))) ∧
      ∃ i v, i < 15 ∧ DropsFrom WorkingSet.empty (recorded st) i v ∧
        DropsFrom WorkingSet.empty (recorded st) 15 v ∧ StandsStill (recorded st) i 15 := by
  have hcycling : (cone.optimize (SortedMap.ofList [(0, [0, 0, 0])]) WorkingSet.empty ()).1 =
      .error (.cause (.solver (.cycling 15))) := by decide +kernel
  obtain ⟨-, -, hguard⟩ := optimize_stalls
    ⟨fun g _ x => Elimination.rational_stationary, fun g _ d => Elimination.rational_stationary⟩
    Graph.cone_symmetric Graph.cone_positiveDefinite rfl _ _ _ _ _ (Prod.ext hcycling rfl)
  exact ⟨_, _, Prod.ext hcycling rfl, rfl, hguard 15 rfl⟩

end GaussianProgram
