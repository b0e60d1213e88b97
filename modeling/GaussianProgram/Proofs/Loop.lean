import GaussianProgram.Proofs.Iterate
import GaussianProgram.Solver.Optimize

/-! The loop as a relation between a state and what the run notifies and ends with. Properties of
whole runs are inductions on it. -/
namespace GaussianProgram

variable {κ α σ : Type} [Key κ] [Scalar α]

/-- The failures that no start ends with: the two of the loop, and active rows that depend on
each other. -/
def Error.Late : Error α → Prop
  | .solver (.degenerateActiveSet _ _) => True
  | .solver e => e.GivesUp
  | _ => False

namespace Solver

def shown (cost : α) (o : Outcome α) (w : WorkingSet) (x : Assignment κ α) (iteration : ℕ) :
    List (Event κ α) :=
  [.metrics cost o.stepFraction?, .visited x w iteration]

/-- An iteration from this working set and point that fails, or that leads to a point without
a cost. -/
inductive Fails (s : Solver κ α σ) (w : WorkingSet) (x : Assignment κ α) :
    Failure (Error α) → Prop
  | within {st : RunState κ α σ} {failure : Failure (Error α)} (hw : st.workingSet = w)
      (hx : st.point = x)
      (hfail : (Run.exec s.iterate st).1.mapCause .solver = .error failure) : Fails s w x failure
  | after {o : Outcome α} {w' : WorkingSet} {y : Assignment κ α} {failure : Failure (Error α)}
      (hiter : s.Iterates w x o w' y) (hfail : (s.graph.cost y).mapCause .graph = .error failure) :
      Fails s w x failure

/-- A run of the loop with some iterations left, from a working set and a point. `droppedFrom` holds
the working sets at earlier drops. -/
inductive Runs (s : Solver κ α σ) (initialCost : α) :
    (fuel iteration : ℕ) → (droppedFrom : List WorkingSet) → WorkingSet → Assignment κ α →
      List (Event κ α) → Result (Error α) (Optimum κ α) → Prop
  | limit {i : ℕ} {D : List WorkingSet} {w : WorkingSet} {x : Assignment κ α} :
      Runs s initialCost 0 i D w x []
        (.error (.cause (.solver (.iterationLimit s.config.maxIterations))))
  | failed {fuel i : ℕ} {D : List WorkingSet} {w : WorkingSet} {x : Assignment κ α}
      {failure : Failure (Error α)} (hfails : s.Fails w x failure) :
      Runs s initialCost (fuel + 1) i D w x [] (.error failure)
  | converged {fuel i : ℕ} {D : List WorkingSet} {w w' : WorkingSet} {x y : Assignment κ α}
      {duals : Assignment ℕ α} {cost : α} (hiter : s.Iterates w x (.converged duals) w' y)
      (hcost : s.graph.cost y = .ok cost) :
      Runs s initialCost (fuel + 1) i D w x (shown cost (.converged duals) w' y i) (.ok {
        solution := y, duals, workingSet := w', status := statusOf s.graph w', initialCost
        finalCost := cost, iterations := i + 1 })
  | cycled {fuel i : ℕ} {D : List WorkingSet} {w w' : WorkingSet} {x y : Assignment κ α}
      {row : ConstraintRow} {cost : α} (hiter : s.Iterates w x (.dropped row) w' y)
      (hcost : s.graph.cost y = .ok cost) (hdetect : s.config.detectCycling = true) (hmem : w ∈ D) :
      Runs s initialCost (fuel + 1) i D w x (shown cost (.dropped row) w' y i)
        (.error (.cause (.solver (.cycling i))))
  | dropped {fuel i : ℕ} {D : List WorkingSet} {w w' : WorkingSet} {x y : Assignment κ α}
      {row : ConstraintRow} {cost : α} {events : List (Event κ α)}
      {result : Result (Error α) (Optimum κ α)} (hiter : s.Iterates w x (.dropped row) w' y)
      (hcost : s.graph.cost y = .ok cost) (hnew : s.config.detectCycling = true → w ∉ D)
      (hrest : Runs s initialCost fuel (i + 1) (if s.config.detectCycling then w :: D else D) w' y
        events result) :
      Runs s initialCost (fuel + 1) i D w x (shown cost (.dropped row) w' y i ++ events) result
  | stepped {fuel i : ℕ} {D : List WorkingSet} {w w' : WorkingSet} {x y : Assignment κ α}
      {t : α} {row : Option ConstraintRow} {cost : α} {events : List (Event κ α)}
      {result : Result (Error α) (Optimum κ α)} (hiter : s.Iterates w x (.stepTaken t row) w' y)
      (hcost : s.graph.cost y = .ok cost)
      (hrest : Runs s initialCost fuel (i + 1) D w' y events result) :
      Runs s initialCost (fuel + 1) i D w x (shown cost (.stepTaken t row) w' y i ++ events) result

variable {s : Solver κ α σ} {st st' : RunState κ α σ}

theorem exec_currentCost (s : Solver κ α σ) (st : RunState κ α σ) :
    Run.exec s.currentCost st = ((s.graph.cost st.point).mapCause .graph, st) := by
  unfold currentCost
  rw [Run.exec_bind, Run.exec_point]
  exact Run.exec_quietly _ st

omit [Scalar α] in
theorem exec_stop {β : Type} (e : SolverError α) (st : RunState κ α σ) :
    ∃ st', Run.exec (stop e : Run κ α σ (Error α) β) st = (.error (.cause (.solver e)), st') ∧
      Run.Alike st st' := by
  obtain ⟨st', hexec, hlike⟩ := Run.exec_announcing (Result.fail e : Result (SolverError α) β) st
  refine ⟨st', ?_, hlike⟩
  rw [stop, Run.exec_mapCause, hexec]
  rfl

omit [Scalar α] in
private theorem cause_of_mapCause {ε β : Type} {f : ε → Error α} {r : Result ε β} {e : Error α}
    (h : r.mapCause f = .error (.cause e)) : ∃ e', r = .error (.cause e') ∧ e = f e' := by
  rcases r with (e' | _) | b
  · cases h
    exact ⟨e', rfl, rfl⟩
  · cases h
  · cases h

/-- The loop fails for a cause of the method's own only if the check of the working set does. -/
theorem Fails.avoids {P : SolverError α → Prop} (hP : SolverError.IsOwn P) {w : WorkingSet}
    {x : Assignment κ α} {failure : Failure (Error α)} (h : s.Fails w x failure)
    (hrank : (s.checkRank w).Avoids P) (e : SolverError α)
    (he : failure = .cause (.solver e)) : ¬P e := by
  cases h with
  | within hw hx hfail =>
    subst hw he
    obtain ⟨e', hiterate, he⟩ := cause_of_mapCause hfail
    cases he
    exact (inner_iterate hP hrank).2 e hiterate
  | after hiter hfail =>
    subst he
    obtain ⟨e', -, he⟩ := cause_of_mapCause hfail
    cases he

omit [Scalar α] in
theorem mapCause_error {ε : Type} {f : ε → Error α} (failure : Failure ε) :
    ∃ failure', ∀ β : Type,
      Result.mapCause f (.error failure : Result ε β) = .error failure' := by
  cases failure with
  | cause e => exact ⟨_, fun _ => rfl⟩
  | outOfRange => exact ⟨_, fun _ => rfl⟩

def announced (st : RunState κ α σ) (r : Report κ α) (cost : α) (o : Outcome α) (i : ℕ) :
    RunState κ α σ :=
  { st with events := st.events ++ [.report r] ++ [.metrics cost o.stepFraction?] ++
      [.visited st.point st.workingSet i] }

omit [Scalar α] in
theorem notices_announced (st : RunState κ α σ) (r : Report κ α) (cost : α) (o : Outcome α)
    (i : ℕ) : (announced st r cost o i).notices =
      st.notices ++ shown cost o st.workingSet st.point i := by
  simp [announced, RunState.notices, Event.isReport, shown]

section Step
variable {initialCost previous : α} {fuel i : ℕ} {D : List WorkingSet} {st₁ : RunState κ α σ}

/-- An iteration that fails ends the loop with its failure. -/
theorem exec_loop_of_error {failure : Failure (SolverError α)}
    (hexec : Run.exec s.iterate st = (.error failure, st₁)) :
    Run.exec (s.loop initialCost (fuel + 1) i previous D) st =
      (Result.mapCause .solver (.error failure), st₁) := by
  rw [loop, Run.exec_bind, Run.exec_workingSet]
  simp only [Run.exec_bind, Run.exec_mapCause]
  rw [hexec]
  cases failure with
  | cause e => rfl
  | outOfRange => rfl

/-- A point without a cost ends the loop, and nobody is notified of it. -/
theorem exec_loop_of_costless {o : Outcome α} {failure : Failure (GraphError α)}
    (hexec : Run.exec s.iterate st = (.ok o, st₁))
    (hcost : s.graph.cost st₁.point = .error failure) :
    Run.exec (s.loop initialCost (fuel + 1) i previous D) st =
      (Result.mapCause .graph (.error failure), st₁) := by
  rw [loop, Run.exec_bind, Run.exec_workingSet]
  simp only [Run.exec_bind, Run.exec_mapCause]
  rw [hexec]
  simp only [Result.mapCause_ok, exec_currentCost, hcost]
  cases failure with
  | cause e => rfl
  | outOfRange => rfl

/-- After an iteration that succeeds the loop shows it, and then returns, gives up or goes on. -/
theorem exec_loop_of_ok (initialCost previous : α) (fuel i : ℕ) (D : List WorkingSet)
    {o : Outcome α} {cost : α} (hexec : Run.exec s.iterate st = (.ok o, st₁))
    (hcost : s.graph.cost st₁.point = .ok cost) :
    ∃ r, Run.exec (s.loop initialCost (fuel + 1) i previous D) st = Run.exec (match o with
      | .converged duals => do
        let result : Optimum κ α := {
          solution := st₁.point, duals, workingSet := st₁.workingSet
          status := statusOf s.graph st₁.workingSet, initialCost, finalCost := cost
          iterations := i + 1 }
        Run.report (.optimum result)
        return result
      | .dropped _ =>
        if s.config.detectCycling then
          if st.workingSet ∈ D then stop (.cycling i)
          else s.loop initialCost fuel (i + 1) cost (st.workingSet :: D)
        else s.loop initialCost fuel (i + 1) cost D
      | .stepTaken _ _ => s.loop initialCost fuel (i + 1) cost D) (announced st₁ r cost o i) := by
  rw [loop, Run.exec_bind, Run.exec_workingSet]
  simp only [Run.exec_bind, Run.exec_mapCause]
  rw [hexec]
  simp only [Result.mapCause_ok, exec_currentCost, hcost, Run.exec_point, Run.exec_workingSet,
    Run.exec_report, Run.exec_emit]
  exact ⟨_, rfl⟩

/-- What the loop does with one iteration. It ends with the failure of the iteration, or of the cost
after it; or it shows the iteration, and then returns, gives up or goes on. -/
inductive Turns (s : Solver κ α σ) (initialCost : α) (fuel i : ℕ) (D : List WorkingSet)
    (st : RunState κ α σ) : Result (Error α) (Optimum κ α) → RunState κ α σ → Prop
  | failed {st₁ : RunState κ α σ} {failure : Failure (SolverError α)}
      {failure' : Failure (Error α)}
      (hexec : Run.exec s.iterate st = (.error failure, st₁))
      (hmap : ∀ β : Type, Result.mapCause .solver (.error failure : Result _ β) = .error failure') :
      Turns s initialCost fuel i D st (.error failure') st₁
  | costless {st₁ : RunState κ α σ} {o : Outcome α} {failure : Failure (GraphError α)}
      {failure' : Failure (Error α)}
      (hexec : Run.exec s.iterate st = (.ok o, st₁))
      (hcost : s.graph.cost st₁.point = .error failure)
      (hmap : ∀ β : Type, Result.mapCause .graph (.error failure : Result _ β) = .error failure') :
      Turns s initialCost fuel i D st (.error failure') st₁
  | converged {st₁ : RunState κ α σ} {duals : Assignment ℕ α} {cost : α} {r r' : Report κ α}
      (hexec : Run.exec s.iterate st = (.ok (.converged duals), st₁))
      (hcost : s.graph.cost st₁.point = .ok cost) :
      Turns s initialCost fuel i D st (.ok {
          solution := st₁.point, duals, workingSet := st₁.workingSet
          status := statusOf s.graph st₁.workingSet, initialCost, finalCost := cost
          iterations := i + 1 })
        { announced st₁ r cost (.converged duals) i with
          events := (announced st₁ r cost (.converged duals) i).events ++ [.report r'] }
  | cycled {st₁ st' : RunState κ α σ} {row : ConstraintRow} {cost : α} {r : Report κ α}
      (hexec : Run.exec s.iterate st = (.ok (.dropped row), st₁))
      (hcost : s.graph.cost st₁.point = .ok cost) (hdetect : s.config.detectCycling = true)
      (hmem : st.workingSet ∈ D) (hlike : Run.Alike (announced st₁ r cost (.dropped row) i) st') :
      Turns s initialCost fuel i D st (.error (.cause (.solver (.cycling i)))) st'
  | dropped {st₁ st' : RunState κ α σ} {row : ConstraintRow} {cost : α} {r : Report κ α}
      {result : Result (Error α) (Optimum κ α)}
      (hexec : Run.exec s.iterate st = (.ok (.dropped row), st₁))
      (hcost : s.graph.cost st₁.point = .ok cost)
      (hnew : s.config.detectCycling = true → st.workingSet ∉ D)
      (hrest : Run.exec (s.loop initialCost fuel (i + 1) cost
        (if s.config.detectCycling then st.workingSet :: D else D))
          (announced st₁ r cost (.dropped row) i) = (result, st')) :
      Turns s initialCost fuel i D st result st'
  | stepped {st₁ st' : RunState κ α σ} {t : α} {row : Option ConstraintRow} {cost : α}
      {r : Report κ α} {result : Result (Error α) (Optimum κ α)}
      (hexec : Run.exec s.iterate st = (.ok (.stepTaken t row), st₁))
      (hcost : s.graph.cost st₁.point = .ok cost)
      (hrest : Run.exec (s.loop initialCost fuel (i + 1) cost D)
        (announced st₁ r cost (.stepTaken t row) i) = (result, st')) :
      Turns s initialCost fuel i D st result st'

/-- A loop with iterations left does one of these things. -/
theorem loop_turns {result : Result (Error α) (Optimum κ α)}
    (h : Run.exec (s.loop initialCost (fuel + 1) i previous D) st = (result, st')) :
    s.Turns initialCost fuel i D st result st' := by
  rcases hexec : Run.exec s.iterate st with ⟨failure | o, st₁⟩
  · obtain ⟨failure', hmap⟩ := mapCause_error (f := .solver) failure
    rw [exec_loop_of_error hexec, hmap] at h
    cases h
    exact .failed hexec hmap
  cases hcost : s.graph.cost st₁.point with
  | error failure =>
    obtain ⟨failure', hmap⟩ := mapCause_error (f := .graph) failure
    rw [exec_loop_of_costless hexec hcost, hmap] at h
    cases h
    exact .costless hexec hcost hmap
  | ok cost =>
    obtain ⟨r, hstep⟩ := exec_loop_of_ok initialCost previous fuel i D hexec hcost
    rw [hstep] at h
    cases o with
    | converged duals =>
      cases h
      exact .converged hexec hcost
    | dropped row =>
      simp only at h
      split_ifs at h with hdetect hmem
      · obtain ⟨t, hstop, hlike⟩ := exec_stop (β := Optimum κ α) (.cycling i)
          (announced st₁ r cost (.dropped row) i)
        cases hstop.symm.trans h
        exact .cycled hexec hcost hdetect hmem hlike
      · exact .dropped hexec hcost (fun _ => hmem) (by rw [if_pos hdetect]; exact h)
      · exact .dropped hexec hcost (fun hd => absurd hd hdetect)
          (by rw [if_neg hdetect]; exact h)
    | stepTaken t row => exact .stepped hexec hcost h

end Step

/-- An iteration notifies nobody. -/
theorem notices_iterate {r : Result (SolverError α) (Outcome α)}
    (hexec : Run.exec s.iterate st = (r, st')) : st'.notices = st.notices := by
  obtain ⟨hn, -⟩ := inner_iterate SolverError.isOwn_givesUp (s.avoids_checkRank st.workingSet)
  rwa [hexec] at hn

/-- The loop runs as the relation says. -/
theorem loop_runs {initialCost : α} {fuel i : ℕ} {previous : α} {D : List WorkingSet}
    {result : Result (Error α) (Optimum κ α)}
    (h : Run.exec (s.loop initialCost fuel i previous D) st = (result, st')) :
    ∃ events, st'.notices = st.notices ++ events ∧
      s.Runs initialCost fuel i D st.workingSet st.point events result := by
  induction fuel generalizing i previous D st with
  | zero =>
    obtain ⟨t, hexec, -, -, hn⟩ := exec_stop (β := Optimum κ α)
      (.iterationLimit s.config.maxIterations) st
    obtain ⟨rfl, rfl⟩ := Prod.mk.inj (hexec.symm.trans h)
    exact ⟨[], by rw [hn, List.append_nil], .limit⟩
  | succ fuel ih =>
    cases loop_turns h with
    | failed hexec hmap =>
      refine ⟨[], by rw [notices_iterate hexec, List.append_nil], .failed (.within rfl rfl ?_)⟩
      rw [hexec, hmap]
    | costless hexec hcost hmap =>
      exact ⟨[], by rw [notices_iterate hexec, List.append_nil],
        .failed (.after (iterate_ok hexec) (hcost ▸ hmap α))⟩
    | converged hexec hcost =>
      refine ⟨_, ?_, .converged (iterate_ok hexec) hcost⟩
      rw [(Run.alike_report _ _).2.2, notices_announced, notices_iterate hexec]
    | cycled hexec hcost hdetect hmem hlike =>
      refine ⟨_, ?_, .cycled (iterate_ok hexec) hcost hdetect hmem⟩
      rw [hlike.2.2, notices_announced, notices_iterate hexec]
    | dropped hexec hcost hnew hrest =>
      obtain ⟨events, hevents, hruns⟩ := ih hrest
      refine ⟨_, ?_, .dropped (iterate_ok hexec) hcost hnew hruns⟩
      rw [hevents, notices_announced, notices_iterate hexec, List.append_assoc]
    | stepped hexec hcost hrest =>
      obtain ⟨events, hevents, hruns⟩ := ih hrest
      refine ⟨_, ?_, .stepped (iterate_ok hexec) hcost hruns⟩
      rw [hevents, notices_announced, notices_iterate hexec, List.append_assoc]

/-- The start of a run: a working set of inequality rows, and the point that the graph makes of the
initial assignment, checked if asked for. -/
structure Starts (s : Solver κ α σ) (initial : Assignment κ α) (w : WorkingSet)
    (x : Assignment κ α) : Prop where
  workingSet : checkWorkingSet s.graph w = .ok ()
  point : restrict s.graph initial = .ok x
  feasible : s.config.checkInitialFeasibility = true →
    checkFeasible s.graph s.config.feasibilityTolerance x = .ok ()

omit [Scalar α] in
theorem exec_announceInfeasible (r : Result (SolverError α) Unit) (st : RunState κ α σ) :
    ∃ t, Run.exec (announceInfeasible r) st = (r, t) ∧ Run.Alike st t := by
  unfold announceInfeasible
  split
  · exact ⟨st, Run.exec_quietly _ st, Run.alike_refl st⟩
  · exact Run.exec_announcing r st

def startChecks (s : Solver κ α σ) (initial : Assignment κ α) (w : WorkingSet) :
    Result (SolverError α) (Assignment κ α) := do
  checkWorkingSet s.graph w
  let x ← restrict s.graph initial
  if s.config.checkInitialFeasibility then
    checkFeasible s.graph s.config.feasibilityTolerance x
  return x

omit [Scalar α] in
/-- What is announced decides how a run goes on. -/
private theorem result_announcing_bind {β γ : Type} (r : Result (SolverError α) β)
    (f : β → Run κ α σ (SolverError α) γ) (st : RunState κ α σ) :
    (Run.exec (Run.announcing r >>= f) st).1 = match r with
      | .ok b => (Run.exec (f b) st).1
      | .error failure => .error failure := by
  cases r with
  | ok b => rfl
  | error failure => exact Run.exec_bind_error.2 (.inl (Run.result_announcing _ st))

/-- A start ends as its checks do. -/
theorem result_start (s : Solver κ α σ) (initial : Assignment κ α) (st : RunState κ α σ) :
    (Run.exec (s.start initial) st).1 = (s.startChecks initial st.workingSet).map fun _ => () := by
  have hcheck (x : Assignment κ α) (st : RunState κ α σ) :
      (Run.exec (if s.config.checkInitialFeasibility then
        announceInfeasible (checkFeasible s.graph s.config.feasibilityTolerance x)
        else pure () : Run κ α σ (SolverError α) Unit) st).1 =
      (do
        if s.config.checkInitialFeasibility then
          checkFeasible s.graph s.config.feasibilityTolerance x
        return x : Result (SolverError α) (Assignment κ α)).map fun _ => () := by
    split_ifs
    · obtain ⟨t, hexec, -⟩ := exec_announceInfeasible
        (checkFeasible s.graph s.config.feasibilityTolerance x) st
      rw [hexec]
      cases checkFeasible s.graph s.config.feasibilityTolerance x <;> rfl
    · rfl
  rw [start, startChecks, Run.exec_bind, Run.exec_workingSet]
  dsimp only
  rw [result_announcing_bind]
  cases checkWorkingSet s.graph st.workingSet with
  | error failure => rfl
  | ok _ =>
    dsimp only
    rw [result_announcing_bind]
    cases restrict s.graph initial with
    | error failure => rfl
    | ok x =>
      by_cases houtside : 0 < initial.size - x.size
      · simp only [if_pos houtside]
        exact hcheck x _
      · simp only [if_neg houtside]
        exact hcheck x _

omit [Scalar α] in
private theorem announceInfeasible_ok {r : Result (SolverError α) Unit}
    (h : Run.exec (announceInfeasible r : Run κ α σ _ _) st = (.ok (), st')) :
    r = .ok () ∧ Run.Alike st st' := by
  obtain ⟨t, hexec, hlike⟩ := exec_announceInfeasible r st
  obtain ⟨hr, rfl⟩ := Prod.mk.inj (hexec.symm.trans h)
  exact ⟨hr, hlike⟩

/-- A start that succeeds sets the point and leaves the working set. -/
theorem start_ok {initial : Assignment κ α}
    (h : Run.exec (s.start initial) st = (.ok (), st')) :
    s.Starts initial st.workingSet st'.point ∧ st'.workingSet = st.workingSet := by
  obtain ⟨_, _, hget, h⟩ := Run.exec_bind_ok.1 h
  cases hget
  obtain ⟨_, st₁, hcheck, h⟩ := Run.exec_bind_ok.1 h
  obtain ⟨hcheck, hlike₁⟩ := Run.announcing_ok hcheck
  obtain ⟨x, st₂, hrestrict, h⟩ := Run.exec_bind_ok.1 h
  obtain ⟨hrestrict, hlike₂⟩ := Run.announcing_ok hrestrict
  obtain ⟨_, st₃, hset, h⟩ := Run.exec_bind_ok.1 h
  cases hset
  have hend (hfeasible : s.config.checkInitialFeasibility = true →
      checkFeasible s.graph s.config.feasibilityTolerance x = .ok ())
      (hw : st'.workingSet = st₂.workingSet) (hx : st'.point = x) :
      s.Starts initial st.workingSet st'.point ∧ st'.workingSet = st.workingSet :=
    ⟨⟨hcheck, hx ▸ hrestrict, hx ▸ hfeasible⟩, hw.trans (hlike₂.1.trans hlike₁.1)⟩
  simp only at h
  split_ifs at h with houtside hask hask
  · obtain ⟨_, _, hreport, h⟩ := Run.exec_bind_ok.1 h
    cases hreport
    obtain ⟨hok, hw, hx, -⟩ := announceInfeasible_ok h
    exact hend (fun _ => hok) hw hx
  · obtain ⟨_, _, hreport, h⟩ := Run.exec_bind_ok.1 h
    cases hreport
    cases h
    exact hend (fun hc => absurd hc hask) rfl rfl
  · obtain ⟨hok, hw, hx, -⟩ := announceInfeasible_ok h
    exact hend (fun _ => hok) hw hx
  · cases h
    exact hend (fun hc => absurd hc hask) rfl rfl

section Late

omit [Scalar α] in
private theorem isOwn_late : SolverError.IsOwn fun e : SolverError α => (Error.solver e).Late :=
  ⟨fun _ => id, fun _ => id, fun _ => id⟩

omit [Scalar α] in
private theorem avoids_checkWorkingSet (g : Graph κ α) (w : WorkingSet) :
    (checkWorkingSet g w).Avoids fun e => (Error.solver e).Late := by
  unfold checkWorkingSet
  split
  · exact Result.avoids_fail id
  · exact Result.avoids_ok ()

omit [Scalar α] in
private theorem avoids_restrict (g : Graph κ α) (initial : Assignment κ α) :
    (restrict g initial).Avoids fun e => (Error.solver e).Late := by
  apply Result.avoids_bind (Result.avoids_graph isOwn_late _)
  intro dims
  refine Result.avoids_bind (Result.avoids_mapM fun e => ?_) fun _ => Result.avoids_ok _
  exact Result.avoids_graph isOwn_late _

private theorem avoids_checkFeasible (g : Graph κ α) (tolerance : α) (x : Assignment κ α) :
    (checkFeasible g tolerance x).Avoids fun e => (Error.solver e).Late := by
  apply Result.avoids_forM
  intro e
  apply Result.avoids_bind (Result.avoids_factor isOwn_late _)
  intro residual
  apply Result.avoids_forM
  intro e
  simp only
  split
  · exact Result.avoids_ok ()
  · split_ifs
    · exact Result.avoids_fail id
    · exact Result.avoids_ok ()

omit [Scalar α] in
private theorem inner_announceInfeasible {r : Result (SolverError α) Unit}
    (h : r.Avoids fun e => (Error.solver e).Late) :
    Run.Inner (fun e => (Error.solver e).Late) (announceInfeasible r : Run κ α σ _ _) := by
  unfold announceInfeasible
  split
  · exact Run.inner_quietly (Result.avoids_fail id)
  · exact Run.inner_announcing h

/-- A start fails with none of the failures of the loop. -/
private theorem inner_start (s : Solver κ α σ) (initial : Assignment κ α) :
    Run.Inner (fun e => (Error.solver e).Late) (s.start initial) := by
  have hcheck (x : Assignment κ α) : Run.Inner (fun e => (Error.solver e).Late)
      (announceInfeasible (checkFeasible s.graph s.config.feasibilityTolerance x) :
        Run κ α σ _ _) :=
    inner_announceInfeasible (avoids_checkFeasible _ _ x)
  apply Run.inner_bind Run.inner_workingSet
  intro w
  apply Run.inner_bind (Run.inner_announcing (avoids_checkWorkingSet _ w))
  intro _
  apply Run.inner_bind (Run.inner_announcing (avoids_restrict _ _))
  intro x
  apply Run.inner_bind (Run.inner_setPoint x)
  intro _
  simp only
  split_ifs
  · exact Run.inner_bind (Run.inner_report _) fun _ => hcheck x
  · exact Run.inner_bind (Run.inner_report _) fun _ => Run.inner_pure ()
  · exact hcheck x
  · exact Run.inner_pure ()

end Late

/-- A run that begins at all begins at a start and runs as the loop does; otherwise it notifies
nobody and ends with none of the failures of the loop. -/
theorem optimize_cases {initial : Assignment κ α} {w : WorkingSet} {eliminator : σ}
    {result : Result (Error α) (Optimum κ α)} {st : RunState κ α σ}
    (h : s.optimize initial w eliminator = (result, st)) :
    (st.notices = [] ∧ ∃ failure, result = .error failure ∧
      ∀ e, failure = .cause e → ¬e.Late) ∨
    ∃ x cost, s.Starts initial w x ∧ s.graph.cost x = .ok cost ∧
      s.Runs cost s.config.maxIterations 0 [] w x st.notices result := by
  change Run.exec (s.optimizeRun initial) _ = _ at h
  obtain ⟨hn, hp⟩ := s.inner_start initial ⟨w, initial, eliminator, []⟩
  rw [optimizeRun, Run.exec_bind, Run.exec_mapCause] at h
  rcases hexec : Run.exec (s.start initial) ⟨w, initial, eliminator, []⟩ with ⟨failure | u, st₁⟩
  · rw [hexec] at h hn hp
    obtain ⟨failure', hmap⟩ := mapCause_error (f := .solver) failure
    rw [hmap] at h
    cases h
    refine .inl ⟨hn, _, rfl, fun e he => ?_⟩
    obtain ⟨e', hfail, rfl⟩ := cause_of_mapCause ((hmap _).trans (congrArg _ he))
    exact hp e' hfail
  · obtain ⟨hstarts, hw⟩ := start_ok hexec
    rw [hexec] at h hn
    simp only [Result.mapCause_ok, Run.exec_bind, exec_currentCost] at h
    cases hcost : s.graph.cost st₁.point with
    | error failure =>
      obtain ⟨failure', hmap⟩ := mapCause_error (f := .graph) failure
      rw [hcost, hmap] at h
      cases h
      refine .inl ⟨hn, _, rfl, fun e he => ?_⟩
      obtain ⟨e', -, rfl⟩ := cause_of_mapCause ((hmap α).trans (congrArg _ he))
      exact id
    | ok cost =>
      rw [hcost] at h
      simp only [Result.mapCause_ok, Run.exec_report] at h
      obtain ⟨events, hevents, hruns⟩ := loop_runs h
      refine .inr ⟨st₁.point, cost, hstarts, hcost, ?_⟩
      have hnone : st.notices = events := by
        rw [hevents]
        simpa [RunState.notices, Event.isReport] using hn
      have hw : st₁.workingSet = w := hw
      rw [hnone, ← hw]
      exact hruns

end Solver

end GaussianProgram
