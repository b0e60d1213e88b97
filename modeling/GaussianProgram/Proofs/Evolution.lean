import GaussianProgram.Proofs.RatioTest
import GaussianProgram.Proofs.Start
import GaussianProgram.Proofs.Table
import GaussianProgram.Proofs.WorstRow

/-! How the working set evolves. An iteration takes in the row that blocked it or drops the row with
the worst multiplier, and one that fails leaves the working set, whatever the eliminator does. So a
run shows sets of inequality rows only. -/
namespace GaussianProgram

namespace Run
variable {κ α σ ε β γ : Type} [Key κ]

/-- The run leaves the working set, whether it succeeds or fails. -/
def KeepsSet (m : Run κ α σ ε β) : Prop :=
  ∀ st, (exec m st).2.workingSet = st.workingSet

/-- The run leaves the working set where it fails. -/
def FailsInPlace (m : Run κ α σ ε β) : Prop :=
  ∀ st e st', exec m st = (.error e, st') → st'.workingSet = st.workingSet

theorem KeepsSet.failsInPlace {m : Run κ α σ ε β} (h : KeepsSet m) : FailsInPlace m := by
  intro st e st' hexec
  have hst := h st
  rwa [hexec] at hst

theorem KeepsSet.bind {m : Run κ α σ ε β} {f : β → Run κ α σ ε γ} (hm : KeepsSet m)
    (hf : ∀ b, KeepsSet (f b)) : KeepsSet (m >>= f) := by
  intro st
  have hst := hm st
  rw [exec_bind]
  rcases hexec : exec m st with ⟨e | b, st'⟩
  · rwa [hexec] at hst
  · rw [hexec] at hst
    exact (hf b st').trans hst

/-- What fails after parts that leave the working set fails where they began. -/
theorem KeepsSet.bind_failsInPlace {m : Run κ α σ ε β} {f : β → Run κ α σ ε γ} (hm : KeepsSet m)
    (hf : ∀ b, FailsInPlace (f b)) : FailsInPlace (m >>= f) := by
  intro st e st'' h
  have hst := hm st
  rw [exec_bind] at h
  rcases hexec : exec m st with ⟨e' | b, st'⟩
  · rw [hexec] at h hst
    cases h
    exact hst
  · rw [hexec] at h hst
    exact (hf b st' e st'' h).trans hst

theorem keepsSet_pure (b : β) : KeepsSet (pure b : Run κ α σ ε β) := fun _ => rfl

theorem keepsSet_workingSet : KeepsSet (workingSet : Run κ α σ ε WorkingSet) := fun _ => rfl

theorem keepsSet_point : KeepsSet (point : Run κ α σ ε (Assignment κ α)) := fun _ => rfl

theorem keepsSet_setPoint (x : Assignment κ α) : KeepsSet (setPoint x : Run κ α σ ε Unit) :=
  fun _ => rfl

theorem keepsSet_report (r : Report κ α) : KeepsSet (report r : Run κ α σ ε Unit) := fun _ => rfl

theorem keepsSet_quietly (r : Result ε β) : KeepsSet (quietly r : Run κ α σ ε β) := by
  intro st
  rw [exec_quietly]

theorem keepsSet_announcing (r : Result (SolverError α) β) :
    KeepsSet (announcing r : Run κ α σ (SolverError α) β) := by
  intro st
  obtain ⟨st', hexec, hw, -⟩ := exec_announcing r st
  rwa [hexec]

theorem keepsSet_ask {κ' : Type} [Key κ'] (answer : σ → Reply κ' α × σ) :
    KeepsSet (ask answer : Run κ α σ (SolverError α) (Assignment κ' α)) := by
  intro st
  obtain ⟨st', hexec, hw, -⟩ := exec_ask answer st
  rwa [hexec]

/-- The change that ends an iteration, with its report, does not fail. -/
theorem failsInPlace_setWorkingSet (w : WorkingSet) (r : Report κ α) (b : β) :
    FailsInPlace (do setWorkingSet w; report r; return b : Run κ α σ ε β) :=
  fun _ _ _ h => nomatch h

end Run

namespace Solver
variable {κ α σ : Type} [Key κ] [Scalar α] {s : Solver κ α σ} {w w' : WorkingSet}
  {x y : Assignment κ α} {o : Outcome α}

/-- What an iteration with this outcome does to the rows of the working set. A row is dropped for
the multiplier that it has in the answer to the dual graph of the point reached, which the
eliminator gives in the state in which its answer to the working problem has left it. -/
def Evolves (s : Solver κ α σ) (st st' : RunState κ α σ) : Outcome α → Prop
  | .stepTaken _ (some row) =>
    row ∉ st.workingSet.rows ∧ s.graph.rowKind? row = some .inequality ∧
      ∀ r, r ∈ st'.workingSet.rows ↔ r = row ∨ r ∈ st.workingSet.rows
  | .dropped row =>
    row ∈ st.workingSet.rows ∧ s.graph.rowKind? row = some .inequality ∧
      (∃ solution e duals v multiplier, s.AnswersAt st solution e ∧
        s.RecoversAt st.workingSet st'.point e duals st'.eliminator ∧
        duals.get? row.factor = some v ∧ v[row.row]? = some multiplier ∧
        multiplier < -s.config.dualTolerance) ∧
      ∀ r, r ∈ st'.workingSet.rows ↔ r ≠ row ∧ r ∈ st.workingSet.rows
  | .stepTaken _ none => st'.workingSet = st.workingSet
  | .converged _ => st'.workingSet = st.workingSet

/-- An iteration that succeeds changes the working set as its outcome says. -/
theorem IteratesAt.evolves {st st' : RunState κ α σ} (h : s.IteratesAt st o st') :
    s.Evolves st st' o := by
  cases h with
  | blocked _ hblock _ hw =>
    obtain ⟨hkind, hnew⟩ := Graph.blocking_row hblock
    exact ⟨hnew, hkind, fun r => hw ▸ WorkingSet.mem_rows_insert⟩
  | moved _ _ _ hw => exact hw
  | converged _ _ _ _ hw => exact hw
  | dropped hanswer _ hduals hworst hw =>
    obtain ⟨multiplier, hmultiplier, hlow⟩ := Graph.multiplier_of_worstRow? hworst
    unfold Graph.multiplier? at hmultiplier
    split_ifs at hmultiplier with hkind
    obtain ⟨v, hv, hentry⟩ := Option.bind_eq_some_iff.1 hmultiplier
    exact ⟨Graph.mem_of_worstRow? hworst, Graph.isInequality_iff.1 hkind,
      ⟨_, _, _, v, multiplier, hanswer, hduals, hv, hentry, hlow⟩,
      fun r => hw ▸ WorkingSet.mem_rows_remove⟩

/-- Every iteration that succeeds leaves inequality rows of the graph in the working set. -/
theorem Iterates.admits (h : s.Iterates w x o w' y) (hw : s.graph.Admits w) :
    s.graph.Admits w' := by
  cases h with
  | blocked _ hblock _ => exact hw.insert (Graph.blocking_row hblock).1
  | moved _ _ => exact hw
  | converged _ _ _ => exact hw
  | dropped _ _ _ => exact hw.remove _

private theorem keepsSet_computeDuals (s : Solver κ α σ) (w : WorkingSet) (x : Assignment κ α) :
    Run.KeepsSet (s.computeDuals w x) := by
  have hdual : Run.KeepsSet (s.dualGraph w x) := by
    have hreport (dual : Graph ℕ α) : Run.KeepsSet (do
        if !(s.graph.participating w).isEmpty then
          Run.report (.dualGraph dual.size (s.graph.participating w).length)
        return dual : Run κ α σ (SolverError α) (Graph ℕ α)) := by
      split
      · exact (Run.keepsSet_report _).bind fun _ => Run.keepsSet_pure dual
      · exact Run.keepsSet_pure dual
    unfold dualGraph
    split
    · exact (Run.keepsSet_quietly _).bind hreport
    · exact (Run.keepsSet_announcing _).bind hreport
  refine (Run.keepsSet_announcing _).bind fun _ => hdual.bind fun dual => ?_
  split
  · exact Run.keepsSet_pure _
  · exact Run.keepsSet_ask _

theorem failsInPlace_takeBlockedStep (y : Assignment κ α) (row : ConstraintRow) (fraction : α) :
    Run.FailsInPlace (takeBlockedStep (σ := σ) y row fraction) := by
  refine Run.keepsSet_point.bind_failsInPlace fun x => ?_
  refine (Run.keepsSet_setPoint _).bind_failsInPlace fun _ => ?_
  refine (Run.keepsSet_quietly _).bind_failsInPlace fun _ => ?_
  refine Run.keepsSet_workingSet.bind_failsInPlace fun w => ?_
  exact Run.failsInPlace_setWorkingSet _ _ _

theorem failsInPlace_resolveStationary (s : Solver κ α σ) :
    Run.FailsInPlace s.resolveStationary := by
  refine Run.keepsSet_workingSet.bind_failsInPlace fun w => ?_
  refine Run.keepsSet_point.bind_failsInPlace fun x => ?_
  refine (keepsSet_computeDuals s w x).bind_failsInPlace fun duals => ?_
  split
  · exact (Run.keepsSet_pure _).failsInPlace
  · exact Run.failsInPlace_setWorkingSet _ _ _

theorem failsInPlace_takeFullStep (s : Solver κ α σ) (y : Assignment κ α) :
    Run.FailsInPlace (s.takeFullStep y) := by
  refine Run.keepsSet_point.bind_failsInPlace fun x => ?_
  refine (Run.keepsSet_quietly _).bind_failsInPlace fun distance => ?_
  refine (Run.keepsSet_setPoint _).bind_failsInPlace fun _ => ?_
  split
  · exact s.failsInPlace_resolveStationary
  · exact (Run.keepsSet_pure _).failsInPlace

/-- An iteration that fails leaves the working set. -/
theorem iterate_failsInPlace (s : Solver κ α σ) : Run.FailsInPlace s.iterate := by
  refine Run.keepsSet_workingSet.bind_failsInPlace fun w => ?_
  refine (Run.keepsSet_announcing _).bind_failsInPlace fun _ => ?_
  refine (Run.keepsSet_announcing _).bind_failsInPlace fun working => ?_
  refine (Run.keepsSet_ask _).bind_failsInPlace fun solution => ?_
  refine Run.keepsSet_point.bind_failsInPlace fun x => ?_
  refine (Run.keepsSet_quietly _).bind_failsInPlace fun found => ?_
  split
  · exact failsInPlace_takeBlockedStep _ _ _
  · exact s.failsInPlace_takeFullStep _

/-- Working sets that the loop shows, and the one that it returns, name inequality rows only. -/
theorem Runs.admits {initialCost : α} {fuel i : ℕ} {D : List WorkingSet} {events : List (Event κ α)}
    {result : Result (Error α) (Optimum κ α)} (h : s.Runs initialCost fuel i D w x events result)
    (hw : s.graph.Admits w) :
    (∀ z v j, .visited z v j ∈ events → s.graph.Admits v) ∧
      ∀ optimum, result = .ok optimum → s.graph.Admits optimum.workingSet := by
  have hshown {cost : α} {o : Outcome α} {v : WorkingSet} {z : Assignment κ α} {i : ℕ}
      (hv : s.graph.Admits v) :
      ∀ z' v' j, .visited z' v' j ∈ shown cost o v z i → s.graph.Admits v' := by
    intro z' v' j hmem
    simp only [shown, List.mem_cons, List.not_mem_nil, or_false, reduceCtorEq, false_or,
      Event.visited.injEq] at hmem
    exact hmem.2.1 ▸ hv
  have happend {l l' : List (Event κ α)}
      (hl : ∀ z v j, .visited z v j ∈ l → s.graph.Admits v)
      (hl' : ∀ z v j, .visited z v j ∈ l' → s.graph.Admits v) :
      ∀ z v j, .visited z v j ∈ l ++ l' → s.graph.Admits v := fun z v j hmem =>
    (List.mem_append.1 hmem).elim (hl z v j) (hl' z v j)
  induction h with
  | limit => exact ⟨by simp, fun _ h => by cases h⟩
  | failed _ => exact ⟨by simp, fun _ h => by cases h⟩
  | converged hiter _ =>
    have hw' := hiter.admits hw
    refine ⟨hshown hw', fun optimum h => ?_⟩
    cases h
    exact hw'
  | cycled hiter _ _ _ => exact ⟨hshown (hiter.admits hw), fun _ h => by cases h⟩
  | dropped hiter _ _ _ ih =>
    obtain ⟨hevents, hresult⟩ := ih (hiter.admits hw)
    exact ⟨happend (hshown (hiter.admits hw)) hevents, hresult⟩
  | stepped hiter _ _ ih =>
    obtain ⟨hevents, hresult⟩ := ih (hiter.admits hw)
    exact ⟨happend (hshown (hiter.admits hw)) hevents, hresult⟩

omit [Scalar α] in
theorem mem_notices {st : RunState κ α σ} {z : Assignment κ α} {v : WorkingSet} {j : ℕ} :
    .visited z v j ∈ st.notices ↔ .visited z v j ∈ st.events := by
  simp [RunState.notices, Event.isReport]

/-- Whatever an eliminator answers, an iteration changes the working set exactly as its outcome
says, and not at all where it fails; and whatever a run begins with, every working set that it shows
or returns names inequality rows of the graph only. -/
theorem workingSet_evolves (s : Solver κ α σ) :
    (∀ st o st', Run.exec s.iterate st = (.ok o, st') → s.Evolves st st' o) ∧
    (∀ st failure st', Run.exec s.iterate st = (.error failure, st') →
      st'.workingSet = st.workingSet) ∧
    ∀ initial w eliminator result st, s.optimize initial w eliminator = (result, st) →
      (∀ z v j, .visited z v j ∈ st.events → s.graph.Admits v) ∧
        ∀ optimum, result = .ok optimum → s.graph.Admits optimum.workingSet := by
  refine ⟨fun st o st' h => (iteratesAt_of_ok h).evolves, s.iterate_failsInPlace, ?_⟩
  intro initial w eliminator result st hrun
  rcases optimize_cases hrun with ⟨hnone, failure, rfl, -⟩ | ⟨x, cost, hstarts, -, hruns⟩
  · refine ⟨fun z v j hmem => ?_, fun _ h => nomatch h⟩
    rw [← mem_notices, hnone] at hmem
    cases hmem
  · obtain ⟨hshown, hresult⟩ := hruns.admits (checkWorkingSet_eq_ok.1 hstarts.workingSet)
    exact ⟨fun z v j hmem => hshown z v j (mem_notices.2 hmem), hresult⟩

/-- From the bound the row is dropped; without a point the iteration fails and the row stays; and
the run from the bound ends with the empty set, which it also shows. -/
theorem looseHalfLine_evolves :
    (∃ st', Run.exec looseHalfLine.iterate ⟨.ofRows [⟨1, 0⟩], .single 0 3, (), []⟩ =
      (.ok (.dropped ⟨1, 0⟩), st') ∧ ∀ r, r ∉ st'.workingSet.rows) ∧
    (∃ failure st', Run.exec looseHalfLine.iterate ⟨.ofRows [⟨1, 0⟩], SortedMap.empty, (), []⟩ =
      (.error failure, st') ∧ st'.workingSet.rows = [⟨1, 0⟩]) ∧
    ∃ optimum st, looseHalfLine.optimize (.single 0 3) (.ofRows [⟨1, 0⟩]) () = (.ok optimum, st) ∧
      looseHalfLine.graph.Admits optimum.workingSet ∧
        .visited (.single 0 2) WorkingSet.empty 2 ∈ st.events ∧
          looseHalfLine.graph.Admits WorkingSet.empty := by
  obtain ⟨hevolves, hfails, hruns⟩ := looseHalfLine.workingSet_evolves
  refine ⟨?_, ?_, ?_⟩
  · have hok : (Run.exec looseHalfLine.iterate ⟨.ofRows [⟨1, 0⟩], .single 0 3, (), []⟩).1 =
        .ok (.dropped ⟨1, 0⟩) := by decide +kernel
    obtain ⟨-, -, -, hrows⟩ := hevolves _ _ _ (Prod.ext hok rfl)
    refine ⟨_, Prod.ext hok rfl, fun r hr => ?_⟩
    obtain ⟨hne, hmem⟩ := (hrows r).1 hr
    exact hne (List.mem_singleton.1 hmem)
  · have herror : (Run.exec looseHalfLine.iterate ⟨.ofRows [⟨1, 0⟩], SortedMap.empty, (), []⟩).1 =
        .error (.cause (.graph (.missingValue "0"))) := by decide +kernel
    exact ⟨_, _, Prod.ext herror rfl,
      congrArg WorkingSet.rows (hfails _ _ _ (Prod.ext herror rfl))⟩
  · have hok : (looseHalfLine.optimize (.single 0 3) (.ofRows [⟨1, 0⟩]) ()).1 =
        .ok ⟨.single 0 2, SortedMap.empty, WorkingSet.empty, .interiorOptimum, -3, -4, 3⟩ := by
      decide +kernel
    have hvisited : .visited (.single 0 2) WorkingSet.empty 2 ∈
        (looseHalfLine.optimize (.single 0 3) (.ofRows [⟨1, 0⟩]) ()).2.events := by decide +kernel
    obtain ⟨hshown, hresult⟩ := hruns _ _ _ _ _ (Prod.ext hok rfl)
    exact ⟨_, _, Prod.ext hok rfl, hresult _ rfl, hvisited, hshown _ _ _ hvisited⟩

end Solver

end GaussianProgram
