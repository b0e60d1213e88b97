import GaussianProgram.Proofs.Evolution
import GaussianProgram.Proofs.Participation
import GaussianProgram.Proofs.Tracking
import GaussianProgram.Proofs.Trajectory

/-! Calls of the eliminator. An eliminator that keeps its calls answers as it does without, so a run
can be asked for them afterwards: each iteration gives it its working problem, and then at most the
dual graph of the point that it has found. -/
namespace GaussianProgram

variable {κ α σ : Type} [Key κ]

/-- A call of an eliminator, with the graph that it is given. -/
inductive Call (κ α : Type) [Key κ] where
  | primal (g : Graph κ α)
  | dual (g : Graph ℕ α)

namespace Eliminator

def next (e : Eliminator κ α σ) (state : σ) : Call κ α → σ
  | .primal g => (e.primal g state).2
  | .dual g => (e.dual g state).2

def after (e : Eliminator κ α σ) (state : σ) (calls : List (Call κ α)) : σ :=
  calls.foldl e.next state

/-- Gives the same answers, and keeps its calls beside its state. -/
def logged (e : Eliminator κ α σ) : Eliminator κ α (σ × List (Call κ α)) where
  primal g state := ((e.primal g state.1).1, (e.primal g state.1).2, state.2 ++ [.primal g])
  dual g state := ((e.dual g state.1).1, (e.dual g state.1).2, state.2 ++ [.dual g])

theorem after_append (e : Eliminator κ α σ) (state : σ) (calls calls' : List (Call κ α)) :
    e.after state (calls ++ calls') = e.after (e.after state calls) calls' := List.foldl_append

theorem after_logged (e : Eliminator κ α σ) (state : σ × List (Call κ α))
    (calls : List (Call κ α)) :
    e.logged.after state calls = (e.after state.1 calls, state.2 ++ calls) := by
  induction calls generalizing state with
  | nil => exact Prod.ext rfl (List.append_nil _).symm
  | cons call calls ih =>
    have hnext : e.logged.next state call = (e.next state.1 call, state.2 ++ [call]) := by
      cases call <;> rfl
    rw [after, List.foldl_cons, ← after, ih, hnext, List.append_assoc]
    rfl

end Eliminator

def RunState.withLog (st : RunState κ α σ) (log : List (Call κ α)) :
    RunState κ α (σ × List (Call κ α)) where
  workingSet := st.workingSet
  point := st.point
  eliminator := (st.eliminator, log)
  events := st.events

def Outcome.isDropped : Outcome α → Bool
  | dropped _ => true
  | _ => false

/-- The calls of an iteration that succeeds: its working problem, and at a point that the method
takes for the solution of that problem the dual graph, unless it is empty. -/
inductive Graph.Consults [Scalar α] (g : Graph κ α) (w : WorkingSet) (y : Assignment κ α) :
    Outcome α → List (Call κ α) → Prop
  | stepTaken {working : Graph κ α} {t : α} {row : Option ConstraintRow}
      (hworking : g.workingGraph w = .ok working) :
      Consults g w y (.stepTaken t row) [.primal working]
  | dropped {working : Graph κ α} {dual : Graph ℕ α} {row : ConstraintRow}
      (hworking : g.workingGraph w = .ok working) (hdual : g.dualGraph w y = .ok dual) :
      Consults g w y (.dropped row) [.primal working, .dual dual]
  | converged {working : Graph κ α} {dual : Graph ℕ α} {duals : Assignment ℕ α}
      (hworking : g.workingGraph w = .ok working) (hdual : g.dualGraph w y = .ok dual) :
      Consults g w y (.converged duals)
        (.primal working :: if dual.isEmpty then [] else [.dual dual])

/-- There is a dual call besides the working problem for every drop, and for a convergence exactly
if some factor takes part. -/
theorem Graph.Consults.length_eq [Scalar α] {g : Graph κ α} {w : WorkingSet} {y : Assignment κ α}
    {o : Outcome α} {calls : List (Call κ α)} (h : g.Consults w y o calls) :
    calls.length = 1 + (if o.isDropped then 1 else 0) +
      if o.isConverged ∧ g.participating w ≠ [] then 1 else 0 := by
  cases h with
  | stepTaken _ => rfl
  | dropped _ _ => rfl
  | converged _ hdual =>
    simp only [Outcome.isDropped, Outcome.isConverged, Bool.false_eq_true, if_false, true_and,
      ne_eq, ← isEmpty_dualGraph hdual]
    split_ifs <;> rfl

namespace Solver
variable [Scalar α] {s : Solver κ α σ} {st st' st₀ : RunState κ α σ} {w : WorkingSet}
  {x y : Assignment κ α} {o : Outcome α}

def logged (s : Solver κ α σ) : Solver κ α (σ × List (Call κ α)) where
  graph := s.graph
  config := s.config
  eliminator := s.eliminator.logged
  singularValues := s.singularValues

/-- The run without the log goes where the run with it goes. -/
theorem tracks_logged (s : Solver κ α σ) : s.logged.Tracks True ⟨id, id⟩ Prod.fst id s where
  config := rfl
  checkWorkingSet := rfl
  restrict := rfl
  checkFeasible := rfl
  cost _ := (congrFun Except.map_id _).symm
  difference _ _ := rfl
  checkRank := rfl
  workingGraph _ := (congrFun Except.map_id _).symm
  stepSize := rfl
  participating := rfl
  dualGraph := rfl
  worstRow? := rfl
  statusOf := rfl
  primal _ _ _ _ _ := rfl
  dual _ _ _ _ _ _ := rfl

/-- Iterations of the run without the log are those of the run with it. -/
theorem stateAt_logged (s : Solver κ α σ) (st₀ : RunState κ α (σ × List (Call κ α))) (i : ℕ) :
    s.stateAt (st₀.shift ⟨id, id⟩ Prod.fst) i =
      (s.logged.stateAt st₀ i).shift ⟨id, id⟩ Prod.fst := by
  induction i with
  | zero => rfl
  | succ i ih => rw [stateAt, ih, s.tracks_logged.iterate _ (.inl trivial), stateAt]

theorem outcomeAt_logged (s : Solver κ α σ) (st₀ : RunState κ α (σ × List (Call κ α))) (i : ℕ) :
    s.outcomeAt (st₀.shift ⟨id, id⟩ Prod.fst) i = s.logged.outcomeAt st₀ i := by
  rw [outcomeAt, stateAt_logged, s.tracks_logged.iterate _ (.inl trivial), outcomeAt]
  exact congrFun Except.map_id _

/-- The run with the log ends as the run without it, with the same events. -/
theorem optimize_logged (s : Solver κ α σ) (initial : Assignment κ α) (w : WorkingSet) (state : σ)
    (log : List (Call κ α)) : ∃ log', s.logged.optimize initial w (state, log) =
      ((s.optimize initial w state).1, (s.optimize initial w state).2.withLog log') := by
  have hrun := s.tracks_logged.optimize initial w (state, log) (.inl trivial)
  rcases hlogged : s.logged.optimize initial w (state, log) with ⟨r, st⟩
  rw [hlogged] at hrun
  refine ⟨st.eliminator.2, ?_⟩
  rw [hrun]
  refine Prod.ext ?_ (congrArg (fun events => { st with events })
    (st.events_shift_eq_self Prod.fst rfl rfl).symm)
  rcases r with _ | r <;> rfl

/-- Multipliers are asked for with one call, or with none if the dual graph is empty. -/
theorem RecoversAt.eliminator_eq {e e' : σ} {duals : Assignment ℕ α}
    (h : s.RecoversAt w y e duals e') :
    ∃ dual, s.graph.dualGraph w y = .ok dual ∧ (dual.isEmpty = true → duals = SortedMap.empty) ∧
      e' = s.eliminator.after e (if dual.isEmpty then [] else [.dual dual]) := by
  obtain ⟨dual, hdual, hanswer⟩ := h
  refine ⟨dual, hdual, ?_⟩
  split_ifs at hanswer ⊢ with hempty
  · exact ⟨fun _ => hanswer.1, hanswer.2⟩
  · exact ⟨fun hempty' => absurd hempty' hempty, hanswer.2.symm⟩

/-- An iteration that succeeds leaves the eliminator as its calls do. -/
theorem IteratesAt.consults (h : s.IteratesAt st o st') :
    ∃ calls, s.graph.Consults st.workingSet st'.point o calls ∧
      st'.eliminator = s.eliminator.after st.eliminator calls := by
  cases h with
  | blocked hanswer _ _ _ =>
    obtain ⟨working, hworking, -, heliminator⟩ := hanswer.answer
    exact ⟨_, .stepTaken hworking, heliminator.symm⟩
  | moved hanswer _ _ _ =>
    obtain ⟨working, hworking, -, heliminator⟩ := hanswer.answer
    exact ⟨_, .stepTaken hworking, heliminator.symm⟩
  | converged hanswer _ hduals _ _ =>
    obtain ⟨working, hworking, -, rfl⟩ := hanswer.answer
    obtain ⟨dual, hdual, -, hafter⟩ := hduals.eliminator_eq
    exact ⟨_, .converged hworking hdual, hafter⟩
  | dropped hanswer _ hduals hworst _ =>
    obtain ⟨working, hworking, -, rfl⟩ := hanswer.answer
    obtain ⟨dual, hdual, hnone, hafter⟩ := hduals.eliminator_eq
    -- a row is dropped for its multiplier, and an empty dual graph leaves none
    obtain ⟨multiplier, hmultiplier, -⟩ := Graph.multiplier_of_worstRow? hworst
    have hfull : ¬dual.isEmpty = true := fun hempty => by
      simp [hnone hempty, Graph.multiplier?] at hmultiplier
    rw [if_neg hfull] at hafter
    exact ⟨_, .dropped hworking hdual, hafter⟩

/-- The number of iterations below `n` that drop a row. -/
def drops (s : Solver κ α σ) (st₀ : RunState κ α σ) (n : ℕ) : ℕ :=
  (List.range n).countP fun i => match s.outcomeAt st₀ i with
    | .ok o => o.isDropped
    | .error _ => false

theorem drops_succ {n : ℕ} (h : s.outcomeAt st₀ n = .ok o) :
    s.drops st₀ (n + 1) = s.drops st₀ n + if o.isDropped then 1 else 0 := by
  rw [drops, List.range_succ, List.countP_append, List.countP_singleton, h, drops]

/-- The calls of the first iterations leave the eliminator as they do one after the other. -/
theorem exists_calls {n : ℕ} (h : ∀ i < n, ∃ o, s.outcomeAt st₀ i = .ok o) :
    ∃ calls : ℕ → List (Call κ α), (∀ i < n, ∃ o, s.outcomeAt st₀ i = .ok o ∧
        s.graph.Consults (s.stateAt st₀ i).workingSet (s.stateAt st₀ (i + 1)).point o (calls i)) ∧
      (s.stateAt st₀ n).eliminator =
        s.eliminator.after st₀.eliminator ((List.range n).flatMap calls) := by
  have hstep (i : ℕ) : ∃ l, i < n → ∃ o, s.outcomeAt st₀ i = .ok o ∧
      s.graph.Consults (s.stateAt st₀ i).workingSet (s.stateAt st₀ (i + 1)).point o l ∧
        (s.stateAt st₀ (i + 1)).eliminator = s.eliminator.after (s.stateAt st₀ i).eliminator l := by
    by_cases hi : i < n
    · obtain ⟨o, ho⟩ := h i hi
      obtain ⟨l, hl⟩ := (iteratesAt_of_ok (Prod.ext ho rfl)).consults
      exact ⟨l, fun _ => ⟨o, ho, hl⟩⟩
    · exact ⟨[], fun hlt => absurd hlt hi⟩
  choose calls hcalls using hstep
  refine ⟨calls, fun i hi => ?_, ?_⟩
  · obtain ⟨o, ho, hconsults, -⟩ := hcalls i hi
    exact ⟨o, ho, hconsults⟩
  · have hafter (m : ℕ) (hm : m ≤ n) : (s.stateAt st₀ m).eliminator =
        s.eliminator.after st₀.eliminator ((List.range m).flatMap calls) := by
      induction m with
      | zero => rfl
      | succ m ih =>
        obtain ⟨-, -, -, hnext⟩ := hcalls m hm
        rw [hnext, ih (Nat.le_of_succ_le hm), List.range_succ, List.flatMap_append,
          List.flatMap_singleton, Eliminator.after_append]
    exact hafter n le_rfl

/-- Iterations that do not converge call the eliminator once, and once more for a drop. -/
theorem length_calls {n : ℕ} {calls : ℕ → List (Call κ α)}
    (h : ∀ i < n, ∃ o, s.outcomeAt st₀ i = .ok o ∧ o.isConverged = false ∧
      s.graph.Consults (s.stateAt st₀ i).workingSet (s.stateAt st₀ (i + 1)).point o (calls i)) :
    ((List.range n).flatMap calls).length = n + s.drops st₀ n := by
  induction n with
  | zero => rfl
  | succ n ih =>
    obtain ⟨o, ho, hgoes, hconsults⟩ := h n (Nat.lt_succ_self n)
    have hlength := hconsults.length_eq
    simp only [hgoes, Bool.false_eq_true, false_and, if_false, Nat.add_zero] at hlength
    rw [List.range_succ, List.flatMap_append, List.flatMap_singleton, List.length_append, hlength,
      ih fun i hi => h i (Nat.lt_succ_of_lt hi), drops_succ ho]
    omega

/-- Along iterations that succeed the working set is one of inequality rows. -/
theorem admits_stateAt {n : ℕ} (hw : s.graph.Admits st₀.workingSet)
    (h : ∀ i < n, ∃ o, s.outcomeAt st₀ i = .ok o) :
    s.graph.Admits (s.stateAt st₀ n).workingSet := by
  induction n with
  | zero => exact hw
  | succ n ih =>
    obtain ⟨o, ho⟩ := h n (Nat.lt_succ_self n)
    have hiter : s.Iterates (s.stateAt st₀ n).workingSet (s.stateAt st₀ n).point o
        (s.stateAt st₀ (n + 1)).workingSet (s.stateAt st₀ (n + 1)).point :=
      iterate_ok (Prod.ext ho rfl)
    exact hiter.admits (ih fun i hi => h i (Nat.lt_succ_of_lt hi))

/-- An iteration that converges leaves the working set and has its multipliers. -/
theorem Iterates.of_converged {w' : WorkingSet} {duals : Assignment ℕ α}
    (h : s.Iterates w x (.converged duals) w' y) : w' = w ∧ s.HasDuals w y duals := by
  cases h with
  | converged _ hduals _ => exact ⟨rfl, hduals⟩

/-- A run that returns an optimum goes through working sets of inequality rows, and it ends with the
multipliers of the last one. -/
theorem exists_active {initial : Assignment κ α} {state : σ} {optimum : Optimum κ α}
    (h : s.optimize initial w state = (.ok optimum, st)) :
    s.graph.Admits optimum.workingSet ∧ (∃ y, s.HasDuals optimum.workingSet y optimum.duals) ∧
      (optimum.status = .interiorOptimum ↔ s.graph.participating optimum.workingSet = []) := by
  obtain ⟨x, n, hstart, -, hgoes, hlast, -, hset, hstatus, -⟩ := exists_iterations h
  have hadmits : s.graph.Admits (s.stateAt ⟨w, x, state, []⟩ n).workingSet :=
    admits_stateAt (checkWorkingSet_eq_ok.1 hstart.workingSet)
      fun i hi => (hgoes i hi).imp fun _ => And.left
  obtain ⟨hsame, hduals⟩ := (iterate_ok (s := s) (Prod.ext hlast rfl)).of_converged
  change (s.stateAt ⟨w, x, state, []⟩ (n + 1)).workingSet = _ at hsame
  rw [← hsame, ← hset] at hadmits hduals
  exact ⟨hadmits, ⟨_, hduals⟩, hstatus ▸ statusOf_eq_interiorOptimum hadmits⟩

/-- The calls of a run that returns an optimum, iteration by iteration. -/
theorem exists_consultations {initial : Assignment κ α} {state : σ} {optimum : Optimum κ α}
    (h : s.optimize initial w state = (.ok optimum, st)) :
    ∃ x calls, s.Starts initial w x ∧
      st.eliminator = s.eliminator.after state ((List.range optimum.iterations).flatMap calls) ∧
      (∀ i < optimum.iterations, ∃ o, s.outcomeAt ⟨w, x, state, []⟩ i = .ok o ∧
        s.graph.Consults (s.stateAt ⟨w, x, state, []⟩ i).workingSet
          (s.stateAt ⟨w, x, state, []⟩ (i + 1)).point o (calls i)) ∧
      ((List.range optimum.iterations).flatMap calls).length =
        optimum.iterations + s.drops ⟨w, x, state, []⟩ optimum.iterations +
          if optimum.status = .converged then 1 else 0 := by
  obtain ⟨-, -, hstatus⟩ := exists_active h
  obtain ⟨x, n, hstart, hcount, hgoes, hlast, -, hset, -, hagree⟩ := exists_iterations h
  have hsame : (s.stateAt ⟨w, x, state, []⟩ (n + 1)).workingSet = _ :=
    (iterate_ok (s := s) (Prod.ext hlast rfl)).of_converged.1
  have hall (i : ℕ) (hi : i < n + 1) : ∃ o, s.outcomeAt ⟨w, x, state, []⟩ i = .ok o := by
    rcases Nat.lt_succ_iff_lt_or_eq.1 hi with hi | rfl
    · exact (hgoes i hi).imp fun _ => And.left
    · exact ⟨_, hlast⟩
  obtain ⟨calls, hcalls, hafter⟩ := exists_calls hall
  rw [hcount]
  refine ⟨x, calls, hstart, hagree.2.2.trans hafter, hcalls, ?_⟩
  have hfirst : ((List.range n).flatMap calls).length = n + s.drops ⟨w, x, state, []⟩ n := by
    refine length_calls fun i hi => ?_
    obtain ⟨o, ho, hconsults⟩ := hcalls i (Nat.lt_succ_of_lt hi)
    obtain ⟨o', ho', hgoes⟩ := hgoes i hi
    cases Except.ok.inj (ho.symm.trans ho')
    exact ⟨o, ho, hgoes, hconsults⟩
  obtain ⟨o, ho, hconsults⟩ := hcalls n (Nat.lt_succ_self n)
  cases Except.ok.inj (ho.symm.trans hlast)
  have hactive : (optimum.status = .converged) ↔
      s.graph.participating (s.stateAt ⟨w, x, state, []⟩ n).workingSet ≠ [] := by
    rw [← hsame, ← hset, ne_eq, ← hstatus]
    cases optimum.status <;> simp
  have hlength := hconsults.length_eq
  simp only [Outcome.isDropped, Outcome.isConverged, Bool.false_eq_true, if_false, true_and,
    ← hactive] at hlength
  rw [List.range_succ, List.flatMap_append, List.flatMap_singleton, List.length_append, hfirst,
    hlength, drops_succ hlast,
    if_neg (show ¬(Outcome.converged optimum.duals).isDropped = true from Bool.false_ne_true)]
  omega

/-- A run that returns an optimum has called the eliminator once in every iteration, with its
working problem, and a second time, with the dual graph, in those that dropped a row and in the last
one if some row is active. The status says whether there is such a row, and so does whether there
are multipliers: there is one for every row of each constraint factor with an equality row or a row
in the final working set. -/
theorem optimize_consults (hs : s.AnswersDualInShape) {initial : Assignment κ α} {state : σ}
    {optimum : Optimum κ α} (h : s.optimize initial w state = (.ok optimum, st)) :
    (∃ x calls, s.Starts initial w x ∧
      s.logged.optimize initial w (state, []) =
        (.ok optimum, st.withLog ((List.range optimum.iterations).flatMap calls)) ∧
      (∀ i < optimum.iterations, ∃ o, s.outcomeAt ⟨w, x, state, []⟩ i = .ok o ∧
        s.graph.Consults (s.stateAt ⟨w, x, state, []⟩ i).workingSet
          (s.stateAt ⟨w, x, state, []⟩ (i + 1)).point o (calls i)) ∧
      ((List.range optimum.iterations).flatMap calls).length =
        optimum.iterations + s.drops ⟨w, x, state, []⟩ optimum.iterations +
          if optimum.status = .converged then 1 else 0) ∧
    (optimum.status = .interiorOptimum ↔
      optimum.workingSet.rows = [] ∧ ∀ r, s.graph.rowKind? r ≠ some .equality) ∧
    (optimum.status = .interiorOptimum ↔ optimum.duals = SortedMap.empty) ∧
    ∀ i n, optimum.duals.dim? i = some n ↔ ∃ c, s.graph.constraintAt? i = some c ∧ c.rows = n ∧
      ∃ row, c.rowKind? row = some .equality ∨ ⟨i, row⟩ ∈ optimum.workingSet.rows := by
  obtain ⟨hadmits, ⟨y, hduals⟩, hstatus⟩ := exists_active h
  refine ⟨?_, hstatus.trans (Graph.participating_eq_nil hadmits),
    hstatus.trans (hduals.eq_empty_iff hs).symm, fun i n => ?_⟩
  · obtain ⟨log, hlogged⟩ := s.optimize_logged initial w state []
    rw [h] at hlogged
    obtain ⟨x, calls, hstart, hafter, hcalls, hlength⟩ := exists_consultations hlogged
    -- the iterations with the log are those without it
    have houtcome (i : ℕ) : s.logged.outcomeAt ⟨w, x, (state, []), []⟩ i =
        s.outcomeAt ⟨w, x, state, []⟩ i := (s.outcomeAt_logged _ i).symm
    have hstate (i : ℕ) := s.stateAt_logged ⟨w, x, (state, []), []⟩ i
    have hset (i : ℕ) : (s.logged.stateAt ⟨w, x, (state, []), []⟩ i).workingSet =
        (s.stateAt ⟨w, x, state, []⟩ i).workingSet := (congrArg RunState.workingSet (hstate i)).symm
    have hpoint (i : ℕ) : (s.logged.stateAt ⟨w, x, (state, []), []⟩ i).point =
        (s.stateAt ⟨w, x, state, []⟩ i).point := (congrArg RunState.point (hstate i)).symm
    have hlog : log = (List.range optimum.iterations).flatMap calls := by
      have hpair := hafter.trans (s.eliminator.after_logged (state, []) _)
      exact congrArg Prod.snd hpair
    refine ⟨x, calls, ⟨hstart.workingSet, hstart.point, hstart.feasible⟩, hlog ▸ hlogged,
      fun i hi => ?_, ?_⟩
    · obtain ⟨o, ho, hconsults⟩ := hcalls i hi
      rw [hset, hpoint] at hconsults
      exact ⟨o, (houtcome i).symm.trans ho, hconsults⟩
    · rw [hlength, drops, drops]
      simp only [houtcome]
  · rw [hduals.dim?_eq_some hs]
    simp only [Graph.mem_participating]
    exact exists_congr fun c => by rw [and_assoc, and_comm (b := c.rows = n)]

/-- The run from the bound drops the row, takes a step and converges without an active row: four
calls, and no multipliers. -/
theorem looseHalfLine_consults : ∃ optimum st calls,
    looseHalfLine.optimize (.single 0 3) (.ofRows [⟨1, 0⟩]) () = (.ok optimum, st) ∧
      optimum.iterations = 3 ∧ optimum.status = .interiorOptimum ∧
      optimum.duals = SortedMap.empty ∧
      looseHalfLine.drops ⟨.ofRows [⟨1, 0⟩], .single 0 3, (), []⟩ 3 = 1 ∧
      looseHalfLine.logged.optimize (.single 0 3) (.ofRows [⟨1, 0⟩]) ((), []) =
        (.ok optimum, st.withLog ((List.range 3).flatMap calls)) ∧
      ((List.range 3).flatMap calls).length = 4 := by
  have hshape : looseHalfLine.AnswersDualInShape := by
    intro g state duals hanswer
    cases List.mem_singleton.1 (Elimination.mem_of_lookup hanswer)
    exact Graph.fits_single (List.cons_ne_nil _ _) (List.forall_mem_singleton.2 rfl) _
  have hdrops : looseHalfLine.drops ⟨.ofRows [⟨1, 0⟩], .single 0 3, (), []⟩ 3 = 1 := by
    decide +kernel
  have hrun : (looseHalfLine.optimize (.single 0 3) (.ofRows [⟨1, 0⟩]) ()).1 =
      .ok ⟨.single 0 2, SortedMap.empty, .empty, .interiorOptimum, -3, -4, 3⟩ := by decide +kernel
  obtain ⟨⟨x, calls, hstart, hlogged, -, hlength⟩, -, hempty, -⟩ :=
    optimize_consults hshape (Prod.ext hrun rfl)
  have hpoint : restrict looseHalfLine.graph (.single 0 3) = .ok (.single 0 3) := rfl
  cases Except.ok.inj (hpoint.symm.trans hstart.point)
  rw [hdrops] at hlength
  exact ⟨_, _, calls, Prod.ext hrun rfl, rfl, rfl, hempty.1 rfl, hdrops, hlogged, hlength⟩

end Solver

end GaussianProgram
