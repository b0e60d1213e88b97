import GaussianProgram.Proofs.Iterate
import GaussianProgram.Solver.Optimize

/-! Runs that track each other. Two solvers whose costs have the same differences and whose
eliminators answer alike go through the same points and working sets, report the same and end alike,
if need be only as long as the first of them succeeds. -/
namespace GaussianProgram

variable {κ α σ τ ε ε' β γ : Type} [Key κ]

/-- How the runs of one solver differ from those of another: in their costs, and in the
factorization they are set to. -/
structure Shift (α : Type) where
  cost : α → α
  solver : SolverKind → SolverKind

section Shift
variable (d : Shift α)

def Config.shift (c : Config α) : Config α := { c with linearSolver := d.solver c.linearSolver }

def Optimum.shift (r : Optimum κ α) : Optimum κ α :=
  { r with initialCost := d.cost r.initialCost, finalCost := d.cost r.finalCost }

def Report.shift : Report κ α → Report κ α
  | configuration c => configuration (c.shift d)
  | progress p => progress { p with cost := d.cost p.cost }
  | optimum r => optimum (r.shift d)
  | r => r

def Event.shift : Event κ α → Event κ α
  | report r => report (r.shift d)
  | metrics cost fraction => metrics (d.cost cost) fraction
  | visited x w i => visited x w i

def RunState.shift (f : σ → τ) (st : RunState κ α σ) : RunState κ α τ where
  workingSet := st.workingSet
  point := st.point
  eliminator := f st.eliminator
  events := st.events.map (Event.shift d)

def shiftEnd (e : Result (Error α) (Optimum κ α) × RunState κ α σ) :
    Result (Error α) (Optimum κ α) × RunState κ α σ :=
  (e.1.map (Optimum.shift d), e.2.shift d id)

variable (f : σ → τ)

@[simp] theorem RunState.shift_workingSet (st : RunState κ α σ) :
    (st.shift d f).workingSet = st.workingSet := rfl

@[simp] theorem RunState.shift_point (st : RunState κ α σ) : (st.shift d f).point = st.point := rfl

@[simp] theorem RunState.shift_eliminator (st : RunState κ α σ) :
    (st.shift d f).eliminator = f st.eliminator := rfl

variable {d}

theorem Optimum.shift_eq_self (hcost : d.cost = id) (r : Optimum κ α) : r.shift d = r := by
  simp only [Optimum.shift, hcost, id]

theorem Event.shift_eq_self (hcost : d.cost = id) (hsolver : d.solver = id) (e : Event κ α) :
    e.shift d = e := by
  cases e with
  | report r =>
    cases r with
    | configuration c => simp only [Event.shift, Report.shift, Config.shift, hsolver, id]
    | progress p => simp only [Event.shift, Report.shift, hcost, id]
    | optimum r => rw [Event.shift, Report.shift, Optimum.shift_eq_self hcost]
    | _ => rfl
  | metrics cost fraction => rw [Event.shift, hcost, id]
  | visited x w i => rfl

theorem RunState.events_shift_eq_self (hcost : d.cost = id) (hsolver : d.solver = id)
    (st : RunState κ α σ) : (st.shift d f).events = st.events :=
  (List.map_congr_left fun e _ => e.shift_eq_self hcost hsolver).trans st.events.map_id

/-- Observers see nothing of the settings. -/
theorem RunState.notices_shift (hcost : d.cost = id) (st : RunState κ α σ) :
    (st.shift d f).notices = st.notices := by
  have hevent (e : Event κ α) (he : e.isReport = false) : e.shift d = e := by
    cases e with
    | report r => cases he
    | metrics cost fraction => rw [Event.shift, hcost, id]
    | visited x w i => rfl
  have hreport (e : Event κ α) : (e.shift d).isReport = e.isReport := by
    cases e <;> rfl
  simp only [RunState.notices, RunState.shift, List.filter_map, Function.comp_def, hreport]
  refine (List.map_congr_left fun e he => ?_).trans (List.map_id _)
  exact hevent e (by simpa using (List.mem_filter.1 he).2)

end Shift

namespace Run
variable {always : Prop} {d : Shift α} {f : σ → τ} {v : β → γ}

/-- The second run goes where the first one goes, with what `v` makes of its value. Unless that is
to hold `always`, it need only do so where the first run succeeds. -/
def Tracks (always : Prop) (d : Shift α) (f : σ → τ) (v : β → γ) (m : Run κ α σ ε β)
    (m' : Run κ α τ ε γ) : Prop :=
  ∀ st, (always ∨ ∃ b, (exec m st).1 = .ok b) →
    exec m' (st.shift d f) = ((exec m st).1.map v, (exec m st).2.shift d f)

theorem tracks_pure (b : β) :
    Tracks always d f v (pure b : Run κ α σ ε β) (pure (v b) : Run κ α τ ε γ) :=
  fun _ _ => rfl

/-- The second steps need to track each other for the values that the first step gives. -/
theorem Tracks.bind {δ δ' : Type} {u : δ → δ'} {m : Run κ α σ ε β} {m' : Run κ α τ ε γ}
    {k : β → Run κ α σ ε δ} {k' : γ → Run κ α τ ε δ'} (hm : Tracks always d f v m m')
    (hk : ∀ b st st', exec m st = (.ok b, st') → Tracks always d f u (k b) (k' (v b))) :
    Tracks always d f u (m >>= k) (m' >>= k') := by
  intro st h
  rw [exec_bind] at h
  have hstep := hm st (h.imp_right fun ⟨c, hc⟩ => by
    rcases hexec : exec m st with ⟨e | b, t⟩
    · rw [hexec] at hc
      cases hc
    · exact ⟨b, rfl⟩)
  rw [exec_bind, exec_bind, hstep]
  rcases hexec : exec m st with ⟨e | b, t⟩
  · rfl
  · rw [hexec] at h
    exact hk b st t hexec t h

theorem Tracks.mapCause {m : Run κ α σ ε β} {m' : Run κ α τ ε γ} (hm : Tracks always d f v m m')
    (restate : ε → ε') :
    Tracks always d f v (Run.mapCause restate m) (Run.mapCause restate m') := by
  intro st h
  rw [exec_mapCause] at h
  have hstep := hm st (h.imp_right fun ⟨b, hb⟩ => ⟨b, Result.mapCause_eq_ok.1 hb⟩)
  rw [exec_mapCause, exec_mapCause, hstep]
  rcases exec m st with ⟨(_ | _) | _, _⟩ <;> rfl

theorem tracks_workingSet : Tracks always d f id (workingSet : Run κ α σ ε WorkingSet) workingSet :=
  fun _ _ => rfl

theorem tracks_point : Tracks always d f id (point : Run κ α σ ε (Assignment κ α)) point :=
  fun _ _ => rfl

theorem tracks_setWorkingSet (w : WorkingSet) :
    Tracks always d f id (setWorkingSet w : Run κ α σ ε Unit) (setWorkingSet w) :=
  fun _ _ => rfl

theorem tracks_setPoint (x : Assignment κ α) :
    Tracks always d f id (setPoint x : Run κ α σ ε Unit) (setPoint x) :=
  fun _ _ => rfl

theorem tracks_emit (e : Event κ α) :
    Tracks always d f id (emit e : Run κ α σ ε Unit) (emit (e.shift d)) := by
  intro st _
  rw [exec_emit, exec_emit]
  simp [RunState.shift, Except.map]

theorem tracks_report (r : Report κ α) :
    Tracks always d f id (report r : Run κ α σ ε Unit) (report (r.shift d)) :=
  tracks_emit (.report r)

theorem tracks_quietly (r : Result ε β) :
    Tracks always d f v (quietly r : Run κ α σ ε β) (quietly (r.map v)) := by
  intro st _
  rw [exec_quietly, exec_quietly]

theorem tracks_self_quietly (r : Result ε β) :
    Tracks always d f id (quietly r : Run κ α σ ε β) (quietly r) := by
  have h : Tracks always d f id (quietly r : Run κ α σ ε β) (quietly (r.map id)) := tracks_quietly r
  rwa [Except.map_id] at h

theorem tracks_announcing (r : Result (SolverError α) β) :
    Tracks always d f v (announcing r : Run κ α σ (SolverError α) β) (announcing (r.map v)) := by
  rcases r with (e | _) | b
  · exact (tracks_report (.failure e.origin)).bind fun _ _ _ _ =>
      tracks_quietly (.error (.cause e))
  · exact tracks_quietly (.error .outOfRange)
  · exact tracks_pure b

theorem tracks_self_announcing (r : Result (SolverError α) β) :
    Tracks always d f id (announcing r : Run κ α σ (SolverError α) β) (announcing r) := by
  have h : Tracks always d f id (announcing r : Run κ α σ (SolverError α) β)
      (announcing (r.map id)) := tracks_announcing r
  rwa [Except.map_id] at h

theorem tracks_heed {κ' : Type} [Key κ'] (reply : Reply κ' α) :
    Tracks always d f id (heed reply : Run κ α σ _ _) (heed reply) := by
  intro st _
  rw [exec_heed, exec_heed, Except.map_id]
  simp [RunState.shift, Event.shift, Report.shift]

/-- The answers are the same, from corresponding states to corresponding states. -/
theorem tracks_ask {κ' : Type} [Key κ'] {answer : σ → Reply κ' α × σ}
    {answer' : τ → Reply κ' α × τ}
    (h : ∀ state, (always ∨ ∃ x, (answer state).1.result = .ok x) →
      answer' (f state) = ((answer state).1, f (answer state).2)) :
    Tracks always d f id (ask answer : Run κ α σ _ _) (ask answer') := by
  intro st hst
  have hsame : answer' (f st.eliminator) =
      ((answer st.eliminator).1, f (answer st.eliminator).2) := by
    refine h _ (hst.imp_right fun ⟨x, hx⟩ => ⟨x, ?_⟩)
    obtain ⟨t, hexec, -⟩ := exec_ask answer st
    rw [hexec] at hx
    exact Result.mapCause_eq_ok.1 hx
  rw [exec_ask_eq] at hst ⊢
  rw [exec_ask_eq, RunState.shift_eliminator, hsame]
  exact tracks_heed _ _ hst

end Run

namespace Solver

/-- What has to hold of two solvers for their runs to track each other: they start alike, their
costs have the same differences, the decisions of an iteration are the same, and the eliminator
of the second answers the working graphs of the second as that of the first answers those of
the first. -/
structure Tracks [Scalar α] (always : Prop) (d : Shift α) (f : σ → τ)
    (recast : Graph κ α → Graph κ α) (s : Solver κ α σ) (s' : Solver κ α τ) : Prop where
  config : s'.config = s.config.shift d
  checkWorkingSet : checkWorkingSet s'.graph = checkWorkingSet s.graph
  restrict : restrict s'.graph = restrict s.graph
  checkFeasible : checkFeasible s'.graph = checkFeasible s.graph
  cost : ∀ x, s'.graph.cost x = (s.graph.cost x).map d.cost
  difference : ∀ a b, d.cost a - d.cost b = a - b
  checkRank : s'.checkRank = s.checkRank
  workingGraph : ∀ w, s'.workingGraph w = (s.workingGraph w).map recast
  stepSize : s'.stepSize = s.stepSize
  participating : s'.graph.participating = s.graph.participating
  dualGraph : s'.graph.dualGraph = s.graph.dualGraph
  worstRow? : s'.worstRow? = s.worstRow?
  statusOf : statusOf s'.graph = statusOf s.graph
  primal : ∀ w g state, s.workingGraph w = .ok g →
    (always ∨ ∃ x, (s.eliminator.primal g state).1.result = .ok x) →
    s'.eliminator.primal (recast g) (f state) =
      ((s.eliminator.primal g state).1, f (s.eliminator.primal g state).2)
  dual : ∀ w x g state, s.graph.dualGraph w x = .ok g →
    (always ∨ ∃ duals, (s.eliminator.dual g state).1.result = .ok duals) →
    s'.eliminator.dual g (f state) =
      ((s.eliminator.dual g state).1, f (s.eliminator.dual g state).2)

section Self
variable {always : Prop} {d : Shift α} {f : σ → τ}

theorem tracks_announceInfeasible (r : Result (SolverError α) Unit) :
    Run.Tracks always d f id (announceInfeasible r : Run κ α σ _ _) (announceInfeasible r) := by
  unfold announceInfeasible
  split
  · exact Run.tracks_self_quietly _
  · exact Run.tracks_self_announcing _

theorem tracks_takeBlockedStep [Scalar α] (y : Assignment κ α) (row : ConstraintRow) (t : α) :
    Run.Tracks always d f id
      (takeBlockedStep y row t : Run κ α σ _ _) (takeBlockedStep y row t) := by
  apply Run.tracks_point.bind
  intro x _ _ _
  apply (Run.tracks_setPoint _).bind
  intro _ _ _ _
  apply (Run.tracks_self_quietly _).bind
  intro _ _ _ _
  apply Run.tracks_workingSet.bind
  intro w _ _ _
  apply (Run.tracks_setWorkingSet _).bind
  intro _ _ _ _
  exact (Run.tracks_report _).bind fun _ _ _ _ => Run.tracks_pure _

theorem tracks_stop (e : SolverError α) (v : β → γ) :
    Run.Tracks always d f v (stop e : Run κ α σ (Error α) β) (stop e) :=
  (Run.tracks_announcing (Result.fail e)).mapCause _

end Self

variable [Scalar α] {always : Prop} {d : Shift α} {f : σ → τ} {recast : Graph κ α → Graph κ α}
  {s : Solver κ α σ} {s' : Solver κ α τ} (hs : s.Tracks always d f recast s')
include hs

theorem Tracks.start (initial : Assignment κ α) :
    Run.Tracks always d f id (s.start initial) (s'.start initial) := by
  apply Run.tracks_workingSet.bind
  intro w _ _ _
  simp only [id, hs.checkWorkingSet, hs.restrict, hs.checkFeasible, hs.config, Config.shift]
  apply (Run.tracks_self_announcing _).bind
  intro _ _ _ _
  apply (Run.tracks_self_announcing _).bind
  intro x _ _ _
  apply (Run.tracks_setPoint x).bind
  intro _ _ _ _
  simp only [id]
  split_ifs
  · exact (Run.tracks_report _).bind fun _ _ _ _ => tracks_announceInfeasible _
  · exact (Run.tracks_report _).bind fun _ _ _ _ => Run.tracks_pure ()
  · exact tracks_announceInfeasible _
  · exact Run.tracks_pure ()

theorem Tracks.dualGraph_run (w : WorkingSet) (x : Assignment κ α) :
    Run.Tracks always d f id (s.dualGraph w x) (s'.dualGraph w x) := by
  have hreport (dual : Graph ℕ α) : Run.Tracks always d f id (do
      if !(s.graph.participating w).isEmpty then
        Run.report (.dualGraph dual.size (s.graph.participating w).length)
      return dual : Run κ α σ (SolverError α) (Graph ℕ α)) (do
      if !(s.graph.participating w).isEmpty then
        Run.report (.dualGraph dual.size (s.graph.participating w).length)
      return dual) := by
    split
    · exact (Run.tracks_report _).bind fun _ _ _ _ => Run.tracks_pure dual
    · exact Run.tracks_pure dual
  unfold Solver.dualGraph
  rw [hs.dualGraph, hs.participating]
  split
  · exact (Run.tracks_self_quietly _).bind fun dual _ _ _ => hreport dual
  · exact (Run.tracks_self_announcing _).bind fun dual _ _ _ => hreport dual

theorem Tracks.computeDuals (w : WorkingSet) (x : Assignment κ α) :
    Run.Tracks always d f id (s.computeDuals w x) (s'.computeDuals w x) := by
  unfold Solver.computeDuals
  rw [hs.checkRank]
  apply (Run.tracks_self_announcing _).bind
  intro _ _ _ _
  apply (hs.dualGraph_run w x).bind
  intro dual st st' hexec
  obtain ⟨t, hdual, -⟩ := exec_dualGraph s w x st
  have hok : s.graph.dualGraph w x = .ok dual := congrArg Prod.fst (hdual.symm.trans hexec)
  simp only [id]
  split_ifs
  · exact Run.tracks_pure _
  · exact Run.tracks_ask fun state h => hs.dual w x dual state hok h

theorem Tracks.resolveStationary :
    Run.Tracks always d f id s.resolveStationary s'.resolveStationary := by
  apply Run.tracks_workingSet.bind
  intro w _ _ _
  apply Run.tracks_point.bind
  intro x _ _ _
  apply (hs.computeDuals w x).bind
  intro duals _ _ _
  simp only [id, hs.worstRow?]
  cases s.worstRow? w duals with
  | none => exact Run.tracks_pure _
  | some row =>
    apply (Run.tracks_setWorkingSet _).bind
    intro _ _ _ _
    exact (Run.tracks_report _).bind fun _ _ _ _ => Run.tracks_pure _

theorem Tracks.takeFullStep (y : Assignment κ α) :
    Run.Tracks always d f id (s.takeFullStep y) (s'.takeFullStep y) := by
  apply Run.tracks_point.bind
  intro x _ _ _
  apply (Run.tracks_self_quietly _).bind
  intro distance _ _ _
  apply (Run.tracks_setPoint _).bind
  intro _ _ _ _
  simp only [id, hs.config, Config.shift]
  split_ifs
  · exact hs.resolveStationary
  · exact Run.tracks_pure _

/-- One iteration tracks the other. -/
theorem Tracks.iterate : Run.Tracks always d f id s.iterate s'.iterate := by
  apply Run.tracks_workingSet.bind
  intro w _ _ _
  simp only [id, hs.checkRank, hs.workingGraph, hs.stepSize]
  apply (Run.tracks_self_announcing _).bind
  intro _ _ _ _
  apply (Run.tracks_announcing _).bind
  intro working _ _ hexec
  apply (Run.tracks_ask fun state h =>
    hs.primal w working state (Run.announcing_ok hexec).1 h).bind
  intro solution _ _ _
  apply Run.tracks_point.bind
  intro x _ _ _
  apply (Run.tracks_self_quietly _).bind
  intro found _ _ _
  cases found with
  | some block => exact tracks_takeBlockedStep _ _ _
  | none => exact hs.takeFullStep _

theorem Tracks.currentCost : Run.Tracks always d f d.cost s.currentCost s'.currentCost := by
  apply Run.tracks_point.bind
  intro x _ _ _
  rw [id, hs.cost, Result.mapCause_map]
  exact Run.tracks_quietly _

/-- One loop tracks the other, one iteration after the other. -/
theorem Tracks.loop (initialCost : α) (fuel i : ℕ) (previous : α) (D : List WorkingSet) :
    Run.Tracks always d f (Optimum.shift d) (s.loop initialCost fuel i previous D)
      (s'.loop (d.cost initialCost) fuel i (d.cost previous) D) := by
  -- Both loops remember the same dropped working sets, and the previous costs differ by the shift.
  induction fuel generalizing i previous D with
  | zero =>
    unfold Solver.loop
    rw [hs.config]
    exact tracks_stop _ _
  | succ fuel ih =>
    apply Run.tracks_workingSet.bind
    intro before _ _ _
    apply (hs.iterate.mapCause _).bind
    intro outcome _ _ _
    apply hs.currentCost.bind
    intro cost _ _ _
    apply Run.tracks_point.bind
    intro x _ _ _
    apply Run.tracks_workingSet.bind
    intro w _ _ _
    simp only [id, hs.difference, hs.config, Config.shift]
    apply (Run.tracks_report _).bind
    intro _ _ _ _
    apply (Run.tracks_emit (.metrics cost outcome.stepFraction?)).bind
    intro _ _ _ _
    apply (Run.tracks_emit (.visited x w i)).bind
    intro _ _ _ _
    cases outcome with
    | converged duals =>
      simp only [hs.statusOf]
      apply (Run.tracks_report _).bind
      intro _ _ _ _
      exact Run.tracks_pure _
    | dropped row =>
      dsimp only
      split_ifs
      · exact tracks_stop _ _
      · exact ih _ _ _
      · exact ih _ _ _
    | stepTaken t row => exact ih _ _ _

/-- The run of the second solver is that of the first, with its own costs, settings and state. -/
theorem Tracks.optimize (initial : Assignment κ α) (w : WorkingSet) (state : σ)
    (h : always ∨ ∃ r, (s.optimize initial w state).1 = .ok r) :
    s'.optimize initial w (f state) = ((s.optimize initial w state).1.map (Optimum.shift d),
      (s.optimize initial w state).2.shift d f) := by
  have hrun : Run.Tracks always d f (Optimum.shift d) (s.optimizeRun initial)
      (s'.optimizeRun initial) := by
    unfold optimizeRun
    rw [hs.config]
    apply ((hs.start initial).mapCause _).bind
    intro _ _ _ _
    apply hs.currentCost.bind
    intro cost _ _ _
    apply (Run.tracks_report _).bind
    intro _ _ _ _
    apply (Run.tracks_report _).bind
    intro _ _ _ _
    exact hs.loop _ _ _ _ _
  exact hrun ⟨w, initial, state, []⟩ h

end Solver

end GaussianProgram
