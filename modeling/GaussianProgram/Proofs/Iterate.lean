import GaussianProgram.Proofs.Point
import GaussianProgram.Proofs.Run

/-! What one iteration does to the working set and the point: it ends at a blocking row, at the
solution of the working problem, or, where it was there already, drops a row or has converged. -/
namespace GaussianProgram

variable {κ α σ : Type} [Key κ] [Scalar α]

namespace Graph

theorem avoids_denseActiveRows {P : SolverError α → Prop}
    (hP : ∀ text, ¬P (.invalidParameters text)) (g : Graph κ α) (w : WorkingSet)
    (layout : Layout κ) : (g.denseActiveRows w layout).Avoids P := by
  have hrow (f : LinearRows κ α) (row : ℕ) : (denseRow layout f row).Avoids P := by
    apply Result.avoids_bind (Result.avoids_inRange _)
    intro start
    apply Result.avoids_foldlM
    intro dense e
    simp only
    split
    · exact Result.avoids_fail (hP _)
    · exact Result.avoids_bind (Result.avoids_inRange _) fun _ => Result.avoids_inRange _
  refine Result.avoids_bind ?_ fun _ => Result.avoids_ok _
  exact Result.avoids_mapM fun (i, f) => Result.avoids_mapM fun row => hrow f row

private theorem checkActiveRank_avoids (singularValues : Matrix α → Option (Vec α)) (g : Graph κ α)
    (w : WorkingSet) (tolerance : α) :
    (g.checkActiveRank singularValues w tolerance).Avoids SolverError.GivesUp := by
  apply Result.avoids_bind (Result.avoids_graph SolverError.isOwn_givesUp _)
  intro dims
  apply Result.avoids_bind (avoids_denseActiveRows (by simp) g w _)
  intro rows
  split_ifs
  · exact Result.avoids_ok ()
  · exact Result.avoids_outOfRange
  · apply Result.avoids_bind (Result.avoids_inRange _)
    intro values
    simp only
    split_ifs
    · exact Result.avoids_fail (by simp)
    · exact Result.avoids_ok ()

theorem avoids_dualGraph {P : SolverError α → Prop} (hP : SolverError.IsOwn P) (g : Graph κ α)
    (w : WorkingSet) (x : Assignment κ α) : (g.dualGraph w x).Avoids P := by
  have hterm (k : κ) (dim i : ℕ) (f : LinearRows κ α) :
      (stationarityTerm? w k dim i f).Avoids P := by
    unfold stationarityTerm?
    split
    · exact Result.avoids_ok none
    · refine Result.avoids_bind (Result.avoids_mapM fun row => ?_) fun _ => Result.avoids_ok _
      split
      · exact Result.avoids_ok _
      · apply Result.avoids_bind (Result.avoids_inRange _)
        intro _
        split
        · exact Result.avoids_ok _
        · exact Result.avoids_outOfRange
  have hfactor (l : List (ℕ × LinearRows κ α)) (k : κ) (part : Vec α) :
      (stationarityFactor? w l k part).Avoids P := by
    refine Result.avoids_bind (Result.avoids_mapM fun (i, f) => hterm k _ i f) fun terms => ?_
    simp only
    split_ifs
    · exact Result.avoids_ok none
    · rw [map_eq_pure_bind]
      exact Result.avoids_bind (Result.avoids_factor hP _) fun _ => Result.avoids_ok _
  have hpins (l : List (ℕ × LinearRows κ α)) : (pins w l).Avoids P := by
    refine Result.avoids_bind (Result.avoids_mapM fun (i, f) => ?_) fun _ => Result.avoids_ok _
    apply Result.avoids_mapM
    intro row
    unfold pin
    exact Result.avoids_factor hP _
  unfold dualGraph
  simp only
  split
  · exact Result.avoids_ok empty
  · apply Result.avoids_bind (Result.avoids_graph hP _)
    intro gradient
    refine Result.avoids_bind (Result.avoids_mapM fun (k, part) => hfactor _ k part) fun _ => ?_
    exact Result.avoids_bind (hpins _) fun _ => Result.avoids_ok _

end Graph

namespace Solver

/-- The eliminator answers the working problem of `w`, in some state of its own, with `solution`. -/
def Solves (s : Solver κ α σ) (w : WorkingSet) (working : Graph κ α)
    (solution : Assignment κ α) : Prop :=
  s.graph.workingGraph w = .ok working ∧
    ∃ state, (s.eliminator.primal working state).1.result = .ok solution

/-- The multipliers of the active rows at `x` from an eliminator in the state `e`: its answer to the
dual graph, which leaves it in the state `e'`, and none at all if that graph is empty. -/
def RecoversAt (s : Solver κ α σ) (w : WorkingSet) (x : Assignment κ α) (e : σ)
    (duals : Assignment ℕ α) (e' : σ) : Prop :=
  ∃ dual, s.graph.dualGraph w x = .ok dual ∧
    if dual.isEmpty then duals = SortedMap.empty ∧ e' = e
    else (s.eliminator.dual dual e).1.result = .ok duals ∧ (s.eliminator.dual dual e).2 = e'

/-- Multipliers of the active rows at `x` that the eliminator gives in some state of its own. -/
def HasDuals (s : Solver κ α σ) (w : WorkingSet) (x : Assignment κ α) (duals : Assignment ℕ α) :
    Prop :=
  ∃ e e', s.RecoversAt w x e duals e'

/-- The eliminator answers the working problem of this state, whose active rows have full rank, and
is left in a state of its own. -/
structure AnswersAt (s : Solver κ α σ) (st : RunState κ α σ) (solution : Assignment κ α)
    (eliminator : σ) : Prop where
  rank : s.checkRank st.workingSet = .ok ()
  answer : ∃ working, s.graph.workingGraph st.workingSet = .ok working ∧
    (s.eliminator.primal working st.eliminator).1.result = .ok solution ∧
      (s.eliminator.primal working st.eliminator).2 = eliminator

/-- The candidate `y` for the next point after `x` is the solution of the working problem, and no
row blocks the way to it. -/
def Accepts (s : Solver κ α σ) (w : WorkingSet) (x y : Assignment κ α) (distance : α) : Prop :=
  ∃ working solution, s.Solves w working solution ∧ y = x.update solution ∧
    s.graph.stepSize w s.config.feasibilityTolerance x y = .ok none ∧
    x.maxAbsDiff y = .ok distance

/-- An iteration that succeeds, from a working set and a point to the next ones. -/
inductive Iterates (s : Solver κ α σ) (w : WorkingSet) (x : Assignment κ α) :
    Outcome α → WorkingSet → Assignment κ α → Prop
  | blocked {working : Graph κ α} {solution y : Assignment κ α} {row : ConstraintRow} {t : α}
      (hsolves : s.Solves w working solution)
      (hblock : s.graph.stepSize w s.config.feasibilityTolerance x (x.update solution) =
        .ok (some (row, t)))
      (hstep : x.stepTowards (x.update solution) t = (.ok (), y)) :
      Iterates s w x (.stepTaken t (some row)) (w.insert row).2 y
  | moved {y : Assignment κ α} {distance : α} (haccepts : s.Accepts w x y distance)
      (hfar : ¬distance ≤ s.config.solutionTolerance) :
      Iterates s w x (.stepTaken 1 none) w y
  | converged {y : Assignment κ α} {distance : α} {duals : Assignment ℕ α}
      (haccepts : s.Accepts w x y distance) (hduals : s.HasDuals w y duals)
      (hworst : s.worstRow? w duals = none) : Iterates s w x (.converged duals) w y
  | dropped {y : Assignment κ α} {distance : α} {duals : Assignment ℕ α} {row : ConstraintRow}
      (haccepts : s.Accepts w x y distance) (hduals : s.HasDuals w y duals)
      (hworst : s.worstRow? w duals = some row) :
      Iterates s w x (.dropped row) (w.remove row).2 y

/-- An iteration that succeeds, from one state of the run to another. The eliminator answers the
working problem first, and the dual graph in the state in which that has left it. -/
inductive IteratesAt (s : Solver κ α σ) (st : RunState κ α σ) : Outcome α → RunState κ α σ → Prop
  | blocked {st' : RunState κ α σ} {solution : Assignment κ α} {row : ConstraintRow} {t : α}
      (hanswer : s.AnswersAt st solution st'.eliminator)
      (hblock : s.graph.stepSize st.workingSet s.config.feasibilityTolerance st.point
        (st.point.update solution) = .ok (some (row, t)))
      (hstep : st.point.stepTowards (st.point.update solution) t = (.ok (), st'.point))
      (hw : st'.workingSet = (st.workingSet.insert row).2) :
      IteratesAt s st (.stepTaken t (some row)) st'
  | moved {st' : RunState κ α σ} {solution : Assignment κ α} {distance : α}
      (hanswer : s.AnswersAt st solution st'.eliminator)
      (haccepts : s.Accepts st.workingSet st.point st'.point distance)
      (hfar : ¬distance ≤ s.config.solutionTolerance) (hw : st'.workingSet = st.workingSet) :
      IteratesAt s st (.stepTaken 1 none) st'
  | converged {st' : RunState κ α σ} {solution : Assignment κ α} {e : σ} {distance : α}
      {duals : Assignment ℕ α} (hanswer : s.AnswersAt st solution e)
      (haccepts : s.Accepts st.workingSet st.point st'.point distance)
      (hduals : s.RecoversAt st.workingSet st'.point e duals st'.eliminator)
      (hworst : s.worstRow? st.workingSet duals = none) (hw : st'.workingSet = st.workingSet) :
      IteratesAt s st (.converged duals) st'
  | dropped {st' : RunState κ α σ} {solution : Assignment κ α} {e : σ} {distance : α}
      {duals : Assignment ℕ α} {row : ConstraintRow} (hanswer : s.AnswersAt st solution e)
      (haccepts : s.Accepts st.workingSet st.point st'.point distance)
      (hduals : s.RecoversAt st.workingSet st'.point e duals st'.eliminator)
      (hworst : s.worstRow? st.workingSet duals = some row)
      (hw : st'.workingSet = (st.workingSet.remove row).2) : IteratesAt s st (.dropped row) st'

variable {s : Solver κ α σ} {st st' : RunState κ α σ}

/-- An iteration that succeeds keeps the variables and their dimensions. -/
theorem Iterates.sameShape {w w' : WorkingSet} {x y : Assignment κ α} {o : Outcome α}
    (h : s.Iterates w x o w' y) : x.SameShape y := by
  have haccepted {y : Assignment κ α} {distance : α} (ha : s.Accepts w x y distance) :
      x.SameShape y := by
    obtain ⟨_, solution, -, rfl, -, hdistance⟩ := ha
    exact Assignment.sameShape_of_maxAbsDiff hdistance
  cases h with
  | blocked _ _ hstep => exact Assignment.sameShape_stepTowards hstep
  | moved ha _ => exact haccepted ha
  | converged ha _ _ => exact haccepted ha
  | dropped ha _ _ => exact haccepted ha

theorem exec_dualGraph (s : Solver κ α σ) (w : WorkingSet) (x : Assignment κ α)
    (st : RunState κ α σ) : ∃ st', Run.exec (s.dualGraph w x) st = (s.graph.dualGraph w x, st') ∧
      Run.Alike st st' := by
  unfold dualGraph
  split
  next e he =>
    refine ⟨st, ?_, Run.alike_refl st⟩
    rw [Run.exec_bind, Run.exec_quietly, he]
    rfl
  next r =>
    obtain ⟨st₁, hexec, hlike⟩ := Run.exec_announcing (s.graph.dualGraph w x) st
    rw [Run.exec_bind, hexec]
    cases s.graph.dualGraph w x with
    | error e => exact ⟨st₁, rfl, hlike⟩
    | ok dual =>
      simp only
      split
      · exact ⟨_, rfl, hlike.trans (Run.alike_report _ st₁)⟩
      · exact ⟨st₁, rfl, hlike⟩

/-- To state the dual graph leaves the eliminator. -/
theorem eliminator_of_dualGraph {w : WorkingSet} {x : Assignment κ α} {dual : Graph ℕ α}
    (h : Run.exec (s.dualGraph w x) st = (.ok dual, st')) :
    s.graph.dualGraph w x = .ok dual ∧ st'.eliminator = st.eliminator := by
  obtain ⟨t, hexec, -⟩ := exec_dualGraph s w x st
  have hok : s.graph.dualGraph w x = .ok dual := congrArg Prod.fst (hexec.symm.trans h)
  refine ⟨hok, ?_⟩
  unfold dualGraph at h
  rw [hok] at h
  obtain ⟨_, st₁, hdual, h⟩ := Run.exec_bind_ok.1 h
  obtain ⟨-, rfl⟩ := Run.announcing_eq_ok.1 hdual
  simp only at h
  split_ifs at h
  · cases h
    rfl
  · cases h
    rfl

theorem computeDuals_ok {w : WorkingSet} {x : Assignment κ α} {duals : Assignment ℕ α}
    (h : Run.exec (s.computeDuals w x) st = (.ok duals, st')) :
    s.RecoversAt w x st.eliminator duals st'.eliminator ∧ Run.Alike st st' := by
  obtain ⟨_, st₁, hrank, h⟩ := Run.exec_bind_ok.1 h
  obtain ⟨-, rfl⟩ := Run.announcing_eq_ok.1 hrank
  obtain ⟨dual, st₂, hdual, h⟩ := Run.exec_bind_ok.1 h
  obtain ⟨hok, heliminator⟩ := eliminator_of_dualGraph hdual
  obtain ⟨t₂, hexec, hlike⟩ := exec_dualGraph s w x st
  obtain ⟨-, rfl⟩ := Prod.mk.inj (hexec.symm.trans hdual)
  split_ifs at h with hempty
  · cases h
    exact ⟨⟨dual, hok, by rw [if_pos hempty]; exact ⟨rfl, heliminator⟩⟩, hlike⟩
  · obtain ⟨hanswer, hlike'⟩ := Run.ask_ok h
    rw [heliminator] at hanswer
    refine ⟨⟨dual, hok, ?_⟩, hlike.trans hlike'⟩
    rw [if_neg hempty, Run.eliminator_of_ask h, heliminator]
    exact ⟨hanswer, rfl⟩

def advance (s : Solver κ α σ) (w : WorkingSet) (solution : Assignment κ α) :
    Run κ α σ (SolverError α) (Outcome α) := do
  let current ← Run.point
  let candidate := current.update solution
  match ← Run.quietly (s.stepSize w current candidate) with
  | some (row, fraction) => takeBlockedStep candidate row fraction
  | none => s.takeFullStep candidate

theorem exec_iterate_of_working {working : Graph κ α} (hrank : s.checkRank st.workingSet = .ok ())
    (hworking : s.graph.workingGraph st.workingSet = .ok working) :
    Run.exec s.iterate st = Run.exec
      (Run.ask (s.eliminator.primal working) >>= s.advance st.workingSet) st := by
  have hpass : Run.exec (Run.announcing (s.checkRank st.workingSet)) st = (.ok (), st) :=
    Run.announcing_eq_ok.2 ⟨hrank, rfl⟩
  have hstated : Run.exec (Run.announcing (s.workingGraph st.workingSet)) st =
      (.ok working, st) :=
    Run.announcing_eq_ok.2 ⟨by rw [workingGraph, hworking]; rfl, rfl⟩
  rw [iterate, Run.exec_bind_of_ok (Run.exec_workingSet st), Run.exec_bind_of_ok hpass,
    Run.exec_bind_of_ok hstated]
  rfl

theorem exec_iterate_of_answer {solution : Assignment κ α} {eliminator : σ}
    (h : s.AnswersAt st solution eliminator) : ∃ st₁, Run.Alike st st₁ ∧
      st₁.eliminator = eliminator ∧
        Run.exec s.iterate st = Run.exec (s.advance st.workingSet solution) st₁ := by
  obtain ⟨hrank, working, hworking, hanswer, heliminator⟩ := h
  obtain ⟨st₁, hask, hlike⟩ := Run.exec_ask (s.eliminator.primal working) st
  rw [hanswer, Result.mapCause_ok] at hask
  exact ⟨st₁, hlike, (Run.eliminator_of_ask hask).trans heliminator,
    (exec_iterate_of_working hrank hworking).trans (Run.exec_bind_of_ok hask)⟩

theorem exec_advance (s : Solver κ α σ) (w : WorkingSet) (solution : Assignment κ α)
    (st : RunState κ α σ) : Run.exec (s.advance w solution) st =
      match s.stepSize w st.point (st.point.update solution) with
      | .error failure => (.error failure, st)
      | .ok (some (row, t)) =>
        Run.exec (takeBlockedStep (st.point.update solution) row t) st
      | .ok none => Run.exec (s.takeFullStep (st.point.update solution)) st := by
  simp only [advance, Run.exec_bind, Run.exec_point, Run.exec_quietly]
  rcases s.stepSize w st.point (st.point.update solution) with failure | _ | ⟨row, t⟩ <;> rfl

theorem exec_takeFullStep (s : Solver κ α σ) (y : Assignment κ α) (st : RunState κ α σ) :
    Run.exec (s.takeFullStep y) st = match st.point.maxAbsDiff y with
      | .error e => (Result.fail (.graph e), st)
      | .ok distance => Run.exec (if distance ≤ s.config.solutionTolerance then s.resolveStationary
          else return .stepTaken 1 none) { st with point := st.point.update y } := by
  unfold takeFullStep
  rw [Run.exec_bind, Run.exec_point]
  simp only [Run.exec_bind, Run.exec_quietly]
  cases st.point.maxAbsDiff y <;> rfl

private theorem resolveStationary_ok {o : Outcome α}
    (h : Run.exec s.resolveStationary st = (.ok o, st')) :
    ∃ duals, s.RecoversAt st.workingSet st.point st.eliminator duals st'.eliminator ∧
      st'.point = st.point ∧
      ((s.worstRow? st.workingSet duals = none ∧ o = .converged duals ∧
        st'.workingSet = st.workingSet) ∨
      ∃ row, s.worstRow? st.workingSet duals = some row ∧ o = .dropped row ∧
        st'.workingSet = (st.workingSet.remove row).2) := by
  obtain ⟨_, _, hw, h⟩ := Run.exec_bind_ok.1 h
  cases hw
  obtain ⟨_, _, hx, h⟩ := Run.exec_bind_ok.1 h
  cases hx
  obtain ⟨duals, st₁, hduals, h⟩ := Run.exec_bind_ok.1 h
  obtain ⟨hduals, hw, hx, -⟩ := computeDuals_ok hduals
  split at h
  next hnone =>
    cases h
    exact ⟨duals, hduals, hx, .inl ⟨hnone, rfl, hw⟩⟩
  next row hrow =>
    cases h
    exact ⟨duals, hduals, hx, .inr ⟨row, hrow, rfl, rfl⟩⟩

theorem takeBlockedStep_ok {y : Assignment κ α} {row : ConstraintRow} {t : α}
    {o : Outcome α} (h : Run.exec (takeBlockedStep y row t) st = (.ok o, st')) :
    o = .stepTaken t (some row) ∧ st'.workingSet = (st.workingSet.insert row).2 ∧
      st.point.stepTowards y t = (.ok (), st'.point) ∧ st'.eliminator = st.eliminator := by
  obtain ⟨_, _, hx, h⟩ := Run.exec_bind_ok.1 h
  cases hx
  rcases hstep : st.point.stepTowards y t with ⟨moved, x⟩
  rw [hstep] at h
  obtain ⟨_, _, hset, h⟩ := Run.exec_bind_ok.1 h
  cases hset
  obtain ⟨_, _, hquiet, h⟩ := Run.exec_bind_ok.1 h
  obtain ⟨hmoved, rfl⟩ := Run.quietly_ok hquiet
  rw [Result.mapCause_eq_ok, Result.ofExcept_eq_ok] at hmoved
  cases h
  exact ⟨rfl, rfl, by rw [hmoved], rfl⟩

/-- An iteration that succeeds has an answer, and goes on with it. -/
theorem exists_advance {o : Outcome α} (h : Run.exec s.iterate st = (.ok o, st')) :
    ∃ solution st₁, s.AnswersAt st solution st₁.eliminator ∧ Run.Alike st st₁ ∧
      Run.exec (s.advance st.workingSet solution) st₁ = (.ok o, st') := by
  rw [iterate, Run.exec_bind_of_ok (Run.exec_workingSet st)] at h
  obtain ⟨_, _, hok, h⟩ := Run.exec_bind_ok.1 h
  obtain ⟨hrank, rfl⟩ := Run.announcing_eq_ok.1 hok
  obtain ⟨working, _, hok, h⟩ := Run.exec_bind_ok.1 h
  obtain ⟨hworking, rfl⟩ := Run.announcing_eq_ok.1 hok
  rw [workingGraph, Result.mapCause_eq_ok, Result.ofExcept_eq_ok] at hworking
  obtain ⟨solution, st₁, hask, h⟩ := Run.exec_bind_ok.1 h
  obtain ⟨hanswer, hlike⟩ := Run.ask_ok hask
  exact ⟨solution, st₁, ⟨hrank, working, hworking, hanswer, (Run.eliminator_of_ask hask).symm⟩,
    hlike, h⟩

/-- An iteration that succeeds is one of the four. -/
theorem iteratesAt_of_ok {o : Outcome α} (h : Run.exec s.iterate st = (.ok o, st')) :
    s.IteratesAt st o st' := by
  obtain ⟨solution, st₁, hanswer, ⟨hw, hx, -⟩, h⟩ := exists_advance h
  obtain ⟨working, hworking, hresult, -⟩ := hanswer.answer
  rw [exec_advance, hx] at h
  generalize hsize : s.stepSize st.workingSet st.point (st.point.update solution) = found at h
  rcases found with failure | _ | ⟨row, t⟩
  · cases h
  · rw [stepSize, Result.mapCause_eq_ok] at hsize
    dsimp only at h
    rw [exec_takeFullStep, hx] at h
    generalize hdistance : st.point.maxAbsDiff (st.point.update solution) = moved at h
    cases moved with
    | error e => cases h
    | ok distance =>
      simp only [Assignment.update_update_self] at h
      have haccepts {y : Assignment κ α} (hy : y = st.point.update solution) :
          s.Accepts st.workingSet st.point y distance :=
        ⟨working, solution, ⟨hworking, _, hresult⟩, hy, hy ▸ hsize, hy ▸ hdistance⟩
      split_ifs at h with hnear
      · obtain ⟨duals, hduals, hx', hcase⟩ := resolveStationary_ok h
        dsimp only at hduals hx' hcase
        rw [hw] at hduals hcase
        rw [← hx'] at hduals
        rcases hcase with ⟨hworst, rfl, hw'⟩ | ⟨row, hworst, rfl, hw'⟩
        · exact .converged hanswer (haccepts hx') hduals hworst hw'
        · exact .dropped hanswer (haccepts hx') hduals hworst hw'
      · cases h
        exact .moved hanswer (haccepts rfl) hnear hw
  · rw [stepSize, Result.mapCause_eq_ok] at hsize
    obtain ⟨rfl, hw', hstep, heliminator⟩ := takeBlockedStep_ok h
    rw [← heliminator] at hanswer
    exact .blocked hanswer hsize (hx ▸ hstep) (hw ▸ hw')

/-- The state of the eliminator makes no difference to what an iteration is. -/
theorem IteratesAt.iterates {o : Outcome α} (h : s.IteratesAt st o st') :
    s.Iterates st.workingSet st.point o st'.workingSet st'.point := by
  cases h with
  | blocked hanswer hblock hstep hw =>
    obtain ⟨working, hworking, hresult, -⟩ := hanswer.answer
    rw [hw]
    exact .blocked ⟨hworking, _, hresult⟩ hblock hstep
  | moved _ haccepts hfar hw =>
    rw [hw]
    exact .moved haccepts hfar
  | converged _ haccepts hduals hworst hw =>
    rw [hw]
    exact .converged haccepts ⟨_, _, hduals⟩ hworst
  | dropped _ haccepts hduals hworst hw =>
    rw [hw]
    exact .dropped haccepts ⟨_, _, hduals⟩ hworst

theorem iterate_ok {o : Outcome α} (h : Run.exec s.iterate st = (.ok o, st')) :
    s.Iterates st.workingSet st.point o st'.workingSet st'.point :=
  (iteratesAt_of_ok h).iterates

/-- The check of the rank is none of the loop's own failures. -/
theorem avoids_checkRank (s : Solver κ α σ) (w : WorkingSet) :
    (s.checkRank w).Avoids SolverError.GivesUp := Graph.checkActiveRank_avoids _ _ _ _

section Inner
variable {P : SolverError α → Prop}

theorem inner_takeBlockedStep (hP : SolverError.IsOwn P) (y : Assignment κ α)
    (row : ConstraintRow) (fraction : α) :
    Run.Inner P (takeBlockedStep (σ := σ) y row fraction) := by
  refine Run.inner_bind Run.inner_point fun x => Run.inner_bind (Run.inner_setPoint _) fun _ => ?_
  apply Run.inner_bind (Run.inner_quietly (Result.avoids_graph hP _))
  intro _
  apply Run.inner_bind Run.inner_workingSet
  intro w
  exact Run.inner_bind (Run.inner_setWorkingSet _) fun _ =>
    Run.inner_bind (Run.inner_report _) fun _ => Run.inner_pure _

theorem inner_computeDuals (hP : SolverError.IsOwn P) {w : WorkingSet}
    (hrank : (s.checkRank w).Avoids P) (x : Assignment κ α) :
    Run.Inner P (s.computeDuals w x) := by
  have hdual : Run.Inner P (s.dualGraph w x) := by
    intro t
    obtain ⟨t', hexec, -, -, hn⟩ := exec_dualGraph s w x t
    rw [Run.InnerAt, hexec]
    exact ⟨hn, Graph.avoids_dualGraph hP _ _ _⟩
  refine Run.inner_bind (Run.inner_announcing hrank) fun _ => Run.inner_bind hdual fun dual => ?_
  split_ifs
  · exact Run.inner_pure _
  · exact Run.inner_ask hP _

theorem innerAt_resolveStationary (hP : SolverError.IsOwn P)
    (hrank : (s.checkRank st.workingSet).Avoids P) : Run.InnerAt P s.resolveStationary st := by
  refine Run.innerAt_bind (Run.inner_workingSet st) fun w t hexec => ?_
  cases hexec
  apply Run.inner_bind Run.inner_point (fun x => ?_) st
  refine Run.inner_bind (inner_computeDuals hP hrank x) fun duals => ?_
  split
  · exact Run.inner_pure _
  · exact Run.inner_bind (Run.inner_setWorkingSet _) fun _ =>
      Run.inner_bind (Run.inner_report _) fun _ => Run.inner_pure _

theorem innerAt_takeFullStep (hP : SolverError.IsOwn P)
    (hrank : (s.checkRank st.workingSet).Avoids P) (y : Assignment κ α) :
    Run.InnerAt P (s.takeFullStep y) st := by
  refine Run.innerAt_bind (Run.inner_point st) fun x t hexec => ?_
  cases hexec
  apply Run.innerAt_bind (Run.inner_quietly (Result.avoids_graph hP _) st)
  intro distance t hexec
  obtain ⟨-, rfl⟩ := Run.quietly_ok hexec
  refine Run.innerAt_bind (Run.inner_setPoint _ t) fun _ t' hset => ?_
  cases hset
  split_ifs
  · exact innerAt_resolveStationary hP hrank
  · exact Run.inner_pure _ _

/-- An iteration notifies nobody, and it fails for a cause of the method's own only if the check of
its working set does. -/
theorem inner_iterate (hP : SolverError.IsOwn P) (hrank : (s.checkRank st.workingSet).Avoids P) :
    Run.InnerAt P s.iterate st := by
  refine Run.innerAt_bind (Run.inner_workingSet st) fun w t hexec => ?_
  cases hexec
  refine Run.innerAt_bind (Run.inner_announcing hrank st) fun _ t₁ hexec => ?_
  obtain ⟨-, hlike₁⟩ := Run.announcing_ok hexec
  apply Run.innerAt_bind (Run.inner_announcing (Result.avoids_factor hP _) t₁)
  intro working t₂ hexec
  obtain ⟨-, hlike₂⟩ := Run.announcing_ok hexec
  refine Run.innerAt_bind (Run.inner_ask hP _ t₂) fun solution t₃ hexec => ?_
  obtain ⟨-, hlike₃⟩ := Run.ask_ok hexec
  refine Run.innerAt_bind (Run.inner_point t₃) fun x t' hexec => ?_
  cases hexec
  apply Run.innerAt_bind (Run.inner_quietly (Result.avoids_factor hP _) t₃)
  intro found t' hexec
  obtain ⟨-, rfl⟩ := Run.quietly_ok hexec
  split
  · exact inner_takeBlockedStep hP _ _ _ _
  · rw [← ((hlike₁.trans hlike₂).trans hlike₃).1] at hrank
    exact innerAt_takeFullStep hP hrank _

end Inner

/-- An iteration that succeeds has checked the rank of its working set. -/
theorem checkRank_of_iterate_ok {o : Outcome α} (h : Run.exec s.iterate st = (.ok o, st')) :
    s.checkRank st.workingSet = .ok () := by
  obtain ⟨_, _, hanswers, -⟩ := exists_advance h
  exact hanswers.rank

end Solver

end GaussianProgram
