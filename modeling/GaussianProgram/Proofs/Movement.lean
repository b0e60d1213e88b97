import GaussianProgram.Proofs.Distance
import GaussianProgram.Proofs.Iterate
import GaussianProgram.Proofs.RatioTest
import GaussianProgram.Proofs.Table

/-! How an iteration moves the point. It moves the variables of the eliminator's answer and no other
ones. An iteration that fails leaves the point, unless it has come to a stationary point already
and fails to recover the multipliers there. -/
namespace GaussianProgram

namespace Run
variable {κ α σ ε β γ : Type} [Key κ]

/-- The run leaves the working set, the point and what observers have been told, whether it succeeds
or fails. -/
def Still (m : Run κ α σ ε β) : Prop := ∀ st, Alike st (exec m st).2

theorem Still.bind {m : Run κ α σ ε β} {f : β → Run κ α σ ε γ} (hm : Still m)
    (hf : ∀ b, Still (f b)) : Still (m >>= f) := by
  intro st
  have hlike := hm st
  rw [exec_bind]
  rcases hexec : exec m st with ⟨e | b, st'⟩
  · rwa [hexec] at hlike
  · rw [hexec] at hlike
    exact hlike.trans (hf b st')

theorem still_pure (b : β) : Still (pure b : Run κ α σ ε β) := fun st => alike_refl st

theorem still_workingSet : Still (workingSet : Run κ α σ ε WorkingSet) := fun st => alike_refl st

theorem still_announcing (r : Result (SolverError α) β) :
    Still (announcing r : Run κ α σ (SolverError α) β) := by
  intro st
  obtain ⟨st', hexec, hlike⟩ := exec_announcing r st
  rwa [hexec]

theorem still_ask {κ' : Type} [Key κ'] (answer : σ → Reply κ' α × σ) :
    Still (ask answer : Run κ α σ (SolverError α) (Assignment κ' α)) := by
  intro st
  obtain ⟨st', hexec, hlike⟩ := exec_ask answer st
  rwa [hexec]

end Run

namespace Solver
variable {κ α σ : Type} [Key κ]

section Parts
variable [Scalar α] {s : Solver κ α σ} {st st' : RunState κ α σ}

/-! ### The parts of an iteration -/

def consult (s : Solver κ α σ) : Run κ α σ (SolverError α) (Assignment κ α) := do
  let w ← Run.workingSet
  Run.announcing (s.checkRank w)
  let working ← Run.announcing (s.workingGraph w)
  Run.ask (s.eliminator.primal working)

/-- Moves towards the solution of the working problem. Gives the outcome of a step, and none where
the point was there already. -/
def move (s : Solver κ α σ) (solution : Assignment κ α) :
    Run κ α σ (SolverError α) (Option (Outcome α)) := do
  let current ← Run.point
  let candidate := current.update solution
  match ← Run.quietly (s.stepSize (← Run.workingSet) current candidate) with
  | some (row, fraction) => return some (← takeBlockedStep candidate row fraction)
  | none =>
    let distance ← Run.quietly ((Result.ofExcept (current.maxAbsDiff candidate)).mapCause .graph)
    Run.setPoint (current.update candidate)
    return if distance ≤ s.config.solutionTolerance then none else some (.stepTaken 1 none)

/-- All of an iteration but the recovery of multipliers. -/
def approach (s : Solver κ α σ) : Run κ α σ (SolverError α) (Option (Outcome α)) :=
  s.consult >>= s.move

theorem still_consult (s : Solver κ α σ) : Run.Still s.consult :=
  Run.still_workingSet.bind fun _ => (Run.still_announcing _).bind fun _ =>
    (Run.still_announcing _).bind fun _ => Run.still_ask _

theorem exec_move (s : Solver κ α σ) (solution : Assignment κ α) (st : RunState κ α σ) :
    Run.exec (s.move solution) st =
      match s.stepSize st.workingSet st.point (st.point.update solution) with
      | .error failure => (.error failure, st)
      | .ok (some (row, t)) =>
        Run.exec (some <$> takeBlockedStep (st.point.update solution) row t) st
      | .ok none => match st.point.maxAbsDiff (st.point.update solution) with
        | .error e => (Result.fail (.graph e), st)
        | .ok distance =>
          (.ok (if distance ≤ s.config.solutionTolerance then none else some (.stepTaken 1 none)),
            { st with point := st.point.update solution }) := by
  simp only [move, Run.exec_bind, Run.exec_point, Run.exec_workingSet, Run.exec_quietly]
  rcases s.stepSize st.workingSet st.point (st.point.update solution) with failure | _ | ⟨row, t⟩
  · rfl
  · dsimp only
    simp only [Run.exec_bind, Run.exec_quietly, Assignment.update_update_self]
    cases st.point.maxAbsDiff (st.point.update solution) <;> rfl
  · rfl

theorem exec_takeBlockedStep_of_ok {candidate x : Assignment κ α} {t : α} (row : ConstraintRow)
    (h : st.point.stepTowards candidate t = (.ok (), x)) :
    Run.exec (takeBlockedStep candidate row t) st = (.ok (.stepTaken t (some row)),
      { st with
        point := x, workingSet := (st.workingSet.insert row).2
        events := st.events ++ [.report (.blocked row t)] }) := by
  rw [takeBlockedStep, Run.exec_bind_of_ok (Run.exec_point st), h]
  rfl

/-- An iteration recovers multipliers where there is no step left to take. -/
theorem exec_iterate (s : Solver κ α σ) (st : RunState κ α σ) :
    Run.exec s.iterate st = match Run.exec s.approach st with
      | (.error failure, st₁) => (.error failure, st₁)
      | (.ok (some o), st₁) => (.ok o, st₁)
      | (.ok none, st₁) => Run.exec s.resolveStationary st₁ := by
  have hparts : Run.exec s.iterate st =
      Run.exec (s.consult >>= s.advance st.workingSet) st := by
    rw [iterate, Run.exec_bind_of_ok (Run.exec_workingSet st), consult]
    simp only [bind_assoc]
    rw [Run.exec_bind_of_ok (Run.exec_workingSet st)]
    rfl
  have hstill := s.still_consult st
  rw [hparts, approach, Run.exec_bind, Run.exec_bind]
  rcases hexec : Run.exec s.consult st with ⟨failure | solution, st₁⟩
  · rfl
  · rw [hexec] at hstill
    dsimp only
    rw [exec_move, exec_advance, ← hstill.1]
    rcases s.stepSize st₁.workingSet st₁.point (st₁.point.update solution)
      with failure | _ | ⟨row, t⟩
    · rfl
    · dsimp only
      rw [exec_takeFullStep, Assignment.update_update_self]
      cases st₁.point.maxAbsDiff (st₁.point.update solution) with
      | error e => rfl
      | ok distance =>
        dsimp only
        split_ifs <;> rfl
    · dsimp only
      rw [map_eq_pure_bind, Run.exec_bind]
      rcases Run.exec (takeBlockedStep (st₁.point.update solution) row t) st₁ with
        ⟨_ | _, _⟩ <;> rfl

theorem consult_ok {solution : Assignment κ α}
    (h : Run.exec s.consult st = (.ok solution, st')) :
    s.AnswersAt st solution st'.eliminator := by
  rw [consult, Run.exec_bind_of_ok (Run.exec_workingSet st)] at h
  obtain ⟨_, _, hok, h⟩ := Run.exec_bind_ok.1 h
  obtain ⟨hrank, rfl⟩ := Run.announcing_eq_ok.1 hok
  obtain ⟨working, _, hok, h⟩ := Run.exec_bind_ok.1 h
  obtain ⟨hworking, rfl⟩ := Run.announcing_eq_ok.1 hok
  rw [workingGraph, Result.mapCause_eq_ok, Result.ofExcept_eq_ok] at hworking
  exact ⟨hrank, working, hworking, (Run.ask_ok h).1, (Run.eliminator_of_ask h).symm⟩

theorem still_computeDuals (s : Solver κ α σ) (w : WorkingSet) (x : Assignment κ α) :
    Run.Still (s.computeDuals w x) := by
  have hdual : Run.Still (s.dualGraph w x) := fun st => by
    obtain ⟨st', hexec, hlike⟩ := exec_dualGraph s w x st
    rwa [hexec]
  refine (Run.still_announcing _).bind fun _ => hdual.bind fun dual => ?_
  split_ifs
  · exact Run.still_pure _
  · exact Run.still_ask _

/-- Multipliers are recovered at the point, which stays. Nothing else can fail. -/
theorem exec_resolveStationary (s : Solver κ α σ) (st : RunState κ α σ) :
    (Run.exec s.resolveStationary st).2.point = st.point ∧
      (∀ failure st', Run.exec s.resolveStationary st = (.error failure, st') →
        Run.exec (s.computeDuals st.workingSet st.point) st = (.error failure, st')) ∧
      ∀ o st', Run.exec s.resolveStationary st = (.ok o, st') → ∀ t r, o ≠ .stepTaken t r := by
  have hstill := still_computeDuals s st.workingSet st.point st
  rw [resolveStationary, Run.exec_bind_of_ok (Run.exec_workingSet st),
    Run.exec_bind_of_ok (Run.exec_point st), Run.exec_bind]
  rcases hexec : Run.exec (s.computeDuals st.workingSet st.point) st with ⟨failure | duals, st₁⟩
  · rw [hexec] at hstill
    refine ⟨hstill.2.1, fun _ _ h => ?_, fun _ _ h => ?_⟩
    · cases h
      rfl
    · cases h
  · rw [hexec] at hstill
    dsimp only
    cases s.worstRow? st.workingSet duals with
    | none =>
      refine ⟨hstill.2.1, fun _ _ h => ?_, fun o _ h => ?_⟩
      · cases h
      · cases h
        simp
    | some row =>
      refine ⟨hstill.2.1, fun _ _ h => ?_, fun o _ h => ?_⟩
      · cases h
      · cases h
        simp

end Parts

section Exact
variable [ExactScalar α] {s : Solver κ α σ} {st st' : RunState κ α σ}

/-- How an iteration comes to the point at which it either ends or recovers multipliers. -/
inductive Approaches (s : Solver κ α σ) (st : RunState κ α σ) :
    Result (SolverError α) (Option (Outcome α)) → RunState κ α σ → Prop
  | failed {failure : Failure (SolverError α)} {st₁ : RunState κ α σ}
      (hx : st₁.point = st.point) : Approaches s st (.error failure) st₁
  | blocked {solution : Assignment κ α} {eliminator : σ} {row : ConstraintRow} {t : α}
      {st₁ : RunState κ α σ} (hanswer : s.AnswersAt st solution eliminator)
      (hstep : st.point.stepTowards solution t = (.ok (), st₁.point)) :
      Approaches s st (.ok (some (.stepTaken t (some row)))) st₁
  | moved {solution : Assignment κ α} {eliminator : σ} {st₁ : RunState κ α σ}
      (hanswer : s.AnswersAt st solution eliminator)
      (hx : st₁.point = st.point.update solution) :
      Approaches s st (.ok (some (.stepTaken 1 none))) st₁
  | stationary {solution : Assignment κ α} {eliminator : σ} {st₁ : RunState κ α σ}
      (hanswer : s.AnswersAt st solution eliminator)
      (hx : st₁.point = st.point.update solution)
      (hnear : ∀ d ∈ st.point.differences (st.point.update solution),
        d ≤ s.config.solutionTolerance)
      (hpasses : ∀ r, s.graph.rowKind? r = some .inequality →
        s.graph.Passes st.workingSet s.config.feasibilityTolerance (st.point.update solution) r) :
      Approaches s st (.ok none) st₁

section Keys
variable (hkeys : ∀ solution e, s.AnswersAt st solution e → st.point.HasKeysOf solution)
include hkeys

/-- With all keys of the answer there, neither a step nor a distance can fail, so the point moves
all the way or stays. -/
theorem approaches :
    s.Approaches st (Run.exec s.approach st).1 (Run.exec s.approach st).2 := by
  have hstill := s.still_consult st
  rw [approach, Run.exec_bind]
  rcases hconsult : Run.exec s.consult st with ⟨failure | solution, st₁⟩
  · rw [hconsult] at hstill
    exact .failed hstill.2.1
  rw [hconsult] at hstill
  have hw : st₁.workingSet = st.workingSet := hstill.1
  have hx : st₁.point = st.point := hstill.2.1
  have hanswer := consult_ok hconsult
  have hhas := hkeys solution _ hanswer
  have hshape : st.point.SameShape (st.point.update solution) :=
    Assignment.sameShape_update (Assignment.hasKeysOf_iff.1 hhas)
  dsimp only
  rw [exec_move, hw, hx]
  generalize hsize : s.stepSize st.workingSet st.point (st.point.update solution) = found
  rcases found with failure | _ | ⟨row, t⟩
  · exact .failed hx
  · rw [stepSize, Result.mapCause_eq_ok, Graph.stepSize_eq_none] at hsize
    obtain ⟨distance, hdistance⟩ := Assignment.exists_maxAbsDiff hshape.hasKeysOf
    rw [hdistance]
    dsimp only
    split_ifs with hnear
    · refine .stationary hanswer rfl ?_ hsize
      have hnonneg : 0 ≤ s.config.solutionTolerance :=
        (Assignment.maxAbsDiff_nonneg hdistance).trans hnear
      exact (Assignment.differences_le_iff hshape.hasKeysOf hnonneg).2
        ((Assignment.maxAbsDiff_le_iff hdistance hnonneg).1 hnear)
    · exact .moved hanswer rfl
  · obtain ⟨x, hstep⟩ := Assignment.exists_stepTowards (Assignment.hasKeysOf_iff.1 hhas) t
    have htowards : st₁.point.stepTowards (st.point.update solution) t = (.ok (), x) := by
      rw [hx, Assignment.stepTowards_update hhas, hstep]
    dsimp only
    rw [map_eq_pure_bind, Run.exec_bind_of_ok (exec_takeBlockedStep_of_ok row htowards)]
    exact .blocked hanswer hstep

/-- What an iteration has done to the point when it ends. -/
inductive Moves (s : Solver κ α σ) (st : RunState κ α σ) :
    Result (SolverError α) (Outcome α) → RunState κ α σ → Prop
  | failed {failure : Failure (SolverError α)} {st' : RunState κ α σ}
      (happroach : Run.exec s.approach st = (.error failure, st')) (hx : st'.point = st.point) :
      Moves s st (.error failure) st'
  | blocked {solution : Assignment κ α} {eliminator : σ} {row : ConstraintRow} {t : α}
      {st' : RunState κ α σ} (hanswer : s.AnswersAt st solution eliminator)
      (hstep : st.point.stepTowards solution t = (.ok (), st'.point)) :
      Moves s st (.ok (.stepTaken t (some row))) st'
  | arrived {solution : Assignment κ α} {eliminator : σ} {o : Outcome α} {st' : RunState κ α σ}
      (hanswer : s.AnswersAt st solution eliminator)
      (hx : st'.point = st.point.update solution) (hfree : ∀ t r, o ≠ .stepTaken t (some r)) :
      Moves s st (.ok o) st'
  | unresolved {solution : Assignment κ α} {eliminator : σ} {failure : Failure (SolverError α)}
      {st₁ st' : RunState κ α σ} (hanswer : s.AnswersAt st solution eliminator)
      (happroach : Run.exec s.approach st = (.ok none, st₁))
      (hduals : Run.exec (s.computeDuals st₁.workingSet st₁.point) st₁ = (.error failure, st'))
      (hx : st'.point = st.point.update solution)
      (hnear : ∀ d ∈ st.point.differences (st.point.update solution),
        d ≤ s.config.solutionTolerance)
      (hpasses : ∀ r, s.graph.rowKind? r = some .inequality →
        s.graph.Passes st.workingSet s.config.feasibilityTolerance (st.point.update solution) r) :
      Moves s st (.error failure) st'

theorem moves {result : Result (SolverError α) (Outcome α)}
    (h : Run.exec s.iterate st = (result, st')) : s.Moves st result st' := by
  have happroaches := approaches hkeys
  rw [exec_iterate] at h
  rcases hexec : Run.exec s.approach st with ⟨r, st₁⟩
  rw [hexec] at happroaches h
  cases happroaches with
  | failed hx =>
    cases h
    exact .failed hexec hx
  | blocked hanswer hstep =>
    cases h
    exact .blocked hanswer hstep
  | moved hanswer hx =>
    cases h
    exact .arrived hanswer hx (by simp)
  | stationary hanswer hx hnear hpasses =>
    replace h : Run.exec s.resolveStationary st₁ = (result, st') := h
    obtain ⟨hstays, hfails, hdiffers⟩ := s.exec_resolveStationary st₁
    rw [h] at hstays
    cases result with
    | error failure =>
      exact .unresolved hanswer hexec (hfails _ _ h) (hstays.trans hx) hnear hpasses
    | ok o => exact .arrived hanswer (hstays.trans hx) fun t r => hdiffers o st' h t (some r)

end Keys

/-- An iteration moves the variables of the eliminator's answer and no other ones: a blocked step by
its fraction of the way, and every other one that succeeds all the way. No variable is added or
removed. A failure leaves the point, but for one to recover the multipliers. This one leaves the
point at the answer, which is within the tolerance of where it was and violates no row outside the
working set by more than the tolerance. -/
theorem iterate_moves (s : Solver κ α σ) (st : RunState κ α σ)
    (hkeys : ∀ solution e, s.AnswersAt st solution e → st.point.HasKeysOf solution) :
    (∀ t r st', Run.exec s.iterate st = (.ok (.stepTaken t (some r)), st') →
      ∃ solution e, s.AnswersAt st solution e ∧
        (∀ k ∈ solution.keys, st.point.MovedAt solution st'.point t k) ∧
        ∀ k, k ∉ solution.keys → st'.point.get? k = st.point.get? k) ∧
    (∀ o st', Run.exec s.iterate st = (.ok o, st') → (∀ t r, o ≠ .stepTaken t (some r)) →
      ∃ solution e, s.AnswersAt st solution e ∧
        (∀ k ∈ solution.keys, st'.point.get? k = solution.get? k) ∧
        ∀ k, k ∉ solution.keys → st'.point.get? k = st.point.get? k) ∧
    (∀ result st', Run.exec s.iterate st = (result, st') → st.point.SameShape st'.point) ∧
    ∀ failure st', Run.exec s.iterate st = (.error failure, st') →
      (Run.exec s.approach st = (.error failure, st') ∧ st'.point = st.point) ∨
      ∃ solution e st₁, s.AnswersAt st solution e ∧ Run.exec s.approach st = (.ok none, st₁) ∧
        Run.exec (s.computeDuals st₁.workingSet st₁.point) st₁ = (.error failure, st') ∧
        st'.point = st.point.update solution ∧
        (∀ d ∈ st.point.differences st'.point, d ≤ s.config.solutionTolerance) ∧
        ∀ r, s.graph.rowKind? r = some .inequality → r ∉ st.workingSet.rows →
          ∃ slack, s.graph.rowSlack r st'.point = .ok slack ∧
            -s.config.feasibilityTolerance ≤ slack := by
  have hshape {solution : Assignment κ α} {e : σ} (hanswer : s.AnswersAt st solution e) :
      st.point.SameShape (st.point.update solution) :=
    Assignment.sameShape_update (Assignment.hasKeysOf_iff.1 (hkeys solution e hanswer))
  refine ⟨fun t r st' h => ?_, fun o st' h hfree => ?_, fun result st' h => ?_,
    fun failure st' h => ?_⟩
  · cases moves hkeys h with
    | blocked hanswer hstep =>
      exact ⟨_, _, hanswer, fun _ => Assignment.movedAt_of_stepTowards hstep,
        fun _ => Assignment.get?_of_stepTowards hstep⟩
    | arrived _ _ hfree => exact absurd rfl (hfree t r)
  · cases moves hkeys h with
    | blocked => exact absurd rfl (hfree _ _)
    | arrived hanswer hx =>
      exact ⟨_, _, hanswer, fun _ => hx ▸ Assignment.get?_update_of_mem _,
        fun _ => hx ▸ Assignment.get?_update_of_notMem _⟩
  · cases moves hkeys h with
    | failed _ hx => exact hx ▸ .refl _
    | blocked _ hstep => exact Assignment.sameShape_stepTowards hstep
    | arrived hanswer hx => exact hx ▸ hshape hanswer
    | unresolved hanswer _ _ hx => exact hx ▸ hshape hanswer
  · cases moves hkeys h with
    | failed happroach hx => exact .inl ⟨happroach, hx⟩
    | unresolved hanswer happroach hduals hx hnear hpasses =>
      refine .inr ⟨_, _, _, hanswer, happroach, hduals, hx, hx ▸ hnear, fun r hr hnew => ?_⟩
      exact hx ▸ (hpasses r hr).resolve_left hnew

def muteHalfLine : Solver ℕ ℚ Unit :=
  { halfLine with
    eliminator := Elimination.table
      [(.parabola [], .single 0 2), (.parabola [.single 0 1 (some .equality)], .single 0 1)] [] }

private theorem hasKeysOf_muteHalfLine {st : RunState ℕ ℚ Unit} {a : ℚ}
    (hx : st.point = .single 0 a) {solution : Assignment ℕ ℚ} {e : Unit}
    (h : muteHalfLine.AnswersAt st solution e) : st.point.HasKeysOf solution := by
  obtain ⟨-, working, -, hanswer, -⟩ := h
  have hmem := Elimination.mem_of_lookup hanswer
  have hdim (b : ℚ) : (Assignment.single 0 a).HasKeysOf (.single 0 b) := by
    intro k hk
    cases List.mem_singleton.1 (show k ∈ [0] from hk)
    rfl
  rw [hx]
  simp only [List.mem_cons, Prod.mk.injEq, List.not_mem_nil, or_false] at hmem
  rcases hmem with ⟨-, rfl⟩ | ⟨-, rfl⟩
  · exact hdim 2
  · exact hdim 1

/-- From `0` half of the way to `2` is taken. At the bound the multiplier is not found, and the
point stays at the answer, which is the bound. -/
theorem muteHalfLine_moves :
    (∃ st', Run.exec muteHalfLine.iterate ⟨WorkingSet.empty, .single 0 0, (), []⟩ =
      (.ok (.stepTaken (1 / 2) (some ⟨1, 0⟩)), st') ∧
      ∃ solution : Assignment ℕ ℚ, ∀ k ∈ solution.keys,
        (Assignment.single 0 0).MovedAt solution st'.point (1 / 2) k) ∧
    ∃ failure st', Run.exec muteHalfLine.iterate ⟨.ofRows [⟨1, 0⟩], .single 0 1, (), []⟩ =
      (.error failure, st') ∧
        ∃ solution, st'.point = (Assignment.single 0 1).update solution ∧
          ∀ d ∈ (Assignment.single 0 1).differences st'.point,
            d ≤ muteHalfLine.config.solutionTolerance := by
  obtain ⟨hblocked, -, -, -⟩ := muteHalfLine.iterate_moves
    ⟨WorkingSet.empty, .single 0 0, (), []⟩ fun _ _ => hasKeysOf_muteHalfLine rfl
  obtain ⟨-, -, -, hfailed⟩ := muteHalfLine.iterate_moves
    ⟨.ofRows [⟨1, 0⟩], .single 0 1, (), []⟩ fun _ _ => hasKeysOf_muteHalfLine rfl
  have hok : (Run.exec muteHalfLine.iterate ⟨WorkingSet.empty, .single 0 0, (), []⟩).1 =
      .ok (.stepTaken (1 / 2) (some ⟨1, 0⟩)) := by decide +kernel
  have herror : (Run.exec muteHalfLine.iterate ⟨.ofRows [⟨1, 0⟩], .single 0 1, (), []⟩).1 =
      .error (.cause (.linear .singularMatrix)) := by decide +kernel
  obtain ⟨solution, -, -, hmoved, -⟩ := hblocked _ _ _ (Prod.ext hok rfl)
  refine ⟨⟨_, Prod.ext hok rfl, solution, hmoved⟩, _, _, Prod.ext herror rfl, ?_⟩
  rcases hfailed _ _ (Prod.ext herror rfl) with ⟨hearly, -⟩ | ⟨answer, _, _, -, -, -, hx, hnear, -⟩
  · have hstationary : (Run.exec muteHalfLine.approach
        ⟨.ofRows [⟨1, 0⟩], .single 0 1, (), []⟩).1 = .ok none := by decide +kernel
    cases hstationary.symm.trans (congrArg Prod.fst hearly)
  · exact ⟨answer, hx, hnear⟩

end Exact

end Solver

end GaussianProgram
