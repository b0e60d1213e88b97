import GaussianProgram.Proofs.SharedRows
import GaussianProgram.Proofs.Iterate

/-! Where an iteration leaves the range. At a point with all variables of the graph only two parts
of it can: the check of the rank, where the active rows have no singular values, and the eliminator.
All others fail for a stated cause, and so does an answer that does not fit the point. -/
namespace GaussianProgram

variable {κ α σ : Type} [Key κ] [Scalar α]

theorem LinearRows.rowValue_ne_outOfRange (f : LinearRows κ α) (row : ℕ) (x : Assignment κ α) :
    f.rowValue row x ≠ .error .outOfRange := by
  intro h
  unfold rowValue at h
  split_ifs at h with hrow
  · cases h
  · obtain ⟨t, ht, total, hstep⟩ := Result.exists_of_foldlM_eq_error h
    rcases Result.bind_eq_error.1 hstep with hread | ⟨v, -, hstep⟩
    · exact Result.ofExcept_ne_outOfRange _ hread
    rcases Result.bind_eq_error.1 hstep with hread | ⟨coefficients, -, hpure⟩
    · rw [Result.inRange_eq_outOfRange, Matrix.row?, ite_eq_right_iff] at hread
      cases hread ((f.block_rows t ht).symm ▸ not_le.1 hrow)
    · cases hpure

namespace Graph

/-- There are active rows, and they have no singular values: they are over no variables, or the
values do not compare. -/
def Rankless (singularValues : Matrix α → Option (Vec α)) (g : Graph κ α) (w : WorkingSet) : Prop :=
  g.activeRows w ≠ [] ∧ ∃ dims, g.keyDimensions = .ok dims ∧
    (sumDims dims.values = 0 ∨ singularValues (g.activeMatrix dims w) = none)

/-- The ratio test reads rows that are there. -/
theorem stepSize_ne_outOfRange (g : Graph κ α) (w : WorkingSet) (tolerance : α)
    (x y : Assignment κ α) : g.stepSize w tolerance x y ≠ .error .outOfRange := by
  intro h
  obtain ⟨r, hr, best, hstep⟩ := Result.exists_of_foldlM_eq_error h
  obtain ⟨f, hf, hkind⟩ := rowKind?_eq_some.1 (mem_inequalityRows.1 hr)
  have hrow : r.row < f.rhs.length := LinearRows.rowKind?_lt hkind
  split_ifs at hstep
  simp only [hf] at hstep
  rcases Result.bind_eq_error.1 hstep with hblock | ⟨o, -, hnext⟩
  · rcases Result.bind_eq_error.1 hblock with hread | ⟨b, -, hblock⟩
    · rw [Result.inRange_eq_outOfRange, List.getElem?_eq_none_iff] at hread
      exact absurd hrow (not_lt.2 hread)
    rcases Result.bind_eq_error.1 hblock with hvalue | ⟨after, -, hblock⟩
    · exact f.rowValue_ne_outOfRange _ _ hvalue
    simp only at hblock
    split_ifs at hblock
    · cases hblock
    rcases Result.bind_eq_error.1 hblock with hvalue | ⟨before, -, hpure⟩
    · exact f.rowValue_ne_outOfRange _ _ hvalue
    · cases hpure
  · cases o <;> cases hnext

end Graph

namespace Solver
variable {s : Solver κ α σ} {st st' : RunState κ α σ} {w : WorkingSet} {x y : Assignment κ α}

/-- The iteration from this state leaves the range: the active rows have no singular values, or the
eliminator leaves it at the working problem, or at the dual graph of a candidate that is near. -/
inductive BreaksAt (s : Solver κ α σ) (st : RunState κ α σ) : Prop
  | rank (hrank : s.graph.Rankless s.singularValues st.workingSet)
  | primal {working : Graph κ α} (hrank : s.checkRank st.workingSet = .ok ())
      (hworking : s.graph.workingGraph st.workingSet = .ok working)
      (hbreaks : (s.eliminator.primal working st.eliminator).1.result = .error .outOfRange)
  | dual {solution : Assignment κ α} {eliminator : σ} {distance : α} {dual : Graph ℕ α}
      (hanswers : s.AnswersAt st solution eliminator)
      (hpasses : s.graph.stepSize st.workingSet s.config.feasibilityTolerance st.point
        (st.point.update solution) = .ok none)
      (hdistance : st.point.maxAbsDiff (st.point.update solution) = .ok distance)
      (hnear : distance ≤ s.config.solutionTolerance)
      (hdual : s.graph.dualGraph st.workingSet (st.point.update solution) = .ok dual)
      (hfull : dual.isEmpty = false)
      (hbreaks : (s.eliminator.dual dual eliminator).1.result = .error .outOfRange)

theorem stepSize_ne_outOfRange : s.stepSize w x y ≠ .error .outOfRange := by
  rw [stepSize, ne_eq, Result.mapCause_eq_outOfRange]
  exact s.graph.stepSize_ne_outOfRange _ _ _ _

theorem exec_takeBlockedStep (row : ConstraintRow) (t : α) (st : RunState κ α σ) :
    (Run.exec (takeBlockedStep y row t) st).1 =
      ((Result.ofExcept (st.point.stepTowards y t).1).mapCause .graph).map fun _ =>
        .stepTaken t (some row) := by
  rw [takeBlockedStep, Run.exec_bind_of_ok (Run.exec_point st)]
  generalize st.point.stepTowards y t = step
  rcases step with ⟨_ | _, x⟩ <;> rfl

section Misfit
variable {solution : Assignment κ α} {k : κ} {n : ℕ}

/-- An answer that gives a key outside the point, or another dimension than the point has there,
ends the iteration for a stated cause. -/
theorem iterate_of_misfit {eliminator : σ} (h : s.AnswersAt st solution eliminator)
    (hk : solution.dim? k = some n) (hne : st.point.dim? k ≠ some n) :
    ∃ e, (Run.exec s.iterate st).1 = .error (.cause e) := by
  obtain ⟨st₁, ⟨-, hx, -⟩, -, hexec⟩ := exec_iterate_of_answer h
  have hy : (st.point.update solution).dim? k = some n := by rw [Assignment.dim?_update, hk]; rfl
  rw [hexec, exec_advance, hx]
  rcases hsize : s.stepSize st.workingSet st.point (st.point.update solution) with
    (e | _) | _ | ⟨row, t⟩
  · exact ⟨e, rfl⟩
  · exact absurd hsize stepSize_ne_outOfRange
  · dsimp only
    rw [exec_takeFullStep, hx]
    cases hdistance : st.point.maxAbsDiff (st.point.update solution) with
    | error e => exact ⟨.graph e, rfl⟩
    | ok distance => exact absurd (Assignment.dim?_of_maxAbsDiff hdistance hy) hne
  · dsimp only
    rw [exec_takeBlockedStep, hx]
    rcases hstep : st.point.stepTowards (st.point.update solution) t with ⟨e | _, z⟩
    · exact ⟨.graph e, rfl⟩
    · exact absurd (Assignment.dim?_of_stepTowards hstep hy) hne

end Misfit

/-- To compute the multipliers leaves the range where one of its parts does. -/
theorem computeDuals_eq_outOfRange :
    (Run.exec (s.computeDuals w x) st).1 = .error .outOfRange ↔
      s.checkRank w = .error .outOfRange ∨ s.checkRank w = .ok () ∧
        (s.graph.dualGraph w x = .error .outOfRange ∨ ∃ dual, s.graph.dualGraph w x = .ok dual ∧
          dual.isEmpty = false ∧
            (s.eliminator.dual dual st.eliminator).1.result = .error .outOfRange) := by
  obtain ⟨st₁, hdual, -⟩ := exec_dualGraph s w x st
  rw [computeDuals, Run.exec_bind_error, Run.result_announcing]
  refine or_congr_right ?_
  simp only [Run.announcing_eq_ok, Run.exec_bind_error]
  constructor
  · rintro ⟨_, _, ⟨hrank, rfl⟩, h⟩
    refine ⟨hrank, h.imp (fun h => ?_) fun ⟨dual, st₂, hok, h⟩ => ?_⟩
    · rwa [hdual] at h
    · obtain ⟨hgraph, heliminator⟩ := eliminator_of_dualGraph hok
      split_ifs at h with hempty
      · cases h
      · rw [Run.result_ask, Result.mapCause_eq_outOfRange, heliminator] at h
        exact ⟨dual, hgraph, Bool.eq_false_iff.2 hempty, h⟩
  · rintro ⟨hrank, h⟩
    refine ⟨(), st, ⟨hrank, rfl⟩, h.imp (fun h => ?_) fun ⟨dual, hgraph, hfull, h⟩ => ?_⟩
    · rwa [hdual]
    · rw [hgraph] at hdual
      refine ⟨dual, st₁, hdual, ?_⟩
      rw [hfull, if_neg Bool.false_ne_true, Run.result_ask, Result.mapCause_eq_outOfRange,
        (eliminator_of_dualGraph hdual).2]
      exact h

/-- At a stationary point only the multipliers leave the range. -/
theorem resolveStationary_eq_outOfRange :
    (Run.exec s.resolveStationary st).1 = .error .outOfRange ↔
      (Run.exec (s.computeDuals st.workingSet st.point) st).1 = .error .outOfRange := by
  rw [resolveStationary, Run.exec_bind_of_ok (Run.exec_workingSet st),
    Run.exec_bind_of_ok (Run.exec_point st), Run.exec_bind_error]
  refine or_iff_left ?_
  rintro ⟨duals, st₁, -, h⟩
  split at h <;> cases h

theorem advance_eq_outOfRange {solution : Assignment κ α} :
    (Run.exec (s.advance w solution) st).1 = .error .outOfRange ↔
      s.graph.stepSize w s.config.feasibilityTolerance st.point (st.point.update solution) =
          .ok none ∧
        ∃ distance, st.point.maxAbsDiff (st.point.update solution) = .ok distance ∧
          distance ≤ s.config.solutionTolerance ∧
            (Run.exec (s.computeDuals st.workingSet (st.point.update solution))
              { st with point := st.point.update solution }).1 = .error .outOfRange := by
  rw [exec_advance]
  rcases hsize : s.stepSize w st.point (st.point.update solution) with failure | _ | ⟨row, t⟩
  · have hnot : failure ≠ .outOfRange := fun h => stepSize_ne_outOfRange (h ▸ hsize)
    rw [stepSize] at hsize
    constructor
    · intro h
      cases h
      exact absurd rfl hnot
    · rintro ⟨hpasses, -⟩
      rw [hpasses] at hsize
      cases hsize
  · rw [stepSize, Result.mapCause_eq_ok] at hsize
    rw [and_iff_right hsize]
    dsimp only
    rw [exec_takeFullStep]
    cases st.point.maxAbsDiff (st.point.update solution) with
    | error e => simp [Result.fail]
    | ok distance =>
      simp only [Except.ok.injEq, exists_eq_left', Assignment.update_update_self]
      split_ifs with hnear
      · rw [and_iff_right hnear, resolveStationary_eq_outOfRange]
      · constructor
        · intro h
          cases h
        · exact fun h => absurd h.1 hnear
  · rw [stepSize, Result.mapCause_eq_ok] at hsize
    dsimp only
    rw [exec_takeBlockedStep]
    constructor
    · generalize (st.point.stepTowards (st.point.update solution) t).1 = moved
      intro h
      cases moved <;> cases h
    · rintro ⟨hpasses, -⟩
      cases hsize.symm.trans hpasses

section Range
variable {dims : SortedMap κ ℕ} (hdims : s.graph.keyDimensions = .ok dims)
  (hmax : sumDims dims.values ≤ maxLength)
include hdims hmax

theorem checkRank_eq_outOfRange :
    s.checkRank w = .error .outOfRange ↔ s.graph.Rankless s.singularValues w := by
  rw [checkRank, Graph.checkActiveRank_eq_outOfRange hdims hmax, Graph.Rankless]
  exact and_congr_right fun _ => ⟨fun h => ⟨dims, hdims, h⟩, fun ⟨_, hdims', h⟩ => by
    cases hdims.symm.trans hdims'
    exact h⟩

/-- From a point with all variables an iteration leaves the range exactly where it is said to. -/
theorem iterate_eq_outOfRange (hx : s.graph.Covers st.point) :
    (Run.exec s.iterate st).1 = .error .outOfRange ↔ s.BreaksAt st := by
  constructor
  · intro h
    rw [iterate, Run.exec_bind_of_ok (Run.exec_workingSet st)] at h
    rcases Run.exec_bind_error.1 h with hrank | ⟨_, st₁, hok, h⟩
    · rw [Run.result_announcing, checkRank_eq_outOfRange hdims hmax] at hrank
      exact .rank hrank
    obtain ⟨hrank, rfl⟩ := Run.announcing_eq_ok.1 hok
    rcases Run.exec_bind_error.1 h with hworking | ⟨working, st₁, hok, h⟩
    · rw [Run.result_announcing, workingGraph, Result.mapCause_eq_outOfRange] at hworking
      exact absurd hworking (Result.ofExcept_ne_outOfRange _)
    obtain ⟨hworking, rfl⟩ := Run.announcing_eq_ok.1 hok
    rw [workingGraph, Result.mapCause_eq_ok, Result.ofExcept_eq_ok] at hworking
    rcases Run.exec_bind_error.1 h with hanswer | ⟨solution, st₁, hask, h⟩
    · rw [Run.result_ask, Result.mapCause_eq_outOfRange] at hanswer
      exact .primal hrank hworking hanswer
    obtain ⟨hanswer, hw, hpoint, -⟩ := Run.ask_ok hask
    change (Run.exec (s.advance st.workingSet solution) st₁).1 = _ at h
    obtain ⟨hpasses, distance, hdistance, hnear, hduals⟩ := advance_eq_outOfRange.1 h
    rw [hpoint] at hpasses hdistance hduals
    rw [hw] at hduals
    rcases computeDuals_eq_outOfRange.1 hduals with
      hrank | ⟨-, hdual | ⟨dual, hdual, hfull, hbreaks⟩⟩
    · exact .rank ((checkRank_eq_outOfRange hdims hmax).1 hrank)
    · have hnext := hx.of_sameShape (Assignment.sameShape_of_maxAbsDiff hdistance)
      obtain ⟨dual, hok⟩ := Graph.exists_dualGraph hdims hmax st.workingSet hnext
      cases hok.symm.trans hdual
    · exact .dual ⟨hrank, working, hworking, hanswer, (Run.eliminator_of_ask hask).symm⟩ hpasses
        hdistance hnear hdual hfull hbreaks
  · rintro (hrank | ⟨hrank, hworking, hbreaks⟩ |
      ⟨hanswers, hpasses, hdistance, hnear, hdual, hfull, hbreaks⟩)
    · rw [← checkRank_eq_outOfRange hdims hmax] at hrank
      rw [iterate, Run.exec_bind_of_ok (Run.exec_workingSet st), Run.exec_bind_error,
        Run.result_announcing]
      exact .inl hrank
    · rw [exec_iterate_of_working hrank hworking, Run.exec_bind_error, Run.result_ask,
        Result.mapCause_eq_outOfRange]
      exact .inl hbreaks
    · obtain ⟨st₁, ⟨hw, hpoint, -⟩, rfl, hexec⟩ := exec_iterate_of_answer hanswers
      rw [hexec, advance_eq_outOfRange, hpoint, hw]
      refine ⟨hpasses, _, hdistance, hnear, computeDuals_eq_outOfRange.2 (.inr ⟨hanswers.rank, ?_⟩)⟩
      exact .inr ⟨_, hdual, hfull, hbreaks⟩

end Range

section Start

omit [Scalar α] in
theorem restrict_ne_outOfRange (g : Graph κ α) (initial : Assignment κ α) :
    restrict g initial ≠ .error .outOfRange := by
  intro h
  rcases Result.bind_eq_error.1 h with hdims | ⟨dims, -, h⟩
  · rw [Graph.dimensions, Result.mapCause_eq_outOfRange, Result.mapCause_eq_outOfRange] at hdims
    exact Result.ofExcept_ne_outOfRange _ hdims
  obtain ⟨e, -, hentry⟩ := Result.exists_of_mapM_eq_error (Result.bind_pure_eq_error.1 h)
  exact Result.ofExcept_ne_outOfRange _ (Result.mapCause_eq_outOfRange.1 hentry)

theorem checkFeasible_ne_outOfRange (g : Graph κ α) (tolerance : α) (x : Assignment κ α) :
    checkFeasible g tolerance x ≠ .error .outOfRange := by
  intro h
  obtain ⟨e, -, hfactor⟩ := Result.exists_of_forM_eq_error h
  rcases Result.bind_eq_error.1 hfactor with hresidual | ⟨residual, -, hrows⟩
  · exact Result.ofExcept_ne_outOfRange _ (Result.mapCause_eq_outOfRange.1 hresidual)
  · obtain ⟨entry, -, hrow⟩ := Result.exists_of_forM_eq_error hrows
    simp only at hrow
    split at hrow
    · cases hrow
    · split_ifs at hrow
      cases hrow

/-- A start does not leave the range. -/
theorem start_ne_outOfRange (s : Solver κ α σ) (initial : Assignment κ α)
    (st : RunState κ α σ) : (Run.exec (s.start initial) st).1 ≠ .error .outOfRange := by
  rw [result_start, ne_eq, Result.map_eq_error]
  intro h
  rcases Result.bind_eq_error.1 h with hset | ⟨_, -, h⟩
  · rw [checkWorkingSet] at hset
    split at hset <;> cases hset
  rcases Result.bind_eq_error.1 h with hpoint | ⟨x, -, h⟩
  · exact restrict_ne_outOfRange _ _ hpoint
  split_ifs at h
  · exact checkFeasible_ne_outOfRange _ _ _ (Result.bind_pure_eq_error.1 h)
  · cases h

end Start

end Solver

end GaussianProgram
