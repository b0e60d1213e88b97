import GaussianProgram.Proofs.Evolution
import GaussianProgram.Proofs.Feasibility
import GaussianProgram.Proofs.Termination
import GaussianProgram.Proofs.Trajectory

/-! Convergence is a fixed point. The point at which an iteration converges is its own candidate, so
the next iteration sees the same working problem, the same ratio test and the same multipliers; and
the optimum of a run is accepted as the start of another one, which returns it at once. -/
namespace GaussianProgram.Solver

variable {κ α σ : Type} [Key κ]

/-- A point that fits the graph is its own restriction. -/
theorem restrict_of_fits {g : Graph κ α} {x : Assignment κ α} (hx : g.Fits x) :
    restrict g x = .ok x := by
  obtain ⟨dims, hdims, hshape⟩ := hx.exists_keyDimensions
  have hdimensions : g.dimensions.mapCause .graph =
      (.ok dims : Result (SolverError α) (SortedMap κ ℕ)) := by
    rw [Result.mapCause_eq_ok, Graph.dimensions, Result.mapCause_eq_ok, Result.ofExcept_eq_ok]
    exact hdims
  have hentry (e : κ × ℕ) (he : e ∈ dims.toList) : ∃ entry, (Result.ofExcept
      (initialEntry x e.1 e.2)).mapCause .graph =
        (.ok entry : Result (SolverError α) (κ × Vec α)) := by
    have hdim : x.dim? e.1 = some e.2 := (hshape e.1).trans (SortedMap.get?_eq_some_iff.2 he)
    obtain ⟨v, hv, hlen⟩ := Assignment.dim?_eq_some.1 hdim
    refine ⟨(e.1, v), ?_⟩
    rw [Result.mapCause_eq_ok, Result.ofExcept_eq_ok, initialEntry_eq_ok]
    exact ⟨rfl, hv, hlen⟩
  obtain ⟨entries, hentries⟩ := Result.exists_mapM hentry
  have hrestrict : restrict g x = .ok (SortedMap.ofList entries) :=
    Result.bind_eq_ok.2 ⟨dims, hdimensions, Result.bind_eq_ok.2 ⟨entries, hentries, rfl⟩⟩
  obtain ⟨hfits, hvalues⟩ := restrict_spec hrestrict
  rw [hrestrict, hfits.eq_of_values hx hvalues fun _ _ => id]

theorem Starts.fits [Scalar α] {s : Solver κ α σ} {initial x : Assignment κ α} {w : WorkingSet}
    (h : s.Starts initial w x) : s.graph.Fits x := (restrict_spec h.point).1

section Run
variable [Scalar α] {s : Solver κ α σ} {st st' : RunState κ α σ}

/-- The eliminator's answer to a dual graph depends on that graph only. -/
def AnswersDualPurely (s : Solver κ α σ) : Prop :=
  ∀ (g : Graph ℕ α) (state state' : σ),
    (s.eliminator.dual g state).1.result = (s.eliminator.dual g state').1.result

/-- Multipliers that there are for some state of the eliminator are found in every state. -/
theorem exec_computeDuals (hpure : s.AnswersDualPurely) {w : WorkingSet} {x : Assignment κ α}
    {duals : Assignment ℕ α} (hrank : s.checkRank w = .ok ()) (h : s.HasDuals w x duals)
    (st : RunState κ α σ) :
    ∃ st', Run.exec (s.computeDuals w x) st = (.ok duals, st') ∧ Run.Alike st st' := by
  obtain ⟨state, _, dual, hdual, hanswer⟩ := h
  obtain ⟨st₁, hexec₁, hlike₁⟩ := exec_dualGraph s w x st
  rw [hdual] at hexec₁
  have hpass : Run.exec (Run.announcing (s.checkRank w)) st = (.ok (), st) :=
    Run.announcing_eq_ok.2 ⟨hrank, rfl⟩
  rw [computeDuals, Run.exec_bind_of_ok hpass, Run.exec_bind_of_ok hexec₁]
  split_ifs at hanswer ⊢ with hempty
  · obtain ⟨rfl, -⟩ := hanswer
    exact ⟨st₁, rfl, hlike₁⟩
  · obtain ⟨st₂, hexec₂, hlike₂⟩ := Run.exec_ask (s.eliminator.dual dual) st₁
    rw [hpure dual st₁.eliminator state, hanswer.1, Result.mapCause_ok] at hexec₂
    exact ⟨st₂, hexec₂, hlike₁.trans hlike₂⟩

/-- At a point that is its own candidate, with multipliers none of which is too low, an iteration
converges and leaves everything as it is. -/
theorem Settled.converges (hpure : s.AnswersPurely) (hdualPure : s.AnswersDualPurely)
    (htol : 0 ≤ s.config.solutionTolerance) {w : WorkingSet} {x : Assignment κ α}
    (h : s.Settled w x) (hrank : s.checkRank w = .ok ()) {duals : Assignment ℕ α}
    (hduals : s.HasDuals w x duals) (hworst : s.worstRow? w duals = none)
    (hw : st.workingSet = w) (hx : st.point = x) :
    ∃ st', Run.exec s.iterate st = (.ok (.converged duals), st') ∧ st'.workingSet = w ∧
      st'.point = x := by
  obtain ⟨working, solution, ⟨hworking, state, hanswer⟩, hself, hpasses, hdistance⟩ := h
  subst hw hx
  have hanswers : s.AnswersAt st solution (s.eliminator.primal working st.eliminator).2 :=
    ⟨hrank, working, hworking, (hpure working _ state).trans hanswer, rfl⟩
  obtain ⟨st₁, ⟨hw₁, hx₁, -⟩, -, hexec⟩ := exec_iterate_of_answer hanswers
  obtain ⟨st₂, hexec₂, hw₂, hx₂, -⟩ := exec_computeDuals hdualPure hrank hduals st₁
  have hsize : s.stepSize st.workingSet st.point st.point = .ok none := by
    rw [stepSize, Graph.stepSize_eq_none.2 hpasses]
    rfl
  have hresolve : Run.exec s.resolveStationary st₁ = (.ok (.converged duals), st₂) := by
    rw [resolveStationary, Run.exec_bind_of_ok (Run.exec_workingSet st₁), hw₁,
      Run.exec_bind_of_ok (Run.exec_point st₁), hx₁, Run.exec_bind_of_ok hexec₂, hworst]
    rfl
  have hstill : { st₁ with point := st.point.update st.point } = st₁ := by
    have hupdate := st.point.update_update_self solution
    rw [hself] at hupdate
    rw [hupdate, ← hx₁]
  refine ⟨st₂, ?_, hw₂.trans hw₁, hx₂.trans hx₁⟩
  rw [hexec, exec_advance, hx₁, hself, hsize]
  dsimp only
  rw [exec_takeFullStep, hx₁, hdistance]
  dsimp only
  rw [hstill, if_pos htol]
  exact hresolve

/-- A run from an accepted start is the loop from its point. -/
theorem optimize_of_starts {initial x : Assignment κ α} {w : WorkingSet} {cost : α}
    (hstart : s.Starts initial w x) (hcost : s.graph.cost x = .ok cost) (eliminator : σ) :
    ∃ st, st.workingSet = w ∧ st.point = x ∧ s.optimize initial w eliminator =
      Run.exec (s.loop cost s.config.maxIterations 0 cost []) st := by
  obtain ⟨st, -, ⟨hw, hx, -⟩, -, hloop⟩ := exists_opening hstart hcost eliminator
  exact ⟨st, hw, hx, hloop⟩

/-- A loop that returns an optimum ends with an iteration that converges, from a state with all
properties of the first one that iterations keep. -/
theorem loop_ok {P : WorkingSet → Assignment κ α → Prop}
    (hkeeps : ∀ {w x o w' y}, P w x → s.Iterates w x o w' y → P w' y) {initialCost : α}
    {fuel i : ℕ} {previous : α} {D : List WorkingSet} {optimum : Optimum κ α}
    (hst : P st.workingSet st.point)
    (h : Run.exec (s.loop initialCost fuel i previous D) st = (.ok optimum, st')) :
    0 < fuel ∧ ∃ st₁ st₂, P st₁.workingSet st₁.point ∧
      Run.exec s.iterate st₁ = (.ok (.converged optimum.duals), st₂) ∧
      st₂.point = optimum.solution ∧ st₂.workingSet = optimum.workingSet ∧
      s.graph.cost optimum.solution = .ok optimum.finalCost ∧
      optimum.status = statusOf s.graph optimum.workingSet := by
  induction fuel generalizing i previous D st with
  | zero =>
    obtain ⟨_, hexec, -⟩ := exec_stop (β := Optimum κ α) (.iterationLimit s.config.maxIterations) st
    cases hexec.symm.trans h
  | succ fuel ih =>
    refine ⟨Nat.succ_pos fuel, ?_⟩
    cases loop_turns h with
    | converged hexec hcost => exact ⟨st, _, hst, hexec, rfl, rfl, hcost, rfl⟩
    | dropped hexec hcost hnew hrest =>
      have hnext := hkeeps hst (iterate_ok hexec)
      refine (ih ?_ hrest).2
      exact hnext
    | stepped hexec hcost hrest =>
      have hnext := hkeeps hst (iterate_ok hexec)
      refine (ih ?_ hrest).2
      exact hnext

end Run

section Exact
variable [ExactScalar α] {s : Solver κ α σ} {st st' : RunState κ α σ}

/-- A point at which an iteration converges holds the eliminator's answer as it is, and is its
own candidate. -/
theorem settled_of_converged {duals : Assignment ℕ α}
    (h : Run.exec s.iterate st = (.ok (.converged duals), st')) :
    st'.workingSet = st.workingSet ∧ s.Settled st'.workingSet st'.point ∧
      s.HasDuals st'.workingSet st'.point duals ∧ s.worstRow? st'.workingSet duals = none := by
  have hiter := iterate_ok h
  generalize st'.workingSet = w', st'.point = y at hiter ⊢
  cases hiter with
  | converged haccepts hduals hworst =>
    refine ⟨rfl, haccepts.settled ?_ (max_self 0) fun _ _ _ a _ => sub_self a, hduals, hworst⟩
    rw [ExactScalar.abs_eq, abs_zero]

/-- The point at which an iteration converges is the eliminator's answer to the working problem, in
all variables that the answer names. Another iteration from there converges again with the same
multipliers, and the run that starts from an optimum returns it after one iteration. -/
theorem convergence_persists (hpure : s.AnswersPurely) (hdualPure : s.AnswersDualPurely)
    (htol : 0 ≤ s.config.solutionTolerance) :
    (∀ st duals st', Run.exec s.iterate st = (.ok (.converged duals), st') →
      (∃ working solution, s.graph.workingGraph st'.workingSet = .ok working ∧
        (∀ state, (s.eliminator.primal working state).1.result = .ok solution) ∧
        ∀ k v, solution.get? k = some v → st'.point.get? k = some v) ∧
      ∀ state events, ∃ st'', Run.exec s.iterate ⟨st'.workingSet, st'.point, state, events⟩ =
        (.ok (.converged duals), st'') ∧ st''.workingSet = st'.workingSet ∧
          st''.point = st'.point) ∧
    (0 ≤ s.config.feasibilityTolerance → s.KeepsRows → ∀ initial w eliminator optimum st,
      s.optimize initial w eliminator = (.ok optimum, st) →
        checkFeasible s.graph s.config.feasibilityTolerance optimum.solution = .ok () ∧
          ∀ eliminator', (s.optimize optimum.solution optimum.workingSet eliminator').1 =
            .ok { optimum with initialCost := optimum.finalCost, iterations := 1 }) := by
  have hagain {st st' : RunState κ α σ} {duals : Assignment ℕ α}
      (h : Run.exec s.iterate st = (.ok (.converged duals), st')) {t : RunState κ α σ}
      (hw : t.workingSet = st'.workingSet) (hx : t.point = st'.point) :
      ∃ t', Run.exec s.iterate t = (.ok (.converged duals), t') ∧
        t'.workingSet = st'.workingSet ∧ t'.point = st'.point := by
    obtain ⟨hsame, hsettled, hduals, hworst⟩ := settled_of_converged h
    have hrank : s.checkRank st'.workingSet = .ok () := hsame ▸ checkRank_of_iterate_ok h
    exact hsettled.converges hpure hdualPure htol hrank hduals hworst hw hx
  refine ⟨fun st duals st' h => ⟨?_, fun state events => hagain h rfl rfl⟩, ?_⟩
  · obtain ⟨-, ⟨working, solution, ⟨hworking, state, hanswer⟩, hself, -⟩, -⟩ :=
      settled_of_converged h
    refine ⟨working, solution, hworking, fun state' => (hpure _ _ _).trans hanswer, ?_⟩
    intro k v hv
    rw [← hself, Assignment.get?_update, hv, Option.some_or]
  · intro hfeas hs initial w eliminator optimum st hrun
    rcases optimize_cases hrun with ⟨-, failure, hfail, -⟩ | ⟨x, cost, hstart, hcost, -⟩
    · cases hfail
    obtain ⟨st₀, hw₀, hx₀, hloop⟩ := optimize_of_starts hstart hcost eliminator
    rw [hloop] at hrun
    -- Iterations keep the working set among the inequality rows and the point in its shape.
    obtain ⟨hfuel, st₁, st₂, ⟨hadmits, hfits⟩, hiter, hx, hw, hfinal, hstatus⟩ :=
      loop_ok (P := fun w x => s.graph.Admits w ∧ s.graph.Fits x)
        (fun hP hiter => ⟨hiter.admits hP.1, Graph.Fits.of_sameShape hP.2 hiter.sameShape⟩)
        ⟨hw₀ ▸ checkWorkingSet_eq_ok.1 hstart.workingSet, hx₀ ▸ hstart.fits⟩ hrun
    have hlast := iterate_ok hiter
    rw [hx, hw] at hlast
    have hfits' := Graph.Fits.of_sameShape hfits hlast.sameShape
    have hcheck :
        checkFeasible s.graph s.config.feasibilityTolerance optimum.solution = .ok () := by
      refine checkFeasible_of_feasible hfits'.1 ?_
      generalize optimum.workingSet = w', optimum.solution = y at hlast ⊢
      cases hlast with
      | converged haccepts _ _ => exact haccepts.feasible hs hfeas
    have hrestart : s.Starts optimum.solution optimum.workingSet optimum.solution :=
      ⟨checkWorkingSet_eq_ok.2 (hlast.admits hadmits), restrict_of_fits hfits', fun _ => hcheck⟩
    refine ⟨hcheck, fun eliminator' => ?_⟩
    obtain ⟨st₃, hw₃, hx₃, hloop'⟩ := optimize_of_starts hrestart hfinal eliminator'
    obtain ⟨t, hexec, htw, htx⟩ := hagain hiter (hw₃.trans hw.symm) (hx₃.trans hx.symm)
    obtain ⟨fuel, hlimit⟩ := Nat.exists_eq_succ_of_ne_zero hfuel.ne'
    obtain ⟨r, hstep⟩ := exec_loop_of_ok optimum.finalCost optimum.finalCost fuel 0 [] hexec
      (by rw [htx, hx]; exact hfinal)
    rw [hloop', hlimit, Nat.succ_eq_add_one, hstep]
    simp only [Run.exec_bind, Run.exec_report, htw, hw, htx, hx, ← hstatus]
    rfl

end Exact

/-- Near the bound with its row in the working set an iteration converges at the bound, and the next
one does so again. The run from `0` returns the bound, and the run from there returns it at once. -/
theorem halfLine_persists :
    (∃ duals st, Run.exec halfLine.iterate ⟨.ofRows [⟨1, 0⟩], .single 0 (1 - 1 / 2 ^ 40), (), []⟩ =
      (.ok (.converged duals), st) ∧ st.point = .single 0 1 ∧
      ∃ st', Run.exec halfLine.iterate ⟨st.workingSet, st.point, (), []⟩ =
        (.ok (.converged duals), st') ∧ st'.point = .single 0 1) ∧
    ∃ optimum st, halfLine.optimize (.single 0 0) WorkingSet.empty () = (.ok optimum, st) ∧
      optimum.iterations = 2 ∧ (halfLine.optimize optimum.solution optimum.workingSet ()).1 =
        .ok { optimum with initialCost := -3, iterations := 1 } := by
  obtain ⟨hiterate, hoptimize⟩ := convergence_persists (s := halfLine) (fun _ _ _ => rfl)
    (fun _ _ _ => rfl) (by decide +kernel)
  constructor
  · have hok : (Run.exec halfLine.iterate
        ⟨.ofRows [⟨1, 0⟩], .single 0 (1 - 1 / 2 ^ 40), (), []⟩).1 =
          .ok (.converged (.single 1 2)) := by decide +kernel
    have hpoint : (Run.exec halfLine.iterate
        ⟨.ofRows [⟨1, 0⟩], .single 0 (1 - 1 / 2 ^ 40), (), []⟩).2.point = .single 0 1 := by
      decide +kernel
    obtain ⟨-, hagain⟩ := hiterate _ _ _ (Prod.ext hok rfl)
    obtain ⟨st', hexec, -, hsame⟩ := hagain () []
    exact ⟨_, _, Prod.ext hok rfl, hpoint, st', hexec, hsame.trans hpoint⟩
  · have hok : (halfLine.optimize (.single 0 0) WorkingSet.empty ()).1 =
        .ok ⟨.single 0 1, .single 1 2, .ofRows [⟨1, 0⟩], .converged, 0, -3, 2⟩ := by
      decide +kernel
    have hs : halfLine.KeepsRows := keepsRows_of_table rfl (by decide +kernel)
    obtain ⟨-, hrestart⟩ := hoptimize le_rfl hs _ _ _ _ _ (Prod.ext hok rfl)
    exact ⟨_, _, Prod.ext hok rfl, rfl, hrestart ()⟩

end GaussianProgram.Solver
