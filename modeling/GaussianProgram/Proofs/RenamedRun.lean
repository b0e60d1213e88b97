import GaussianProgram.Proofs.Choice
import GaussianProgram.Proofs.Loop
import GaussianProgram.Solver.Observer

/-! Renamed runs. A run over new names goes the same way as the run over the old ones: iteration by
iteration both succeed or both fail, with the same working set, at the renamed point, and observers
see the same of both. -/
namespace GaussianProgram
open Result (Mirrors)

variable {κ κ' α σ σ' ε ε' : Type} [Key κ] [Key κ'] {ρ : κ ↪ κ'}

/-- One notification shows what the other one does, with its point under the new names. -/
inductive Event.Renamed (ρ : κ ↪ κ') : Event κ α → Event κ' α → Prop
  | metrics (cost : α) (fraction : Option α) :
      Renamed ρ (.metrics cost fraction) (.metrics cost fraction)
  | visited (x : Assignment κ α) (w : WorkingSet) (iteration : ℕ) :
      Renamed ρ (.visited x w iteration) (.visited (x.rename ρ) w iteration)

def Optimum.rename (ρ : κ ↪ κ') (r : Optimum κ α) : Optimum κ' α where
  solution := r.solution.rename ρ
  duals := r.duals
  workingSet := r.workingSet
  status := r.status
  initialCost := r.initialCost
  finalCost := r.finalCost
  iterations := r.iterations

/-- The states of two runs that have gone the same way over the old and the new names. -/
structure RunState.Renamed (ρ : κ ↪ κ') (st : RunState κ α σ) (st' : RunState κ' α σ') : Prop where
  workingSet : st'.workingSet = st.workingSet
  point : st'.point = st.point.rename ρ
  notices : List.Forall₂ (Event.Renamed ρ) st.notices st'.notices

namespace Run
variable {β γ δ δ' : Type} {R : β → γ → Prop}

/-- Both runs succeed with related values and in corresponding states, or both fail. Observers have
seen the same in any case. -/
inductive Ends (ρ : κ ↪ κ') (R : β → γ → Prop) :
    Result ε β × RunState κ α σ → Result ε' γ × RunState κ' α σ' → Prop
  | ok {b : β} {c : γ} {st : RunState κ α σ} {st' : RunState κ' α σ'} (hR : R b c)
      (hst : st.Renamed ρ st') : Ends ρ R (.ok b, st) (.ok c, st')
  | error {st : RunState κ α σ} {st' : RunState κ' α σ'} (e : Failure ε) (e' : Failure ε')
      (hn : List.Forall₂ (Event.Renamed ρ) st.notices st'.notices) :
      Ends ρ R (.error e, st) (.error e', st')

/-- From corresponding states both runs end in the same way. -/
def Follows (ρ : κ ↪ κ') (R : β → γ → Prop) (m : Run κ α σ ε β) (m' : Run κ' α σ' ε' γ) : Prop :=
  ∀ st st', st.Renamed ρ st' → Ends ρ R (exec m st) (exec m' st')

theorem follows_pure {b : β} {c : γ} (h : R b c) :
    Follows ρ R (pure b : Run κ α σ ε β) (pure c : Run κ' α σ' ε' γ) :=
  fun _ _ hst => .ok h hst

theorem Follows.bind {S : δ → δ' → Prop} {m : Run κ α σ ε β} {m' : Run κ' α σ' ε' γ}
    {f : β → Run κ α σ ε δ} {f' : γ → Run κ' α σ' ε' δ'} (h : Follows ρ R m m')
    (hf : ∀ b c, R b c → Follows ρ S (f b) (f' c)) : Follows ρ S (m >>= f) (m' >>= f') := by
  intro st st' hst
  have hends := h st st' hst
  rw [exec_bind, exec_bind]
  generalize exec m st = r, exec m' st' = r' at hends
  cases hends with
  | ok hR hst => exact hf _ _ hR _ _ hst
  | error e e' hn => exact .error e e' hn

theorem Follows.imp {S : β → γ → Prop} {m : Run κ α σ ε β} {m' : Run κ' α σ' ε' γ}
    (h : Follows ρ R m m') (hRS : ∀ b c, R b c → S b c) : Follows ρ S m m' := by
  intro st st' hst
  have hends := h st st' hst
  generalize exec m st = r, exec m' st' = r' at hends ⊢
  cases hends with
  | ok hR hst => exact .ok (hRS _ _ hR) hst
  | error e e' hn => exact .error e e' hn

theorem Follows.mapCause {m : Run κ α σ ε β} {m' : Run κ' α σ' ε' γ} (h : Follows ρ R m m')
    (f : ε → δ) (f' : ε' → δ') : Follows ρ R (Run.mapCause f m) (Run.mapCause f' m') := by
  intro st st' hst
  have hends := h st st' hst
  rw [exec_mapCause, exec_mapCause]
  generalize exec m st = r, exec m' st' = r' at hends
  cases hends with
  | ok hR hst => exact .ok hR hst
  | error e e' hn => cases e <;> cases e' <;> exact .error _ _ hn

theorem follows_workingSet : Follows ρ Eq (workingSet : Run κ α σ ε WorkingSet)
    (workingSet : Run κ' α σ' ε' WorkingSet) :=
  fun _ _ hst => .ok hst.workingSet.symm hst

theorem follows_point : Follows ρ (fun x x' => x' = x.rename ρ)
    (point : Run κ α σ ε (Assignment κ α)) (point : Run κ' α σ' ε' (Assignment κ' α)) :=
  fun _ _ hst => .ok hst.point hst

theorem follows_setWorkingSet (w : WorkingSet) : Follows ρ Eq
    (setWorkingSet w : Run κ α σ ε Unit) (setWorkingSet w : Run κ' α σ' ε' Unit) :=
  fun _ _ hst => .ok rfl ⟨rfl, hst.point, hst.notices⟩

theorem follows_setPoint (x : Assignment κ α) : Follows ρ Eq
    (setPoint x : Run κ α σ ε Unit) (setPoint (x.rename ρ) : Run κ' α σ' ε' Unit) :=
  fun _ _ hst => .ok rfl ⟨hst.workingSet, rfl, hst.notices⟩

theorem follows_emit {e : Event κ α} {e' : Event κ' α} (h : Event.Renamed ρ e e') :
    Follows ρ Eq (emit e : Run κ α σ ε Unit) (emit e' : Run κ' α σ' ε' Unit) := by
  refine fun st st' hst => .ok rfl ⟨hst.workingSet, hst.point, ?_⟩
  have hshown : List.Forall₂ (Event.Renamed ρ) ([e].filter fun e => !e.isReport)
      ([e'].filter fun e => !e.isReport) := by
    cases h with
    | metrics cost fraction => exact .cons (.metrics cost fraction) .nil
    | visited x w i => exact .cons (.visited x w i) .nil
  rw [RunState.notices, RunState.notices, List.filter_append, List.filter_append]
  exact List.rel_append hst.notices hshown

/-- Runs that tell observers nothing and move nothing end in the same way if their results do. -/
theorem follows_of_alike {m : Run κ α σ ε β} {m' : Run κ' α σ' ε' γ}
    {r : RunState κ α σ → Result ε β} {r' : RunState κ' α σ' → Result ε' γ}
    (hm : ∀ st, ∃ t, exec m st = (r st, t) ∧ Alike st t)
    (hm' : ∀ st, ∃ t, exec m' st = (r' st, t) ∧ Alike st t)
    (h : ∀ st st', Mirrors R (r st) (r' st')) : Follows ρ R m m' := by
  intro st st' hst
  obtain ⟨t, hexec, hw, hx, hn⟩ := hm st
  obtain ⟨t', hexec', hw', hx', hn'⟩ := hm' st'
  have hnotices : List.Forall₂ (Event.Renamed ρ) t.notices t'.notices := by
    rw [hn, hn']
    exact hst.notices
  have hends := h st st'
  rw [hexec, hexec']
  generalize r st = r, r' st' = r' at hends
  cases hends with
  | ok hR =>
    refine .ok hR ⟨?_, ?_, hnotices⟩
    · rw [hw, hw', hst.workingSet]
    · rw [hx, hx', hst.point]
  | error e e' => exact .error e e' hnotices

theorem follows_report (r : Report κ α) (r' : Report κ' α) :
    Follows ρ Eq (report r : Run κ α σ ε Unit) (report r' : Run κ' α σ' ε' Unit) :=
  follows_of_alike (fun st => ⟨_, exec_report r st, alike_report r st⟩)
    (fun st => ⟨_, exec_report r' st, alike_report r' st⟩) fun _ _ => .ok rfl

theorem follows_quietly {r : Result ε β} {r' : Result ε' γ} (h : Mirrors R r r') :
    Follows ρ R (quietly r : Run κ α σ ε β) (quietly r' : Run κ' α σ' ε' γ) :=
  follows_of_alike (fun st => ⟨st, exec_quietly r st, alike_refl st⟩)
    (fun st => ⟨st, exec_quietly r' st, alike_refl st⟩) fun _ _ => h

theorem follows_announcing {r : Result (SolverError α) β} {r' : Result (SolverError α) γ}
    (h : Mirrors R r r') : Follows ρ R (announcing r : Run κ α σ (SolverError α) β)
      (announcing r' : Run κ' α σ' (SolverError α) γ) :=
  follows_of_alike (exec_announcing r) (exec_announcing r') fun _ _ => h

theorem follows_ask {ι ι' : Type} [Key ι] [Key ι'] {S : Assignment ι α → Assignment ι' α → Prop}
    {answer : σ → Reply ι α × σ} {answer' : σ' → Reply ι' α × σ'}
    (h : ∀ state state', Mirrors S (answer state).1.result (answer' state').1.result) :
    Follows ρ S (ask answer : Run κ α σ _ _) (ask answer' : Run κ' α σ' _ _) :=
  follows_of_alike (exec_ask answer) (exec_ask answer') fun _ _ => (h _ _).mapCause _ _

end Run

theorem Graph.worstRow?_rename [Scalar α] (g : Graph κ α) (w : WorkingSet) (duals : Assignment ℕ α)
    (tolerance : α) :
    (g.rename ρ).worstRow? w duals tolerance = g.worstRow? w duals tolerance := by
  have hmultiplier : (g.rename ρ).multiplier? duals = g.multiplier? duals := by
    funext r
    rw [multiplier?, multiplier?, isInequality, isInequality, rowKind?_rename]
  rw [worstRow?, worstRow?, hmultiplier]

namespace Solver

section Start

theorem checkWorkingSet_rename (g : Graph κ α) (w : WorkingSet) :
    checkWorkingSet (g.rename ρ) w = checkWorkingSet g w := by
  simp only [checkWorkingSet, Graph.isInequality, Graph.rowKind?_rename]

/-- The entries of a start over the new names are those over the old ones. -/
theorem mirrors_restrict (g : Graph κ α) (initial : Assignment κ α) :
    Mirrors (fun x x' => x' = x.rename ρ) (restrict g initial)
      (restrict (g.rename ρ) (initial.rename ρ)) := by
  have hentry (e : κ × ℕ) : Mirrors (fun _ _ => True) (initialEntry initial e.1 e.2)
      (initialEntry (initial.rename ρ) (ρ e.1) e.2) := by
    unfold initialEntry
    rw [SortedMap.get?_rename]
    cases initial.get? e.1 with
    | none => exact .error _ _
    | some v =>
      dsimp only
      split_ifs
      · exact .ok trivial
      · exact .error _ _
  have hboth : Mirrors (fun _ _ => True) (restrict g initial)
      (restrict (g.rename ρ) (initial.rename ρ)) := by
    refine (g.mirrors_dimensions.mapCause _ _).bind ?_
    rintro dims _ rfl
    have hentries : Mirrors (List.Forall₂ fun _ _ => True)
        (dims.toList.mapM fun e => (Result.ofExcept (initialEntry initial e.1 e.2)).mapCause
          (SolverError.graph (α := α)))
        ((dims.toList.map (Prod.map ρ id)).mapM fun e => (Result.ofExcept
          (initialEntry (initial.rename ρ) e.1 e.2)).mapCause (SolverError.graph (α := α))) :=
      .mapM (List.forall₂_map_right_iff.2 (List.forall₂_same.2 fun e _ =>
        (hentry e).ofExcept.mapCause _ _))
    exact (hentries.trans (Result.mirrors_mapM_perm (SortedMap.toList_rename dims))).bind
      fun _ _ _ => .ok trivial
  -- both restrictions have the keys of their graphs, with the same values under them
  have hsame {x : Assignment κ α} {x' : Assignment κ' α} (hx : restrict g initial = .ok x)
      (hx' : restrict (g.rename ρ) (initial.rename ρ) = .ok x') : x' = x.rename ρ := by
    obtain ⟨hfits, hget⟩ := restrict_spec hx
    obtain ⟨hfits', hget'⟩ := restrict_spec hx'
    refine hfits'.eq_of_values (Graph.fits_rename.2 hfits) hget' fun k' v hv => ?_
    obtain ⟨k, hk, rfl⟩ := SortedMap.get?_rename_eq_some.1 hv
    rw [SortedMap.get?_rename, hget k v hk]
  refine Result.mirrors_of_forall (fun x hx => ?_) fun x' hx' => ?_
  · obtain ⟨x', hx', -⟩ := hboth.exists_right hx
    exact ⟨x', hx', hsame hx hx'⟩
  · obtain ⟨x, hx, -⟩ := hboth.exists_left hx'
    exact ⟨x, hx⟩

theorem mirrors_checkFeasible [Scalar α] (g : Graph κ α) (tolerance : α) (x : Assignment κ α) :
    Mirrors Eq (checkFeasible g tolerance x)
      (checkFeasible (g.rename ρ) tolerance (x.rename ρ)) := by
  have hfactor (i : ℕ) (f : LinearRows κ α) : Mirrors Eq (checkFactorFeasible tolerance x i f)
      (checkFactorFeasible tolerance (x.rename ρ) i (f.rename ρ)) :=
    (f.mirrors_residual.ofExcept.mapCause _ _).bind fun _ _ h => h ▸ Result.mirrors_self _
  have hall : checkFeasible g tolerance x = .ok () ↔
      checkFeasible (g.rename ρ) tolerance (x.rename ρ) = .ok () := by
    unfold checkFeasible
    rw [Graph.constraints_rename, Result.forM_eq_ok, Result.forM_eq_ok, List.forall_mem_map]
    exact forall₂_congr fun e _ => (hfactor e.1 e.2).eq_ok_iff.symm
  exact Result.mirrors_of_forall (fun _ h => ⟨(), hall.1 h, rfl⟩) fun _ h => ⟨(), hall.2 h⟩

end Start

/-- The solver of the renamed problem, with the same settings. -/
structure Renamed (ρ : κ ↪ κ') (s : Solver κ α σ) (s' : Solver κ' α σ') : Prop where
  graph : s'.graph = s.graph.rename ρ
  config : s'.config = s.config

/-- The numerical parts of the solver are exact. -/
structure IsExact [ExactScalar α] (s : Solver κ α σ) : Prop where
  eliminator : s.eliminator.IsExact
  singularValues : ExactSingularValues s.singularValues

variable [ExactScalar α] {s : Solver κ α σ} {s' : Solver κ' α σ'} (hs : s.Renamed ρ s')
include hs

/-- A start over the new names goes as the start over the old ones. A start that succeeds has found
all variables of the graph among the initial values. -/
theorem Renamed.follows_start (initial : Assignment κ α) :
    Run.Follows ρ (fun _ _ => ∃ x, restrict s.graph initial = .ok x) (s.start initial)
      (s'.start (initial.rename ρ)) := by
  unfold start
  rw [hs.graph, hs.config]
  refine Run.follows_workingSet.bind ?_
  rintro w _ rfl
  rw [checkWorkingSet_rename]
  refine (Run.follows_announcing (Result.mirrors_self _)).bind fun _ _ _ => ?_
  refine (Run.follows_announcing ((mirrors_restrict s.graph initial).imp
    fun x x' hok h => And.intro h hok)).bind ?_
  rintro x _ ⟨rfl, hx⟩
  refine (Run.follows_setPoint x).bind fun _ _ _ => ?_
  have hcheck : Run.Follows ρ Eq (announceInfeasible
      (checkFeasible s.graph s.config.feasibilityTolerance x) : Run κ α σ _ _)
      (announceInfeasible (checkFeasible (s.graph.rename ρ) s.config.feasibilityTolerance
        (x.rename ρ)) : Run κ' α σ' _ _) :=
    Run.follows_of_alike (exec_announceInfeasible _) (exec_announceInfeasible _)
      fun _ _ => mirrors_checkFeasible s.graph _ x
  rw [SortedMap.size_rename, SortedMap.size_rename]
  dsimp only
  split_ifs
  · exact (Run.follows_report _ _).bind fun _ _ _ => hcheck.imp fun _ _ _ => ⟨x, hx⟩
  · exact (Run.follows_report _ _).bind fun _ _ _ => Run.follows_pure ⟨x, hx⟩
  · exact hcheck.imp fun _ _ _ => ⟨x, hx⟩
  · exact Run.follows_pure ⟨x, hx⟩

theorem Renamed.follows_dualGraph (w : WorkingSet) (x : Assignment κ α) :
    Run.Follows ρ (fun dual dual' => dual.factors.Perm dual'.factors ∧ dual.isLeastSquares = true)
      (s.dualGraph w x) (s'.dualGraph w (x.rename ρ)) := by
  refine Run.follows_of_alike (exec_dualGraph s w x) (exec_dualGraph s' w _) fun _ _ => ?_
  rw [hs.graph]
  exact (s.graph.mirrors_dualGraph w x).imp fun dual dual' hok h =>
    ⟨h, Graph.isLeastSquares_dualGraph hok⟩

variable (hexact : s.IsExact) (hexact' : s'.IsExact)
  (hsize : ∀ dims, s.graph.keyDimensions = .ok dims → sumDims dims.values < UInt64.size)
include hexact hexact' hsize

theorem Renamed.mirrors_checkRank (w : WorkingSet) :
    Mirrors Eq (s.checkRank w) (s'.checkRank w) := by
  rw [checkRank, checkRank, hs.graph, hs.config]
  exact Graph.mirrors_checkActiveRank hexact.singularValues hexact'.singularValues _ hsize

/-- The multipliers are the same, because the dual graphs have the same factors. -/
theorem Renamed.follows_computeDuals (w : WorkingSet) (x : Assignment κ α) :
    Run.Follows ρ Eq (s.computeDuals w x) (s'.computeDuals w (x.rename ρ)) := by
  refine (Run.follows_announcing
    (hs.mirrors_checkRank hexact hexact' hsize w)).bind fun _ _ _ => ?_
  refine (hs.follows_dualGraph w x).bind ?_
  rintro dual dual' ⟨hperm, hdual⟩
  have hempty : dual'.isEmpty = dual.isEmpty := by
    rw [Graph.isEmpty, Graph.isEmpty, hperm.isEmpty_eq]
  rw [hempty]
  split_ifs
  · exact Run.follows_pure rfl
  · exact Run.follows_ask (hexact.eliminator.mirrors_dual hexact'.eliminator hdual hperm)

theorem Renamed.follows_resolveStationary :
    Run.Follows ρ Eq s.resolveStationary s'.resolveStationary := by
  refine Run.follows_workingSet.bind ?_
  rintro w _ rfl
  refine Run.follows_point.bind ?_
  rintro x _ rfl
  refine (hs.follows_computeDuals hexact hexact' hsize w x).bind ?_
  rintro duals _ rfl
  have hworst : s'.worstRow? w duals = s.worstRow? w duals := by
    rw [worstRow?, worstRow?, hs.graph, hs.config, Graph.worstRow?_rename]
  rw [hworst]
  split
  · exact Run.follows_pure rfl
  · exact (Run.follows_setWorkingSet _).bind fun _ _ _ =>
      (Run.follows_report _ _).bind fun _ _ _ => Run.follows_pure rfl

omit hs hexact hexact' hsize in
/-- Where a step to a blocking row fails, the points need not correspond any more. -/
theorem follows_takeBlockedStep (y : Assignment κ α) (row : ConstraintRow) (t : α) :
    Run.Follows ρ Eq (takeBlockedStep y row t : Run κ α σ _ _)
      (takeBlockedStep (y.rename ρ) row t : Run κ' α σ' _ _) := by
  refine Run.follows_point.bind ?_
  rintro x _ rfl
  rcases hstep : x.stepTowards y t with ⟨e | _, z⟩
  · rcases hstep' : (x.rename ρ).stepTowards (y.rename ρ) t with ⟨e' | _, z'⟩
    · exact fun _ _ hst => .error _ _ hst.notices
    · obtain ⟨z, hz⟩ := Assignment.exists_of_stepTowards_rename hstep'
      cases hstep.symm.trans hz
  · rw [Assignment.stepTowards_rename hstep]
    refine (Run.follows_setPoint z).bind fun _ _ _ => ?_
    refine (Run.follows_quietly (.ok rfl)).bind fun _ _ _ => Run.follows_workingSet.bind ?_
    rintro w _ rfl
    exact (Run.follows_setWorkingSet _).bind fun _ _ _ =>
      (Run.follows_report _ _).bind fun _ _ _ => Run.follows_pure rfl

theorem Renamed.follows_takeFullStep (y : Assignment κ α) :
    Run.Follows ρ Eq (s.takeFullStep y) (s'.takeFullStep (y.rename ρ)) := by
  refine Run.follows_point.bind ?_
  rintro x _ rfl
  refine (Run.follows_quietly ((x.mirrors_maxAbsDiff y).ofExcept.mapCause _ _)).bind ?_
  rintro distance _ rfl
  rw [Assignment.update_rename, hs.config]
  refine (Run.follows_setPoint (x.update y)).bind fun _ _ _ => ?_
  split_ifs
  · exact hs.follows_resolveStationary hexact hexact' hsize
  · exact Run.follows_pure rfl

/-- An iteration over the new names does what the iteration over the old ones does. -/
theorem Renamed.follows_iterate : Run.Follows ρ Eq s.iterate s'.iterate := by
  refine Run.follows_workingSet.bind ?_
  rintro w _ rfl
  refine (Run.follows_announcing
    (hs.mirrors_checkRank hexact hexact' hsize w)).bind fun _ _ _ => ?_
  have hworking : Mirrors (fun working working' => working' = working.rename ρ)
      (s.workingGraph w) (s'.workingGraph w) := by
    rw [workingGraph, workingGraph, hs.graph]
    exact (s.graph.mirrors_workingGraph w).ofExcept.mapCause _ _
  refine (Run.follows_announcing hworking).bind ?_
  rintro working _ rfl
  refine (Run.follows_ask
    (hexact.eliminator.mirrors_primal hexact'.eliminator working)).bind ?_
  rintro solution _ rfl
  refine Run.follows_point.bind ?_
  rintro x _ rfl
  rw [Assignment.update_rename]
  have hfound : Mirrors Eq (s.stepSize w x (x.update solution))
      (s'.stepSize w (x.rename ρ) ((x.update solution).rename ρ)) := by
    rw [stepSize, stepSize, hs.graph, hs.config]
    exact (s.graph.mirrors_stepSize w _ x _).mapCause _ _
  refine (Run.follows_quietly hfound).bind ?_
  rintro found _ rfl
  cases found with
  | some block => exact follows_takeBlockedStep _ _ _
  | none => exact hs.follows_takeFullStep hexact hexact' hsize _

omit hexact hexact' hsize in
theorem Renamed.follows_currentCost : Run.Follows ρ Eq s.currentCost s'.currentCost := by
  refine Run.follows_point.bind ?_
  rintro x _ rfl
  rw [hs.graph]
  exact Run.follows_quietly ((s.graph.mirrors_cost x).mapCause _ _)

omit [ExactScalar α] hs hexact hexact' hsize in
theorem follows_stop {β γ : Type} {R : β → γ → Prop} (e e' : SolverError α) :
    Run.Follows ρ R (stop e : Run κ α σ (Error α) β) (stop e' : Run κ' α σ' (Error α) γ) :=
  (Run.follows_announcing (.error _ _)).mapCause _ _

/-- The loop over the new names goes as the loop over the old ones, one iteration after
the other. -/
theorem Renamed.follows_loop (initialCost : α) (fuel i : ℕ) (previous : α) (D : List WorkingSet) :
    Run.Follows ρ (fun r r' => r' = r.rename ρ) (s.loop initialCost fuel i previous D)
      (s'.loop initialCost fuel i previous D) := by
  induction fuel generalizing i previous D with
  | zero => exact follows_stop _ _
  | succ fuel ih =>
    refine Run.follows_workingSet.bind ?_
    rintro before _ rfl
    refine ((hs.follows_iterate hexact hexact' hsize).mapCause _ _).bind ?_
    rintro outcome _ rfl
    refine hs.follows_currentCost.bind ?_
    rintro cost _ rfl
    refine Run.follows_point.bind ?_
    rintro x _ rfl
    refine Run.follows_workingSet.bind ?_
    rintro w _ rfl
    refine (Run.follows_report _ _).bind fun _ _ _ => ?_
    refine (Run.follows_emit (.metrics cost outcome.stepFraction?)).bind fun _ _ _ => ?_
    refine (Run.follows_emit (.visited x w i)).bind fun _ _ _ => ?_
    cases outcome with
    | converged duals =>
      refine (Run.follows_report _ _).bind fun _ _ _ => Run.follows_pure ?_
      have hstatus : statusOf s'.graph w = statusOf s.graph w := by
        rw [statusOf, statusOf, hs.graph, Graph.equalityIndices_rename]
      rw [Optimum.rename, hstatus]
    | dropped row =>
      dsimp only
      rw [hs.config]
      split_ifs
      · exact follows_stop _ _
      · exact ih _ _ _
      · exact ih _ _ _
    | stepTaken t row => exact ih _ _ _

omit hsize in
/-- Names do not matter. With exact eliminators and exact singular values the run over the new names
succeeds exactly if the run over the old ones does, with the same optimum at the renamed point, and
observers see the same of both runs; the initial assignment has fewer entries than there are 64-bit
words, as any that is stored. -/
theorem Renamed.optimize_agrees {initial : Assignment κ α}
    (hstored : initial.totalDimension < UInt64.size) (w : WorkingSet) (eliminator : σ)
    (eliminator' : σ') :
    (∀ r, (s.optimize initial w eliminator).1 = .ok r →
      (s'.optimize (initial.rename ρ) w eliminator').1 = .ok (r.rename ρ)) ∧
    (∀ r', (s'.optimize (initial.rename ρ) w eliminator').1 = .ok r' →
      ∃ r, (s.optimize initial w eliminator).1 = .ok r) ∧
    List.Forall₂ (Event.Renamed ρ) (s.optimize initial w eliminator).2.notices
      (s'.optimize (initial.rename ρ) w eliminator').2.notices := by
  have hrun : Run.Follows ρ (fun r r' => r' = r.rename ρ) (s.optimizeRun initial)
      (s'.optimizeRun (initial.rename ρ)) := by
    refine ((hs.follows_start initial).mapCause _ _).bind ?_
    rintro _ _ ⟨x, hx⟩
    refine hs.follows_currentCost.bind ?_
    rintro cost _ rfl
    refine (Run.follows_report _ _).bind fun _ _ _ => (Run.follows_report _ _).bind fun _ _ _ => ?_
    rw [hs.config]
    exact hs.follows_loop hexact hexact' (fun dims hdims =>
      (sumDims_le_of_restrict hx hdims).trans_lt hstored) _ _ _ _ _
  have hends := hrun ⟨w, initial, eliminator, []⟩ ⟨w, initial.rename ρ, eliminator', []⟩
    ⟨rfl, rfl, .nil⟩
  change Run.Ends ρ _ (s.optimize initial w eliminator)
    (s'.optimize (initial.rename ρ) w eliminator') at hends
  generalize s.optimize initial w eliminator = r, s'.optimize (initial.rename ρ) w eliminator' = r'
    at hends ⊢
  cases hends with
  | ok hR hst =>
    subst hR
    refine ⟨fun r hr => ?_, fun _ _ => ⟨_, rfl⟩, hst.notices⟩
    cases hr
    rfl
  | error e e' hn =>
    refine ⟨fun _ hr => ?_, fun _ hr => ?_, hn⟩
    · cases hr
    · cases hr

end Solver

/-- The solver of a graph with default settings. It picks minima and singular values, but for graphs
in the tables and for rows along the given axes. -/
noncomputable def Solver.knowing [ExactScalar α] [DecidableEq α] (g : Graph κ α)
    (primal : List (Graph κ α × Assignment κ α)) (dual : List (Graph ℕ α × Assignment ℕ α))
    (axes : List (Equiv.Perm ℕ)) : Solver κ α Unit where
  graph := g
  config := Config.default
  eliminator := { primal := fun g _ => (g.known primal, ()), dual := fun g _ => (g.known dual, ()) }
  singularValues := Matrix.knownSingularValues axes

theorem Solver.isExact_knowing [ExactScalar α] [DecidableEq α] {g : Graph κ α}
    {primal : List (Graph κ α × Assignment κ α)} {dual : List (Graph ℕ α × Assignment ℕ α)}
    (hprimal : ∀ e ∈ primal, e.1.IsSolution e.2) (hdual : ∀ e ∈ dual, e.1.IsSolution e.2)
    (axes : List (Equiv.Perm ℕ)) : (knowing g primal dual axes).IsExact where
  eliminator := ⟨fun _ _ _ => Graph.known_eq_ok hprimal, fun _ _ _ => Graph.known_eq_ok hdual⟩
  singularValues := exactSingularValues_known axes

namespace Solver

/-- Distances of two variables from four and from two, and bounds by three and by nine. -/
noncomputable def boxed : Solver ℕ ℚ Unit :=
  knowing
    (.singles [(1, 4, none), (0, 2, none), (1, 3, some .inequality), (0, 9, some .inequality)])
    [(.singles [(1, 4, none), (0, 2, none), (0, 9, some .equality)],
        SortedMap.ofList [(0, [9]), (1, [4])]),
      (.singles [(1, 4, none), (0, 2, none), (1, 3, some .equality), (0, 9, some .equality)],
        SortedMap.ofList [(0, [9]), (1, [3])]),
      (.singles [(1, 4, none), (0, 2, none), (1, 3, some .equality)],
        SortedMap.ofList [(0, [2]), (1, [3])])]
    [(.singles [(3, -7, none), (2, 1, none)], SortedMap.ofList [(2, [1]), (3, [-7])]),
      (.singles [(2, 1, none)], .single 2 1)]
    [Equiv.refl ℕ, Equiv.swap 0 1]

theorem isExact_boxed : boxed.IsExact := by
  refine isExact_knowing (fun e he => ?_) (fun e he => ?_) _
  · fin_cases he <;> exact Graph.isSolution_singles (by decide) (by decide +kernel)
  · fin_cases he <;> exact Graph.isSolution_singles (by decide) (by decide +kernel)

/-- The same problem with both names exchanged, so that its variables come in the other order.
Nothing is known of its answers. -/
noncomputable def swapped : Solver ℕ ℚ Unit :=
  knowing (boxed.graph.rename (Equiv.swap 0 1).toEmbedding) [] [] []

/-- From the bound by nine the run is blocked by the other one, leaves the first, and converges
after a full step. So does the run with both names exchanged. -/
theorem boxed_exchanged : ∃ r st st',
    boxed.optimize (SortedMap.ofList [(0, [9]), (1, [0])]) (.ofRows [⟨3, 0⟩]) () = (.ok r, st) ∧
      r.solution = SortedMap.ofList [(0, [2]), (1, [3])] ∧
      (Observer.replay [Observer.recorder] st.events []).map (·.workingSet) =
        [.ofRows [⟨2, 0⟩, ⟨3, 0⟩], .ofRows [⟨2, 0⟩], .ofRows [⟨2, 0⟩], .ofRows [⟨2, 0⟩]] ∧
      swapped.optimize (SortedMap.ofList [(0, [0]), (1, [9])]) (.ofRows [⟨3, 0⟩]) () =
        (.ok (r.rename (Equiv.swap 0 1).toEmbedding), st') ∧
      List.Forall₂ (Event.Renamed (Equiv.swap 0 1).toEmbedding) st.notices st'.notices := by
  let x : Assignment ℕ ℚ := SortedMap.ofList [(0, [9]), (1, [0])]
  have hrun : (boxed.optimize x (.ofRows [⟨3, 0⟩]) ()).1 =
      .ok ⟨SortedMap.ofList [(0, [2]), (1, [3])], .single 2 1, .ofRows [⟨2, 0⟩], .converged,
        65 / 2, 1 / 2, 4⟩ := by
    decide +kernel
  have hrenamed : Renamed (Equiv.swap 0 1).toEmbedding boxed swapped := ⟨rfl, rfl⟩
  have hpicked : swapped.IsExact :=
    isExact_knowing (List.forall_mem_nil _) (List.forall_mem_nil _) []
  obtain ⟨hok, -, hnotices⟩ := hrenamed.optimize_agrees isExact_boxed hpicked
    (show x.totalDimension < UInt64.size by decide) (.ofRows [⟨3, 0⟩]) () ()
  exact ⟨_, _, _, Prod.ext hrun rfl, rfl, by decide +kernel, Prod.ext (hok _ hrun) rfl, hnotices⟩

end Solver

end GaussianProgram
