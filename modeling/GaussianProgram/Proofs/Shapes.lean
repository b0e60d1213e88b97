import GaussianProgram.Proofs.Checked
import GaussianProgram.Proofs.InRange
import GaussianProgram.Proofs.Rank
import GaussianProgram.Proofs.Restart
import GaussianProgram.Linear

/-! Shapes along a run. Whatever the eliminator answers, every point of a run has the keys and the
dimensions of the graph, an answer that does not fit them ends the run for a stated cause, and no
part of the run leaves the range but the eliminator and the check of a rank that there is not. -/
namespace GaussianProgram

variable {κ α σ : Type} [Key κ]

namespace Graph

def HasShape (g : Graph κ α) (x : Assignment κ α) : Prop :=
  ∃ dims, g.keyDimensions = .ok dims ∧ ∀ k, x.dim? k = dims.get? k

/-- The assignment names a key that the graph does not have, or gives it another dimension. -/
def Misfits (g : Graph κ α) (y : Assignment κ α) : Prop :=
  ∃ k n, y.dim? k = some n ∧ ∀ dims, g.keyDimensions = .ok dims → dims.get? k ≠ some n

theorem hasShape_iff {g : Graph κ α} {x : Assignment κ α} : g.HasShape x ↔ g.Fits x :=
  ⟨fun ⟨_, hdims, hx⟩ => fits_of_dims hdims hx, Fits.exists_keyDimensions⟩

end Graph

namespace Solver
variable [Scalar α] {s : Solver κ α σ} {initial x : Assignment κ α} {w : WorkingSet}
  {eliminator : σ} {result : Result (Error α) (Optimum κ α)} {st st₀ t : RunState κ α σ} {n : ℕ}

def Arrives (s : Solver κ α σ) (initial : Assignment κ α) (w : WorkingSet) (eliminator : σ) (n : ℕ)
    (t : RunState κ α σ) : Prop :=
  ∃ x, s.Starts initial w x ∧ n < s.config.maxIterations ∧
    (∀ i < n, s.ContinuesAt ⟨w, x, eliminator, []⟩ i) ∧ t = s.stateAt ⟨w, x, eliminator, []⟩ n

/-- Iterations that succeed keep the keys and the dimensions. -/
theorem fits_stateAt (hx : s.graph.Fits st₀.point) (h : ∀ i < n, ∃ o, s.outcomeAt st₀ i = .ok o) :
    s.graph.Fits (s.stateAt st₀ n).point := by
  induction n with
  | zero => exact hx
  | succ n ih =>
    obtain ⟨o, ho⟩ := h n (Nat.lt_succ_self n)
    have hiter : s.Iterates _ _ o _ (s.stateAt st₀ (n + 1)).point := iterate_ok (Prod.ext ho rfl)
    exact (ih fun i hi => h i (Nat.lt_succ_of_lt hi)).of_sameShape hiter.sameShape

theorem Arrives.fits (h : s.Arrives initial w eliminator n t) : s.graph.Fits t.point := by
  obtain ⟨x, hstart, -, hbefore, rfl⟩ := h
  exact fits_stateAt hstart.fits fun i hi => (hbefore i hi).1.imp fun _ => And.left

/-- The point that a run returns has the shape of the graph. -/
theorem hasShape_of_ok {optimum : Optimum κ α}
    (hrun : s.optimize initial w eliminator = (.ok optimum, st)) :
    s.graph.HasShape optimum.solution := by
  obtain ⟨x, n, hstart, -, hgoes, hlast, hsolution, -⟩ := exists_iterations hrun
  rw [hsolution, Graph.hasShape_iff]
  refine fits_stateAt hstart.fits fun i hi => ?_
  rcases Nat.lt_succ_iff_lt_or_eq.1 hi with hi | rfl
  · exact (hgoes i hi).imp fun _ => And.left
  · exact ⟨_, hlast⟩

section Run
variable (hstored : initial.totalDimension ≤ maxLength)
include hstored

/-- The variables of a graph with a start can be stored in one vector. -/
theorem Starts.exists_dims (h : s.Starts initial w x) :
    ∃ dims, s.graph.keyDimensions = .ok dims ∧ sumDims dims.values ≤ maxLength := by
  obtain ⟨dims, hdims, -⟩ := h.fits.exists_keyDimensions
  exact ⟨dims, hdims, (h.sumDims_le hdims).trans hstored⟩

theorem Arrives.breaksAt_iff (h : s.Arrives initial w eliminator n t) :
    (Run.exec s.iterate t).1 = .error .outOfRange ↔ s.BreaksAt t := by
  obtain ⟨x, hstart, -⟩ := id h
  obtain ⟨dims, hdims, hmax⟩ := hstart.exists_dims hstored
  exact iterate_eq_outOfRange hdims hmax h.fits.1

variable (hrun : s.optimize initial w eliminator = (result, st))
include hrun

/-- An accepted start has a cost, so the run goes through its iterations. -/
theorem Starts.exists_traces (h : s.Starts initial w x) : ∃ cost n,
    s.Traces cost ⟨w, x, eliminator, []⟩ 0 s.config.maxIterations n st.notices result := by
  obtain ⟨dims, hdims, hmax⟩ := h.exists_dims hstored
  obtain ⟨cost, hcost⟩ := Graph.exists_cost hdims hmax h.fits.1
  obtain ⟨n, htraces, -⟩ := optimize_traces h hcost hrun
  exact ⟨cost, n, htraces⟩

/-- An iteration that the run comes to and that fails ends the run with its failure. -/
theorem Arrives.result_eq {failure : Failure (SolverError α)}
    (h : s.Arrives initial w eliminator n t) (hfail : (Run.exec s.iterate t).1 = .error failure) :
    result = Result.mapCause .solver (.error failure) := by
  obtain ⟨x, hstart, hlt, hbefore, rfl⟩ := h
  have houtcome : s.outcomeAt ⟨w, x, eliminator, []⟩ n = .error failure := hfail
  have hnot : ¬s.ContinuesAt ⟨w, x, eliminator, []⟩ n := fun ⟨⟨_, ho, _⟩, _⟩ => by
    cases houtcome.symm.trans ho
  obtain ⟨cost, m, htraces⟩ := hstart.exists_traces hstored hrun
  rcases htraces.ends with ⟨k, -, -, hends, hall⟩ | ⟨rfl, -, hall⟩
  · rcases lt_trichotomy n k with hk | rfl | hk
    · exact absurd (hall n (Nat.zero_le n) hk) hnot
    · cases hends with
      | failed houtcome' =>
        cases houtcome.symm.trans houtcome'
        rfl
      | converged hcompletes => cases houtcome.symm.trans hcompletes.1
      | cycled hrepeats =>
        obtain ⟨_, hdrop⟩ := hrepeats.2.1
        cases houtcome.symm.trans hdrop
    · exact absurd hends (hbefore k hk).not_endsAt
  · exact absurd (hall n (Nat.zero_le n) (by omega)) hnot

/-- A run leaves the range in an iteration that it comes to. -/
theorem exists_arrives (hresult : result = .error .outOfRange) :
    ∃ n t, s.Arrives initial w eliminator n t ∧
      (Run.exec s.iterate t).1 = .error .outOfRange := by
  have hstart : ∃ x, s.Starts initial w x := by
    change Run.exec (s.optimizeRun initial) _ = _ at hrun
    rcases hexec : Run.exec (s.start initial) ⟨w, initial, eliminator, []⟩ with ⟨failure | _, st₁⟩
    · rw [optimizeRun, Run.exec_bind, Run.exec_mapCause, hexec] at hrun
      have hnot := s.start_ne_outOfRange initial ⟨w, initial, eliminator, []⟩
      rw [hexec] at hnot
      rcases failure with e | _
      · cases hrun
        cases hresult
      · exact absurd rfl hnot
    · exact ⟨_, (start_ok hexec).1⟩
  obtain ⟨x, hstart⟩ := hstart
  obtain ⟨cost, m, htraces⟩ := hstart.exists_traces hstored hrun
  subst hresult
  rcases htraces.ends with ⟨k, -, hk, hends, hall⟩ | ⟨-, hlimit, -⟩
  · refine ⟨k, _, ⟨x, hstart, by omega, fun i hi => hall i (Nat.zero_le i) hi, rfl⟩, ?_⟩
    generalize hr : (.error .outOfRange : Result (Error α) (Optimum κ α)) = r at hends
    cases hends with
    | @failed failure houtcome =>
      rcases failure with e | _
      · cases hr
      · exact houtcome
    | converged _ => cases hr
    | cycled _ => cases hr
  · cases hlimit

/-- Every point that a run shows has the shape of the graph. -/
theorem hasShape_of_visited {y : Assignment κ α} {v : WorkingSet} {i : ℕ}
    (h : .visited y v i ∈ st.events) : s.graph.HasShape y := by
  rw [← mem_notices] at h
  rcases optimize_cases hrun with ⟨hnone, -⟩ | ⟨x, -, hstart, -⟩
  · rw [hnone] at h
    cases h
  obtain ⟨cost, m, htraces⟩ := hstart.exists_traces hstored hrun
  rw [htraces.events_eq] at h
  obtain ⟨j, hj, h⟩ := List.mem_flatMap.1 h
  rw [List.mem_range'_1] at hj
  obtain ⟨o, c, hcompletes⟩ := htraces.completes j hj.1 (by omega)
  rw [hcompletes.showsAt_eq, shown] at h
  simp only [List.mem_cons, reduceCtorEq, Event.visited.injEq, List.not_mem_nil, or_false,
    false_or] at h
  rw [h.1, Graph.hasShape_iff]
  refine fits_stateAt hstart.fits fun i hi => ?_
  obtain ⟨o, c, hcompletes⟩ := htraces.completes i (Nat.zero_le i) (by omega)
  exact ⟨o, hcompletes.1⟩

end Run

/-- Whatever the eliminator answers, the points of a run have the keys of the graph in their
dimensions: those that it shows or returns, and those before and after each iteration that it comes
to. An answer to a working problem that does not fit the graph ends the run for a stated cause. The
run leaves the range exactly where the eliminator does, or where active rows have no singular
values; all other operations find what they read, and operands of the shapes that they need. -/
theorem optimize_keepsShape (s : Solver κ α σ) {initial : Assignment κ α} {w : WorkingSet}
    {eliminator : σ} {result : Result (Error α) (Optimum κ α)} {st : RunState κ α σ}
    (hstored : initial.totalDimension ≤ maxLength)
    (hrun : s.optimize initial w eliminator = (result, st)) :
    (∀ y v i, .visited y v i ∈ st.events → s.graph.HasShape y) ∧
    (∀ optimum, result = .ok optimum → s.graph.HasShape optimum.solution) ∧
    (∀ n t, s.Arrives initial w eliminator n t → s.graph.HasShape t.point ∧
      (∀ o t', Run.exec s.iterate t = (.ok o, t') → s.graph.HasShape t'.point) ∧
      ∀ solution next, s.AnswersAt t solution next → s.graph.Misfits solution →
        ∃ e, result = .error (.cause (.solver e))) ∧
    (result = .error .outOfRange ↔ ∃ n t, s.Arrives initial w eliminator n t ∧ s.BreaksAt t) ∧
    s.graph.Matches ∧
    ∀ x y : Assignment κ α, x.maxAbsDiffChecked y = Result.ofExcept (x.maxAbsDiff y) ∧
      ∀ t, x.stepTowardsChecked y t =
        (Result.ofExcept (x.stepTowards y t).1, (x.stepTowards y t).2) := by
  refine ⟨fun y v i => hasShape_of_visited hstored hrun,
    fun optimum hok => hasShape_of_ok (hok ▸ hrun),
    fun n t harrives => ⟨Graph.hasShape_iff.2 harrives.fits, fun o t' hexec => ?_,
      fun solution next hanswers ⟨k, m, hk, hother⟩ => ?_⟩, ?_, s.graph.all_match,
    fun x y => ⟨x.maxAbsDiffChecked_eq y, x.stepTowardsChecked_eq y⟩⟩
  · exact Graph.hasShape_iff.2 (harrives.fits.of_sameShape (iterate_ok hexec).sameShape)
  · obtain ⟨dims, hdims, hshape⟩ := harrives.fits.exists_keyDimensions
    obtain ⟨e, hfail⟩ := iterate_of_misfit hanswers hk (hshape k ▸ hother dims hdims)
    exact ⟨e, harrives.result_eq hstored hrun hfail⟩
  · constructor
    · intro hresult
      obtain ⟨n, t, harrives, hfail⟩ := exists_arrives hstored hrun hresult
      exact ⟨n, t, harrives, (harrives.breaksAt_iff hstored).1 hfail⟩
    · rintro ⟨n, t, harrives, hbreaks⟩
      exact harrives.result_eq hstored hrun ((harrives.breaksAt_iff hstored).2 hbreaks)

def wideHalfLine : Solver ℕ ℚ Unit :=
  { halfLine with
    eliminator := { halfLine.eliminator with
      primal := fun _ state => (⟨.ok (SortedMap.ofList [(0, [2, 2])]), []⟩, state) } }

/-- The answer ends the run for a stated cause, and the point before it has the shape of
the graph. -/
theorem wideHalfLine_keepsShape : ∃ e st,
    wideHalfLine.optimize (.single 0 0) WorkingSet.empty () = (.error (.cause (.solver e)), st) ∧
      wideHalfLine.Arrives (.single 0 0) WorkingSet.empty () 0
        ⟨WorkingSet.empty, .single 0 0, (), []⟩ ∧
      wideHalfLine.graph.HasShape (.single 0 0) ∧ wideHalfLine.graph.Matches := by
  have hstored : (Assignment.single 0 0).totalDimension ≤ maxLength := by decide
  obtain ⟨result, st, hrun⟩ : ∃ result st,
      wideHalfLine.optimize (.single 0 0) WorkingSet.empty () = (result, st) := ⟨_, _, rfl⟩
  obtain ⟨-, -, hiterations, -, hmatches, -⟩ := wideHalfLine.optimize_keepsShape hstored hrun
  have harrives : wideHalfLine.Arrives (.single 0 0) WorkingSet.empty () 0
      ⟨WorkingSet.empty, .single 0 0, (), []⟩ :=
    ⟨.single 0 0, ⟨rfl, rfl, fun _ => by decide +kernel⟩, by decide,
      fun i hi => absurd hi (Nat.not_lt_zero i), rfl⟩
  obtain ⟨hshape, -, hmisfit⟩ := hiterations 0 _ harrives
  have hanswers : wideHalfLine.AnswersAt ⟨WorkingSet.empty, .single 0 0, (), []⟩
      (SortedMap.ofList [(0, [2, 2])]) () := ⟨rfl, _, rfl, rfl, rfl⟩
  obtain ⟨e, rfl⟩ := hmisfit _ _ hanswers ⟨0, 2, rfl, fun dims hdims => by cases hdims; decide⟩
  exact ⟨e, st, hrun, harrives, hshape, hmatches⟩

/-- An equality row for a variable with two entries, and another one with a coefficient that is not
a number. -/
def undefinedRows : LinearRows ℕ Float where
  terms := [(0, ⟨2, 2, #[0 / 0, 0, 0, 1], rfl⟩)]
  rhs := [0, 0]
  kinds := some [.equality, .equality]
  terms_ne_nil := List.cons_ne_nil _ _
  keys_nodup := by simp
  block_rows := by simp
  kinds_length := by simp

def undefined : Solver ℕ Float Unit where
  graph := ⟨[.linear undefinedRows]⟩
  config := .default
  eliminator := Elimination.sparse Backend.direct .cholesky
  singularValues := SingularValues.ofMatrix?

/-- The rows can be built, and their variable has two entries. Yet the check of their rank
leaves the range, and so does the run that begins with it: singular values that are not numbers
do not compare. -/
theorem undefined_breaks :
    LinearRows.equalities [(0, ⟨2, 2, #[0 / 0, 0, 0, 1], rfl⟩)] [0, 0] = .ok undefinedRows ∧
      undefined.graph.keyDimensions = .ok (SortedMap.ofList [(0, 2)]) ∧
      undefined.checkRank WorkingSet.empty = .error .outOfRange ∧
      (undefined.optimize (SortedMap.ofList [(0, [0, 0])]) WorkingSet.empty ()).1 =
        .error .outOfRange := by
  have hrank : Result.isOutOfRange (undefined.checkRank WorkingSet.empty) = true := by
    decide +kernel
  have hresult : Result.isOutOfRange
      (undefined.optimize (SortedMap.ofList [(0, [0, 0])]) .empty ()).1 = true := by
    decide +kernel
  exact ⟨rfl, rfl, Result.isOutOfRange_iff.1 hrank, Result.isOutOfRange_iff.1 hresult⟩

end Solver

end GaussianProgram
