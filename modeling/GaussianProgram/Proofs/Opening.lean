import GaussianProgram.Proofs.Admission
import GaussianProgram.Proofs.Consultation
import GaussianProgram.Proofs.Critical

/-! The beginning of a run, up to its first iteration. It succeeds from the starts that are accepted
and from no others; it asks the eliminator nothing, and nobody is notified. -/
namespace GaussianProgram

namespace Run
variable {κ α σ ε ε' β γ : Type} [Key κ]

def Silent (m : Run κ α σ ε β) : Prop :=
  ∀ st, (exec m st).2.eliminator = st.eliminator ∧ (exec m st).2.notices = st.notices

theorem silent_bind {m : Run κ α σ ε β} {f : β → Run κ α σ ε γ} (hm : Silent m)
    (hf : ∀ b, Silent (f b)) : Silent (m >>= f) := by
  intro st
  obtain ⟨heliminator, hnotices⟩ := hm st
  rw [exec_bind]
  rcases hexec : exec m st with ⟨e | b, st'⟩
  · rw [hexec] at heliminator hnotices
    exact ⟨heliminator, hnotices⟩
  · rw [hexec] at heliminator hnotices
    exact ⟨(hf b st').1.trans heliminator, (hf b st').2.trans hnotices⟩

theorem silent_pure (b : β) : Silent (pure b : Run κ α σ ε β) := fun _ => ⟨rfl, rfl⟩

theorem silent_workingSet : Silent (workingSet : Run κ α σ ε WorkingSet) := fun _ => ⟨rfl, rfl⟩

theorem silent_point : Silent (point : Run κ α σ ε (Assignment κ α)) := fun _ => ⟨rfl, rfl⟩

theorem silent_setPoint (x : Assignment κ α) : Silent (setPoint x : Run κ α σ ε Unit) :=
  fun _ => ⟨rfl, rfl⟩

theorem silent_report (r : Report κ α) : Silent (report r : Run κ α σ ε Unit) :=
  fun st => ⟨rfl, (alike_report r st).2.2⟩

theorem silent_quietly (r : Result ε β) : Silent (quietly r : Run κ α σ ε β) := by
  intro st
  rw [exec_quietly]
  exact ⟨rfl, rfl⟩

theorem silent_announcing (r : Result (SolverError α) β) :
    Silent (announcing r : Run κ α σ (SolverError α) β) := by
  rcases r with (e | _) | b
  · exact silent_bind (silent_report _) fun _ => silent_quietly (.error (.cause e))
  · exact silent_quietly (.error .outOfRange)
  · exact silent_pure b

theorem silent_mapCause (f : ε → ε') {m : Run κ α σ ε β} (hm : Silent m) :
    Silent (mapCause f m) := hm

end Run

namespace Graph
variable {κ α : Type} [Key κ] [ExactScalar α]

/-- The cost and all constraint rows can be computed at the point, so a check of the rows can only
find one that is violated. -/
structure Evaluable (g : Graph κ α) (x : Assignment κ α) : Prop where
  cost : ∃ c, g.cost x = .ok c
  residual : ∀ i c, g.constraintAt? i = some c → ∃ r, c.residual x = .ok r
  check : ∀ tolerance failure, Solver.checkFeasible g tolerance x = .error failure →
    ∃ r v, failure = .cause (.infeasibleStart r v)

theorem Covers.evaluable {g : Graph κ α} {x : Assignment κ α} (hx : g.Covers x)
    (hstack : ∀ c, .quadratic c ∈ g.factors → c.Stackable) : g.Evaluable x where
  cost := exists_cost_of_stackable hstack hx
  residual i c hc := ⟨_, LinearRows.residual_eq_ok.2
    ⟨hx _ (mem_factors_of_constraintAt? hc), rfl⟩⟩
  check tolerance failure h := by
    obtain ⟨r, v, hcause, -⟩ := Solver.checkFeasible_eq_error hx h
    exact ⟨r, v, hcause⟩

end Graph

namespace Solver
variable {κ α σ : Type} [Key κ]

section Scalar
variable [Scalar α]

theorem silent_start (s : Solver κ α σ) (initial : Assignment κ α) :
    Run.Silent (s.start initial) := by
  have hcheck (x : Assignment κ α) : Run.Silent (announceInfeasible (checkFeasible s.graph
      s.config.feasibilityTolerance x) : Run κ α σ (SolverError α) Unit) := by
    unfold announceInfeasible
    split
    · exact Run.silent_quietly _
    · exact Run.silent_announcing _
  refine Run.silent_bind Run.silent_workingSet fun w => ?_
  refine Run.silent_bind (Run.silent_announcing _) fun _ => ?_
  refine Run.silent_bind (Run.silent_announcing _) fun x => ?_
  refine Run.silent_bind (Run.silent_setPoint x) fun _ => ?_
  simp only
  split_ifs
  · exact Run.silent_bind (Run.silent_report _) fun _ => hcheck x
  · exact Run.silent_bind (Run.silent_report _) fun _ => Run.silent_pure ()
  · exact hcheck x
  · exact Run.silent_pure ()

theorem silent_opening (s : Solver κ α σ) (initial : Assignment κ α) :
    Run.Silent (s.opening initial) := by
  refine Run.silent_bind (Run.silent_mapCause _ (s.silent_start initial)) fun _ => ?_
  refine Run.silent_bind ?_ fun _ => ?_
  · exact Run.silent_bind Run.silent_point fun _ => Run.silent_quietly _
  · exact Run.silent_bind (Run.silent_report _) fun _ =>
      Run.silent_bind (Run.silent_report _) fun _ => Run.silent_pure _

end Scalar

section Exact
variable [ExactScalar α] {s : Solver κ α σ} {initial x : Assignment κ α} {w : WorkingSet}

/-- The run gets to its first iteration, or to the limit if there is to be none. It does so in the
state `st`, with nothing done but the start, and the start and every point of its shape have a cost
and rows that can be computed. -/
structure Opened (s : Solver κ α σ) (initial : Assignment κ α) (w : WorkingSet) (eliminator : σ)
    (cost : α) (st : RunState κ α σ) : Prop where
  optimize_eq : s.optimize initial w eliminator =
    Run.exec (s.loop cost s.config.maxIterations 0 cost []) st
  workingSet : st.workingSet = w
  fits : s.graph.Fits st.point
  values : ∀ k v, st.point.get? k = some v → initial.get? k = some v
  eliminator : st.eliminator = eliminator
  notices : st.notices = []
  cost : s.graph.cost st.point = .ok cost
  evaluable : ∀ y, st.point.SameShape y → s.graph.Evaluable y

/-- The run ends with the cause `e`, without a call of the eliminator and with nobody notified. -/
structure Refused (s : Solver κ α σ) (initial : Assignment κ α) (w : WorkingSet) (eliminator : σ)
    (e : SolverError α) : Prop where
  result : (s.optimize initial w eliminator).1 = .error (.cause (.solver e))
  notices : (s.optimize initial w eliminator).2.notices = []
  calls : (s.logged.optimize initial w (eliminator, [])).2.eliminator = (eliminator, [])

/-- An accepted start opens the run: its cost is computed, and the loop begins at its point. -/
theorem Starts.exists_opened (h : s.Starts initial w x)
    (hsize : initial.totalDimension < UInt64.size) (eliminator : σ) :
    ∃ cost st, Run.exec (s.opening initial) ⟨w, initial, eliminator, []⟩ = (.ok cost, st) ∧
      s.Opened initial w eliminator cost st := by
  obtain ⟨hfits, hvalues⟩ := restrict_spec h.point
  have hevaluable {y : Assignment κ α} (hy : x.SameShape y) : s.graph.Evaluable y :=
    (hfits.1.of_sameShape hy).evaluable fun _ hc =>
      (covers_of_restrict h.point).stackable hsize hc
  obtain ⟨cost, hcost⟩ := (hevaluable (.refl x)).cost
  obtain ⟨st, hexec, ⟨hw, hx, heliminator⟩, hnotices, hloop⟩ :=
    exists_opening h hcost eliminator
  obtain rfl : st.point = x := hx
  exact ⟨cost, st, hexec, hloop, hw, hfits, hvalues, heliminator, hnotices, hcost,
    fun _ => hevaluable⟩

section Failed
variable {e : SolverError α} (h : s.startChecks initial w = .error (.cause e))
include h

theorem result_opening (eliminator : σ) :
    (Run.exec (s.opening initial) ⟨w, initial, eliminator, []⟩).1 =
      .error (.cause (.solver e)) := by
  have hstart := s.result_start initial ⟨w, initial, eliminator, []⟩
  rw [h] at hstart
  rw [opening, Run.exec_bind_error, Run.exec_mapCause, hstart]
  exact .inl rfl

/-- Checks that fail end the run with their cause. -/
theorem optimize_of_startChecks (eliminator : σ) : ∃ st,
    s.optimize initial w eliminator = (.error (.cause (.solver e)), st) ∧
      st.eliminator = eliminator ∧ st.notices = [] := by
  have hopening := result_opening h eliminator
  have hsilent := s.silent_opening initial ⟨w, initial, eliminator, []⟩
  change ∃ st, Run.exec (s.optimizeRun initial) _ = _ ∧ _
  rw [optimizeRun_eq, Run.exec_bind]
  rcases hexec : Run.exec (s.opening initial) ⟨w, initial, eliminator, []⟩ with ⟨r, st⟩
  rw [hexec] at hopening hsilent
  cases hopening
  exact ⟨st, rfl, hsilent⟩

theorem refused_of_startChecks (eliminator : σ) : s.Refused initial w eliminator e := by
  obtain ⟨st, hrun, -, hnotices⟩ := optimize_of_startChecks h eliminator
  obtain ⟨st', hlogged, hcalls, -⟩ := optimize_of_startChecks (s := s.logged) h (eliminator, [])
  exact ⟨by rw [hrun], by rw [hrun]; exact hnotices, by rw [hlogged]; exact hcalls⟩

end Failed

/-- A run gets to its first iteration exactly from the starts that are accepted, and then the cost
and the rows can be computed wherever it goes in the shape of the start. From any other start it
ends before the first call of the eliminator, for the first of the conditions that does not hold.
The entries of a start are to be no more than a word can count. -/
theorem opening_spec (s : Solver κ α σ) {initial : Assignment κ α}
    (hsize : initial.totalDimension < UInt64.size) (w : WorkingSet) (eliminator : σ) :
    (s.Admissible initial w ↔ ∃ cost st,
      Run.exec (s.opening initial) ⟨w, initial, eliminator, []⟩ = (.ok cost, st)) ∧
    (∀ cost st, Run.exec (s.opening initial) ⟨w, initial, eliminator, []⟩ = (.ok cost, st) →
      s.Opened initial w eliminator cost st) ∧
    (¬s.Admissible initial w → ∃ e, s.Refuses initial w e ∧ s.Refused initial w eliminator e) := by
  rcases s.starts_or_refuses initial w with ⟨x, hstart⟩ | ⟨e, hchecks, hrefuses⟩
  · obtain ⟨cost, st, hexec, hopened⟩ := hstart.exists_opened hsize eliminator
    refine ⟨⟨fun _ => ⟨cost, st, hexec⟩, fun _ => hstart.admissible⟩, fun cost' st' hexec' => ?_,
      fun hnot => absurd hstart.admissible hnot⟩
    cases hexec.symm.trans hexec'
    exact hopened
  · have hfailed (cost : α) (st : RunState κ α σ) :
        Run.exec (s.opening initial) ⟨w, initial, eliminator, []⟩ ≠ (.ok cost, st) := by
      intro hexec
      cases (congrArg Prod.fst hexec).symm.trans (result_opening hchecks eliminator)
    refine ⟨⟨fun ha => absurd ha hrefuses.not_admissible, ?_⟩,
      fun cost st hexec => absurd hexec (hfailed cost st),
      fun _ => ⟨e, hrefuses, refused_of_startChecks hchecks eliminator⟩⟩
    rintro ⟨cost, st, hexec⟩
    exact absurd hexec (hfailed cost st)

/-- On the half-line the start at `0` is accepted, and the one at `2` exceeds the bound by `1`. -/
theorem halfLine_opening_spec : halfLine.Admissible (.single 0 0) .empty ∧
    ¬halfLine.Admissible (.single 0 2) .empty ∧
    halfLine.Refuses (.single 0 2) .empty (.infeasibleStart ⟨1, 0⟩ 1) ∧
    halfLine.Refused (.single 0 2) .empty () (.infeasibleStart ⟨1, 0⟩ 1) := by
  have hsize (a : ℚ) : (Assignment.single 0 a).totalDimension < UInt64.size :=
    show 1 < UInt64.size by decide
  obtain ⟨hopens, -, -⟩ := halfLine.opening_spec (hsize 0) .empty ()
  obtain ⟨hfails, -, hrefused⟩ := halfLine.opening_spec (hsize 2) .empty ()
  have hok : (Run.exec (halfLine.opening (.single 0 0)) ⟨.empty, .single 0 0, (), []⟩).1 =
      .ok 0 := by decide +kernel
  have herror : (Run.exec (halfLine.opening (.single 0 2)) ⟨.empty, .single 0 2, (), []⟩).1 =
      .error (.cause (.solver (.infeasibleStart ⟨1, 0⟩ 1))) := by decide +kernel
  have hnot : ¬halfLine.Admissible (.single 0 2) .empty := fun ha => by
    obtain ⟨cost, st, hexec⟩ := hfails.1 ha
    cases (congrArg Prod.fst hexec).symm.trans herror
  obtain ⟨e, hrefuses, hends⟩ := hrefused hnot
  have hresult : (halfLine.optimize (.single 0 2) .empty ()).1 =
      .error (.cause (.solver (.infeasibleStart ⟨1, 0⟩ 1))) := by decide +kernel
  cases hends.result.symm.trans hresult
  exact ⟨hopens.2 ⟨0, _, Prod.ext hok rfl⟩, hnot, hrefuses, hends⟩

end Exact

end Solver

end GaussianProgram
