import GaussianProgram.Proofs.Quadratic
import GaussianProgram.Proofs.Start
import GaussianProgram.Proofs.Table
import GaussianProgram.Solver.Observer

/-! A run is its iterations, one after the other. From the point and the working set of the start,
the states after repeated iterations decide what a run shows to observers, where it ends and what it
returns; the reports that the run adds between iterations have no influence on them. -/
namespace GaussianProgram

section Shape
variable {κ α : Type} [Key κ] [Scalar α] {x y : Assignment κ α}

omit [Scalar α] in
private theorem exists_valueOf (hs : x.SameShape y) {k : κ} {n : ℕ} {v : Vec α}
    (h : x.valueOf k n = .ok v) : ∃ u, y.valueOf k n = .ok u ∧ u.length = n := by
  obtain ⟨hget, hlen⟩ := Assignment.valueOf_eq_ok.1 h
  obtain ⟨u, hu, hn⟩ := Assignment.dim?_eq_some.1
    ((hs k).symm.trans (Assignment.dim?_eq_some.2 ⟨v, hget, hlen⟩))
  exact ⟨u, Assignment.valueOf_eq_ok.2 ⟨hu, hn⟩, hn⟩

private theorem LinearRows.exists_cost_of_sameShape (hs : x.SameShape y) {f : LinearRows κ α}
    {c : α} (h : f.cost x = .ok c) : ∃ c', f.cost y = .ok c' := by
  unfold cost at h ⊢
  split_ifs at h ⊢ with hkinds
  · exact ⟨0, rfl⟩
  · obtain ⟨r, hr, -⟩ := Result.bind_eq_ok.1 h
    have hresidual : ∃ r', f.residual y = .ok r' ∧ True := by
      refine Result.exists_foldlM_of_foldlM (fun _ _ => True) (fun b b' r t _ _ hstep => ?_)
        trivial hr
      obtain ⟨v, hv, -⟩ := Result.bind_eq_ok.1 hstep
      obtain ⟨u, hu, -⟩ := exists_valueOf hs hv
      exact ⟨_, Result.bind_eq_ok.2 ⟨u, hu, rfl⟩, trivial⟩
    obtain ⟨r', hr', -⟩ := hresidual
    exact ⟨_, Result.bind_eq_ok.2 ⟨r', hr', rfl⟩⟩

private theorem QuadraticCost.exists_cost_of_sameShape (hs : x.SameShape y)
    {f : QuadraticCost κ α} {c : α} (h : f.cost x = .ok c) : ∃ c', f.cost y = .ok c' := by
  obtain ⟨v, hv, -⟩ := Result.bind_eq_ok.1 h
  -- Whether a part fits depends on the lengths of the part and of the stack alone.
  have hstacked : ∃ v', f.stacked y = .ok v' ∧ v.length = v'.length := by
    refine Result.exists_foldlM_of_foldlM (fun b b' => b.length = b'.length)
      (fun b b' c e _ hlen hstep => ?_) rfl hv
    obtain ⟨k, offset, dim⟩ := e
    obtain ⟨w, hw, hput⟩ := Result.bind_eq_ok.1 hstep
    rw [Result.ofExcept_eq_ok] at hw
    obtain ⟨u, hu, hdim⟩ := exists_valueOf hs hw
    have hwdim := (Assignment.valueOf_eq_ok.1 hw).2
    rw [Result.inRange_eq_ok] at hput
    have hput' : Vec.overwrite b' offset u =
        some (b'.take offset ++ u ++ b'.drop (offset + u.length)) := by
      refine overwrite_eq_some.2 ⟨?_, rfl⟩
      rw [hdim, ← hwdim, ← hlen]
      exact (overwrite_eq_some.1 hput).1
    refine ⟨_, Result.bind_eq_ok.2
      ⟨u, Result.ofExcept_eq_ok.2 hu, Result.inRange_eq_ok.2 hput'⟩, ?_⟩
    rw [Vec.length_of_overwrite hput, Vec.length_of_overwrite hput', hlen]
  obtain ⟨v', hv', -⟩ := hstacked
  exact ⟨_, Result.bind_eq_ok.2 ⟨v', hv', rfl⟩⟩

/-- Whether the cost can be computed depends on the dimensions of the point alone. -/
theorem Graph.exists_cost_of_sameShape (hs : x.SameShape y) {g : Graph κ α} {c : α}
    (h : g.cost x = .ok c) : ∃ c', g.cost y = .ok c' := by
  have hfold : ∃ c', g.cost y = .ok c' ∧ True := by
    refine Result.exists_foldlM_of_foldlM (fun _ _ => True) (fun b b' c f _ _ hstep => ?_)
      trivial h
    obtain ⟨a, ha, -⟩ := Result.bind_eq_ok.1 hstep
    rw [Result.mapCause_eq_ok] at ha
    have hfactor : ∃ a', f.cost y = .ok a' := by
      cases f with
      | quadratic q => exact q.exists_cost_of_sameShape hs ha
      | linear q =>
        obtain ⟨a', ha'⟩ := q.exists_cost_of_sameShape hs (Result.ofExcept_eq_ok.1 ha)
        exact ⟨a', Result.ofExcept_eq_ok.2 ha'⟩
    obtain ⟨a', ha'⟩ := hfactor
    exact ⟨_, Result.bind_eq_ok.2 ⟨a', Result.mapCause_eq_ok.2 ha', rfl⟩, trivial⟩
  obtain ⟨c', hc', -⟩ := hfold
  exact ⟨c', hc'⟩

end Shape

namespace Run
variable {κ α σ ε β γ : Type} [Key κ]

def Agree (st st' : RunState κ α σ) : Prop :=
  st'.workingSet = st.workingSet ∧ st'.point = st.point ∧ st'.eliminator = st.eliminator

/-- The run does not read the events: it does the same from states that differ in nothing else. -/
def Blind (m : Run κ α σ ε β) : Prop :=
  ∀ st st', Agree st st' → (exec m st').1 = (exec m st).1 ∧ Agree (exec m st).2 (exec m st').2

theorem blind_bind {m : Run κ α σ ε β} {f : β → Run κ α σ ε γ} (hm : Blind m)
    (hf : ∀ b, Blind (f b)) : Blind (m >>= f) := by
  intro st st' h
  obtain ⟨hresult, hagree⟩ := hm st st' h
  rw [exec_bind, exec_bind]
  rcases hst : exec m st with ⟨r, t⟩
  rcases hst' : exec m st' with ⟨r', t'⟩
  rw [hst, hst'] at hresult hagree
  cases hresult
  cases r with
  | error e => exact ⟨rfl, hagree⟩
  | ok b => exact hf b t t' hagree

theorem blind_pure (b : β) : Blind (pure b : Run κ α σ ε β) := fun _ _ h => ⟨rfl, h⟩

theorem blind_workingSet : Blind (workingSet : Run κ α σ ε WorkingSet) :=
  fun _ _ h => ⟨congrArg Except.ok h.1, h⟩

theorem blind_point : Blind (point : Run κ α σ ε (Assignment κ α)) :=
  fun _ _ h => ⟨congrArg Except.ok h.2.1, h⟩

theorem blind_setWorkingSet (w : WorkingSet) : Blind (setWorkingSet w : Run κ α σ ε Unit) :=
  fun _ _ h => ⟨rfl, rfl, h.2⟩

theorem blind_setPoint (x : Assignment κ α) : Blind (setPoint x : Run κ α σ ε Unit) :=
  fun _ _ h => ⟨rfl, h.1, rfl, h.2.2⟩

theorem blind_report (r : Report κ α) : Blind (report r : Run κ α σ ε Unit) :=
  fun _ _ h => ⟨rfl, h⟩

theorem blind_quietly (r : Result ε β) : Blind (quietly r : Run κ α σ ε β) := by
  intro st st' h
  rw [exec_quietly, exec_quietly]
  exact ⟨rfl, h⟩

theorem blind_announcing (r : Result (SolverError α) β) :
    Blind (announcing r : Run κ α σ (SolverError α) β) := by
  rcases r with (e | _) | b
  · exact blind_bind (blind_report _) fun _ => blind_quietly (.error (.cause e))
  · exact blind_quietly (.error .outOfRange)
  · exact blind_pure b

theorem blind_ask {κ' : Type} [Key κ'] (answer : σ → Reply κ' α × σ) :
    Blind (ask answer : Run κ α σ (SolverError α) (Assignment κ' α)) := by
  rintro ⟨w, x, e, events⟩ ⟨w', x', e', events'⟩ ⟨rfl, rfl, rfl⟩
  rw [exec_ask_eq, exec_ask_eq, exec_heed, exec_heed]
  exact ⟨rfl, rfl, rfl, rfl⟩

end Run

def Observer.notify {κ α τ : Type} [Key κ] (observers : List (Observer κ α τ)) (cost : α)
    (fraction : Option α) (point : Assignment κ α) (workingSet : WorkingSet) (iteration : ℕ)
    (state : τ) : τ :=
  observers.foldl (fun state o => o.visited point workingSet iteration state)
    (observers.foldl (fun state o => o.metrics cost fraction state) state)

theorem Outcome.stepFraction?_eq_some {α : Type} {o : Outcome α} {fraction : α} :
    o.stepFraction? = some fraction ↔ ∃ row, o = .stepTaken fraction row := by
  cases o <;> simp [stepFraction?]

namespace Solver
variable {κ α σ : Type} [Key κ] [Scalar α] {s : Solver κ α σ} {st₀ : RunState κ α σ}
  {initialCost : α}

theorem blind_dualGraph (s : Solver κ α σ) (w : WorkingSet) (x : Assignment κ α) :
    Run.Blind (s.dualGraph w x) := by
  have hreport (dual : Graph ℕ α) : Run.Blind (do
      if !(s.graph.participating w).isEmpty then
        Run.report (.dualGraph dual.size (s.graph.participating w).length)
      return dual : Run κ α σ (SolverError α) (Graph ℕ α)) := by
    split
    · exact Run.blind_bind (Run.blind_report _) fun _ => Run.blind_pure dual
    · exact Run.blind_pure dual
  unfold dualGraph
  split
  · exact Run.blind_bind (Run.blind_quietly _) hreport
  · exact Run.blind_bind (Run.blind_announcing _) hreport

theorem blind_computeDuals (s : Solver κ α σ) (w : WorkingSet) (x : Assignment κ α) :
    Run.Blind (s.computeDuals w x) := by
  refine Run.blind_bind (Run.blind_announcing _) fun _ => ?_
  refine Run.blind_bind (s.blind_dualGraph w x) fun dual => ?_
  split
  · exact Run.blind_pure _
  · exact Run.blind_ask _

omit [Scalar α] in
/-- The end of an iteration that changes the working set. -/
theorem blind_change (w : WorkingSet) (r : Report κ α) (o : Outcome α) : Run.Blind (do
    Run.setWorkingSet w
    Run.report r
    return o : Run κ α σ (SolverError α) (Outcome α)) :=
  Run.blind_bind (Run.blind_setWorkingSet w) fun _ =>
    Run.blind_bind (Run.blind_report r) fun _ => Run.blind_pure o

theorem blind_resolveStationary (s : Solver κ α σ) : Run.Blind s.resolveStationary := by
  refine Run.blind_bind Run.blind_workingSet fun w => Run.blind_bind Run.blind_point fun x => ?_
  refine Run.blind_bind (s.blind_computeDuals w x) fun duals => ?_
  split
  · exact Run.blind_pure _
  · exact blind_change _ _ _

theorem blind_takeBlockedStep (y : Assignment κ α) (row : ConstraintRow) (fraction : α) :
    Run.Blind (takeBlockedStep (σ := σ) y row fraction) := by
  refine Run.blind_bind Run.blind_point fun x => Run.blind_bind (Run.blind_setPoint _) fun _ => ?_
  refine Run.blind_bind (Run.blind_quietly _) fun _ => ?_
  exact Run.blind_bind Run.blind_workingSet fun w => blind_change _ _ _

theorem blind_takeFullStep (s : Solver κ α σ) (y : Assignment κ α) :
    Run.Blind (s.takeFullStep y) := by
  refine Run.blind_bind Run.blind_point fun x => Run.blind_bind (Run.blind_quietly _) fun d => ?_
  refine Run.blind_bind (Run.blind_setPoint _) fun _ => ?_
  split
  · exact s.blind_resolveStationary
  · exact Run.blind_pure _

theorem blind_iterate (s : Solver κ α σ) : Run.Blind s.iterate := by
  refine Run.blind_bind Run.blind_workingSet fun w => ?_
  refine Run.blind_bind (Run.blind_announcing _) fun _ => ?_
  refine Run.blind_bind (Run.blind_announcing _) fun working => ?_
  refine Run.blind_bind (Run.blind_ask _) fun solution => ?_
  refine Run.blind_bind Run.blind_point fun x => ?_
  refine Run.blind_bind (Run.blind_quietly _) fun found => ?_
  split
  · exact blind_takeBlockedStep _ _ _
  · exact s.blind_takeFullStep _

def stateAt (s : Solver κ α σ) (st₀ : RunState κ α σ) : ℕ → RunState κ α σ
  | 0 => st₀
  | i + 1 => (Run.exec s.iterate (s.stateAt st₀ i)).2

def outcomeAt (s : Solver κ α σ) (st₀ : RunState κ α σ) (i : ℕ) :
    Result (SolverError α) (Outcome α) :=
  (Run.exec s.iterate (s.stateAt st₀ i)).1

def Completes (s : Solver κ α σ) (st₀ : RunState κ α σ) (i : ℕ) (o : Outcome α) (cost : α) : Prop :=
  s.outcomeAt st₀ i = .ok o ∧ s.graph.cost (s.stateAt st₀ (i + 1)).point = .ok cost

def showsAt (s : Solver κ α σ) (st₀ : RunState κ α σ) (i : ℕ) : List (Event κ α) :=
  match s.outcomeAt st₀ i, s.graph.cost (s.stateAt st₀ (i + 1)).point with
  | .ok o, .ok cost =>
    [.metrics cost o.stepFraction?,
      .visited (s.stateAt st₀ (i + 1)).point (s.stateAt st₀ (i + 1)).workingSet i]
  | _, _ => []

def DropsAt (s : Solver κ α σ) (st₀ : RunState κ α σ) (i : ℕ) : Prop :=
  ∃ row, s.outcomeAt st₀ i = .ok (.dropped row)

/-- The iteration drops a row from a working set from which an earlier one dropped a row, and the
method looks out for that. -/
def RepeatsAt (s : Solver κ α σ) (st₀ : RunState κ α σ) (i : ℕ) : Prop :=
  s.config.detectCycling = true ∧ s.DropsAt st₀ i ∧ ∃ j < i, s.DropsAt st₀ j ∧
    (s.stateAt st₀ j).workingSet = (s.stateAt st₀ i).workingSet

/-- The iteration succeeds and is no reason to end the run. -/
def ContinuesAt (s : Solver κ α σ) (st₀ : RunState κ α σ) (i : ℕ) : Prop :=
  (∃ o, s.outcomeAt st₀ i = .ok o ∧ o.isConverged = false) ∧ ¬s.RepeatsAt st₀ i

/-- The iteration ends the run, after so many notifications and with this result. -/
inductive EndsAt (s : Solver κ α σ) (initialCost : α) (st₀ : RunState κ α σ) (i : ℕ) :
    ℕ → Result (Error α) (Optimum κ α) → Prop
  | failed {failure : Failure (SolverError α)} (houtcome : s.outcomeAt st₀ i = .error failure) :
      EndsAt s initialCost st₀ i i (Result.mapCause .solver (.error failure))
  | converged {duals : Assignment ℕ α} {cost : α}
      (hcompletes : s.Completes st₀ i (.converged duals) cost) :
      EndsAt s initialCost st₀ i (i + 1) (.ok {
        solution := (s.stateAt st₀ (i + 1)).point
        duals
        workingSet := (s.stateAt st₀ (i + 1)).workingSet
        status := statusOf s.graph (s.stateAt st₀ (i + 1)).workingSet
        initialCost
        finalCost := cost
        iterations := i + 1 })
  | cycled (hrepeats : s.RepeatsAt st₀ i) :
      EndsAt s initialCost st₀ i (i + 1) (.error (.cause (.solver (.cycling i))))

/-- From iteration `i` on the run goes on for at most `fuel` iterations. It completes those below
`n` and shows each of them, and it ends at the first that gives a reason to, or at the limit. -/
structure Traces (s : Solver κ α σ) (initialCost : α) (st₀ : RunState κ α σ) (i fuel n : ℕ)
    (events : List (Event κ α)) (result : Result (Error α) (Optimum κ α)) : Prop where
  le : i ≤ n
  completes : ∀ k, i ≤ k → k < n → ∃ o cost, s.Completes st₀ k o cost
  events_eq : events = (List.range' i (n - i)).flatMap (s.showsAt st₀)
  ends : (∃ k, i ≤ k ∧ k < i + fuel ∧ s.EndsAt initialCost st₀ k n result ∧
      ∀ j, i ≤ j → j < k → s.ContinuesAt st₀ j) ∨
    n = i + fuel ∧ result = .error (.cause (.solver (.iterationLimit s.config.maxIterations))) ∧
      ∀ j, i ≤ j → j < n → s.ContinuesAt st₀ j

theorem Completes.showsAt_eq {i : ℕ} {o : Outcome α} {cost : α} (h : s.Completes st₀ i o cost) :
    s.showsAt st₀ i =
      shown cost o (s.stateAt st₀ (i + 1)).workingSet (s.stateAt st₀ (i + 1)).point i := by
  rw [showsAt, h.1, h.2]
  rfl

section Traces
variable {i fuel n : ℕ} {events : List (Event κ α)} {result : Result (Error α) (Optimum κ α)}

theorem traces_limit (s : Solver κ α σ) (initialCost : α) (st₀ : RunState κ α σ) (i : ℕ) :
    s.Traces initialCost st₀ i 0 i []
      (.error (.cause (.solver (.iterationLimit s.config.maxIterations)))) where
  le := le_rfl
  completes _ hk hlt := absurd hlt hk.not_gt
  events_eq := by simp
  ends := .inr ⟨rfl, rfl, fun _ hj hlt => absurd hlt hj.not_gt⟩

theorem traces_failed {failure : Failure (SolverError α)}
    (h : s.outcomeAt st₀ i = .error failure) :
    s.Traces initialCost st₀ i (fuel + 1) i [] (Result.mapCause .solver (.error failure)) where
  le := le_rfl
  completes _ hk hlt := absurd hlt hk.not_gt
  events_eq := by simp
  ends := .inl ⟨i, le_rfl, by omega, .failed h, fun _ hj hlt => absurd hlt hj.not_gt⟩

/-- The last iteration that is shown. -/
theorem traces_last {o : Outcome α} {cost : α} (h : s.Completes st₀ i o cost)
    (hends : s.EndsAt initialCost st₀ i (i + 1) result) :
    s.Traces initialCost st₀ i (fuel + 1) (i + 1) (s.showsAt st₀ i) result where
  le := Nat.le_succ i
  completes k hk hlt := by
    obtain rfl : k = i := by omega
    exact ⟨o, cost, h⟩
  events_eq := by simp
  ends := .inl ⟨i, le_rfl, by omega, hends, fun _ hj hlt => absurd hlt hj.not_gt⟩

/-- One more iteration in front. -/
theorem Traces.cons {o : Outcome α} {cost : α}
    (h : s.Traces initialCost st₀ (i + 1) fuel n events result) (hi : s.Completes st₀ i o cost)
    (hcontinues : s.ContinuesAt st₀ i) :
    s.Traces initialCost st₀ i (fuel + 1) n (s.showsAt st₀ i ++ events) result where
  le := Nat.le_of_succ_le h.le
  completes k hk hlt := by
    rcases hk.eq_or_lt with rfl | hk
    · exact ⟨o, cost, hi⟩
    · exact h.completes k hk hlt
  events_eq := by
    have hle := h.le
    rw [show n - i = n - (i + 1) + 1 by omega, List.range'_succ, List.flatMap_cons, h.events_eq]
  ends := by
    have hall {m : ℕ} (hrest : ∀ j, i + 1 ≤ j → j < m → s.ContinuesAt st₀ j) :
        ∀ j, i ≤ j → j < m → s.ContinuesAt st₀ j := by
      intro j hj hlt
      rcases hj.eq_or_lt with rfl | hj
      · exact hcontinues
      · exact hrest j hj hlt
    rcases h.ends with ⟨k, hk, hlt, hends, hrest⟩ | ⟨hn, hresult, hrest⟩
    · exact .inl ⟨k, Nat.le_of_succ_le hk, by omega, hends, hall hrest⟩
    · exact .inr ⟨by omega, hresult, hall hrest⟩

end Traces

section Remembers
variable {i : ℕ} {D : List WorkingSet}

/-- These are the working sets from which the iterations below `i` have dropped a row. -/
def Remembers (s : Solver κ α σ) (st₀ : RunState κ α σ) (i : ℕ) (D : List WorkingSet) : Prop :=
  ∀ w, w ∈ D ↔ ∃ j < i, s.DropsAt st₀ j ∧ (s.stateAt st₀ j).workingSet = w

theorem Remembers.cons (h : s.Remembers st₀ i D) (hdrops : s.DropsAt st₀ i) :
    s.Remembers st₀ (i + 1) ((s.stateAt st₀ i).workingSet :: D) := by
  intro w
  rw [List.mem_cons, h]
  constructor
  · rintro (rfl | ⟨j, hj, hdrop, hw⟩)
    · exact ⟨i, Nat.lt_succ_self i, hdrops, rfl⟩
    · exact ⟨j, Nat.lt_succ_of_lt hj, hdrop, hw⟩
  · rintro ⟨j, hj, hdrop, rfl⟩
    rcases Nat.lt_succ_iff_lt_or_eq.1 hj with hj | rfl
    · exact .inr ⟨j, hj, hdrop, rfl⟩
    · exact .inl rfl

theorem Remembers.succ (h : s.Remembers st₀ i D) (hnot : ¬s.DropsAt st₀ i) :
    s.Remembers st₀ (i + 1) D := by
  intro w
  rw [h]
  constructor
  · rintro ⟨j, hj, hdrop, hw⟩
    exact ⟨j, Nat.lt_succ_of_lt hj, hdrop, hw⟩
  · rintro ⟨j, hj, hdrop, hw⟩
    refine ⟨j, (Nat.lt_succ_iff_lt_or_eq.1 hj).resolve_right ?_, hdrop, hw⟩
    rintro rfl
    exact hnot hdrop

/-- A drop repeats one before it exactly from a remembered working set. -/
theorem Remembers.repeatsAt_iff (h : s.Remembers st₀ i D)
    (hdetect : s.config.detectCycling = true) (hdrops : s.DropsAt st₀ i) :
    s.RepeatsAt st₀ i ↔ (s.stateAt st₀ i).workingSet ∈ D := by
  rw [RepeatsAt, h]
  exact ⟨fun hrepeats => hrepeats.2.2, fun hfound => ⟨hdetect, hdrops, hfound⟩⟩

end Remembers

section Agree
variable {st st₁ st' : RunState κ α σ} {i : ℕ}

theorem agree_iterate (hagree : Run.Agree (s.stateAt st₀ i) st)
    {r : Result (SolverError α) (Outcome α)} (hexec : Run.exec s.iterate st = (r, st₁)) :
    s.outcomeAt st₀ i = r ∧ Run.Agree (s.stateAt st₀ (i + 1)) st₁ := by
  obtain ⟨houtcome, hagree₁⟩ := s.blind_iterate _ _ hagree
  rw [hexec] at houtcome hagree₁
  exact ⟨houtcome.symm, hagree₁⟩

/-- What an iteration of the loop shows is what the iteration with this number shows. -/
theorem notices_of_agree (hagree : Run.Agree (s.stateAt st₀ i) st) {o : Outcome α} {cost : α}
    {r : Report κ α} (hexec : Run.exec s.iterate st = (.ok o, st₁))
    (hcost : s.graph.cost st₁.point = .ok cost) :
    s.Completes st₀ i o cost ∧ Run.Agree (s.stateAt st₀ (i + 1)) (announced st₁ r cost o i) ∧
      (announced st₁ r cost o i).notices = st.notices ++ s.showsAt st₀ i := by
  obtain ⟨houtcome, hagree₁⟩ := agree_iterate hagree hexec
  have hcompletes : s.Completes st₀ i o cost := ⟨houtcome, hagree₁.2.1 ▸ hcost⟩
  refine ⟨hcompletes, hagree₁, ?_⟩
  rw [notices_announced, notices_iterate hexec, hcompletes.showsAt_eq, hagree₁.1, hagree₁.2.1]

/-- The loop goes through the states after repeated iterations, and ends in the last of them if it
returns. `D` holds the working sets of the drops so far. -/
theorem loop_traces {previous cost : α} {fuel : ℕ} {D : List WorkingSet}
    {result : Result (Error α) (Optimum κ α)} (hagree : Run.Agree (s.stateAt st₀ i) st)
    (hcost : s.graph.cost (s.stateAt st₀ i).point = .ok cost)
    (hD : s.config.detectCycling = true → s.Remembers st₀ i D)
    (h : Run.exec (s.loop initialCost fuel i previous D) st = (result, st')) :
    ∃ n events, st'.notices = st.notices ++ events ∧
      s.Traces initialCost st₀ i fuel n events result ∧
      ∀ optimum, result = .ok optimum → Run.Agree (s.stateAt st₀ n) st' := by
  induction fuel generalizing i previous cost D st with
  | zero =>
    obtain ⟨t, hexec, -, -, hn⟩ := exec_stop (β := Optimum κ α)
      (.iterationLimit s.config.maxIterations) st
    obtain ⟨rfl, rfl⟩ := Prod.mk.inj (hexec.symm.trans h)
    exact ⟨i, [], by rw [hn, List.append_nil], s.traces_limit initialCost st₀ i,
      fun _ hok => nomatch hok⟩
  | succ fuel ih =>
    cases loop_turns h with
    | failed hexec hmap =>
      refine ⟨i, [], by rw [notices_iterate hexec, List.append_nil], ?_, fun _ hok => nomatch hok⟩
      rw [← hmap]
      exact traces_failed (agree_iterate hagree hexec).1
    | costless hexec hnone hmap =>
      -- An iteration that succeeds keeps the shape of the point, and so its cost.
      obtain ⟨houtcome, hagree₁⟩ := agree_iterate hagree hexec
      have hiter : s.Iterates _ _ _ _ (s.stateAt st₀ (i + 1)).point :=
        iterate_ok (Prod.ext houtcome rfl)
      obtain ⟨cost₁, hcost₁⟩ := Graph.exists_cost_of_sameShape hiter.sameShape hcost
      rw [hagree₁.2.1, hcost₁] at hnone
      cases hnone
    | converged hexec hcost₁ =>
      obtain ⟨hcompletes, hagree₁, hn⟩ := notices_of_agree hagree hexec hcost₁
      refine ⟨i + 1, _, (Run.alike_report _ _).2.2.trans hn, traces_last hcompletes ?_,
        fun _ _ => hagree₁⟩
      obtain ⟨-, hw, hx, -⟩ := agree_iterate hagree hexec
      rw [hw, hx]
      exact .converged hcompletes
    | cycled hexec hcost₁ hdetect hmem hlike =>
      obtain ⟨hcompletes, -, hn⟩ := notices_of_agree hagree hexec hcost₁
      rw [hagree.1, ← (hD hdetect).repeatsAt_iff hdetect ⟨_, hcompletes.1⟩] at hmem
      exact ⟨i + 1, _, hlike.2.2.trans hn, traces_last hcompletes (.cycled hmem),
        fun _ hok => nomatch hok⟩
    | dropped hexec hcost₁ hnew hrest =>
      obtain ⟨hcompletes, hagree₁, hn⟩ := notices_of_agree hagree hexec hcost₁
      have hdrops : s.DropsAt st₀ i := ⟨_, hcompletes.1⟩
      rw [hagree.1] at hnew hrest
      have hcontinues : s.ContinuesAt st₀ i := by
        refine ⟨⟨_, hcompletes.1, rfl⟩, fun hrepeats => hnew hrepeats.1 ?_⟩
        exact ((hD hrepeats.1).repeatsAt_iff hrepeats.1 hdrops).1 hrepeats
      obtain ⟨n, events, hevents, htraces, hend⟩ := ih hagree₁ hcompletes.2 (fun hdetect => by
        rw [if_pos hdetect]
        exact (hD hdetect).cons hdrops) hrest
      exact ⟨n, _, by rw [hevents, hn, List.append_assoc], htraces.cons hcompletes hcontinues, hend⟩
    | stepped hexec hcost₁ hrest =>
      obtain ⟨hcompletes, hagree₁, hn⟩ := notices_of_agree hagree hexec hcost₁
      have hnot : ¬s.DropsAt st₀ i := fun ⟨row, hdrop⟩ => by
        cases hcompletes.1.symm.trans hdrop
      have hcontinues : s.ContinuesAt st₀ i :=
        ⟨⟨_, hcompletes.1, rfl⟩, fun hrepeats => hnot hrepeats.2.1⟩
      obtain ⟨n, events, hevents, htraces, hend⟩ :=
        ih hagree₁ hcompletes.2 (fun hdetect => (hD hdetect).succ hnot) hrest
      exact ⟨n, _, by rw [hevents, hn, List.append_assoc], htraces.cons hcompletes hcontinues, hend⟩

end Agree

/-- A start that is accepted sets the point, and changes nothing else but reports. -/
theorem exec_start {initial x : Assignment κ α} (st : RunState κ α σ)
    (h : s.Starts initial st.workingSet x) :
    ∃ st', Run.exec (s.start initial) st = (.ok (), st') ∧
      Run.Agree { st with point := x } st' ∧ st'.notices = st.notices := by
  obtain ⟨hw, hx, hfeasible⟩ := h
  have hannounce {β : Type} (b : β) (t : RunState κ α σ) :
      Run.exec (Run.announcing (.ok b) : Run κ α σ (SolverError α) β) t = (.ok b, t) := rfl
  have hcheck (t : RunState κ α σ) :
      Run.exec (if s.config.checkInitialFeasibility then
        announceInfeasible (checkFeasible s.graph s.config.feasibilityTolerance x)
        else pure () : Run κ α σ (SolverError α) Unit) t = (.ok (), t) := by
    split_ifs with hask
    · rw [hfeasible hask]
      rfl
    · rfl
  have hset (t : RunState κ α σ) : Run.exec (Run.setPoint x : Run κ α σ (SolverError α) Unit) t =
      (.ok (), { t with point := x }) := rfl
  unfold start
  simp only [Run.exec_bind, Run.exec_workingSet, hw, hx, hannounce, hset]
  by_cases houtside : 0 < initial.size - x.size
  · simp only [if_pos houtside, Run.exec_bind, Run.exec_report]
    exact ⟨_, hcheck _, ⟨rfl, rfl, rfl⟩, (Run.alike_report _ _).2.2⟩
  · simp only [if_neg houtside]
    exact ⟨_, hcheck _, ⟨rfl, rfl, rfl⟩, rfl⟩

def opening (s : Solver κ α σ) (initial : Assignment κ α) : Run κ α σ (Error α) α := do
  Run.mapCause .solver (s.start initial)
  let initialCost ← s.currentCost
  Run.report (.configuration s.config)
  Run.report .tableHeader
  return initialCost

theorem optimizeRun_eq (s : Solver κ α σ) (initial : Assignment κ α) :
    s.optimizeRun initial = s.opening initial >>= fun initialCost =>
      s.loop initialCost s.config.maxIterations 0 initialCost [] := by
  simp only [optimizeRun, opening, bind_assoc, pure_bind]

/-- A start that is accepted and has a cost opens the run, which is the loop from there on. -/
theorem exists_opening {initial x : Assignment κ α} {w : WorkingSet}
    (hstart : s.Starts initial w x) (hcost : s.graph.cost x = .ok initialCost) (eliminator : σ) :
    ∃ st, Run.exec (s.opening initial) ⟨w, initial, eliminator, []⟩ = (.ok initialCost, st) ∧
      Run.Agree ⟨w, x, eliminator, []⟩ st ∧ st.notices = [] ∧
      s.optimize initial w eliminator =
        Run.exec (s.loop initialCost s.config.maxIterations 0 initialCost []) st := by
  obtain ⟨st, hexec, hagree, hn⟩ := exec_start ⟨w, initial, eliminator, []⟩ hstart
  obtain rfl : st.point = x := hagree.2.1
  have hopening : Run.exec (s.opening initial) ⟨w, initial, eliminator, []⟩ =
      (.ok initialCost, { st with events :=
        st.events ++ [.report (.configuration s.config)] ++ [.report .tableHeader] }) := by
    simp only [opening, Run.exec_bind, Run.exec_mapCause, hexec, Result.mapCause_ok,
      exec_currentCost, hcost, Run.exec_report]
    rfl
  refine ⟨_, hopening, hagree, ?_, ?_⟩
  · simpa [RunState.notices, Event.isReport] using hn
  · change Run.exec (s.optimizeRun initial) _ = _
    rw [optimizeRun_eq, Run.exec_bind_of_ok hopening]

omit [Scalar α] in
/-- Observers see the notifications of a run and nothing else of its events. -/
theorem replay_eq {τ : Type} (observers : List (Observer κ α τ)) (st : RunState κ α σ) (t : τ) :
    Observer.replay observers st.events t = Observer.replay observers st.notices t := by
  have hreport (r : Report κ α) (l : List (Observer κ α τ)) (t : τ) :
      l.foldl (fun t o => o.handle t (.report r)) t = t := by
    induction l with
    | nil => rfl
    | cons _ _ ih => exact ih
  unfold RunState.notices
  induction st.events generalizing t with
  | nil => rfl
  | cons e l ih =>
    rw [Observer.replay, List.foldl_cons, List.filter_cons]
    cases e with
    | report r => exact (congrArg (List.foldl _ · l) (hreport r observers t)).trans (ih t)
    | metrics _ _ => exact ih _
    | visited _ _ _ => exact ih _

/-- Observers take in iteration after iteration. -/
theorem Traces.observed {fuel n : ℕ} {events : List (Event κ α)}
    {result : Result (Error α) (Optimum κ α)}
    (h : s.Traces initialCost st₀ 0 fuel n events result) {τ : Type}
    (observers : List (Observer κ α τ)) (t : τ) :
    ∃ states : ℕ → τ, states 0 = t ∧ Observer.replay observers events t = states n ∧
      ∀ i < n, ∃ o cost, s.Completes st₀ i o cost ∧
        states (i + 1) = Observer.notify observers cost o.stepFraction?
          (s.stateAt st₀ (i + 1)).point (s.stateAt st₀ (i + 1)).workingSet i (states i) := by
  refine ⟨fun i => Observer.replay observers ((List.range i).flatMap (s.showsAt st₀)) t, rfl, ?_,
    fun i hi => ?_⟩
  · simp only [h.events_eq, Nat.sub_zero, List.range_eq_range']
  · obtain ⟨o, cost, hcompletes⟩ := h.completes i (Nat.zero_le i) hi
    refine ⟨o, cost, hcompletes, ?_⟩
    simp only [List.range_succ, List.flatMap_append, List.flatMap_singleton, Observer.replay,
      List.foldl_append, hcompletes.showsAt_eq]
    rfl

/-- An iteration that goes on does not end the run. -/
theorem ContinuesAt.not_endsAt {i n : ℕ} {result : Result (Error α) (Optimum κ α)}
    (h : s.ContinuesAt st₀ i) : ¬s.EndsAt initialCost st₀ i n result := by
  obtain ⟨⟨o, houtcome, hconverged⟩, hrepeats⟩ := h
  rintro (hfailed | hcompletes | hcycled)
  · cases houtcome.symm.trans hfailed
  · cases houtcome.symm.trans hcompletes.1
    cases hconverged
  · exact hrepeats hcycled

/-- A run ends with an optimum only when an iteration converges, and it returns the state
after it. -/
theorem EndsAt.exists_converged {i n : ℕ} {optimum : Optimum κ α}
    (h : s.EndsAt initialCost st₀ i n (.ok optimum)) : n = i + 1 ∧ optimum.iterations = i + 1 ∧
      s.outcomeAt st₀ i = .ok (.converged optimum.duals) ∧
      optimum.solution = (s.stateAt st₀ (i + 1)).point ∧
      optimum.workingSet = (s.stateAt st₀ (i + 1)).workingSet ∧
      optimum.status = statusOf s.graph optimum.workingSet := by
  generalize hresult : (.ok optimum : Result (Error α) (Optimum κ α)) = result at h
  cases h with
  | @failed failure _ =>
    obtain ⟨failure', hmap⟩ := mapCause_error (f := .solver) failure
    cases hresult.trans (hmap _)
  | converged hcompletes =>
    cases hresult
    exact ⟨rfl, rfl, hcompletes.1, rfl, rfl, rfl⟩
  | cycled _ => cases hresult

/-- An optimum counts its iterations, all of which have been shown. -/
theorem EndsAt.iterations_eq {i n : ℕ} {optimum : Optimum κ α}
    (h : s.EndsAt initialCost st₀ i n (.ok optimum)) : optimum.iterations = n ∧ n = i + 1 := by
  obtain ⟨rfl, hcount, -⟩ := h.exists_converged
  exact ⟨hcount, rfl⟩

/-- An iteration does not fail for cycling, so only a repeated drop ends a run in that way. -/
theorem endsAt_cycling_iff {i k n : ℕ} {result : Result (Error α) (Optimum κ α)}
    (h : s.EndsAt initialCost st₀ k n result) :
    result = .error (.cause (.solver (.cycling i))) ↔ i = k ∧ s.RepeatsAt st₀ k := by
  cases h with
  | @failed failure houtcome =>
    have hnot : ¬s.RepeatsAt st₀ k := fun hrepeats => by
      obtain ⟨_, hdrop⟩ := hrepeats.2.1
      cases houtcome.symm.trans hdrop
    have hinner : Run.InnerAt SolverError.GivesUp s.iterate (s.stateAt st₀ k) :=
      inner_iterate SolverError.isOwn_givesUp (s.avoids_checkRank _)
    rcases failure with e | _
    · refine ⟨fun hresult => ?_, fun hrepeats => absurd hrepeats.2 hnot⟩
      cases hresult
      exact absurd trivial (hinner.2 _ houtcome)
    · exact ⟨(fun hresult => nomatch hresult), fun hrepeats => absurd hrepeats.2 hnot⟩
  | converged hcompletes =>
    refine ⟨(fun hresult => nomatch hresult), fun hrepeats => ?_⟩
    obtain ⟨_, hdrop⟩ := hrepeats.2.2.1
    cases hcompletes.1.symm.trans hdrop
  | cycled hrepeats =>
    constructor
    · intro hresult
      cases hresult
      exact ⟨rfl, hrepeats⟩
    · rintro ⟨rfl, -⟩
      rfl

/-- From an accepted start with a cost the run goes through the states after repeated iterations. -/
theorem optimize_traces {initial x : Assignment κ α} {w : WorkingSet} {eliminator : σ}
    {result : Result (Error α) (Optimum κ α)} {st : RunState κ α σ}
    (hstart : s.Starts initial w x) (hcost : s.graph.cost x = .ok initialCost)
    (hrun : s.optimize initial w eliminator = (result, st)) :
    ∃ n, s.Traces initialCost ⟨w, x, eliminator, []⟩ 0 s.config.maxIterations n st.notices result ∧
      ∀ optimum, result = .ok optimum →
        Run.Agree (s.stateAt ⟨w, x, eliminator, []⟩ n) st := by
  obtain ⟨st₁, -, hagree, hn, hloop⟩ := exists_opening hstart hcost eliminator
  rw [hloop] at hrun
  have hnone : s.config.detectCycling = true → s.Remembers ⟨w, x, eliminator, []⟩ 0 [] := by
    simp [Remembers]
  obtain ⟨n, events, hevents, htraces, hend⟩ := loop_traces (i := 0) hagree hcost hnone hrun
  have hnotices : st.notices = events := by rw [hevents, hn, List.nil_append]
  exact ⟨n, hnotices ▸ htraces, hend⟩

/-- A run that returns an optimum goes through iterations that succeed, and the last of them is the
first that converges. -/
theorem exists_iterations {initial : Assignment κ α} {w : WorkingSet} {eliminator : σ}
    {optimum : Optimum κ α} {st : RunState κ α σ}
    (h : s.optimize initial w eliminator = (.ok optimum, st)) :
    ∃ x n, s.Starts initial w x ∧ optimum.iterations = n + 1 ∧
      (∀ i < n, ∃ o, s.outcomeAt ⟨w, x, eliminator, []⟩ i = .ok o ∧ o.isConverged = false) ∧
      s.outcomeAt ⟨w, x, eliminator, []⟩ n = .ok (.converged optimum.duals) ∧
      optimum.solution = (s.stateAt ⟨w, x, eliminator, []⟩ (n + 1)).point ∧
      optimum.workingSet = (s.stateAt ⟨w, x, eliminator, []⟩ (n + 1)).workingSet ∧
      optimum.status = statusOf s.graph optimum.workingSet ∧
      Run.Agree (s.stateAt ⟨w, x, eliminator, []⟩ (n + 1)) st := by
  rcases optimize_cases h with ⟨-, failure, hfail, -⟩ | ⟨x, cost, hstart, hcost, -⟩
  · cases hfail
  obtain ⟨n, htraces, hend⟩ := optimize_traces hstart hcost h
  rcases htraces.ends with ⟨k, -, -, hends, hbefore⟩ | ⟨-, hlimit, -⟩
  · obtain ⟨rfl, hcount, hconverged, hsolution, hw, hstatus⟩ := hends.exists_converged
    exact ⟨x, k, hstart, hcount, fun i hi => (hbefore i (Nat.zero_le i) hi).1, hconverged,
      hsolution, hw, hstatus, hend optimum rfl⟩
  · cases hlimit

/-- An accepted start without a cost ends the run at once, with nobody notified. From every other
the run is its iterations in order: after each one all observers take in its figures, with a
fraction exactly for a step, and then its point, its working set and its number. It ends with the
first iteration that fails or converges or, if asked for, drops a row from the working set of an
earlier drop; only then is cycling reported. Without such an iteration it ends at the limit. -/
theorem optimize_refines (s : Solver κ α σ) {initial x : Assignment κ α} {w : WorkingSet}
    {eliminator : σ} {result : Result (Error α) (Optimum κ α)} {st : RunState κ α σ}
    (hstart : s.Starts initial w x) (hrun : s.optimize initial w eliminator = (result, st)) :
    (∀ failure, s.graph.cost x = .error failure →
      result = Result.mapCause .graph (.error failure) ∧ st.notices = []) ∧
    ∀ initialCost, s.graph.cost x = .ok initialCost → ∃ n,
      (∀ (τ : Type) (observers : List (Observer κ α τ)) (t : τ), ∃ states : ℕ → τ, states 0 = t ∧
        Observer.replay observers st.events t = states n ∧ ∀ i < n, ∃ o cost,
          s.Completes ⟨w, x, eliminator, []⟩ i o cost ∧
          (∀ fraction, o.stepFraction? = some fraction ↔ ∃ row, o = .stepTaken fraction row) ∧
          states (i + 1) = Observer.notify observers cost o.stepFraction?
            (s.stateAt ⟨w, x, eliminator, []⟩ (i + 1)).point
            (s.stateAt ⟨w, x, eliminator, []⟩ (i + 1)).workingSet i (states i)) ∧
      ((∃ i < s.config.maxIterations, s.EndsAt initialCost ⟨w, x, eliminator, []⟩ i n result ∧
          ∀ j < i, s.ContinuesAt ⟨w, x, eliminator, []⟩ j) ∨
        n = s.config.maxIterations ∧
          result = .error (.cause (.solver (.iterationLimit s.config.maxIterations))) ∧
          ∀ j < n, s.ContinuesAt ⟨w, x, eliminator, []⟩ j) ∧
      ∀ i, result = .error (.cause (.solver (.cycling i))) ↔ i < s.config.maxIterations ∧
        s.RepeatsAt ⟨w, x, eliminator, []⟩ i ∧ ∀ j < i, s.ContinuesAt ⟨w, x, eliminator, []⟩ j := by
  refine ⟨fun failure hcost => ?_, fun initialCost hcost => ?_⟩
  · change Run.exec (s.optimizeRun initial) _ = _ at hrun
    obtain ⟨st₁, hexec, hagree, hn⟩ := exec_start ⟨w, initial, eliminator, []⟩ hstart
    have hpoint : st₁.point = x := hagree.2.1
    obtain ⟨failure', hmap⟩ := mapCause_error (f := .graph) failure
    rw [optimizeRun, Run.exec_bind, Run.exec_mapCause, hexec] at hrun
    simp only [Result.mapCause_ok, Run.exec_bind, exec_currentCost, hpoint] at hrun
    rw [hcost, hmap] at hrun
    cases hrun
    exact ⟨(hmap _).symm, hn⟩
  · obtain ⟨n, htraces, -⟩ := optimize_traces hstart hcost hrun
    have hends := htraces.ends
    simp only [Nat.zero_le, forall_const, true_and, Nat.zero_add] at hends
    refine ⟨n, fun τ observers t => ?_, hends, fun i => ?_⟩
    · obtain ⟨states, hzero, hlast, hstep⟩ := htraces.observed observers t
      refine ⟨states, hzero, by rw [replay_eq, hlast], fun i hi => ?_⟩
      obtain ⟨o, cost, hcompletes, hnext⟩ := hstep i hi
      exact ⟨o, cost, hcompletes, fun _ => Outcome.stepFraction?_eq_some, hnext⟩
    · rcases hends with ⟨k, hk, hends, hbefore⟩ | ⟨rfl, rfl, hall⟩
      · rw [endsAt_cycling_iff hends]
        constructor
        · rintro ⟨rfl, hrepeats⟩
          exact ⟨hk, hrepeats, hbefore⟩
        · rintro ⟨-, hrepeats, hbefore'⟩
          rcases lt_trichotomy i k with hlt | rfl | hlt
          · exact absurd hrepeats (hbefore i hlt).2
          · exact ⟨rfl, hrepeats⟩
          · exact absurd hends (hbefore' k hlt).not_endsAt
      · constructor
        · intro hresult
          cases hresult
        · rintro ⟨hi, hrepeats, -⟩
          exact absurd hrepeats (hall i hi).2

/-- The run from the bound drops the row, takes a step and converges, and a recorder has kept the
states after these three iterations. -/
theorem looseHalfLine_refines : ∃ optimum st n, let st₀ := ⟨.ofRows [⟨1, 0⟩], .single 0 3, (), []⟩
    looseHalfLine.optimize (.single 0 3) (.ofRows [⟨1, 0⟩]) () = (.ok optimum, st) ∧
      optimum.iterations = 3 ∧ looseHalfLine.EndsAt (-3) st₀ 2 n (.ok optimum) ∧
        Observer.replay [Observer.recorder] st.events [] = (List.range 3).map fun i =>
          ⟨i, (looseHalfLine.stateAt st₀ (i + 1)).point,
            (looseHalfLine.stateAt st₀ (i + 1)).workingSet⟩ := by
  have hstart : looseHalfLine.Starts (.single 0 3) (.ofRows [⟨1, 0⟩]) (.single 0 3) :=
    ⟨rfl, rfl, fun _ => by decide +kernel⟩
  have hrun : (match looseHalfLine.optimize (.single 0 3) (.ofRows [⟨1, 0⟩]) () with
      | (.ok optimum, _) => decide (optimum.iterations = 3)
      | _ => false) = true := by decide +kernel
  split at hrun
  next optimum st hok =>
    have hthree : optimum.iterations = 3 := of_decide_eq_true hrun
    obtain ⟨-, hrefines⟩ := looseHalfLine.optimize_refines hstart hok
    obtain ⟨n, hobserved, hends, -⟩ := hrefines (-3) (by decide +kernel)
    rcases hends with ⟨i, -, hends, -⟩ | ⟨-, hlimit, -⟩
    · obtain ⟨states, hzero, hlast, hstep⟩ := hobserved _ [Observer.recorder] []
      obtain ⟨hn, hi⟩ := hends.iterations_eq
      obtain rfl : n = 3 := hn.symm.trans hthree
      obtain rfl : i = 2 := Nat.succ.inj hi.symm
      refine ⟨optimum, st, 3, hok, hthree, hends, ?_⟩
      let after (k : ℕ) := looseHalfLine.stateAt ⟨.ofRows [⟨1, 0⟩], .single 0 3, (), []⟩ (k + 1)
      have hnext (k : ℕ) (hk : k < 3) :
          states (k + 1) = states k ++ [⟨k, (after k).point, (after k).workingSet⟩] := by
        obtain ⟨o, cost, -, -, hnotify⟩ := hstep k hk
        exact hnotify
      rw [hlast, hnext 2 (by decide), hnext 1 (by decide), hnext 0 (by decide), hzero]
      rfl
    · cases hlimit
  next => cases hrun

end Solver

end GaussianProgram
