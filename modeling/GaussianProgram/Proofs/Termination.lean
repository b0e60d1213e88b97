import GaussianProgram.Proofs.RatioTest
import GaussianProgram.Proofs.Start
import GaussianProgram.Proofs.Table
import GaussianProgram.Proofs.WorstRow

/-! Termination with cycling detection. Between two drops the working set grows, a full step is
followed by a stationary iteration, and no working set is dropped from twice. -/
namespace GaussianProgram

namespace WorkingSet

/-- Sets with the same rows are equal. -/
theorem ext_rows {v w : WorkingSet} (h : ∀ r, r ∈ v.rows ↔ r ∈ w.rows) : v = w := by
  cases v
  cases w
  exact congrArg WorkingSet.mk (SortedMap.ext_keys h)

def rowSet (w : WorkingSet) : Finset ConstraintRow := w.rows.toFinset

theorem mem_rowSet {w : WorkingSet} {r : ConstraintRow} : r ∈ w.rowSet ↔ r ∈ w.rows :=
  List.mem_toFinset

theorem rowSet_injective : Function.Injective rowSet := fun v w h =>
  ext_rows fun r => by rw [← mem_rowSet, h, mem_rowSet]

theorem rowSet_insert (w : WorkingSet) (r : ConstraintRow) :
    (w.insert r).2.rowSet = Insert.insert r w.rowSet := by
  ext a
  rw [Finset.mem_insert, mem_rowSet, mem_rowSet, mem_rows_insert]

theorem rowSet_remove (w : WorkingSet) (r : ConstraintRow) :
    (w.remove r).2.rowSet = w.rowSet.erase r := by
  ext a
  rw [Finset.mem_erase, mem_rowSet, mem_rowSet, mem_rows_remove]

end WorkingSet

namespace Graph
variable {κ α : Type} [Key κ]

/-- Working sets of earlier drops: different ones, with a row to drop in each. -/
def Dropped (g : Graph κ α) (D : List WorkingSet) : Prop :=
  D.Nodup ∧ ∀ v ∈ D, g.Admits v ∧ v.rowSet.Nonempty

theorem Admits.rowSet_subset {g : Graph κ α} {w : WorkingSet} (h : g.Admits w) :
    w.rowSet ⊆ g.inequalityRows.toFinset := by
  intro r hr
  rw [List.mem_toFinset, mem_inequalityRows]
  exact h r (WorkingSet.mem_rowSet.1 hr)

theorem Admits.card_le {g : Graph κ α} {w : WorkingSet} (h : g.Admits w) :
    w.rowSet.card ≤ g.inequalityRows.length :=
  (Finset.card_le_card h.rowSet_subset).trans (List.toFinset_card_le _)

/-- There are fewer drops than sets of inequality rows, because nothing is dropped from the
empty set. -/
theorem Dropped.length_lt {g : Graph κ α} {D : List WorkingSet} (h : g.Dropped D) :
    D.length < 2 ^ g.inequalityRows.length := by
  have hnodup : (D.map WorkingSet.rowSet).Nodup := h.1.map WorkingSet.rowSet_injective
  have hsub : (D.map WorkingSet.rowSet).toFinset ⊆
      g.inequalityRows.toFinset.powerset.erase ∅ := by
    intro v hv
    obtain ⟨w, hw, rfl⟩ := List.mem_map.1 (List.mem_toFinset.1 hv)
    obtain ⟨hadmits, hne⟩ := h.2 w hw
    exact Finset.mem_erase.2 ⟨hne.ne_empty, Finset.mem_powerset.2 hadmits.rowSet_subset⟩
  have hcard := Finset.card_le_card hsub
  rw [List.toFinset_card_of_nodup hnodup, List.length_map,
    Finset.card_erase_of_mem (Finset.empty_mem_powerset _), Finset.card_powerset] at hcard
  have hpow : 2 ^ g.inequalityRows.toFinset.card ≤ 2 ^ g.inequalityRows.length :=
    Nat.pow_le_pow_right (by omega) (List.toFinset_card_le _)
  have hpos := Nat.two_pow_pos g.inequalityRows.toFinset.card
  omega

/-- Iterations that may still follow at a stationary point; at any other point there may be
one more. -/
def potential (g : Graph κ α) (D : List WorkingSet) (w : WorkingSet) : ℕ :=
  (2 ^ g.inequalityRows.length - 1 - D.length) * (g.inequalityRows.length + 2) +
    (g.inequalityRows.length - w.rowSet.card) + 1

theorem potential_insert {g : Graph κ α} {w : WorkingSet} {r : ConstraintRow}
    (hw : g.Admits w) (hr : g.rowKind? r = some .inequality) (hnew : r ∉ w.rows)
    (D : List WorkingSet) : g.potential D (w.insert r).2 + 1 = g.potential D w := by
  have hle := (hw.insert hr).card_le
  have hcard : (w.insert r).2.rowSet.card = w.rowSet.card + 1 := by
    rw [WorkingSet.rowSet_insert, Finset.card_insert_of_notMem]
    rwa [WorkingSet.mem_rowSet]
  unfold potential
  omega

theorem potential_remove {g : Graph κ α} {D : List WorkingSet} {w : WorkingSet}
    {r : ConstraintRow} (hD : g.Dropped (w :: D)) (hw : g.Admits w) (hr : r ∈ w.rows) :
    g.potential (w :: D) (w.remove r).2 + 2 ≤ g.potential D w := by
  have hlt := hD.length_lt
  have hle := hw.card_le
  have hmem := WorkingSet.mem_rowSet.2 hr
  have hcard : (w.remove r).2.rowSet.card + 1 = w.rowSet.card := by
    rw [WorkingSet.rowSet_remove]
    exact Finset.card_erase_add_one hmem
  obtain ⟨n, hn⟩ : ∃ n, 2 ^ g.inequalityRows.length - 1 - D.length = n + 1 :=
    ⟨2 ^ g.inequalityRows.length - 1 - (D.length + 1), by rw [List.length_cons] at hlt; omega⟩
  have hn' : 2 ^ g.inequalityRows.length - 1 - (w :: D).length = n := by
    rw [List.length_cons]; omega
  unfold potential
  rw [hn, hn', Nat.succ_mul]
  omega

theorem potential_start (g : Graph κ α) (w : WorkingSet) :
    g.potential [] w + 1 ≤ 2 ^ g.inequalityRows.length * (g.inequalityRows.length + 2) := by
  obtain ⟨n, hn⟩ : ∃ n, 2 ^ g.inequalityRows.length = n + 1 :=
    ⟨2 ^ g.inequalityRows.length - 1, by
      have := Nat.two_pow_pos g.inequalityRows.length
      omega⟩
  unfold potential
  rw [hn, Nat.succ_mul, List.length_nil, Nat.sub_zero, Nat.add_sub_cancel]
  omega

end Graph

namespace Assignment
variable {κ α : Type} [Key κ] [Scalar α]

def Cancels (x : Assignment κ α) : Prop := ∀ k v, x.get? k = some v → ∀ a ∈ v, a - a = 0

private theorem amax_zero (habs : Scalar.abs (0 : α) = 0) {v : Vec α} (hv : ∀ a ∈ v, a = 0) :
    Vec.amax v = 0 := by
  have hfold (l : Vec α) (hl : ∀ a ∈ l, a = 0) :
      l.foldl (fun m y => if Scalar.abs y ≤ m then m else Scalar.abs y) 0 = 0 := by
    induction l with
    | nil => rfl
    | cons b l ih =>
      obtain ⟨rfl, hrest⟩ := List.forall_mem_cons.1 hl
      rw [List.foldl_cons, habs, ite_self]
      exact ih hrest
  cases v with
  | nil => rfl
  | cons a v =>
    obtain ⟨rfl, hrest⟩ := List.forall_mem_cons.1 hv
    rw [Vec.amax, habs]
    exact hfold v hrest

/-- A point has no distance to itself. -/
theorem maxAbsDiff_self (habs : Scalar.abs (0 : α) = 0) (hmax : Scalar.max (0 : α) 0 = 0)
    {x : Assignment κ α} (hx : x.Cancels) : x.maxAbsDiff x = .ok 0 := by
  have hfold (l : List (κ × Vec α)) (hl : ∀ e ∈ l, e ∈ x.toList) :
      l.foldlM (fun most e => do
        let v ← x.entryOf e.1 e.2.length
        return Scalar.max most (Vec.amax (Vec.sub v e.2))) (0 : α) =
          (.ok 0 : Except (GraphError α) α) := by
    induction l with
    | nil => rfl
    | cons e l ih =>
      obtain ⟨k, v⟩ := e
      obtain ⟨he, hl⟩ := List.forall_mem_cons.1 hl
      have hget : x.get? k = some v := SortedMap.get?_eq_some_iff.2 he
      have hzero : Vec.amax (Vec.sub v v) = 0 := by
        apply amax_zero habs
        intro a ha
        obtain ⟨i, hi, rfl⟩ := List.getElem_of_mem ha
        simp only [Vec.sub, List.getElem_zipWith]
        exact hx k v hget _ (List.getElem_mem _)
      have hentry : x.entryOf k v.length = .ok v := entryOf_eq_ok.2 ⟨hget, rfl⟩
      rw [List.foldlM_cons, Result.bind_eq_ok]
      refine ⟨0, ?_, ih hl⟩
      simp only [hentry, hzero, hmax, bind, Except.bind, pure, Except.pure]
  exact hfold x.toList fun e he => he

end Assignment

namespace Solver
variable {κ α σ : Type} [Key κ] [Scalar α] {s : Solver κ α σ} {w w' : WorkingSet}
  {x y z : Assignment κ α}

/-- The eliminator's answer depends on the graph it is given only. -/
def AnswersPurely (s : Solver κ α σ) : Prop :=
  ∀ (g : Graph κ α) (state state' : σ),
    (s.eliminator.primal g state).1.result = (s.eliminator.primal g state').1.result

/-- The point is its own candidate: the solution of the working problem changes nothing, and no
row blocks. -/
def Settled (s : Solver κ α σ) (w : WorkingSet) (x : Assignment κ α) : Prop :=
  ∃ working solution, s.Solves w working solution ∧ x.update solution = x ∧
    (∀ r, s.graph.rowKind? r = some .inequality →
      s.graph.Passes w s.config.feasibilityTolerance x r) ∧ x.maxAbsDiff x = .ok 0

/-- A full step leads to a point that is its own candidate. -/
theorem Accepts.settled (habs : Scalar.abs (0 : α) = 0) (hmax : Scalar.max (0 : α) 0 = 0)
    {distance : α} (h : s.Accepts w x y distance) (hy : y.Cancels) : s.Settled w y := by
  obtain ⟨working, solution, hsolves, rfl, hsize, -⟩ := h
  exact ⟨working, solution, hsolves, Assignment.update_update_same x solution,
    Graph.stepSize_eq_none.1 hsize, Assignment.maxAbsDiff_self habs hmax hy⟩

/-- From a point that is its own candidate no step is taken. -/
theorem Settled.not_stepTaken (hpure : s.AnswersPurely) (htol : 0 ≤ s.config.solutionTolerance)
    (h : s.Settled w x) {t : α} {row : Option ConstraintRow} :
    ¬s.Iterates w x (.stepTaken t row) w' y := by
  obtain ⟨working, solution, ⟨hworking, state, hanswer⟩, hself, hpasses, hdistance⟩ := h
  have hsame {working' : Graph κ α} {solution' : Assignment κ α}
      (hsolves : s.Solves w working' solution') : x.update solution' = x := by
    obtain ⟨hworking', state', hanswer'⟩ := hsolves
    cases Except.ok.inj (hworking.symm.trans hworking')
    rw [hpure working state' state, hanswer] at hanswer'
    cases Except.ok.inj hanswer'
    exact hself
  intro hiter
  cases hiter with
  | blocked hsolves hblock _ =>
    rw [hsame hsolves, Graph.stepSize_eq_none.2 hpasses] at hblock
    cases hblock
  | moved haccepts hfar =>
    obtain ⟨_, _, hsolves, hy, -, hd⟩ := haccepts
    rw [hsame hsolves] at hy
    rw [hy, hdistance] at hd
    cases hd
    exact hfar htol

end Solver

def Event.isVisit {κ α : Type} [Key κ] : Event κ α → Bool
  | .visited .. => true
  | _ => false

namespace Solver
variable {κ α σ : Type} [Key κ] [Scalar α] {s : Solver κ α σ} {w w' : WorkingSet}
  {x y z : Assignment κ α}

/-- One for a run that would go on iterating or has failed within an iteration, zero for one that
has ended after its last. -/
def unfinished : Result (Error α) (Optimum κ α) → ℕ
  | .ok _ => 0
  | .error (.cause (.solver (.cycling _))) => 0
  | .error _ => 1

omit [Scalar α] in
theorem unfinished_le (result : Result (Error α) (Optimum κ α)) : unfinished result ≤ 1 := by
  unfold unfinished
  split <;> omega

omit [Scalar α] in
private theorem countP_shown (cost : α) (o : Outcome α) (w : WorkingSet) (x : Assignment κ α)
    (i : ℕ) (events : List (Event κ α)) :
    (shown cost o w x i ++ events).countP Event.isVisit = events.countP Event.isVisit + 1 := by
  simp only [shown, List.cons_append, List.nil_append]
  rw [List.countP_cons_of_neg (by simp [Event.isVisit]), List.countP_cons_of_pos rfl]

/-- A run of the loop iterates no more often than the potential allows. -/
theorem Runs.countP_le (hpure : s.AnswersPurely) (htol : 0 ≤ s.config.solutionTolerance)
    (habs : Scalar.abs (0 : α) = 0) (hmax : Scalar.max (0 : α) 0 = 0)
    (hdetect : s.config.detectCycling = true) {initialCost : α} {fuel i : ℕ}
    {D : List WorkingSet} {events : List (Event κ α)} {result : Result (Error α) (Optimum κ α)}
    (h : s.Runs initialCost fuel i D w x events result) (hw : s.graph.Admits w)
    (hD : s.graph.Dropped D) (hcancels : ∀ y w' j, .visited y w' j ∈ events → y.Cancels) :
    events.countP Event.isVisit + unfinished result ≤ s.graph.potential D w + 1 ∧
      (s.Settled w x →
        events.countP Event.isVisit + unfinished result ≤ s.graph.potential D w) := by
  have hpos (D : List WorkingSet) (w : WorkingSet) : 1 ≤ s.graph.potential D w := Nat.le_add_left ..
  -- Induction on the run. A full step leaves the potential as it is, and the second half pays for
  -- it: the point it reaches is settled, and from there the run has one iteration less to go.
  induction h with
  | @limit i D w x =>
    have hp := hpos D w
    simp [unfinished]
    omega
  | @failed fuel i D w x failure _ =>
    have hp := hpos D w
    have hu := unfinished_le (.error failure : Result (Error α) (Optimum κ α))
    simp only [List.countP_nil, zero_add]
    omega
  | @converged _ i D w w' x y duals cost hiter _ =>
    have hp := hpos D w
    have hc := countP_shown cost (.converged duals) w' y i []
    rw [List.append_nil, List.countP_nil] at hc
    simp only [hc, unfinished]
    omega
  | @cycled _ i D w w' x y row cost hiter _ _ _ =>
    have hp := hpos D w
    have hc := countP_shown cost (.dropped row) w' y i []
    rw [List.append_nil, List.countP_nil] at hc
    simp only [hc, unfinished]
    omega
  | @dropped _ i D w w' x y row cost events result hiter _ hnew _ ih =>
    cases hiter with
    | dropped haccepts _ hworst =>
      have hr : row ∈ w.rows := Graph.mem_of_worstRow? hworst
      have hD' : s.graph.Dropped (w :: D) := by
        refine ⟨List.nodup_cons.2 ⟨hnew hdetect, hD.1⟩, List.forall_mem_cons.2 ⟨⟨hw, ?_⟩, hD.2⟩⟩
        exact ⟨row, WorkingSet.mem_rowSet.2 hr⟩
      rw [if_pos hdetect] at ih
      obtain ⟨hrest, -⟩ := ih (hw.remove row) hD' fun z v j hz =>
        hcancels z v j (List.mem_append_right _ hz)
      have hdrop := Graph.potential_remove hD' hw hr
      rw [countP_shown]
      omega
  | @stepped _ i D w w' x y t row cost events result hiter _ _ ih =>
    have hrest (hw' : s.graph.Admits w') := ih hw' hD fun z v j hz =>
      hcancels z v j (List.mem_append_right _ hz)
    refine ⟨?_, fun hsettled => absurd hiter (hsettled.not_stepTaken hpure htol)⟩
    rw [countP_shown]
    cases hiter with
    | @blocked _ _ _ row _ _ hblock _ =>
      obtain ⟨hr, hnew⟩ := Graph.blocking_row hblock
      have hgrow := Graph.potential_insert hw hr hnew D
      have hle := (hrest (hw.insert hr)).1
      omega
    | moved haccepts _ =>
      have hy : y.Cancels := hcancels y w i (List.mem_append_left _ (by simp [shown]))
      have hle := (hrest hw).2 (haccepts.settled habs hmax hy)
      omega

/-- A run that meets the limit has used up its iterations. -/
private theorem Runs.countP_of_limit {initialCost : α} {fuel i limit : ℕ} {D : List WorkingSet}
    {events : List (Event κ α)} {result : Result (Error α) (Optimum κ α)}
    (h : s.Runs initialCost fuel i D w x events result)
    (hlimit : result = .error (.cause (.solver (.iterationLimit limit)))) :
    events.countP Event.isVisit = fuel := by
  induction h with
  | limit => rfl
  | failed hfails =>
    cases hlimit
    exact absurd trivial (hfails.avoids SolverError.isOwn_givesUp (s.avoids_checkRank _) _ rfl)
  | converged _ _ => cases hlimit
  | cycled _ _ _ _ => cases hlimit
  | dropped _ _ _ _ ih => rw [countP_shown, ih hlimit]
  | stepped _ _ _ ih => rw [countP_shown, ih hlimit]

omit [Scalar α] in
private theorem countP_notices (st : RunState κ α σ) :
    st.notices.countP Event.isVisit = st.events.countP Event.isVisit := by
  rw [RunState.notices, List.countP_filter]
  congr 1
  funext e
  cases e <;> rfl

/-- Iterations that a run has executed: one for every point it has shown, and one more if it has
failed within an iteration. A failure before the first iteration is counted as well. -/
def executed (run : Result (Error α) (Optimum κ α) × RunState κ α σ) : ℕ :=
  run.2.events.countP Event.isVisit + match run.1 with
    | .ok _ => 0
    | .error (.cause (.solver (.cycling _))) => 0
    | .error (.cause (.solver (.iterationLimit _))) => 0
    | .error _ => 1

/-- With cycling detection a run executes at most as many iterations as there are sets of inequality
rows, each as often as there are rows and twice more; with that many allowed it never meets the
limit. The scalars need no law but two on zero, which binary64 numbers have as well. -/
theorem optimize_terminates (hpure : s.AnswersPurely) (htol : 0 ≤ s.config.solutionTolerance)
    (hdetect : s.config.detectCycling = true) (habs : Scalar.abs (0 : α) = 0)
    (hmax : Scalar.max (0 : α) 0 = 0) (initial : Assignment κ α) (w : WorkingSet) (eliminator : σ)
    (hcancels : ∀ y w' i, .visited y w' i ∈ (s.optimize initial w eliminator).2.events →
      y.Cancels) :
    executed (s.optimize initial w eliminator) ≤
      2 ^ s.graph.inequalityRows.length * (s.graph.inequalityRows.length + 2) ∧
    (2 ^ s.graph.inequalityRows.length * (s.graph.inequalityRows.length + 2) ≤
      s.config.maxIterations → ∀ limit, (s.optimize initial w eliminator).1 ≠
        .error (.cause (.solver (.iterationLimit limit)))) := by
  set bound := 2 ^ s.graph.inequalityRows.length * (s.graph.inequalityRows.length + 2) with hbound
  rcases hrun : s.optimize initial w eliminator with ⟨result, st⟩
  rw [hrun] at hcancels
  have hexecuted : executed (result, st) ≤
      st.notices.countP Event.isVisit + unfinished result := by
    rw [countP_notices]
    refine Nat.add_le_add_left ?_ _
    rcases result with (e | _) | optimum
    · cases e with
      | solver e => cases e <;> simp [unfinished]
      | _ => simp [unfinished]
    · simp [unfinished]
    · simp [unfinished]
  have hstart := Graph.potential_start s.graph w
  have hpos : 1 ≤ s.graph.potential [] w := Nat.le_add_left ..
  rcases optimize_cases hrun with ⟨hnone, failure, rfl, hpersists⟩ | ⟨x, cost, hstarts, -, hruns⟩
  · have hle := unfinished_le (.error failure : Result (Error α) (Optimum κ α))
    rw [hnone, List.countP_nil] at hexecuted
    refine ⟨by omega, fun _ limit he => ?_⟩
    cases he
    exact hpersists _ rfl trivial
  · have hcancels' (y : Assignment κ α) (w' : WorkingSet) (j : ℕ)
        (hy : .visited y w' j ∈ st.notices) : y.Cancels :=
      hcancels y w' j (List.mem_of_mem_filter hy)
    obtain ⟨hle, -⟩ := hruns.countP_le hpure htol habs hmax hdetect
      (checkWorkingSet_eq_ok.1 hstarts.workingSet) ⟨List.nodup_nil, by simp⟩ hcancels'
    refine ⟨by omega, fun hfuel limit he => ?_⟩
    rw [hruns.countP_of_limit he, show result = _ from he] at hle
    simp only [unfinished] at hle
    omega

/-- With one row there is room for six iterations; the run on the half-line executes two. -/
theorem halfLine_terminates :
    executed (halfLine.optimize (.single 0 0) WorkingSet.empty ()) = 2 ∧
      executed (halfLine.optimize (.single 0 0) WorkingSet.empty ()) ≤ 6 ∧
      ∀ limit, (halfLine.optimize (.single 0 0) WorkingSet.empty ()).1 ≠
        .error (.cause (.solver (.iterationLimit limit))) := by
  have hrows : halfLine.graph.inequalityRows.length = 1 := by decide +kernel
  obtain ⟨hle, hlimit⟩ := optimize_terminates (s := halfLine) (fun _ _ _ => rfl)
    (by decide +kernel) rfl (by decide +kernel) (by decide +kernel) (.single 0 0)
    WorkingSet.empty () fun y _ _ _ _ _ _ a _ => sub_self a
  rw [hrows] at hle hlimit
  exact ⟨by decide +kernel, hle, hlimit (by decide +kernel)⟩

end Solver

end GaussianProgram
