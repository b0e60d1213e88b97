import GaussianProgram.Proofs.Loop
import GaussianProgram.Proofs.RowOrder
import GaussianProgram.Proofs.Start

/-! Which starts are accepted, and why others are not. The conditions are checked one after the
other, and each check names the first row or key at which its condition does not hold. -/
namespace GaussianProgram

/-- `b` has the property, and every other one that has it comes later. -/
structure IsFirst {β : Type} [Ord β] (P : β → Prop) (b : β) : Prop where
  holds : P b
  before : ∀ b', P b' → b' = b ∨ compare b b' = .lt

namespace Graph
variable {κ α : Type} [Key κ] {g : Graph κ α}

/-- No two factors ask for different dimensions of one key. -/
def Coherent (g : Graph κ α) : Prop :=
  ∀ f ∈ g.factors, ∀ f' ∈ g.factors, ∀ k n n', (k, n) ∈ f.keyDims → (k, n') ∈ f'.keyDims → n = n'

theorem coherent_of_keyDimensions {dims : SortedMap κ ℕ} (h : g.keyDimensions = .ok dims) :
    g.Coherent := by
  intro f hf f' hf' k n n' hn hn'
  have hget := (keyDimensions_spec h).2 ⟨f, hf, hn⟩
  exact Option.some.inj (hget.symm.trans ((keyDimensions_spec h).2 ⟨f', hf', hn'⟩))

/-- Factors whose variables one assignment has agree about them. -/
theorem Covers.coherent {x : Assignment κ α} (h : g.Covers x) : g.Coherent :=
  fun f hf f' hf' _ _ _ hn hn' => Option.some.inj ((h f hf _ hn).symm.trans (h f' hf' _ hn'))

/-- The assignment does not have the key in a dimension that some factor asks for. -/
def Lacks (g : Graph κ α) (x : Assignment κ α) (k : κ) : Prop :=
  ∃ f ∈ g.factors, ∃ n, (k, n) ∈ f.keyDims ∧ x.dim? k ≠ some n

theorem Covers.not_lacks {x : Assignment κ α} (h : g.Covers x) (k : κ) : ¬g.Lacks x k := by
  rintro ⟨f, hf, n, hn, hne⟩
  exact hne (h f hf _ hn)

end Graph

namespace Solver
variable {κ α σ : Type} [Key κ]

/-- A working set that is not accepted has a row that is no inequality row; the first is named. -/
theorem checkWorkingSet_eq_error {g : Graph κ α} {w : WorkingSet}
    {failure : Failure (SolverError α)} (h : checkWorkingSet g w = .error failure) :
    ∃ r, failure = .cause (.invalidWorkingSet (.notInequality r)) ∧
      IsFirst (fun r => r ∈ w.rows ∧ g.rowKind? r ≠ some .inequality) r := by
  have hbad {r : ConstraintRow} : (!g.isInequality r) = true ↔ g.rowKind? r ≠ some .inequality := by
    rw [Bool.not_eq_true', ← Bool.not_eq_true, Graph.isInequality_iff]
  unfold checkWorkingSet at h
  split at h
  next r hfind =>
    cases h
    obtain ⟨hr, before, after, hrows, hgood⟩ := List.find?_eq_some_iff_append.1 hfind
    have hmem : r ∈ w.rows := hrows ▸ List.mem_append_right _ List.mem_cons_self
    refine ⟨r, rfl, ⟨hmem, hbad.1 hr⟩, ?_⟩
    rintro r' ⟨hr', hkind⟩
    have hascending := hrows ▸ w.ascending_rows
    rw [hrows, List.mem_append, List.mem_cons] at hr'
    rcases hr' with hr' | rfl | hr'
    · simpa [hbad.2 hkind] using hgood r' hr'
    · exact .inl rfl
    · exact .inr ((List.pairwise_cons.1 (List.pairwise_append.1 hascending).2.1).1 r' hr')
  next => cases h

theorem initialEntry_eq_error {initial : Assignment κ α} {k : κ} {n : ℕ} {e : GraphError α} :
    initialEntry initial k n = .error e ↔
      initial.get? k = none ∧ e = .missingValue (Key.text k) ∨
      ∃ v, initial.get? k = some v ∧ v.length ≠ n ∧
        e = .dimensionMismatch (.initial (Key.text k) v.length n) := by
  unfold initialEntry
  cases initial.get? k with
  | none => simp [eq_comm]
  | some v =>
    simp only [reduceCtorEq, false_and, false_or, Option.some.injEq, exists_eq_left']
    split_ifs with hlen
    · simp [hlen]
    · simp [hlen, eq_comm]

/-- A restriction fails for the disagreement of two factors about a key, or at the first key that
the assignment does not have in the dimension of the graph. -/
theorem restrict_eq_error {g : Graph κ α} {initial : Assignment κ α}
    {failure : Failure (SolverError α)} (h : restrict g initial = .error failure) :
    (∃ fault, failure = .cause (.graph (.dimensionMismatch fault)) ∧
      g.keyDimensions = .error fault) ∨
    ∃ f ∈ g.factors, ∃ k n e, (k, n) ∈ f.keyDims ∧ failure = .cause (.graph e) ∧
      g.Coherent ∧ initialEntry initial k n = .error e ∧ IsFirst (g.Lacks initial) k := by
  rw [restrict, Graph.dimensions] at h
  cases hdims : g.keyDimensions with
  | error fault =>
    rw [hdims] at h
    cases h
    exact .inl ⟨fault, rfl, rfl⟩
  | ok dims =>
    have hmem {k : κ} {n : ℕ} : (k, n) ∈ dims.toList ↔ ∃ f ∈ g.factors, (k, n) ∈ f.keyDims := by
      rw [← SortedMap.get?_eq_some_iff, Graph.keyDimensions_spec hdims]
    rw [hdims] at h
    change (dims.toList.mapM (fun e => (Result.ofExcept
      (initialEntry initial e.1 e.2)).mapCause SolverError.graph) >>= fun entries =>
        pure (SortedMap.ofList entries)) = _ at h
    obtain ⟨⟨k, n⟩, hkn, hfail, hbefore⟩ :=
      Result.exists_first_of_mapM_eq_error dims.ascending (Result.bind_pure_eq_error.1 h)
    obtain ⟨f, hf, hn⟩ := hmem.1 hkn
    dsimp only at hfail
    cases hentry : initialEntry initial k n with
    | ok entry =>
      rw [hentry] at hfail
      cases hfail
    | error e =>
      rw [hentry] at hfail
      cases hfail
      refine .inr ⟨f, hf, k, n, e, hn, rfl, Graph.coherent_of_keyDimensions hdims, hentry,
        ⟨f, hf, n, hn, fun hdim => ?_⟩, ?_⟩
      · obtain ⟨v, hv, hlen⟩ := Assignment.dim?_eq_some.1 hdim
        cases hentry.symm.trans (initialEntry_eq_ok (e := (k, v)).2 ⟨rfl, hv, hlen⟩)
      · rintro k' ⟨f', hf', n', hn', hne⟩
        refine (hbefore (k', n') (hmem.2 ⟨f', hf', hn'⟩) fun entry hok => hne ?_).imp_left
          (congrArg Prod.fst)
        rw [Result.mapCause_eq_ok, Result.ofExcept_eq_ok, initialEntry_eq_ok] at hok
        exact Assignment.dim?_eq_some.2 ⟨_, hok.2⟩

section Exact
variable [ExactScalar α] {s : Solver κ α σ} {initial x : Assignment κ α} {w : WorkingSet}

/-- A point with all variables is infeasible at the first row that is violated. -/
theorem checkFeasible_eq_error {g : Graph κ α} {tolerance : α} (hx : g.Covers x)
    {failure : Failure (SolverError α)} (h : checkFeasible g tolerance x = .error failure) :
    ∃ r v, failure = .cause (.infeasibleStart r v) ∧ g.Exceeds tolerance x r v ∧
      IsFirst (fun r => ∃ v, g.Exceeds tolerance x r v) r := by
  have hfactor {i : ℕ} {c : LinearRows κ α} (hc : g.constraintAt? i = some c) :
      checkFactorFeasible tolerance x i c =
        (List.range c.rows).forM fun row => checkRow g tolerance x ⟨i, row⟩ :=
    checkFactorFeasible_eq hc (hx _ (Graph.mem_factors_of_constraintAt? hc))
  have hviolated {r : ConstraintRow} {v : α} (hv : g.Exceeds tolerance x r v) :
      checkRow g tolerance x r ≠ .ok () := fun hok => checkRow_eq_ok.1 hok v hv
  obtain ⟨⟨i, c⟩, hmem, hfail, hbefore⟩ :=
    Result.exists_first_of_forM_eq_error g.ascending_constraints h
  obtain ⟨row, -, hrow, hbeforeRow⟩ := Result.exists_first_of_forM_eq_error
    List.pairwise_lt_range ((hfactor (Graph.mem_constraints.1 hmem)).symm.trans hfail)
  obtain ⟨v, hv, rfl⟩ := checkRow_eq_error.1 hrow
  refine ⟨⟨i, row⟩, v, rfl, hv, ⟨v, hv⟩, ?_⟩
  rintro r' ⟨v', hv'⟩
  obtain ⟨c', hc', hlt⟩ := hv'.exists_constraintAt?
  have hfails : checkFactorFeasible tolerance x r'.factor c' ≠ .ok () := by
    rw [hfactor hc', ne_eq, Result.forM_eq_ok]
    exact fun hok => hviolated hv' (hok _ (List.mem_range.2 hlt))
  rcases hbefore (r'.factor, c') (Graph.mem_constraints.2 hc') hfails with he | hlater
  · cases he
    rcases hbeforeRow r'.row (List.mem_range.2 hlt) (hviolated hv') with rfl | hlater
    · exact .inl rfl
    · exact .inr (ConstraintRow.compare_eq_lt.2 (.inr ⟨rfl, hlater⟩))
  · exact .inr (ConstraintRow.compare_eq_lt.2 (.inl hlater))

theorem exceeds_of_restrict {g : Graph κ α} (h : restrict g initial = .ok x) {tolerance : α}
    {r : ConstraintRow} {v : α} : g.Exceeds tolerance x r v ↔ g.Exceeds tolerance initial r v := by
  rw [Graph.exceeds_iff, Graph.exceeds_iff, slack_of_restrict h]

/-- What a start is accepted for. -/
structure Admissible (s : Solver κ α σ) (initial : Assignment κ α) (w : WorkingSet) : Prop where
  workingSet : s.graph.Admits w
  dimensions : s.graph.Coherent
  point : s.graph.Covers initial
  feasible : s.config.checkInitialFeasibility = true →
    s.graph.Feasible s.config.feasibilityTolerance initial

/-- Why a start is not accepted: the first of the conditions that does not hold, at the first row or
key at which it does not. -/
inductive Refuses (s : Solver κ α σ) (initial : Assignment κ α) (w : WorkingSet) :
    SolverError α → Prop
  | workingSet {r : ConstraintRow}
      (hfirst : IsFirst (fun r => r ∈ w.rows ∧ s.graph.rowKind? r ≠ some .inequality) r) :
      Refuses s initial w (.invalidWorkingSet (.notInequality r))
  | dimensions {i j : ℕ} {f f' : Factor κ α} {k : κ} {n m : ℕ} (hw : s.graph.Admits w)
      (hi : s.graph.factors[i]? = some f) (hn : (k, n) ∈ f.keyDims) (hlt : j < i)
      (hj : s.graph.factors[j]? = some f') (hm : (k, m) ∈ f'.keyDims) (hne : m ≠ n) :
      Refuses s initial w (.graph (.dimensionMismatch (.factors i (Key.text k) n m)))
  | missing {k : κ} (hw : s.graph.Admits w) (hcoherent : s.graph.Coherent)
      (hfirst : IsFirst (s.graph.Lacks initial) k) (hnone : initial.get? k = none) :
      Refuses s initial w (.graph (.missingValue (Key.text k)))
  | dimension {f : Factor κ α} {k : κ} {n : ℕ} {v : Vec α} (hw : s.graph.Admits w)
      (hcoherent : s.graph.Coherent) (hfirst : IsFirst (s.graph.Lacks initial) k)
      (hf : f ∈ s.graph.factors) (hn : (k, n) ∈ f.keyDims) (hv : initial.get? k = some v)
      (hne : v.length ≠ n) :
      Refuses s initial w (.graph (.dimensionMismatch (.initial (Key.text k) v.length n)))
  | infeasible {r : ConstraintRow} {v : α} (hw : s.graph.Admits w)
      (hcoherent : s.graph.Coherent) (hcovers : s.graph.Covers initial)
      (hcheck : s.config.checkInitialFeasibility = true)
      (hfirst : IsFirst
        (fun r => ∃ v, s.graph.Exceeds s.config.feasibilityTolerance initial r v) r)
      (hv : s.graph.Exceeds s.config.feasibilityTolerance initial r v) :
      Refuses s initial w (.infeasibleStart r v)

theorem Refuses.not_admissible {e : SolverError α} (h : s.Refuses initial w e) :
    ¬s.Admissible initial w := by
  intro ha
  cases h with
  | workingSet hfirst => exact hfirst.holds.2 (ha.workingSet _ hfirst.holds.1)
  | dimensions _ hi hn _ hj hm hne =>
    exact hne (ha.dimensions _ (List.mem_of_getElem? hj) _ (List.mem_of_getElem? hi) _ _ _ hm hn)
  | missing _ _ hfirst _ => exact ha.point.not_lacks _ hfirst.holds
  | dimension _ _ hfirst _ _ _ _ => exact ha.point.not_lacks _ hfirst.holds
  | infeasible _ _ hcovers hcheck _ hv =>
    exact (Graph.feasible_iff fun _ _ => hcovers.rowSlack_eq).1 (ha.feasible hcheck) _ _ hv

theorem startChecks_eq_ok : s.startChecks initial w = .ok x ↔ s.Starts initial w x := by
  simp only [startChecks, Result.bind_eq_ok]
  constructor
  · rintro ⟨_, hset, x', hpoint, h⟩
    split_ifs at h with hcheck
    · obtain ⟨_, hfeasible, hx⟩ := Result.bind_eq_ok.1 h
      cases Result.pure_eq_ok.1 hx
      exact ⟨hset, hpoint, fun _ => hfeasible⟩
    · cases Result.pure_eq_ok.1 h
      exact ⟨hset, hpoint, fun hask => absurd hask hcheck⟩
  · rintro ⟨hset, hpoint, hfeasible⟩
    refine ⟨(), hset, x, hpoint, ?_⟩
    split_ifs with hcheck
    · exact Result.bind_eq_ok.2 ⟨(), hfeasible hcheck, rfl⟩
    · rfl

/-- A start whose checks pass meets all conditions. -/
theorem Starts.admissible (h : s.Starts initial w x) : s.Admissible initial w where
  workingSet := checkWorkingSet_eq_ok.1 h.workingSet
  dimensions := (covers_of_restrict h.point).coherent
  point := covers_of_restrict h.point
  feasible hcheck := by
    have hfits := (restrict_spec h.point).1
    have hx := checkFeasible_spec (h.feasible hcheck)
    rw [Graph.feasible_iff fun _ _ => hfits.1.rowSlack_eq] at hx
    rw [Graph.feasible_iff fun _ _ => (covers_of_restrict h.point).rowSlack_eq]
    exact fun r v hv => hx r v ((exceeds_of_restrict h.point).2 hv)

/-- The checks fail for the first condition that does not hold. -/
theorem startChecks_eq_error {failure : Failure (SolverError α)}
    (h : s.startChecks initial w = .error failure) :
    ∃ e, failure = .cause e ∧ s.Refuses initial w e := by
  rcases Result.bind_eq_error.1 h with hset | ⟨_, hset, h⟩
  · obtain ⟨r, rfl, hfirst⟩ := checkWorkingSet_eq_error hset
    exact ⟨_, rfl, .workingSet hfirst⟩
  have hw : s.graph.Admits w := checkWorkingSet_eq_ok.1 hset
  rcases Result.bind_eq_error.1 h with hpoint | ⟨x, hpoint, h⟩
  · rcases restrict_eq_error hpoint with ⟨fault, rfl, hfault⟩ | hentry
    · obtain ⟨i, j, f, f', k, n, m, rfl, hi, hn, hlt, hj, hm, hne⟩ :=
        Graph.keyDimensions_eq_error hfault
      exact ⟨_, rfl, .dimensions hw hi hn hlt hj hm hne⟩
    · obtain ⟨f, hf, k, n, e, hn, rfl, hcoherent, he, hfirst⟩ := hentry
      rcases initialEntry_eq_error.1 he with ⟨hnone, rfl⟩ | ⟨v, hv, hne, rfl⟩
      · exact ⟨_, rfl, .missing hw hcoherent hfirst hnone⟩
      · exact ⟨_, rfl, .dimension hw hcoherent hfirst hf hn hv hne⟩
  have hcovers := covers_of_restrict hpoint
  split_ifs at h with hcheck
  · have hfail : checkFeasible s.graph s.config.feasibilityTolerance x = .error failure :=
      Result.bind_pure_eq_error.1 h
    obtain ⟨r, v, rfl, hv, hfirst⟩ := checkFeasible_eq_error (restrict_spec hpoint).1.1 hfail
    simp only [exceeds_of_restrict hpoint] at hv hfirst
    exact ⟨_, rfl, .infeasible hw hcovers.coherent hcovers hcheck hfirst hv⟩
  · cases h

/-- A start is accepted, or it is refused for a reason. -/
theorem starts_or_refuses (s : Solver κ α σ) (initial : Assignment κ α) (w : WorkingSet) :
    (∃ x, s.Starts initial w x) ∨
      ∃ e, s.startChecks initial w = .error (.cause e) ∧ s.Refuses initial w e := by
  cases hchecks : s.startChecks initial w with
  | ok x => exact .inl ⟨x, startChecks_eq_ok.1 hchecks⟩
  | error failure =>
    obtain ⟨e, rfl, hrefuses⟩ := startChecks_eq_error hchecks
    exact .inr ⟨e, rfl, hrefuses⟩

end Exact

end Solver

end GaussianProgram
