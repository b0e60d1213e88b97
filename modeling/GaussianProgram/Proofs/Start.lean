import GaussianProgram.Proofs.Constraints
import GaussianProgram.Proofs.Loop

/-! What a start guarantees: inequality rows in the working set, a point with exactly the variables
of the graph, and rows that hold up to the tolerance if they were checked. -/
namespace GaussianProgram

namespace Graph
variable {κ α : Type} [Key κ]

def Admits (g : Graph κ α) (w : WorkingSet) : Prop :=
  ∀ r ∈ w.rows, g.rowKind? r = some .inequality

instance (g : Graph κ α) (w : WorkingSet) : Decidable (g.Admits w) :=
  inferInstanceAs (Decidable (∀ r ∈ w.rows, g.rowKind? r = some .inequality))

theorem Admits.insert {g : Graph κ α} {w : WorkingSet} {r : ConstraintRow} (h : g.Admits w)
    (hr : g.rowKind? r = some .inequality) : g.Admits (w.insert r).2 := by
  intro a ha
  rcases WorkingSet.mem_rows_insert.1 ha with rfl | ha
  · exact hr
  · exact h a ha

theorem Admits.remove {g : Graph κ α} {w : WorkingSet} (h : g.Admits w) (r : ConstraintRow) :
    g.Admits (w.remove r).2 := fun a ha => h a (WorkingSet.mem_rows_remove.1 ha).2

/-- Up to the tolerance every equality row holds, and every inequality row is not exceeded. -/
structure Feasible [ExactScalar α] (g : Graph κ α) (tolerance : α) (x : Assignment κ α) :
    Prop where
  equality : ∀ r, g.rowKind? r = some .equality →
    ∃ slack, g.rowSlack r x = .ok slack ∧ |slack| ≤ tolerance
  inequality : ∀ r, g.rowKind? r = some .inequality →
    ∃ slack, g.rowSlack r x = .ok slack ∧ -tolerance ≤ slack

/-- The row is violated by `v`, which is more than the tolerance. -/
@[mk_iff]
structure Exceeds [ExactScalar α] (g : Graph κ α) (tolerance : α) (x : Assignment κ α)
    (r : ConstraintRow) (v : α) : Prop where
  violation : g.rowKind? r = some .equality ∧ v = |g.slack r x.entries| ∨
    g.rowKind? r = some .inequality ∧ v = -g.slack r x.entries
  tolerance_lt : tolerance < v

/-- A violated row is one of a constraint factor. -/
theorem Exceeds.exists_constraintAt? [ExactScalar α] {g : Graph κ α} {tolerance : α}
    {x : Assignment κ α} {r : ConstraintRow} {v : α} (h : g.Exceeds tolerance x r v) :
    ∃ c, g.constraintAt? r.factor = some c ∧ r.row < c.rows := by
  have hkind : ∃ kind, g.rowKind? r = some kind := by
    rcases h.violation with ⟨hr, -⟩ | ⟨hr, -⟩ <;> exact ⟨_, hr⟩
  obtain ⟨kind, hr⟩ := hkind
  obtain ⟨c, hc, hk⟩ := rowKind?_eq_some.1 hr
  exact ⟨c, hc, LinearRows.rowKind?_lt hk⟩

/-- Where all rows can be computed, a point is feasible if none of them is violated. -/
theorem feasible_iff [ExactScalar α] {g : Graph κ α} {tolerance : α} {x : Assignment κ α}
    (hx : ∀ r kind, g.rowKind? r = some kind → g.rowSlack r x = .ok (g.slack r x.entries)) :
    g.Feasible tolerance x ↔ ∀ r v, ¬g.Exceeds tolerance x r v := by
  constructor
  · rintro h r v ⟨⟨hr, rfl⟩ | ⟨hr, rfl⟩, hlt⟩
    · obtain ⟨slack, hs, hle⟩ := h.equality r hr
      cases Except.ok.inj ((hx r _ hr).symm.trans hs)
      exact hle.not_gt hlt
    · obtain ⟨slack, hs, hle⟩ := h.inequality r hr
      cases Except.ok.inj ((hx r _ hr).symm.trans hs)
      exact (neg_le.1 hle).not_gt hlt
  · intro h
    refine ⟨fun r hr => ⟨_, hx r _ hr, ?_⟩, fun r hr => ⟨_, hx r _ hr, neg_le.1 ?_⟩⟩
    · exact not_lt.1 fun hlt => h r _ ⟨.inl ⟨hr, rfl⟩, hlt⟩
    · exact not_lt.1 fun hlt => h r _ ⟨.inr ⟨hr, rfl⟩, hlt⟩

end Graph

namespace Solver
variable {κ α σ : Type} [Key κ]

theorem checkWorkingSet_eq_ok {g : Graph κ α} {w : WorkingSet} :
    checkWorkingSet g w = .ok () ↔ g.Admits w := by
  unfold checkWorkingSet Graph.Admits
  cases hfind : w.rows.find? fun r => !g.isInequality r with
  | none =>
    simp only [true_iff]
    intro r hr
    have hnot := List.find?_eq_none.1 hfind r hr
    exact Graph.isInequality_iff.1 (by simpa using hnot)
  | some r =>
    simp only [Result.fail, reduceCtorEq, false_iff, not_forall]
    have hr := List.find?_some hfind
    refine ⟨r, List.mem_of_find?_eq_some hfind, fun hk => ?_⟩
    simp [Graph.isInequality_iff.2 hk] at hr

theorem initialEntry_eq_ok {initial : Assignment κ α} {k : κ} {n : ℕ} {e : κ × Vec α} :
    initialEntry initial k n = .ok e ↔
      e.1 = k ∧ initial.get? k = some e.2 ∧ e.2.length = n := by
  obtain ⟨a, v⟩ := e
  unfold initialEntry
  cases initial.get? k with
  | none => simp
  | some u =>
    simp only [Option.some.injEq]
    split_ifs with hlen
    · simp only [Except.ok.injEq, Prod.mk.injEq]
      constructor
      · rintro ⟨rfl, rfl⟩
        exact ⟨rfl, rfl, hlen⟩
      · rintro ⟨rfl, rfl, -⟩
        exact ⟨rfl, rfl⟩
    · simp only [false_iff, not_and]
      rintro - rfl
      exact hlen

/-- The point of a start has exactly the variables of the graph, with their initial values. -/
theorem restrict_spec {g : Graph κ α} {initial x : Assignment κ α}
    (h : restrict g initial = .ok x) :
    g.Fits x ∧ ∀ k v, x.get? k = some v → initial.get? k = some v := by
  obtain ⟨dims, hdims, h⟩ := Result.bind_eq_ok.1 h
  rw [Result.mapCause_eq_ok, Graph.dimensions, Result.mapCause_eq_ok,
    Result.ofExcept_eq_ok] at hdims
  obtain ⟨entries, hentries, h⟩ := Result.bind_eq_ok.1 h
  cases Result.pure_eq_ok.1 h
  rw [Result.mapM_eq_ok] at hentries
  have hpicked : List.Forall₂ (fun d e => e.1 = d.1 ∧ initial.get? d.1 = some e.2 ∧
      e.2.length = d.2) dims.toList entries := by
    apply hentries.imp
    intro d e he
    rwa [Result.mapCause_eq_ok, Result.ofExcept_eq_ok, initialEntry_eq_ok] at he
  have hget (k : κ) := SortedMap.get?_ofList_of_forall₂ (k := k)
    (R := fun k n v => initial.get? k = some v ∧ v.length = n) hpicked
  refine ⟨Graph.fits_of_dims hdims fun k => ?_, fun k v hv => ?_⟩
  · rcases hget k with ⟨hdim, hnone⟩ | ⟨n, v, hdim, hv, -, hlen⟩
    · rw [Assignment.dim?, hnone, hdim, Option.map_none]
    · rw [Assignment.dim?, hv, hdim, Option.map_some, hlen]
  · rcases hget k with ⟨-, hnone⟩ | ⟨_, _, -, hv', hinitial, -⟩
    · cases hnone.symm.trans hv
    · cases hv'.symm.trans hv
      exact hinitial

section Restricted
variable {g : Graph κ α} {initial x : Assignment κ α} (h : restrict g initial = .ok x)
include h

theorem covers_of_restrict : g.Covers initial := (restrict_spec h).1.1.mono fun k n hn => by
  obtain ⟨v, hv, hlen⟩ := Assignment.dim?_eq_some.1 hn
  exact Assignment.dim?_eq_some.2 ⟨v, (restrict_spec h).2 k v hv, hlen⟩

theorem entries_of_restrict [ExactScalar α] {f : Factor κ α} (hf : f ∈ g.factors) {k : κ}
    (hk : k ∈ f.keys) : x.entries k = initial.entries k := by
  obtain ⟨hfits, hvalues⟩ := restrict_spec h
  obtain ⟨v, hv⟩ := SortedMap.mem_keys_iff.1 (hfits.1.mem_keys hf hk)
  funext i
  rw [Assignment.entries_eq hv, Assignment.entries_eq (hvalues k v hv)]

/-- Rows have the same slack at a start assignment and at its restriction. -/
theorem slack_of_restrict [ExactScalar α] (r : ConstraintRow) :
    g.slack r x.entries = g.slack r initial.entries :=
  Graph.slack_congr r fun c hc _ hk =>
    entries_of_restrict h (Graph.mem_factors_of_constraintAt? hc) (Factor.keys_linear c ▸ hk)

end Restricted

section Exact
variable [ExactScalar α] {g : Graph κ α} {tolerance : α} {x : Assignment κ α}

def checkRow (g : Graph κ α) (tolerance : α) (x : Assignment κ α) (r : ConstraintRow) :
    Result (SolverError α) Unit :=
  match violation? (g.rowKind? r) (-g.slack r x.entries) with
  | none => .ok ()
  | some violation =>
    if tolerance < violation then Result.fail (.infeasibleStart r violation) else .ok ()

theorem checkRow_eq_error {r : ConstraintRow} {failure : Failure (SolverError α)} :
    checkRow g tolerance x r = .error failure ↔
      ∃ v, g.Exceeds tolerance x r v ∧ failure = .cause (.infeasibleStart r v) := by
  have hbound (v : α) : (if tolerance < v then Result.fail (.infeasibleStart r v)
      else .ok () : Result (SolverError α) Unit) = .error failure ↔
        tolerance < v ∧ failure = .cause (.infeasibleStart r v) := by
    split_ifs with hlt
    · simp [Result.fail, hlt, eq_comm]
    · simp [hlt]
  unfold checkRow
  rcases hk : g.rowKind? r with _ | _ | _
  · simp [violation?, Graph.exceeds_iff, hk]
  · simp [violation?, Graph.exceeds_iff, hk, hbound, ExactScalar.abs_eq, and_assoc]
  · simp [violation?, Graph.exceeds_iff, hk, hbound, and_assoc]

theorem checkRow_eq_ok {r : ConstraintRow} :
    checkRow g tolerance x r = .ok () ↔ ∀ v, ¬g.Exceeds tolerance x r v := by
  cases hcheck : checkRow g tolerance x r with
  | error failure =>
    obtain ⟨v, hv, -⟩ := checkRow_eq_error.1 hcheck
    simpa using ⟨v, hv⟩
  | ok _ =>
    simp only [true_iff]
    intro v hv
    cases hcheck.symm.trans (checkRow_eq_error.2 ⟨v, hv, rfl⟩)

/-- A factor whose variables are there is checked row by row. -/
theorem checkFactorFeasible_eq {i : ℕ} {c : LinearRows κ α} (hc : g.constraintAt? i = some c)
    (hx : x.HasDims c.keyDims) : checkFactorFeasible tolerance x i c =
      (List.range c.rows).forM fun row => checkRow g tolerance x ⟨i, row⟩ := by
  have hresidual : (Result.ofExcept (c.residual x)).mapCause SolverError.factor =
      .ok ((List.range c.rows).map fun row => c.gap row x.entries) := by
    rw [Result.mapCause_eq_ok, Result.ofExcept_eq_ok, LinearRows.residual_eq_ok]
    exact ⟨hx, rfl⟩
  have hentries : ((List.range c.rows).map fun row => c.gap row x.entries).zipIdx =
      (List.range c.rows).map fun row => (c.gap row x.entries, row) :=
    List.ext_getElem (by simp) fun row _ _ => by simp
  have hgap (row : ℕ) : c.gap row x.entries = -g.slack ⟨i, row⟩ x.entries := by
    rw [Graph.slack_eq hc, LinearRows.gap, neg_sub]
  have hkind (row : ℕ) : c.rowKind? row = g.rowKind? ⟨i, row⟩ := by
    rw [Graph.rowKind?, hc, Option.bind_some]
  rw [checkFactorFeasible, hresidual]
  change List.forM _ _ = _
  rw [hentries]
  refine (List.forM_map (m := Result (SolverError α))).trans ?_
  simp only [hgap, hkind]
  rfl

/-- The checks pass where all constraint rows can be computed and none of them is violated. -/
theorem checkFeasible_eq_ok : checkFeasible g tolerance x = .ok () ↔
    ∀ i c, g.constraintAt? i = some c → x.HasDims c.keyDims ∧
      ∀ row < c.rows, ∀ v, ¬g.Exceeds tolerance x ⟨i, row⟩ v := by
  rw [checkFeasible, Result.forM_eq_ok]
  have hfactor {i : ℕ} {c : LinearRows κ α} (hc : g.constraintAt? i = some c) :
      checkFactorFeasible tolerance x i c = .ok () ↔ x.HasDims c.keyDims ∧
        ∀ row < c.rows, ∀ v, ¬g.Exceeds tolerance x ⟨i, row⟩ v := by
    by_cases hx : x.HasDims c.keyDims
    · rw [checkFactorFeasible_eq hc hx, Result.forM_eq_ok]
      simp only [hx, true_and, List.mem_range, checkRow_eq_ok]
    · simp only [hx, false_and, iff_false]
      intro hok
      obtain ⟨_, hresidual, -⟩ := Result.bind_eq_ok.1 hok
      rw [Result.mapCause_eq_ok, Result.ofExcept_eq_ok, LinearRows.residual_eq_ok] at hresidual
      exact hx hresidual.1
  exact ⟨fun h i c hc => (hfactor hc).1 (h _ (Graph.mem_constraints.2 hc)),
    fun h e he => (hfactor (Graph.mem_constraints.1 he)).2 (h _ _ (Graph.mem_constraints.1 he))⟩

/-- A checked point is feasible up to the tolerance. -/
theorem checkFeasible_spec (h : checkFeasible g tolerance x = .ok ()) :
    g.Feasible tolerance x := by
  rw [checkFeasible_eq_ok] at h
  refine (Graph.feasible_iff fun r kind hr => ?_).2 fun r v hv => ?_
  · obtain ⟨c, hc, hk⟩ := Graph.rowKind?_eq_some.1 hr
    exact Graph.rowSlack_eq_ok.2 ⟨⟨c, hc, LinearRows.rowKind?_lt hk, (h _ _ hc).1⟩, rfl⟩
  · obtain ⟨c, hc, hlt⟩ := hv.exists_constraintAt?
    exact (h _ _ hc).2 _ hlt v hv

/-- Feasible points pass the check. -/
theorem checkFeasible_of_feasible (hx : g.Covers x) (h : g.Feasible tolerance x) :
    checkFeasible g tolerance x = .ok () :=
  checkFeasible_eq_ok.2 fun _ _ hc => ⟨hx _ (Graph.mem_factors_of_constraintAt? hc),
    fun _ _ v => (Graph.feasible_iff fun _ _ => hx.rowSlack_eq).1 h _ v⟩

end Exact

end Solver

end GaussianProgram
