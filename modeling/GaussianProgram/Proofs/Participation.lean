import GaussianProgram.Proofs.SharedRows

/-! Multipliers by factor. The dual graph asks for one multiplier for every row of every constraint
factor that takes part, whatever the scalars are, and some factor takes part exactly if the status
of a run says that a row is active. -/
namespace GaussianProgram

namespace Graph
variable {κ α : Type} [Key κ] {g : Graph κ α} {w : WorkingSet}

/-- No factor takes part exactly if there is no equality row and no row in the working set. -/
theorem participating_eq_nil (hw : g.Admits w) :
    g.participating w = [] ↔ w.rows = [] ∧ ∀ r, g.rowKind? r ≠ some .equality := by
  constructor
  · intro hnone
    have hnot {r : ConstraintRow} {c : LinearRows κ α} (hc : g.constraintAt? r.factor = some c)
        (hr : c.rowKind? r.row = some .equality ∨ r ∈ w.rows) : False :=
      List.not_mem_nil (hnone ▸ mem_participating.2 ⟨hc, r.row, hr⟩)
    refine ⟨List.eq_nil_iff_forall_not_mem.2 fun r hr => ?_, fun r hr => ?_⟩
    · obtain ⟨c, hc, -⟩ := rowKind?_eq_some.1 (hw r hr)
      exact hnot hc (.inr hr)
    · obtain ⟨c, hc, hk⟩ := rowKind?_eq_some.1 hr
      exact hnot hc (.inl hk)
  · rintro ⟨hrows, hkinds⟩
    refine List.eq_nil_iff_forall_not_mem.2 fun ⟨i, c⟩ hmem => ?_
    obtain ⟨hc, row, hk | hin⟩ := mem_participating.1 hmem
    · exact hkinds ⟨i, row⟩ (rowKind?_eq_some.2 ⟨c, hc, hk⟩)
    · exact List.not_mem_nil (hrows ▸ hin)

variable [Scalar α]

/-- The condition for a key is over the listed factors that have the key. -/
theorem keyDims_condition {l : List (ℕ × LinearRows κ α)} {k : κ} {part : Vec α}
    {c : LinearRows ℕ α} (hterms : c.terms = (l.filter fun e => decide (k ∈ e.2.keys)).map
      (columnsOf w k part.length)) {e : ℕ × ℕ} :
    e ∈ c.keyDims ↔ ∃ f, (e.1, f) ∈ l ∧ k ∈ f.keys ∧ f.rows = e.2 := by
  have hcols (f : ℕ × LinearRows κ α) : (columnsOf w k part.length f).2.cols = f.2.rows := by
    simp [columnsOf, Matrix.ofColumns]
  rw [LinearRows.keyDims, hterms, List.map_map, List.mem_map]
  constructor
  · rintro ⟨f, hf, rfl⟩
    obtain ⟨hmem, hk⟩ := List.mem_filter.1 hf
    exact ⟨f.2, hmem, of_decide_eq_true hk, (hcols f).symm⟩
  · rintro ⟨f, hmem, hk, hrows⟩
    exact ⟨(e.1, f), List.mem_filter.2 ⟨hmem, decide_eq_true hk⟩,
      Prod.ext rfl ((hcols _).trans hrows)⟩

/-- A pin is over the factor of the row that it pins. -/
theorem keyDims_pins {l : List (ℕ × LinearRows κ α)} {pinned : List (LinearRows ℕ α)}
    (h : pins w l = .ok pinned) {c : LinearRows ℕ α} (hc : c ∈ pinned) :
    ∃ f ∈ l, c.keyDims = [(f.1, f.2.rows)] := by
  obtain ⟨lists, hlists, h⟩ := Result.bind_eq_ok.1 h
  cases Result.pure_eq_ok.1 h
  obtain ⟨pinsOf, hpins, hmem⟩ := List.mem_flatten.1 hc
  obtain ⟨⟨i, f⟩, hf, hok⟩ := Result.exists_of_mem_mapM hlists hpins
  obtain ⟨row, -, hpin⟩ := Result.exists_of_mem_mapM hok hmem
  obtain ⟨c', hc', hterms, -⟩ := exists_pin (α := α) i f.rows row
  cases hc'.symm.trans hpin
  exact ⟨_, hf, by rw [LinearRows.keyDims, hterms]; rfl⟩

/-- The variables of the dual graph are the participating factors, with an entry for every row. -/
theorem mem_keyDims_dualGraph {x : Assignment κ α} {dual : Graph ℕ α}
    (h : g.dualGraph w x = .ok dual) {i n : ℕ} :
    (∃ f ∈ dual.factors, (i, n) ∈ f.keyDims) ↔ ∃ c, (i, c) ∈ g.participating w ∧ c.rows = n := by
  obtain ⟨hempty, rfl⟩ | ⟨-, grad, conditions, pinned, hgrad, hconditions, hpinned, rfl⟩ :=
    dualGraph_eq_ok.1 h
  · simp [hempty, empty]
  · have hfactor {f : ℕ × LinearRows κ α} (hf : f ∈ g.participating w) : .linear f.2 ∈ g.factors :=
      mem_factors_of_constraintAt? (mem_participating.1 hf).1
    have hcondition (e : κ × Vec α) (he : e ∈ grad.toList) :=
      exists_stationarityFactor? w e.1 e.2 (nodup_participating g w) fun f hf e' he' hk =>
        eq_length_of_mem_gradient hgrad (hfactor hf) he' he hk
    simp only [List.mem_map, List.mem_append, Result.mem_filterMap_of_mapM hconditions]
    constructor
    · rintro ⟨_, ⟨c, ⟨e, hmem, hok⟩ | hc, rfl⟩, he⟩
      · obtain ⟨o, ho, ⟨rfl, -⟩ | ⟨c', rfl, hterms, -⟩⟩ := hcondition e hmem
        · cases ho.symm.trans hok
        · cases ho.symm.trans hok
          obtain ⟨f, hf, -, hrows⟩ := (keyDims_condition hterms).1 he
          exact ⟨f, hf, hrows⟩
      · obtain ⟨f, hf, hkeys⟩ := keyDims_pins hpinned hc
        have he : (i, n) ∈ c.keyDims := he
        rw [hkeys, List.mem_singleton] at he
        cases he
        exact ⟨f.2, hf, rfl⟩
    · rintro ⟨c, hc, rfl⟩
      obtain ⟨t, ht⟩ := List.exists_mem_of_ne_nil _ c.terms_ne_nil
      have hk : t.1 ∈ c.keys := List.mem_map_of_mem ht
      have hdims : (t.1, t.2.cols) ∈ (Factor.linear c).keyDims := List.mem_map_of_mem ht
      obtain ⟨part, hget, -⟩ := exists_part hgrad (hfactor hc) hdims
      have hmem := SortedMap.get?_eq_some_iff.1 hget
      obtain ⟨o, hok, ⟨rfl, hnone⟩ | ⟨c', rfl, hterms, -⟩⟩ := hcondition _ hmem
      · exact absurd (decide_eq_true hk) (List.filter_eq_nil_iff.1 hnone _ hc)
      · exact ⟨_, ⟨c', .inl ⟨_, hmem, hok⟩, rfl⟩, (keyDims_condition hterms).2 ⟨c, hc, hk, rfl⟩⟩

/-- The dual graph is empty exactly if no factor takes part. -/
theorem isEmpty_dualGraph {x : Assignment κ α} {dual : Graph ℕ α}
    (h : g.dualGraph w x = .ok dual) : dual.isEmpty = true ↔ g.participating w = [] := by
  constructor
  · intro hempty
    refine List.eq_nil_iff_forall_not_mem.2 fun ⟨i, c⟩ hmem => ?_
    obtain ⟨f, hf, -⟩ := (mem_keyDims_dualGraph h).2 ⟨c, hmem, rfl⟩
    rw [List.isEmpty_iff.1 hempty] at hf
    exact List.not_mem_nil hf
  · intro hnone
    obtain ⟨-, rfl⟩ | ⟨hne, -⟩ := dualGraph_eq_ok.1 h
    · rfl
    · exact absurd hnone hne

end Graph

namespace Solver
variable {κ α σ : Type} [Key κ] [Scalar α] {s : Solver κ α σ} {w : WorkingSet}

/-- Every answer to a dual graph has exactly the variables of that graph. -/
def AnswersDualInShape (s : Solver κ α σ) : Prop :=
  ∀ (g : Graph ℕ α) (state : σ) (duals : Assignment ℕ α),
    (s.eliminator.dual g state).1.result = .ok duals → g.Fits duals

/-- There is a multiplier for every row of every participating factor, and no other one. -/
theorem HasDuals.dim?_eq_some (hs : s.AnswersDualInShape) {x : Assignment κ α}
    {duals : Assignment ℕ α} (h : s.HasDuals w x duals) {i n : ℕ} :
    duals.dim? i = some n ↔ ∃ c, (i, c) ∈ s.graph.participating w ∧ c.rows = n := by
  obtain ⟨state, _, dual, hdual, hanswer⟩ := h
  split_ifs at hanswer with hempty
  · simp [hanswer.1, (Graph.isEmpty_dualGraph hdual).1 hempty, Assignment.dim?]
  · rw [(hs dual state duals hanswer.1).dim?_eq_some, Graph.mem_keyDims_dualGraph hdual]

/-- There are no multipliers exactly if no factor takes part. -/
theorem HasDuals.eq_empty_iff (hs : s.AnswersDualInShape) {x : Assignment κ α}
    {duals : Assignment ℕ α} (h : s.HasDuals w x duals) :
    duals = SortedMap.empty ↔ s.graph.participating w = [] := by
  constructor
  · rintro rfl
    refine List.eq_nil_iff_forall_not_mem.2 fun ⟨i, c⟩ hmem => ?_
    cases (h.dim?_eq_some hs).2 ⟨c, hmem, rfl⟩
  · intro hnone
    refine SortedMap.ext_get? fun i => ?_
    cases hi : duals.get? i with
    | none => rfl
    | some v =>
      obtain ⟨c, hmem, -⟩ := (h.dim?_eq_some hs).1 (Assignment.dim?_eq_some.2 ⟨v, hi, rfl⟩)
      exact absurd (hnone ▸ hmem) List.not_mem_nil

omit [Scalar α] in
/-- The optimum is an interior one exactly if no factor takes part. -/
theorem statusOf_eq_interiorOptimum {g : Graph κ α} (hw : g.Admits w) :
    statusOf g w = .interiorOptimum ↔ g.participating w = [] := by
  have hindices : g.equalityIndices = [] ↔ ∀ r, g.rowKind? r ≠ some .equality := by
    simp only [Graph.equalityIndices, List.map_eq_nil_iff, List.filter_eq_nil_iff]
    constructor
    · intro hnone r hr
      obtain ⟨c, hc, hk⟩ := Graph.rowKind?_eq_some.1 hr
      exact hnone _ (Graph.mem_constraints.2 hc) (Graph.hasEquality_iff.2 ⟨_, hk⟩)
    · intro hnone e he heq
      obtain ⟨row, hk⟩ := Graph.hasEquality_iff.1 heq
      exact hnone ⟨e.1, row⟩ (Graph.rowKind?_eq_some.2 ⟨e.2, Graph.mem_constraints.1 he, hk⟩)
  rw [Graph.participating_eq_nil hw, ← hindices, statusOf]
  simp [WorkingSet.isEmpty, List.isEmpty_iff]

end Solver

end GaussianProgram
