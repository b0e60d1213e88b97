import GaussianProgram.Proofs.Constraints
import GaussianProgram.Solver.Step

/-! The working problem. Its cost is the cost of the graph, and its rows are the active rows of the
graph as equalities. -/
namespace GaussianProgram

namespace SortedSet
variable {κ : Type} [Ord κ] [Std.TransOrd κ] [Std.LawfulEqOrd κ]

theorem mem_keys_ofKeys {ks : List κ} {k : κ} : k ∈ (ofKeys ks).keys ↔ k ∈ ks := by
  rw [ofKeys, SortedMap.mem_keys_ofList, List.map_map]
  simp [Function.comp_def]

end SortedSet

namespace LinearRows
variable {κ α : Type} [Key κ]

/-- Selected rows keep their coefficients and right-hand sides, and all get the one kind. -/
theorem selectRows_spec [ExactScalar α] {f f' : LinearRows κ α} {indices : List ℕ} {kind : RowKind}
    (h : f.selectRows indices kind = .ok f') :
    f'.keyDims = f.keyDims ∧ f'.kinds = some (List.replicate indices.length kind) ∧
      ∀ i row, indices[i]? = some row → row < f.rows ∧ f'.form i = f.form row ∧
        Vec.get f'.rhs i = Vec.get f.rhs row := by
  obtain ⟨hrows, hterms, hrhs, hkinds⟩ := selectRows_eq_ok.1 h
  refine ⟨by simp [keyDims, hterms, Matrix.selectRows], hkinds, fun i row hi => ?_⟩
  obtain ⟨hlt, rfl⟩ := List.getElem?_eq_some_iff.1 hi
  refine ⟨hrows _ (List.getElem_mem hlt), ?_, ?_⟩
  · apply LinearMap.ext
    intro p
    rw [form_apply, form_apply, rowSum, rowSum, hterms, List.map_map]
    refine congrArg List.sum (List.map_congr_left fun t _ => ?_)
    apply Finset.sum_congr rfl
    intro j hj
    have hj : j < t.2.cols := Finset.mem_range.1 hj
    simp [Matrix.selectRows, Matrix.get_ofFn _ hlt hj, hlt]
  · rw [hrhs, Vec.get_eq_getElem (by simpa using hlt)]
    simp

end LinearRows

namespace Graph
variable {κ α : Type} [Key κ]

def IsActive (g : Graph κ α) (w : WorkingSet) (r : ConstraintRow) : Prop :=
  g.rowKind? r = some .equality ∨ g.rowKind? r = some .inequality ∧ r ∈ w.rows

theorem isActive_iff {g : Graph κ α} {w : WorkingSet} {r : ConstraintRow} {kind : RowKind}
    (h : g.rowKind? r = some kind) : g.IsActive w r ↔ kind = .equality ∨ r ∈ w.rows := by
  cases kind <;> simp [IsActive, h]

theorem isActive_iff_exists {g : Graph κ α} {w : WorkingSet} {r : ConstraintRow} :
    g.IsActive w r ↔ ∃ c, g.constraintAt? r.factor = some c ∧ (c.rowKind? r.row = some .equality ∨
      c.rowKind? r.row = some .inequality ∧ r ∈ w.rows) := by
  rw [IsActive, rowKind?_eq_some, rowKind?_eq_some]
  constructor
  · rintro (⟨c, hc, hk⟩ | ⟨⟨c, hc, hk⟩, hw⟩)
    · exact ⟨c, hc, .inl hk⟩
    · exact ⟨c, hc, .inr ⟨hk, hw⟩⟩
  · rintro ⟨c, hc, hk | ⟨hk, hw⟩⟩
    · exact .inl ⟨c, hc, hk⟩
    · exact .inr ⟨⟨c, hc, hk⟩, hw⟩

theorem IsActive.exists_kind {g : Graph κ α} {w : WorkingSet} {r : ConstraintRow}
    (h : g.IsActive w r) : ∃ kind, g.rowKind? r = some kind := by
  rcases h with h | ⟨h, -⟩
  · exact ⟨_, h⟩
  · exact ⟨_, h⟩

/-- Dropping an inequality row leaves the other active rows. -/
theorem isActive_remove {g : Graph κ α} {w : WorkingSet} {r row : ConstraintRow}
    (hrow : g.rowKind? row = some .inequality) :
    g.IsActive (w.remove row).2 r ↔ g.IsActive w r ∧ r ≠ row := by
  constructor
  · rintro (hk | ⟨hk, hmem⟩)
    · exact ⟨.inl hk, fun he => by cases hk.symm.trans (he ▸ hrow)⟩
    · obtain ⟨hne, hmem⟩ := WorkingSet.mem_rows_remove.1 hmem
      exact ⟨.inr ⟨hk, hmem⟩, hne⟩
  · rintro ⟨hr, hne⟩
    exact hr.imp_right fun ⟨hk, hmem⟩ => ⟨hk, WorkingSet.mem_rows_remove.2 ⟨hne, hmem⟩⟩

/-- What is active after a row was dropped was active before. -/
theorem IsActive.of_remove {g : Graph κ α} {w : WorkingSet} {r row : ConstraintRow}
    (h : g.IsActive (w.remove row).2 r) : g.IsActive w r :=
  h.imp_right fun ⟨hk, hmem⟩ => ⟨hk, (WorkingSet.mem_rows_remove.1 hmem).2⟩

theorem mem_enforcedRows {w : WorkingSet} {i row : ℕ} {c : LinearRows κ α} :
    row ∈ enforcedRows w i c ↔ c.rowKind? row = some .equality ∨ ⟨i, row⟩ ∈ w.rows := by
  rw [enforcedRows, SortedSet.mem_keys_ofKeys, List.mem_append, LinearRows.equalityRows,
    LinearRows.mem_rowsOfKind, WorkingSet.mem_rowsOf]

/-- A cost stays as it is. Of a constraint the enforced rows are left, or nothing without
such rows. -/
theorem workingFactor?_eq_ok [Scalar α] {w : WorkingSet} {i : ℕ} {f : Factor κ α}
    {o : Option (Factor κ α)} : workingFactor? w i f = .ok o ↔
      f.constraint? = none ∧ o = some f ∨ ∃ c, f.constraint? = some c ∧
        (enforcedRows w i c = [] ∧ o = none ∨ enforcedRows w i c ≠ [] ∧
          ∃ c', c.selectRows (enforcedRows w i c) .equality = .ok c' ∧ o = some (.linear c')) := by
  unfold workingFactor?
  cases hc : f.constraint? with
  | none => simp [Result.pure_eq_ok, @eq_comm _ o]
  | some c =>
    by_cases hrows : enforcedRows w i c = []
    · simp [hrows, Result.pure_eq_ok, @eq_comm _ o]
    · simp [hrows, -bind_pure_comp, Result.bind_eq_ok, Result.pure_eq_ok, @eq_comm _ o]

theorem workingGraph_eq_ok [Scalar α] {g h : Graph κ α} {w : WorkingSet} :
    g.workingGraph w = .ok h ↔ ∃ parts,
      g.indexed.mapM (fun e => workingFactor? w e.1 e.2) = .ok parts ∧
        h = ⟨parts.filterMap id⟩ := by
  simp only [workingGraph, Result.bind_eq_ok, Result.pure_eq_ok, @eq_comm _ h]

variable [ExactScalar α] {g h : Graph κ α} {w : WorkingSet}

/-- A factor of the working problem is a cost of the graph or a selection of enforced rows. -/
theorem mem_workingGraph (hw : g.workingGraph w = .ok h) {f : Factor κ α} :
    f ∈ h.factors ↔ (f ∈ g.factors ∧ f.constraint? = none) ∨
      ∃ i c c', g.constraintAt? i = some c ∧ enforcedRows w i c ≠ [] ∧
        c.selectRows (enforcedRows w i c) .equality = .ok c' ∧ f = .linear c' := by
  obtain ⟨parts, hparts, rfl⟩ := workingGraph_eq_ok.1 hw
  refine (Result.mem_filterMap_of_mapM hparts).trans ⟨?_, ?_⟩
  · rintro ⟨⟨i, f₀⟩, hmem, hok⟩
    obtain ⟨hcost, hsame⟩ | ⟨c, hc, ⟨-, hnone⟩ | ⟨hrows, c', hsel, hf⟩⟩ :=
      workingFactor?_eq_ok.1 hok
    · cases hsame
      exact .inl ⟨List.mem_of_getElem? (mem_indexed.1 hmem), hcost⟩
    · cases hnone
    · exact .inr ⟨i, c, c', constraintAt?_eq_some.2 ⟨f₀, mem_indexed.1 hmem, hc⟩, hrows, hsel,
        Option.some.inj hf⟩
  · rintro (⟨hf, hcost⟩ | ⟨i, c, c', hc, hrows, hsel, rfl⟩)
    · obtain ⟨i, hi⟩ := List.getElem?_of_mem hf
      exact ⟨(i, f), mem_indexed.2 hi, workingFactor?_eq_ok.2 (.inl ⟨hcost, rfl⟩)⟩
    · obtain ⟨f₀, hi, hc⟩ := constraintAt?_eq_some.1 hc
      exact ⟨(i, f₀), mem_indexed.2 hi,
        workingFactor?_eq_ok.2 (.inr ⟨c, hc, .inr ⟨hrows, c', hsel, rfl⟩⟩)⟩

/-- An enforced row of a constraint factor is selected in a working problem that there is. -/
theorem readable_of_working (hw : g.workingGraph w = .ok h) {x : Assignment κ α}
    (hx : ∀ f ∈ h.factors, f.Readable x) : ∀ f ∈ g.factors, f.Readable x := by
  intro f hf
  cases hc : f.constraint? with
  | none => exact hx f ((mem_workingGraph hw).2 (.inl ⟨hf, hc⟩))
  | some c =>
    obtain ⟨rfl, hcon⟩ := Factor.constraint?_eq_some.1 hc
    intro hn
    cases hn.symm.trans hcon

theorem exists_selectRows (hw : g.workingGraph w = .ok h) {i row : ℕ} {c : LinearRows κ α}
    (hc : g.constraintAt? i = some c) (hrow : row ∈ enforcedRows w i c) :
    ∃ c', c.selectRows (enforcedRows w i c) .equality = .ok c' := by
  obtain ⟨parts, hparts, -⟩ := workingGraph_eq_ok.1 hw
  obtain ⟨f₀, hi, hc⟩ := constraintAt?_eq_some.1 hc
  obtain ⟨o, -, hok⟩ := Result.exists_mem_of_mapM hparts (mem_indexed.2 hi)
  obtain ⟨hcost, -⟩ | ⟨c₁, hc₁, ⟨hnone, -⟩ | ⟨-, c', hsel, -⟩⟩ := workingFactor?_eq_ok.1 hok
  · cases hc.symm.trans hcost
  · cases hc.symm.trans hc₁
    exact absurd hnone (List.ne_nil_of_mem hrow)
  · cases hc.symm.trans hc₁
    exact ⟨c', hsel⟩

theorem exists_keyDims_of_mem_workingGraph (hw : g.workingGraph w = .ok h) {f : Factor κ α}
    (hf : f ∈ h.factors) : ∃ f₀ ∈ g.factors, f.keyDims = f₀.keyDims := by
  rcases (mem_workingGraph hw).1 hf with ⟨hf, -⟩ | ⟨i, c, c', hc, -, hsel, rfl⟩
  · exact ⟨f, hf, rfl⟩
  · exact ⟨_, mem_factors_of_constraintAt? hc, (LinearRows.selectRows_spec hsel).1⟩

/-- Every row of the working problem is an active row of the graph. -/
theorem exists_active_of_working (hw : g.workingGraph w = .ok h) {r : ConstraintRow}
    {kind : RowKind} (hr : h.rowKind? r = some kind) :
    ∃ a, g.IsActive w a ∧ h.rowForm r = g.rowForm a ∧ ∀ p, h.slack r p = g.slack a p := by
  obtain ⟨c', hc', hk⟩ := rowKind?_eq_some.1 hr
  rcases (mem_workingGraph hw).1 (mem_factors_of_constraintAt? hc') with
    ⟨-, hn⟩ | ⟨i, c, d, hc, -, hsel, hd⟩
  · obtain ⟨f, -, hf⟩ := constraintAt?_eq_some.1 hc'
    obtain ⟨rfl, hcon⟩ := Factor.constraint?_eq_some.1 hf
    exact absurd (hn.symm.trans hf) (by simp)
  · cases hd
    obtain ⟨-, hkinds, hrows⟩ := LinearRows.selectRows_spec hsel
    have hlt : r.row < (enforcedRows w i c).length := by
      have hlen := c'.kinds_length _ hkinds
      rw [List.length_replicate] at hlen
      rw [hlen]
      exact LinearRows.rowKind?_lt hk
    obtain ⟨hin, hform, hrhs⟩ := hrows r.row _ (List.getElem?_eq_getElem hlt)
    have hmem := mem_enforcedRows.1 (List.getElem_mem hlt)
    refine ⟨⟨i, (enforcedRows w i c)[r.row]⟩, ?_, ?_, fun p => ?_⟩
    · obtain ⟨f, -, hf⟩ := constraintAt?_eq_some.1 hc
      obtain ⟨kind', hkind'⟩ :=
        LinearRows.exists_rowKind? (Factor.constraint?_eq_some.1 hf).2 hin
      rw [isActive_iff (rowKind?_eq_some.2 ⟨c, hc, hkind'⟩)]
      exact hmem.imp_left fun he => Option.some.inj (hkind'.symm.trans he)
    · rw [rowForm_eq hc', rowForm_eq (r := ⟨i, _⟩) hc, hform]
    · rw [slack_eq hc', slack_eq (r := ⟨i, _⟩) hc, hform, hrhs]

/-- Every active row of the graph is an equality row of the working problem. -/
theorem exists_working_of_active (hw : g.workingGraph w = .ok h) {a : ConstraintRow}
    (ha : g.IsActive w a) : ∃ r, h.rowKind? r = some .equality ∧
      ∀ x s, h.rowSlack r x = .ok s → g.rowSlack a x = .ok s := by
  obtain ⟨c, hc, hk⟩ := isActive_iff_exists.1 ha
  have hrow : a.row ∈ enforcedRows w a.factor c := mem_enforcedRows.2 (hk.imp_right And.right)
  obtain ⟨c', hsel⟩ := exists_selectRows hw hc hrow
  obtain ⟨hdims, hkinds, hrows⟩ := LinearRows.selectRows_spec hsel
  obtain ⟨j, hj⟩ := List.getElem?_of_mem hrow
  obtain ⟨hin, hform, hrhs⟩ := hrows j _ hj
  have hmem : .linear c' ∈ h.factors :=
    (mem_workingGraph hw).2 (.inr ⟨_, c, c', hc, List.ne_nil_of_mem hrow, hsel, rfl⟩)
  obtain ⟨i, hi⟩ := List.getElem?_of_mem hmem
  have hat : h.constraintAt? i = some c' :=
    constraintAt?_eq_some.2 ⟨_, hi, Factor.constraint?_eq_some.2 ⟨rfl, by
      simp [LinearRows.isConstrained, hkinds]⟩⟩
  refine ⟨⟨i, j⟩, rowKind?_eq_some.2 ⟨c', hat, ?_⟩, fun x s hs => ?_⟩
  · have hlt := (List.getElem?_eq_some_iff.1 hj).1
    simp [LinearRows.rowKind?, hkinds, hlt]
  · obtain ⟨⟨d, hd, -, hx⟩, rfl⟩ := rowSlack_eq_ok.1 hs
    cases Option.some.inj (hat.symm.trans hd)
    refine rowSlack_eq_ok.2 ⟨⟨c, hc, hin, hdims ▸ hx⟩, ?_⟩
    rw [slack_eq (r := ⟨i, j⟩) hat, slack_eq hc, hform, hrhs]

/-- What adds up over the costs is the same for the graph and its working problem. -/
private theorem sum_working (hw : g.workingGraph w = .ok h) {φ : Factor κ α → α}
    (hφ : ∀ c : LinearRows κ α, c.isConstrained = true → φ (.linear c) = 0) :
    (h.factors.map φ).sum = (g.factors.map φ).sum := by
  obtain ⟨parts, hparts, rfl⟩ := workingGraph_eq_ok.1 hw
  have hpart {i : ℕ} {f : Factor κ α} {o : Option (Factor κ α)}
      (ho : workingFactor? w i f = .ok o) : (o.map φ).getD 0 = φ f := by
    obtain ⟨-, rfl⟩ | ⟨c, hc, hrows⟩ := workingFactor?_eq_ok.1 ho
    · rfl
    · obtain ⟨rfl, hcon⟩ := Factor.constraint?_eq_some.1 hc
      rw [hφ c hcon]
      obtain ⟨-, rfl⟩ | ⟨-, c', hsel, rfl⟩ := hrows
      · rfl
      · have hkinds := (LinearRows.selectRows_spec hsel).2.1
        exact hφ c' (by simp [LinearRows.isConstrained, hkinds])
  have hfactors : g.factors = g.indexed.map (·.2) := by
    rw [indexed, List.map_map]
    exact (List.zipIdx_map_fst 0 g.factors).symm
  rw [hfactors]
  rw [Result.mapM_eq_ok] at hparts
  clear hw
  generalize g.indexed = l at hparts
  induction hparts with
  | nil => rfl
  | @cons e o l os ho _ ih =>
    have hhead := hpart ho
    cases o with
    | none => simpa [← hhead] using ih
    | some f => simpa [← hhead] using ih

theorem value_working (hw : g.workingGraph w = .ok h) (p : Point κ α) : h.value p = g.value p :=
  sum_working hw fun c hc => by simp [Factor.value, LinearRows.value, hc]

theorem slope_working (hw : g.workingGraph w = .ok h) (p d : Point κ α) :
    h.slope p d = g.slope p d :=
  sum_working hw fun c hc => by simp [Factor.slope, LinearRows.slope, hc]

theorem curvature_working (hw : g.workingGraph w = .ok h) (d : Point κ α) :
    h.curvature d = g.curvature d :=
  sum_working hw fun c hc => by simp [Factor.curvature, LinearRows.curvature, hc]

theorem Symmetric.workingGraph (hg : g.Symmetric) (hw : g.workingGraph w = .ok h) :
    h.Symmetric := by
  intro f hf
  rcases (mem_workingGraph hw).1 hf with ⟨hf, -⟩ | ⟨_, _, _, -, -, -, he⟩
  · exact hg f hf
  · cases he

end Graph

end GaussianProgram
