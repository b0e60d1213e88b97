import GaussianProgram.Proofs.RowOrder
import GaussianProgram.Proofs.Table

/-! Classification of rows and factors by kind. The lists of rows, the lists of factor indices and
the kind of a single row are computed apart from each other, and they agree about every row. -/
namespace GaussianProgram

/-- A row of a constraint factor is either an equality or an inequality. -/
theorem LinearRows.xor_mem_rows {κ α : Type} [Key κ] {c : LinearRows κ α}
    (hc : c.isConstrained = true) {row : ℕ} (hrow : row < c.rows) :
    Xor (row ∈ c.equalityRows) (row ∈ c.inequalityRows) := by
  obtain ⟨kind, hk⟩ := exists_rowKind? hc hrow
  rw [equalityRows, inequalityRows, mem_rowsOfKind, mem_rowsOfKind, hk]
  cases kind with
  | equality => exact .inl ⟨rfl, nofun⟩
  | inequality => exact .inr ⟨rfl, nofun⟩

namespace Graph
variable {κ α : Type} [Key κ] {g : Graph κ α}

def indicesOfKind (g : Graph κ α) (kind : RowKind) : List ℕ :=
  (g.constraints.filter fun e => !(e.2.rowsOfKind kind).isEmpty).map (·.1)

theorem ascending_indicesOfKind (g : Graph κ α) (kind : RowKind) :
    (g.indicesOfKind kind).Pairwise (· < ·) :=
  List.pairwise_map.2 (g.ascending_constraints.filter _)

theorem mem_indicesOfKind {kind : RowKind} {i : ℕ} :
    i ∈ g.indicesOfKind kind ↔ ∃ row, g.rowKind? ⟨i, row⟩ = some kind := by
  simp only [indicesOfKind, List.mem_map, List.mem_filter, LinearRows.exists_rowKind?_iff,
    rowKind?_eq_some]
  constructor
  · rintro ⟨⟨i, c⟩, ⟨hmem, row, hk⟩, rfl⟩
    exact ⟨row, c, mem_constraints.1 hmem, hk⟩
  · rintro ⟨row, c, hc, hk⟩
    exact ⟨(i, c), ⟨mem_constraints.2 hc, row, hk⟩, rfl⟩

/-- The factors with an inequality row are those that the list of inequality rows names. -/
theorem mem_inequalityIndices {i : ℕ} :
    i ∈ g.inequalityIndices ↔ ∃ r ∈ g.inequalityRows, r.factor = i := by
  have hmem : i ∈ g.inequalityIndices ↔ ∃ row, g.rowKind? ⟨i, row⟩ = some .inequality :=
    mem_indicesOfKind
  rw [hmem]
  constructor
  · rintro ⟨row, hk⟩
    exact ⟨⟨i, row⟩, mem_inequalityRows.2 hk, rfl⟩
  · rintro ⟨r, hr, rfl⟩
    exact ⟨r.row, mem_inequalityRows.1 hr⟩

/-- A constraint factor stands among the factors at its index. -/
theorem constraintAt?_eq_some_iff {i : ℕ} {c : LinearRows κ α} :
    g.constraintAt? i = some c ↔ g.factors[i]? = some (.linear c) ∧ c.isConstrained = true := by
  simp only [constraintAt?_eq_some, Factor.constraint?_eq_some]
  constructor
  · rintro ⟨f, hf, rfl, hc⟩
    exact ⟨hf, hc⟩
  · rintro ⟨hf, hc⟩
    exact ⟨_, hf, rfl, hc⟩

/-- Only the rows of constraint factors have a kind. -/
theorem rowKind?_eq_none_iff {r : ConstraintRow} : g.rowKind? r = none ↔
    ∀ c, g.factors[r.factor]? = some (.linear c) → c.isConstrained = true → c.rows ≤ r.row := by
  rw [Option.eq_none_iff_forall_ne_some]
  constructor
  · intro hnone c hf hc
    by_contra hlt
    obtain ⟨kind, hk⟩ := LinearRows.exists_rowKind? hc (not_le.1 hlt)
    exact hnone kind (rowKind?_eq_some.2 ⟨c, constraintAt?_eq_some_iff.2 ⟨hf, hc⟩, hk⟩)
  · intro hall kind hkind
    obtain ⟨c, hc, hk⟩ := rowKind?_eq_some.1 hkind
    obtain ⟨hf, hconstrained⟩ := constraintAt?_eq_some_iff.1 hc
    exact absurd (LinearRows.rowKind?_lt hk) (not_lt.2 (hall c hf hconstrained))

/-- A constraint factor lists its rows by the kinds that the graph gives them. -/
theorem rowKind?_eq_some_iff {i : ℕ} {c : LinearRows κ α} (hf : g.factors[i]? = some (.linear c))
    (hc : c.isConstrained = true) {row : ℕ} {kind : RowKind} :
    g.rowKind? ⟨i, row⟩ = some kind ↔ row ∈ c.rowsOfKind kind := by
  rw [rowKind?, constraintAt?_eq_some_iff.2 ⟨hf, hc⟩, LinearRows.mem_rowsOfKind]
  rfl

/-- The rows and the factors are listed by kind in their order and completely, every row of a
constraint factor has one kind, and nothing else has a kind. -/
theorem rows_classified (g : Graph κ α) :
    (g.inequalityRows.Pairwise (fun a b => a.factor < b.factor ∨
        a.factor = b.factor ∧ a.row < b.row) ∧
      ∀ r, r ∈ g.inequalityRows ↔ g.rowKind? r = some .inequality) ∧
    (g.inequalityIndices.Pairwise (· < ·) ∧
      ∀ i, i ∈ g.inequalityIndices ↔ ∃ r ∈ g.inequalityRows, r.factor = i) ∧
    (g.equalityIndices.Pairwise (· < ·) ∧
      ∀ i, i ∈ g.equalityIndices ↔ ∃ row, g.rowKind? ⟨i, row⟩ = some .equality) ∧
    (∀ i c, g.factors[i]? = some (.linear c) → c.isConstrained = true →
      (∀ row, (g.rowKind? ⟨i, row⟩ = some .equality ↔ row ∈ c.equalityRows) ∧
        (g.rowKind? ⟨i, row⟩ = some .inequality ↔ row ∈ c.inequalityRows)) ∧
      ∀ row < c.rows, Xor (row ∈ c.equalityRows) (row ∈ c.inequalityRows)) ∧
    ∀ r, g.rowKind? r = none ↔
      ∀ c, g.factors[r.factor]? = some (.linear c) → c.isConstrained = true → c.rows ≤ r.row := by
  have hascending := g.ascending_inequalityRows.imp ConstraintRow.compare_eq_lt.1
  refine ⟨⟨hascending, fun _ => mem_inequalityRows⟩,
    ⟨g.ascending_indicesOfKind .inequality, fun _ => mem_inequalityIndices⟩,
    ⟨g.ascending_indicesOfKind .equality, fun _ => mem_indicesOfKind⟩,
    fun i c hf hc => ⟨fun row => ?_, fun row hrow => LinearRows.xor_mem_rows hc hrow⟩,
    fun _ => rowKind?_eq_none_iff⟩
  exact ⟨rowKind?_eq_some_iff hf hc, rowKind?_eq_some_iff hf hc⟩

/-- The budget has a row of either kind, the bound after it one inequality row, and the parabola
before it has no rows. -/
theorem capped_classified :
    capped.inequalityRows = [⟨1, 1⟩, ⟨2, 0⟩] ∧ capped.inequalityIndices = [1, 2] ∧
      capped.equalityIndices = [1] ∧ capped.rowKind? ⟨1, 0⟩ = some .equality ∧
      capped.rowKind? ⟨1, 1⟩ = some .inequality ∧
      (∀ row < 2, Xor (row ∈ (LinearRows.budget 1 0 5).equalityRows)
        (row ∈ (LinearRows.budget 1 0 5).inequalityRows)) ∧
      capped.rowKind? ⟨0, 0⟩ = none ∧ capped.rowKind? ⟨1, 2⟩ = none := by
  obtain ⟨-, -, -, hfactor, hnone⟩ := rows_classified capped
  obtain ⟨hkinds, hxor⟩ := hfactor 1 (.budget 1 0 5) rfl rfl
  refine ⟨by decide, by decide, by decide, (hkinds 0).1.2 (by decide), (hkinds 1).2.2 (by decide),
    hxor, (hnone ⟨0, 0⟩).2 fun c hc _ => ?_, (hnone ⟨1, 2⟩).2 fun c hc _ => ?_⟩
  · cases hc
  · cases hc
    exact le_rfl

end Graph

end GaussianProgram
