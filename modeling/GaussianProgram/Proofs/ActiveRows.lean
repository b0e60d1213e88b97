import GaussianProgram.Proofs.Working
import GaussianProgram.Multiplier.Dual

/-! Active rows with multipliers. Signed and weighed, the active rows are one linear form, and a
form that they span is such a form; what a form does to single entries determines it. -/
namespace GaussianProgram
open Finset (range)

def unitPoint {κ α : Type} [Key κ] [ExactScalar α] (k : κ) (j : ℕ) : Point κ α :=
  Pi.single k (Pi.single j 1)

/-- A sum over elements with distinct keys, where all others are zero, is one of its terms. -/
theorem sum_map_eq_single {β κ M : Type} [AddCommMonoid M] {l : List β} {key : β → κ}
    (hl : (l.map key).Nodup) {b : β} (hmem : b ∈ l) {φ : β → M}
    (h : ∀ e ∈ l, key e ≠ key b → φ e = 0) : (l.map φ).sum = φ b := by
  induction l with
  | nil => simp at hmem
  | cons e l ih =>
    obtain ⟨hhead, hrest⟩ := List.forall_mem_cons.1 h
    obtain ⟨hnot, hl⟩ := List.nodup_cons.1 hl
    rw [List.map_cons, List.sum_cons]
    rcases List.mem_cons.1 hmem with rfl | hmem
    · rw [List.sum_eq_zero, add_zero]
      intro a ha
      obtain ⟨e, he, rfl⟩ := List.mem_map.1 ha
      exact hrest e he fun hk => hnot (List.mem_map.2 ⟨e, he, hk⟩)
    · rw [hhead fun hk => hnot (List.mem_map.2 ⟨_, hmem, hk.symm⟩), zero_add, ih hl hmem hrest]

/-- A part of an assignment is what the assignment pairs with single entries. -/
theorem Assignment.pairing_unitPoint {κ α : Type} [Key κ] [ExactScalar α] {x : Assignment κ α}
    {k : κ} {u : Vec α} (h : x.get? k = some u) {j : ℕ} (hj : j < u.length) :
    pairing x.toList (unitPoint k j) = Vec.get u j := by
  have hkeys : (x.toList.map (·.1)).Nodup := x.nodup_keys
  rw [pairing, sum_map_eq_single hkeys (SortedMap.get?_eq_some_iff.1 h)]
  · rw [Finset.sum_eq_single_of_mem j (Finset.mem_range.2 hj)]
    · simp [unitPoint]
    · intro i _ hne
      simp [unitPoint, Pi.single_eq_of_ne hne]
  · intro e _ hne
    simp [unitPoint, Pi.single_eq_of_ne hne]

namespace LinearRows
variable {κ α : Type} [Key κ] [ExactScalar α]

private theorem rowSum_unitPoint_of_notMem {terms : List (κ × Matrix α)} {k : κ}
    (h : k ∉ terms.map (·.1)) (row j : ℕ) : rowSum terms row (unitPoint k j) = 0 := by
  apply List.sum_eq_zero
  intro a ha
  obtain ⟨t, ht, rfl⟩ := List.mem_map.1 ha
  have hne : t.1 ≠ k := fun he => h (he ▸ List.mem_map_of_mem ht)
  simp [unitPoint, Pi.single_eq_of_ne hne]

theorem form_unitPoint_of_notMem {f : LinearRows κ α} {k : κ} (h : k ∉ f.keys) (row j : ℕ) :
    f.form row (unitPoint k j) = 0 := rowSum_unitPoint_of_notMem h row j

/-- A coefficient of a row is the value of its form at a single entry. -/
theorem form_unitPoint {f : LinearRows κ α} {j : ℕ} {k : κ} {block : Matrix α}
    (h : (k, block) ∈ f.terms) (hj : j < block.cols) (row : ℕ) :
    f.form row (unitPoint k j) = block.get row j := by
  rw [form_apply, rowSum, sum_map_eq_single f.keys_nodup h]
  · rw [Finset.sum_eq_single_of_mem j (Finset.mem_range.2 hj)]
    · simp [unitPoint]
    · intro i _ hne
      simp [unitPoint, Pi.single_eq_of_ne hne]
  · intro t _ hne
    simp [unitPoint, Pi.single_eq_of_ne hne]

/-- A row is the sum of its values at single entries, over any variables that include its own. -/
theorem form_eq_sum (f : LinearRows κ α) (row : ℕ) {K : Finset κ} {n : κ → ℕ}
    (hK : ∀ k ∈ f.keys, k ∈ K) (hn : ∀ e ∈ f.keyDims, n e.1 = e.2) (v : Point κ α) :
    f.form row v = ∑ k ∈ K, ∑ j ∈ range (n k), f.form row (unitPoint k j) * v k j := by
  have hown : f.form row v =
      ∑ k ∈ f.keys.toFinset, ∑ j ∈ range (n k), f.form row (unitPoint k j) * v k j := by
    rw [keys, List.sum_toFinset _ f.keys_nodup, List.map_map, form_apply, rowSum]
    refine congrArg List.sum (List.map_congr_left fun t ht => ?_)
    have hcols : n t.1 = t.2.cols := hn (t.1, t.2.cols) (List.mem_map_of_mem ht)
    simp only [Function.comp_apply, hcols]
    apply Finset.sum_congr rfl
    intro j hj
    rw [form_unitPoint ht (Finset.mem_range.1 hj) row]
  rw [hown]
  refine Finset.sum_subset (fun k hk => hK k (List.mem_toFinset.1 hk)) fun k _ hk => ?_
  apply Finset.sum_eq_zero
  intro j _
  rw [form_unitPoint_of_notMem (fun hmem => hk (List.mem_toFinset.2 hmem)), zero_mul]

end LinearRows

namespace Graph
variable {κ α : Type} [Key κ] {g : Graph κ α} {w : WorkingSet}

section Rows

theorem hasEquality_iff {c : LinearRows κ α} :
    c.hasEquality = true ↔ ∃ row, c.rowKind? row = some .equality :=
  LinearRows.exists_rowKind?_iff

theorem mem_participating {i : ℕ} {c : LinearRows κ α} :
    (i, c) ∈ g.participating w ↔ g.constraintAt? i = some c ∧
      ∃ row, c.rowKind? row = some .equality ∨ ⟨i, row⟩ ∈ w.rows := by
  have hin : w.factors.contains i = true ↔ ∃ row, ⟨i, row⟩ ∈ w.rows := by
    rw [SortedMap.contains_iff, WorkingSet.factors, SortedSet.mem_keys_ofKeys, List.mem_map]
    constructor
    · rintro ⟨r, hr, rfl⟩
      exact ⟨r.row, hr⟩
    · rintro ⟨row, hr⟩
      exact ⟨_, hr, rfl⟩
  rw [participating, List.mem_filter, mem_constraints, Bool.or_eq_true, hasEquality_iff, hin,
    ← exists_or]

/-- Every participating factor is listed once. -/
theorem nodup_participating (g : Graph κ α) (w : WorkingSet) :
    ((g.participating w).map (·.1)).Nodup :=
  List.pairwise_map.2 (g.pairwise_constraints.filter _)

variable [Scalar α]

theorem signOf_isSome {i row : ℕ} {c : LinearRows κ α} :
    (signOf w i c row : Option α).isSome = true ↔ c.rowKind? row = some .equality ∨
      c.rowKind? row = some .inequality ∧ ⟨i, row⟩ ∈ w.rows := by
  rw [signOf, ← WorkingSet.contains_iff]
  cases c.rowKind? row with
  | none => simp [rowSign]
  | some kind => cases kind <;> cases w.contains ⟨i, row⟩ <;> simp [rowSign]

theorem mem_activeRowsOf {i row : ℕ} {c : LinearRows κ α} : row ∈ activeRowsOf w i c ↔
    c.rowKind? row = some .equality ∨ c.rowKind? row = some .inequality ∧ ⟨i, row⟩ ∈ w.rows := by
  rw [activeRowsOf, List.mem_filter, signOf_isSome, List.mem_range, and_iff_right_iff_imp]
  rintro (hk | ⟨hk, -⟩)
  · exact LinearRows.rowKind?_lt hk
  · exact LinearRows.rowKind?_lt hk

theorem mem_activeRows {r : ConstraintRow} : r ∈ g.activeRows w ↔ g.IsActive w r := by
  rw [activeRows, List.mem_flatMap, isActive_iff_exists]
  constructor
  · rintro ⟨⟨i, c⟩, hmem, hr⟩
    obtain ⟨row, hactive, rfl⟩ := List.mem_map.1 hr
    exact ⟨c, (mem_participating.1 hmem).1, mem_activeRowsOf.1 hactive⟩
  · rintro ⟨c, hc, hk⟩
    refine ⟨(r.factor, c), mem_participating.2 ⟨hc, r.row, hk.imp_right And.right⟩, ?_⟩
    exact List.mem_map.2 ⟨r.row, mem_activeRowsOf.2 hk, rfl⟩

private theorem nodup_activeRowsOf (w : WorkingSet) (i : ℕ) (c : LinearRows κ α) :
    (activeRowsOf w i c).Nodup := List.nodup_range.filter _

theorem nodup_activeRows (g : Graph κ α) (w : WorkingSet) : (g.activeRows w).Nodup := by
  refine List.nodup_flatMap.2
    ⟨fun e _ => ?_, (g.pairwise_constraints.filter _).imp fun {a b} hne => ?_⟩
  · exact (nodup_activeRowsOf w e.1 e.2).map fun row row' he => congrArg ConstraintRow.row he
  · intro r hr hr'
    obtain ⟨row, -, rfl⟩ := List.mem_map.1 hr
    obtain ⟨row', -, he⟩ := List.mem_map.1 hr'
    exact hne (congrArg ConstraintRow.factor he).symm

end Rows

variable [ExactScalar α]

def activeSet (g : Graph κ α) (w : WorkingSet) : Finset ConstraintRow := (g.activeRows w).toFinset

theorem mem_activeSet {r : ConstraintRow} : r ∈ g.activeSet w ↔ g.IsActive w r := by
  rw [activeSet, List.mem_toFinset, mem_activeRows]

/-- Sign of a row in the stationarity condition, zero for a row that is not active. -/
def sign (g : Graph κ α) (w : WorkingSet) (r : ConstraintRow) : α :=
  ((g.constraintAt? r.factor).bind fun c => signOf w r.factor c r.row).getD 0

theorem sign_eq {r : ConstraintRow} {kind : RowKind} (hr : g.rowKind? r = some kind) :
    g.sign w r = (rowSign (some kind) (w.contains r)).getD 0 := by
  obtain ⟨c, hc, hk⟩ := rowKind?_eq_some.1 hr
  simp [sign, hc, signOf, hk]

theorem sign_equality {r : ConstraintRow} (hr : g.rowKind? r = some .equality) :
    g.sign w r = -1 := by
  rw [sign_eq hr]
  rfl

theorem sign_inequality {r : ConstraintRow} (hr : g.rowKind? r = some .inequality)
    (hw : r ∈ w.rows) : g.sign w r = 1 := by
  rw [sign_eq hr, WorkingSet.contains_iff.2 hw]
  rfl

theorem sign_mul_self {r : ConstraintRow} (hr : g.IsActive w r) : g.sign w r * g.sign w r = 1 := by
  rcases hr with hr | ⟨hr, hw⟩
  · rw [sign_equality hr]
    ring
  · rw [sign_inequality hr hw, one_mul]

/-- A sum over the rows of all participating factors, where rows that are not active count as zero,
is a sum over the active rows. -/
theorem sum_participating (φ : ConstraintRow → α) : ((g.participating w).map fun e =>
    ∑ row ∈ range e.2.rows, (signOf w e.1 e.2 row).getD 0 * φ ⟨e.1, row⟩).sum =
      ∑ r ∈ g.activeSet w, g.sign w r * φ r := by
  rw [activeSet, List.sum_toFinset _ (nodup_activeRows g w), activeRows, List.map_flatMap,
    List.flatMap, List.sum_flatten, List.map_map]
  refine congrArg List.sum (List.map_congr_left fun e he => ?_)
  obtain ⟨i, c⟩ := e
  obtain ⟨hc, -⟩ := mem_participating.1 he
  have hset : (activeRowsOf w i c).toFinset =
      (range c.rows).filter fun row => (signOf w i c row : Option α).isSome := by
    ext row
    simp [activeRowsOf]
  rw [Function.comp_apply, List.map_map, ← List.sum_toFinset _ (nodup_activeRowsOf w i c), hset,
    Finset.sum_filter]
  apply Finset.sum_congr rfl
  intro row _
  have hsign : g.sign w ⟨i, row⟩ = (signOf w i c row).getD 0 := by simp [sign, hc]
  cases hs : (signOf w i c row : Option α) with
  | none => simp
  | some t => simp [hsign, hs]

/-- The active rows, weighed by their signs and multipliers, as one linear form. The multiplier of a
row is the entry at the row's index of the variable with the index of its factor. -/
def weighted (g : Graph κ α) (w : WorkingSet) (d : Point ℕ α) : Point κ α →ₗ[α] α :=
  ∑ r ∈ g.activeSet w, (g.sign w r * d r.factor r.row) • g.rowForm r

theorem weighted_apply (g : Graph κ α) (w : WorkingSet) (d : Point ℕ α) (v : Point κ α) :
    g.weighted w d v = ∑ r ∈ g.activeSet w, g.sign w r * (d r.factor r.row * g.rowForm r v) := by
  simp only [weighted, LinearMap.sum_apply, LinearMap.smul_apply, smul_eq_mul, mul_assoc]

def Independent (g : Graph κ α) (w : WorkingSet) : Prop :=
  LinearIndepOn α g.rowForm {r | g.IsActive w r}

/-- A single row that does not vanish is independent. -/
theorem independent_of_single {r : ConstraintRow} (hr : g.rowForm r ≠ 0)
    (h : ∀ a, g.IsActive w a → a = r) : g.Independent w :=
  (LinearIndepOn.singleton hr).mono h

/-- What the active rows span they give with some multipliers, zero on all other rows. -/
theorem exists_weighted {L : Point κ α →ₗ[α] α}
    (hL : L ∈ Submodule.span α (g.rowForm '' {r | g.IsActive w r})) :
    ∃ d : Point ℕ α, (∀ r : ConstraintRow, ¬g.IsActive w r → d r.factor r.row = 0) ∧
      g.weighted w d = L := by
  have hset : {r | g.IsActive w r} = ↑(g.activeSet w) := by
    ext r
    rw [Finset.mem_coe, mem_activeSet]
    rfl
  rw [hset, Submodule.mem_span_image_finset_iff_exists_fun'] at hL
  obtain ⟨c, rfl⟩ := hL
  refine ⟨fun i row => if ⟨i, row⟩ ∈ g.activeSet w then g.sign w ⟨i, row⟩ * c ⟨i, row⟩ else 0,
    fun r hr => if_neg fun hmem => hr (mem_activeSet.1 hmem), ?_⟩
  apply Finset.sum_congr rfl
  intro r hr
  change (g.sign w r * if r ∈ g.activeSet w then g.sign w r * c r else 0) • g.rowForm r = _
  rw [if_pos hr, ← mul_assoc, sign_mul_self (mem_activeSet.1 hr), one_mul]

/-- Weighed rows are determined by their values at the entries of the variables that they touch. -/
theorem weighted_eq_sum {K : Finset κ} {n : κ → ℕ} (hK : ∀ r, g.IsActive w r → ∀ c,
    g.constraintAt? r.factor = some c → (∀ k ∈ c.keys, k ∈ K) ∧ ∀ e ∈ c.keyDims, n e.1 = e.2)
    (d : Point ℕ α) (v : Point κ α) : g.weighted w d v =
      ∑ k ∈ K, ∑ j ∈ range (n k), g.weighted w d (unitPoint k j) * v k j := by
  have hrow (r : ConstraintRow) (hr : r ∈ g.activeSet w) : g.rowForm r v =
      ∑ k ∈ K, ∑ j ∈ range (n k), g.rowForm r (unitPoint k j) * v k j := by
    cases hc : g.constraintAt? r.factor with
    | none => simp [rowForm, hc]
    | some c =>
      obtain ⟨hkeys, hdims⟩ := hK r (mem_activeSet.1 hr) c hc
      rw [rowForm_eq hc]
      exact c.form_eq_sum r.row hkeys hdims v
  simp only [weighted_apply, Finset.sum_mul]
  rw [Finset.sum_congr rfl fun r hr => by rw [hrow r hr]]
  simp only [Finset.mul_sum]
  rw [Finset.sum_comm]
  apply Finset.sum_congr rfl
  intro k _
  rw [Finset.sum_comm]
  exact Finset.sum_congr rfl fun j _ => Finset.sum_congr rfl fun r _ => by ring

end Graph

end GaussianProgram
