import GaussianProgram.Proofs.Cost
import GaussianProgram.Proofs.KeyDimensions
import GaussianProgram.Graph.Rows

/-! Constraint rows of a graph and what remains of them at a point. Along a segment the slack of
every row is affine. -/
namespace GaussianProgram

namespace Factor
variable {κ α : Type} [Key κ]

theorem constraint?_eq_some {f : Factor κ α} {c : LinearRows κ α} :
    f.constraint? = some c ↔ f = .linear c ∧ c.isConstrained = true := by
  cases f with
  | quadratic q => simp [constraint?, linear?]
  | linear rows =>
    simp only [constraint?, linear?, Option.filter_eq_some_iff, Option.some.injEq, linear.injEq]

end Factor

namespace LinearRows
variable {κ α : Type} [Key κ]

theorem mem_rowsOfKind {f : LinearRows κ α} {kind : RowKind} {row : ℕ} :
    row ∈ f.rowsOfKind kind ↔ f.rowKind? row = some kind := by
  rw [rowsOfKind, rowKind?]
  cases f.kinds with
  | none => simp
  | some ks =>
    simp only [Option.getD_some, Option.bind_some, List.mem_map, List.mem_filter, beq_iff_eq]
    constructor
    · rintro ⟨⟨k, i⟩, ⟨hmem, rfl⟩, rfl⟩
      exact List.mk_mem_zipIdx_iff_getElem?.1 hmem
    · intro h
      exact ⟨(kind, row), ⟨List.mk_mem_zipIdx_iff_getElem?.2 h, rfl⟩, rfl⟩

theorem nodup_rowsOfKind (f : LinearRows κ α) (kind : RowKind) : (f.rowsOfKind kind).Nodup := by
  exact (List.nodup_zipIdx_map_snd _).sublist (List.filter_sublist.map _)

theorem exists_rowKind?_iff {f : LinearRows κ α} {kind : RowKind} :
    (!(f.rowsOfKind kind).isEmpty) = true ↔ ∃ row, f.rowKind? row = some kind := by
  rw [Bool.not_eq_true', Bool.eq_false_iff, ne_eq, List.isEmpty_iff]
  simp only [List.eq_nil_iff_forall_not_mem, not_forall, not_not, mem_rowsOfKind]

theorem rowKind?_lt {f : LinearRows κ α} {row : ℕ} {kind : RowKind}
    (h : f.rowKind? row = some kind) : row < f.rows := by
  obtain ⟨ks, hks, hrow⟩ := Option.bind_eq_some_iff.1 h
  have hlen := f.kinds_length ks hks
  rw [rows, ← hlen]
  exact (List.getElem?_eq_some_iff.1 hrow).1

/-- Every row of a constraint factor has a kind. -/
theorem exists_rowKind? {f : LinearRows κ α} (hf : f.isConstrained = true) {row : ℕ}
    (h : row < f.rows) : ∃ kind, f.rowKind? row = some kind := by
  obtain ⟨ks, hks⟩ := Option.isSome_iff_exists.1 hf
  have hrow : row < ks.length := by
    rw [f.kinds_length ks hks]
    exact h
  exact ⟨ks[row], by simp [rowKind?, hks, hrow]⟩

end LinearRows

namespace Graph
variable {κ α : Type} [Key κ]

theorem mem_linear {g : Graph κ α} {c : LinearRows κ α} :
    c ∈ g.factors.filterMap Factor.linear? ↔ .linear c ∈ g.factors := by
  rw [List.mem_filterMap]
  constructor
  · rintro ⟨f, hf, hc⟩
    cases f with
    | quadratic _ => cases hc
    | linear _ =>
      cases hc
      exact hf
  · exact fun hc => ⟨_, hc, rfl⟩

theorem constraintAt?_eq_some {g : Graph κ α} {i : ℕ} {c : LinearRows κ α} :
    g.constraintAt? i = some c ↔ ∃ f, g.factors[i]? = some f ∧ f.constraint? = some c :=
  Option.bind_eq_some_iff

theorem mem_factors_of_constraintAt? {g : Graph κ α} {i : ℕ} {c : LinearRows κ α}
    (h : g.constraintAt? i = some c) : .linear c ∈ g.factors := by
  obtain ⟨f, hf, hc⟩ := constraintAt?_eq_some.1 h
  rw [(Factor.constraint?_eq_some.1 hc).1] at hf
  exact List.mem_of_getElem? hf

theorem mem_constraints {g : Graph κ α} {i : ℕ} {c : LinearRows κ α} :
    (i, c) ∈ g.constraints ↔ g.constraintAt? i = some c := by
  rw [constraints, List.mem_filterMap, constraintAt?_eq_some]
  constructor
  · rintro ⟨⟨j, f⟩, hmem, he⟩
    obtain ⟨c', hc, he⟩ := Option.map_eq_some_iff.1 he
    cases he
    exact ⟨f, mem_indexed.1 hmem, hc⟩
  · rintro ⟨f, hf, hc⟩
    exact ⟨(i, f), mem_indexed.2 hf, by simp [hc]⟩

theorem flatMap_constraints {β : Type} (g : Graph κ α) (φ : ℕ × LinearRows κ α → List β) :
    g.constraints.flatMap φ =
      g.indexed.flatMap fun e => e.2.constraint?.toList.flatMap fun c => φ (e.1, c) := by
  rw [constraints, List.filterMap_eq_flatMap_toList, List.flatMap_assoc]
  refine List.flatMap_congr fun ⟨i, f⟩ _ => ?_
  dsimp only
  cases f.constraint? <;> rfl

/-- Constraint factors are listed in the order of their indices. -/
theorem ascending_constraints (g : Graph κ α) : g.constraints.Pairwise fun a b => a.1 < b.1 := by
  rw [constraints, List.pairwise_filterMap]
  refine g.ascending_indexed.imp fun {a b} hlt e he e' he' => ?_
  obtain ⟨c, -, rfl⟩ := Option.map_eq_some_iff.1 he
  obtain ⟨c', -, rfl⟩ := Option.map_eq_some_iff.1 he'
  exact hlt

/-- Every constraint factor is listed once. -/
theorem pairwise_constraints (g : Graph κ α) : g.constraints.Pairwise fun a b => a.1 ≠ b.1 :=
  g.ascending_constraints.imp Nat.ne_of_lt

theorem rowKind?_eq_some {g : Graph κ α} {r : ConstraintRow} {kind : RowKind} :
    g.rowKind? r = some kind ↔
      ∃ c, g.constraintAt? r.factor = some c ∧ c.rowKind? r.row = some kind :=
  Option.bind_eq_some_iff

theorem isInequality_iff {g : Graph κ α} {r : ConstraintRow} :
    g.isInequality r = true ↔ g.rowKind? r = some .inequality := beq_iff_eq

def rowsOfKind (g : Graph κ α) (kind : RowKind) : List ConstraintRow :=
  g.constraints.flatMap fun (i, c) => (c.rowsOfKind kind).map (ConstraintRow.mk i)

theorem mem_rowsOfKind {g : Graph κ α} {kind : RowKind} {r : ConstraintRow} :
    r ∈ g.rowsOfKind kind ↔ g.rowKind? r = some kind := by
  rw [rowsOfKind, List.mem_flatMap, rowKind?_eq_some]
  constructor
  · rintro ⟨⟨i, c⟩, hmem, hr⟩
    obtain ⟨row, hrow, rfl⟩ := List.mem_map.1 hr
    exact ⟨c, mem_constraints.1 hmem, LinearRows.mem_rowsOfKind.1 hrow⟩
  · rintro ⟨c, hc, hk⟩
    exact ⟨(r.factor, c), mem_constraints.2 hc,
      List.mem_map.2 ⟨r.row, LinearRows.mem_rowsOfKind.2 hk, rfl⟩⟩

theorem nodup_rowsOfKind (g : Graph κ α) (kind : RowKind) : (g.rowsOfKind kind).Nodup := by
  refine List.nodup_flatMap.2 ⟨fun e _ => ?_, g.pairwise_constraints.imp fun {a b} hne => ?_⟩
  · exact (e.2.nodup_rowsOfKind kind).map fun row row' he => congrArg ConstraintRow.row he
  · intro r hr hr'
    obtain ⟨row, -, rfl⟩ := List.mem_map.1 hr
    obtain ⟨row', -, he⟩ := List.mem_map.1 hr'
    exact hne (congrArg ConstraintRow.factor he).symm

theorem mem_inequalityRows {g : Graph κ α} {r : ConstraintRow} :
    r ∈ g.inequalityRows ↔ g.rowKind? r = some .inequality := mem_rowsOfKind

section Shape

/-- The assignment has every variable of the graph in the dimension each factor needs. -/
def Covers (g : Graph κ α) (x : Assignment κ α) : Prop := ∀ f ∈ g.factors, x.HasDims f.keyDims

instance (g : Graph κ α) (x : Assignment κ α) : Decidable (g.Covers x) :=
  inferInstanceAs (Decidable (∀ f ∈ g.factors, x.HasDims f.keyDims))

/-- The assignment has exactly the variables of the graph, in their dimensions. -/
def Fits (g : Graph κ α) (x : Assignment κ α) : Prop :=
  g.Covers x ∧ ∀ k ∈ x.keys, ∃ f ∈ g.factors, k ∈ f.keys

instance (g : Graph κ α) (x : Assignment κ α) : Decidable (g.Fits x) :=
  inferInstanceAs (Decidable (g.Covers x ∧ ∀ k ∈ x.keys, ∃ f ∈ g.factors, k ∈ f.keys))

theorem Covers.mono {g : Graph κ α} {x y : Assignment κ α} (h : g.Covers x)
    (hxy : ∀ k n, x.dim? k = some n → y.dim? k = some n) : g.Covers y :=
  fun f hf => (h f hf).mono hxy

theorem Covers.of_sameShape {g : Graph κ α} {x y : Assignment κ α} (h : g.Covers x)
    (hs : x.SameShape y) : g.Covers y := fun f hf => (h f hf).of_sameShape hs

theorem Fits.of_sameShape {g : Graph κ α} {x y : Assignment κ α} (h : g.Fits x)
    (hs : x.SameShape y) : g.Fits y := by
  refine ⟨h.1.of_sameShape hs, fun k hk => h.2 k ?_⟩
  obtain ⟨v, hv⟩ := SortedMap.mem_keys_iff.1 hk
  obtain ⟨u, hu, -⟩ := Assignment.dim?_eq_some.1
    ((hs k).trans (Assignment.dim?_eq_some.2 ⟨v, hv, rfl⟩))
  exact SortedMap.mem_keys_iff.2 ⟨u, hu⟩

theorem Covers.mem_keys {g : Graph κ α} {x : Assignment κ α} (h : g.Covers x) {f : Factor κ α}
    (hf : f ∈ g.factors) {k : κ} (hk : k ∈ f.keys) : k ∈ x.keys := by
  obtain ⟨e, he, rfl⟩ := List.mem_map.1 hk
  obtain ⟨v, hv, _⟩ := Assignment.dim?_eq_some.1 (h f hf e he)
  exact SortedMap.mem_keys_iff.2 ⟨v, hv⟩

/-- Assignments that fit the same graph are equal if their values are those of a third one. -/
theorem Fits.eq_of_values {g : Graph κ α} {x y z : Assignment κ α} (hx : g.Fits x) (hy : g.Fits y)
    (hxz : ∀ k v, x.get? k = some v → z.get? k = some v)
    (hyz : ∀ k v, y.get? k = some v → z.get? k = some v) : x = y := by
  have hle {x y : Assignment κ α} (hx : g.Fits x) (hy : g.Fits y)
      (hxz : ∀ k v, x.get? k = some v → z.get? k = some v)
      (hyz : ∀ k v, y.get? k = some v → z.get? k = some v) {k : κ} {v : Vec α}
      (hv : x.get? k = some v) : y.get? k = some v := by
    obtain ⟨f, hf, hk⟩ := hx.2 k (SortedMap.mem_keys_iff.2 ⟨v, hv⟩)
    obtain ⟨u, hu⟩ := SortedMap.mem_keys_iff.1 (hy.1.mem_keys hf hk)
    cases (hxz k v hv).symm.trans (hyz k u hu)
    exact hu
  exact SortedMap.ext_get? fun k => Option.ext fun v => ⟨hle hx hy hxz hyz, hle hy hx hyz hxz⟩

/-- An assignment that covers a graph agrees with one that fits it on all variables of the graph. -/
theorem Covers.exists_fits {g : Graph κ α} {x : Assignment κ α} (h : g.Covers x) :
    ∃ y, g.Fits y ∧ ∀ f ∈ g.factors, ∀ k ∈ f.keys, y.get? k = x.get? k := by
  let names := g.factors.flatMap Factor.keys
  have hget {f : Factor κ α} (hf : f ∈ g.factors) {k : κ} (hk : k ∈ f.keys) :
      (x.filterKeys (decide <| · ∈ names)).get? k = x.get? k := by
    rw [SortedMap.get?_filterKeys, if_pos (by simpa [names] using ⟨f, hf, hk⟩)]
  refine ⟨x.filterKeys (decide <| · ∈ names), ⟨fun f hf e he => ?_, fun k hk => ?_⟩,
    fun f hf k hk => hget hf hk⟩
  · rw [Assignment.dim?, hget hf (List.mem_map_of_mem he)]
    exact h f hf e he
  · obtain ⟨v, hv⟩ := SortedMap.mem_keys_iff.1 hk
    rw [SortedMap.get?_filterKeys] at hv
    split_ifs at hv with hmem
    exact List.mem_flatMap.1 (of_decide_eq_true hmem)

/-- An assignment with the dimensions of a graph fits it. -/
theorem fits_of_dims {g : Graph κ α} {dims : SortedMap κ ℕ} (h : g.keyDimensions = .ok dims)
    {x : Assignment κ α} (hx : ∀ k, x.dim? k = dims.get? k) : g.Fits x := by
  refine ⟨fun f hf e he => ?_, fun k hk => ?_⟩
  · rw [hx]
    exact (keyDimensions_spec h).2 ⟨f, hf, he⟩
  · obtain ⟨v, hv⟩ := SortedMap.mem_keys_iff.1 hk
    have hd : dims.get? k = some v.length := by rw [← hx, Assignment.dim?, hv]; rfl
    obtain ⟨f, hf, he⟩ := (keyDimensions_spec h).1 hd
    exact ⟨f, hf, List.mem_map_of_mem he⟩

/-- The variables of an assignment that fits a graph are those of its factors. -/
theorem Fits.dim?_eq_some {g : Graph κ α} {x : Assignment κ α} (hx : g.Fits x) {k : κ} {n : ℕ} :
    x.dim? k = some n ↔ ∃ f ∈ g.factors, (k, n) ∈ f.keyDims := by
  constructor
  · intro hk
    obtain ⟨v, hv, -⟩ := Assignment.dim?_eq_some.1 hk
    obtain ⟨f, hf, hkey⟩ := hx.2 k (SortedMap.mem_keys_iff.2 ⟨v, hv⟩)
    obtain ⟨e, he, rfl⟩ := List.mem_map.1 hkey
    obtain rfl : e.2 = n := Option.some.inj ((hx.1 f hf e he).symm.trans hk)
    exact ⟨f, hf, he⟩
  · rintro ⟨f, hf, he⟩
    exact hx.1 f hf _ he

/-- An assignment that fits a graph has its dimensions. -/
theorem Fits.dim?_eq {g : Graph κ α} {x : Assignment κ α} (hx : g.Fits x) {dims : SortedMap κ ℕ}
    (h : g.keyDimensions = .ok dims) (k : κ) : x.dim? k = dims.get? k :=
  Option.ext fun _ => hx.dim?_eq_some.trans (keyDimensions_spec h).symm

/-- The factors of a graph that some assignment fits agree about dimensions. -/
theorem Fits.exists_keyDimensions {g : Graph κ α} {x : Assignment κ α} (hx : g.Fits x) :
    ∃ dims, g.keyDimensions = .ok dims ∧ ∀ k, x.dim? k = dims.get? k := by
  obtain ⟨dims, hdims⟩ :=
    Graph.exists_keyDimensions (fun k => (x.dim? k).getD 0) fun f hf e he => by
      rw [hx.1 f hf e he, Option.getD_some]
  exact ⟨dims, hdims, hx.dim?_eq hdims⟩

end Shape

section Slack
variable [Scalar α]

/-- What remains of a row at an assignment: its right-hand side minus its value. -/
def rowSlack (g : Graph κ α) (r : ConstraintRow) (x : Assignment κ α) :
    Result (FactorError α) α := do
  let c ← Result.inRange (g.constraintAt? r.factor)
  let b ← Result.inRange c.rhs[r.row]?
  return b - (← c.rowValue r.row x)

end Slack

section Exact
variable [ExactScalar α]

/-- Assignments that fit the same graph are equal if they agree in all entries of its variables. -/
theorem Fits.ext_entries {g : Graph κ α} {x y : Assignment κ α} (hx : g.Fits x) (hy : g.Fits y)
    (h : ∀ f ∈ g.factors, ∀ e ∈ f.keyDims, ∀ j < e.2, x.entries e.1 j = y.entries e.1 j) :
    x = y := by
  have hshape : x.SameShape y := fun k =>
    Option.ext fun _ => hx.dim?_eq_some.trans hy.dim?_eq_some.symm
  have hinside {z : Assignment κ α} (hz : g.Fits z) {k : κ} {j : ℕ} (hne : z.entries k j ≠ 0) :
      x.entries k j = y.entries k j := by
    obtain ⟨n, hn, hj⟩ := Assignment.lt_dim?_of_entries_ne_zero hne
    obtain ⟨f, hf, he⟩ := hz.dim?_eq_some.1 hn
    exact h f hf _ he j hj
  refine Assignment.ext_entries hshape (funext fun k => funext fun j => ?_)
  by_cases hx0 : x.entries k j = 0
  · by_cases hy0 : y.entries k j = 0
    · rw [hx0, hy0]
    · exact hinside hy hy0
  · exact hinside hx hx0

/-- Value of a row as a linear form, zero where the graph has no such constraint factor. -/
def rowForm (g : Graph κ α) (r : ConstraintRow) : Point κ α →ₗ[α] α :=
  ((g.constraintAt? r.factor).map (·.form r.row)).getD 0

def slack (g : Graph κ α) (r : ConstraintRow) (p : Point κ α) : α :=
  ((g.constraintAt? r.factor).map fun c => Vec.get c.rhs r.row).getD 0 - g.rowForm r p

/-- What some rows span vanishes where they all do. -/
theorem eq_zero_of_mem_span {g : Graph κ α} {S : Set ConstraintRow} {d : Point κ α}
    (hd : ∀ r ∈ S, g.rowForm r d = 0) {L : Point κ α →ₗ[α] α}
    (hL : L ∈ Submodule.span α (g.rowForm '' S)) : L d = 0 := by
  have hspan : Submodule.span α (g.rowForm '' S) ≤ LinearMap.ker (LinearMap.applyₗ d) := by
    refine Submodule.span_le.2 ?_
    rintro _ ⟨r, hr, rfl⟩
    exact hd r hr
  exact hspan hL

theorem rowForm_eq {g : Graph κ α} {r : ConstraintRow} {c : LinearRows κ α}
    (h : g.constraintAt? r.factor = some c) : g.rowForm r = c.form r.row := by
  simp [rowForm, h]

theorem slack_eq {g : Graph κ α} {r : ConstraintRow} {c : LinearRows κ α}
    (h : g.constraintAt? r.factor = some c) (p : Point κ α) :
    g.slack r p = Vec.get c.rhs r.row - c.form r.row p := by
  simp [slack, rowForm, h]

theorem slack_sub (g : Graph κ α) (r : ConstraintRow) (p q : Point κ α) :
    g.slack r p - g.slack r q = g.rowForm r (q - p) := by
  rw [slack, slack, map_sub]
  ring

theorem slack_add_smul (g : Graph κ α) (r : ConstraintRow) (p d : Point κ α) (t : α) :
    g.slack r (p + t • d) = g.slack r p - t * g.rowForm r d := by
  simp only [slack, map_add, map_smul, smul_eq_mul]
  ring

/-- Along a segment the slack of a row is affine. -/
theorem slack_segment (g : Graph κ α) (r : ConstraintRow) (p q : Point κ α) (t : α) :
    g.slack r (p + t • (q - p)) = (1 - t) * g.slack r p + t * g.slack r q := by
  rw [slack_add_smul, ← slack_sub]
  ring

/-- A row that the graph has leaves a slack wherever its variables are there. -/
theorem rowSlack_eq_ok {g : Graph κ α} {r : ConstraintRow} {x : Assignment κ α} {s : α} :
    g.rowSlack r x = .ok s ↔ (∃ c, g.constraintAt? r.factor = some c ∧ r.row < c.rows ∧
      x.HasDims c.keyDims) ∧ s = g.slack r x.entries := by
  simp only [rowSlack, Result.bind_eq_ok, Result.inRange_eq_ok, Result.pure_eq_ok,
    LinearRows.rowValue_eq_ok]
  constructor
  · rintro ⟨c, hc, b, hb, _, ⟨hrow, hdims, rfl⟩, rfl⟩
    obtain ⟨hlt, hb⟩ := List.getElem?_eq_some_iff.1 hb
    refine ⟨⟨c, hc, hrow, hdims⟩, ?_⟩
    rw [slack_eq hc, Vec.get_eq_getElem hlt, hb]
  · rintro ⟨⟨c, hc, hrow, hdims⟩, rfl⟩
    have hlt : r.row < c.rhs.length := hrow
    refine ⟨c, hc, _, List.getElem?_eq_getElem hlt, _, ⟨hrow, hdims, rfl⟩, ?_⟩
    rw [slack_eq hc, Vec.get_eq_getElem hlt]

theorem Covers.rowSlack_eq {g : Graph κ α} {x : Assignment κ α} (h : g.Covers x)
    {r : ConstraintRow} {kind : RowKind} (hr : g.rowKind? r = some kind) :
    g.rowSlack r x = .ok (g.slack r x.entries) := by
  obtain ⟨c, hc, hk⟩ := rowKind?_eq_some.1 hr
  exact rowSlack_eq_ok.2 ⟨⟨c, hc, LinearRows.rowKind?_lt hk,
    h _ (mem_factors_of_constraintAt? hc)⟩, rfl⟩

/-- A row that two points meet exactly vanishes along the way between them. -/
theorem rowForm_sub_eq_zero {g : Graph κ α} {r : ConstraintRow} {x y : Assignment κ α}
    (hx : g.rowSlack r x = .ok 0) (hy : g.rowSlack r y = .ok 0) :
    g.rowForm r (y.entries - x.entries) = 0 := by
  rw [← slack_sub, ← (rowSlack_eq_ok.1 hx).2, ← (rowSlack_eq_ok.1 hy).2, sub_self]

/-- A row reads the variables of its factor only. -/
theorem slack_congr {g : Graph κ α} (r : ConstraintRow) {p q : Point κ α}
    (h : ∀ c, g.constraintAt? r.factor = some c → ∀ k ∈ c.keys, p k = q k) :
    g.slack r p = g.slack r q := by
  cases hc : g.constraintAt? r.factor with
  | none => simp [slack, rowForm, hc]
  | some c => rw [slack_eq hc, slack_eq hc, c.form_congr r.row (h c hc)]

/-- An update with an assignment that a row reads leaves the row with the slack it has there. -/
theorem rowSlack_update {g : Graph κ α} {r : ConstraintRow} {x y : Assignment κ α} {s : α}
    (h : g.rowSlack r y = .ok s) : g.rowSlack r (x.update y) = .ok s := by
  obtain ⟨⟨c, hc, hrow, hdims⟩, rfl⟩ := rowSlack_eq_ok.1 h
  have hget {e : κ × ℕ} (he : e ∈ c.keyDims) : (x.update y).get? e.1 = y.get? e.1 := by
    obtain ⟨v, hv, -⟩ := Assignment.dim?_eq_some.1 (hdims e he)
    rw [Assignment.get?_update, hv]
    rfl
  refine rowSlack_eq_ok.2 ⟨⟨c, hc, hrow, fun e he => ?_⟩, ?_⟩
  · rw [Assignment.dim?, hget he]
    exact hdims e he
  · apply slack_congr r
    intro c' hc' k hk
    cases Option.some.inj (hc.symm.trans hc')
    rw [← Factor.keys_linear] at hk
    obtain ⟨e, he, rfl⟩ := List.mem_map.1 hk
    funext i
    rw [Assignment.entries, Assignment.entries, hget he]

end Exact

end Graph

end GaussianProgram
