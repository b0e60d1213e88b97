import GaussianProgram.Proofs.Assembly

/-! Sparsity patterns. Which places of a system store an entry depends on what the factors have
there, not on the order in which they are added. -/
namespace GaussianProgram

namespace Result
variable {σ β γ ε : Type} {P : σ → Prop}

/-- Whatever the state, a successful step brings something about or leaves it as it is. -/
def Settles (P : σ → Prop) (f : σ → Except ε σ) : Prop :=
  ∃ A : Prop, ∀ s t, f s = .ok t → (P t ↔ P s ∨ A)

/-- A step that waits for a value settles what it settles with that value. -/
theorem Settles.bind {x : Except ε γ} {f : γ → σ → Except ε σ}
    (h : ∀ c, x = .ok c → Settles P (f c)) : Settles P fun s => x >>= fun c => f c s := by
  cases x with
  | error e => exact ⟨False, fun s t hok => nomatch hok⟩
  | ok c => exact h c rfl

theorem Settles.foldlM {f : σ → β → Except ε σ} {l : List β}
    (h : ∀ a ∈ l, Settles P fun s => f s a) : Settles P fun s => l.foldlM f s := by
  choose! A hA using h
  exact ⟨∃ a ∈ l, A a, fun s t => foldlM_iff fun s t a ha => hA a ha s t⟩

/-- What the members of a fold settle does not depend on their order. -/
theorem Settles.perm {f : σ → β → Except ε σ} {l l' : List β} {s t t' : σ}
    (h : ∀ a ∈ l, Settles P fun s => f s a) (hl : l.Perm l') (ht : l.foldlM f s = .ok t)
    (ht' : l'.foldlM f s = .ok t') : P t' ↔ P t := by
  choose! A hA using h
  rw [foldlM_iff (fun s t a ha => hA a ha s t) ht,
    foldlM_iff (fun s t a ha => hA a (hl.mem_iff.2 ha) s t) ht']
  exact or_congr_right (exists_congr fun a => and_congr_left' hl.mem_iff.symm)

end Result

section Patterns
variable {κ α : Type} [Key κ] [ExactScalar α] {layout : Layout κ}

namespace ConstrainedSystem
variable {e : ℕ × ℕ}

/-- Blocks with their columns settle what they store. -/
private theorem settles_blocks {β : Type} (l : List β) (row : ℕ)
    (column : β → Result LinearError ℕ) (block : β → Result LinearError (Matrix α)) :
    Result.Settles (fun m : SparseMatrix α => e ∈ m.entries.keys) fun m =>
      l.foldlM (fun m b => do return m.addBlock row (← column b) (← block b)) m := by
  refine Result.Settles.foldlM fun b _ => .bind fun c _ => .bind fun v _ => ?_
  exact ⟨_, fun m m' h => Result.pure_eq_ok.1 h ▸ m.mem_keys_addBlock row c v⟩

/-- A factor stores the same places of the matrix of the costs whenever it is added. -/
theorem settles_addFactor (f : Factor κ α) :
    Result.Settles (fun s : ConstrainedSystem α => e ∈ s.hessian.entries.keys) fun s =>
      s.addFactor layout f := by
  have hcosts {s t : ConstrainedSystem α} {hessian : SparseMatrix α} {offset : ℕ} {v : Vec α}
      (h : { s with hessian }.addLinear offset v = .ok t) : t.hessian = hessian := by
    obtain ⟨linear, -, h⟩ := Result.bind_eq_ok.1 h
    cases Result.pure_eq_ok.1 h
    rfl
  cases f with
  | quadratic f =>
    refine Result.Settles.foldlM fun a _ => .bind fun row _ => ?_
    obtain ⟨A, hA⟩ := settles_blocks (e := e) f.keys.zipIdx row (fun b => layout.columnOf b.1)
      fun b => Result.inRange (f.block? a.2 b.2)
    refine ⟨A, fun s t h => ?_⟩
    obtain ⟨hessian, hhessian, h⟩ := Result.bind_eq_ok.1 h
    obtain ⟨v, -, h⟩ := Result.bind_eq_ok.1 h
    dsimp only
    rw [hcosts h]
    exact hA _ _ hhessian
  | linear f =>
    simp only [addFactor]
    split_ifs
    · refine Result.Settles.foldlM fun a _ => .bind fun row _ => ?_
      obtain ⟨A, hA⟩ := settles_blocks (e := e) f.terms row (fun b => layout.columnOf b.1)
        fun b => Result.inRange (a.2.transpose.mul? b.2)
      refine ⟨A, fun s t h => ?_⟩
      obtain ⟨_, -, h⟩ := Result.bind_eq_ok.1 h
      obtain ⟨hessian, hhessian, h⟩ := Result.bind_eq_ok.1 h
      dsimp only
      rw [hcosts h]
      exact hA _ _ hhessian
    · refine Result.Settles.foldlM fun row _ => ⟨False, fun s t h => ?_⟩
      obtain ⟨constraints, -, h⟩ := Result.bind_eq_ok.1 h
      obtain ⟨b, -, h⟩ := Result.bind_eq_ok.1 h
      cases Result.pure_eq_ok.1 h
      exact (or_false _).symm.to_iff

/-- In whatever order the factors stand, their costs store the same places. -/
theorem keys_hessian_of_perm {g g' : Graph κ α} (h : g.factors.Perm g'.factors)
    {s s' : ConstrainedSystem α} (hs : ofGraph layout g = .ok s)
    (hs' : ofGraph layout g' = .ok s') :
    e ∈ s'.hessian.entries.keys ↔ e ∈ s.hessian.entries.keys := by
  obtain ⟨start, hstart, hs⟩ := Result.bind_eq_ok.1 hs
  obtain ⟨_, hstart', hs'⟩ := Result.bind_eq_ok.1 hs'
  cases hstart.symm.trans hstart'
  exact Result.Settles.perm (P := fun s : ConstrainedSystem α => e ∈ s.hessian.entries.keys)
    (fun f _ => settles_addFactor f) h hs hs'

end ConstrainedSystem

def LinearRows.Touches (layout : Layout κ) (f : LinearRows κ α) (row j : ℕ) : Prop :=
  ∃ t ∈ f.terms, ∃ column, layout.columnOf t.1 = .ok column ∧
    ∃ c < t.2.cols, t.2.get row c ≠ 0 ∧ j = (column + c) % UInt64.size

namespace LeastSquaresSystem
variable {E : List (ℕ → Prop)} {s s' : LeastSquaresSystem α}

/-- The rows store entries in the columns that the list says, one row after the other. -/
structure Patterned (E : List (ℕ → Prop)) (s : LeastSquaresSystem α) : Prop where
  length_eq : E.length = s.rhs.length
  stores : ∀ i j, (i, j) ∈ s.jacobian.entries.keys ↔ ∃ T, E[i]? = some T ∧ T j

/-- Added rows store entries behind those that are there, where they have them. -/
theorem mem_keys_addRows {f : LinearRows κ α} (h : s.addRows layout f = .ok s')
    (hsize : s.rhs.length + f.rows ≤ UInt64.size) {i j : ℕ} :
    (i, j) ∈ s'.jacobian.entries.keys ↔ (i, j) ∈ s.jacobian.entries.keys ∨
      ∃ r < f.rows, i = s.rhs.length + r ∧ f.Touches layout r j := by
  obtain ⟨jacobian, hterms, h⟩ := Result.bind_eq_ok.1 h
  cases Result.pure_eq_ok.1 h
  have hkeys : (i, j) ∈ jacobian.entries.keys ↔ (i, j) ∈ s.jacobian.entries.keys ∨
      ∃ t ∈ f.terms, ∃ column, layout.columnOf t.1 = .ok column ∧ ∃ r < f.rows,
        i = s.rhs.length + r ∧
          ∃ c < t.2.cols, t.2.get r c ≠ 0 ∧ j = (column + c) % UInt64.size := by
    refine Result.foldlM_iff (P := fun m : SparseMatrix α => (i, j) ∈ m.entries.keys)
      (fun m m' t ht hstep => ?_) hterms
    obtain ⟨column, hcolumn, hstep⟩ := Result.bind_eq_ok.1 hstep
    cases Result.pure_eq_ok.1 hstep
    have hblock : t.2.rows = f.rows := f.block_rows _ ht
    rw [SparseMatrix.mem_keys_addBlock, hblock]
    refine or_congr_right ⟨?_, ?_⟩
    · rintro ⟨r, hr, c, hc, hne, he⟩
      rw [Nat.mod_eq_of_lt (by omega)] at he
      obtain ⟨rfl, rfl⟩ := Prod.mk.inj he
      exact ⟨column, hcolumn, r, hr, rfl, c, hc, hne, rfl⟩
    · rintro ⟨_, hcolumn', r, hr, rfl, c, hc, hne, rfl⟩
      cases hcolumn.symm.trans hcolumn'
      refine ⟨r, hr, c, hc, hne, ?_⟩
      rw [Nat.mod_eq_of_lt (a := s.rhs.length + r) (by omega)]
  refine hkeys.trans (or_congr_right ⟨?_, ?_⟩)
  · rintro ⟨t, ht, column, hcolumn, r, hr, hi, c, hentry⟩
    exact ⟨r, hr, hi, t, ht, column, hcolumn, c, hentry⟩
  · rintro ⟨r, hr, hi, t, ht, column, hcolumn, c, hentry⟩
    exact ⟨t, ht, column, hcolumn, r, hr, hi, c, hentry⟩

theorem Patterned.addRows {f : LinearRows κ α} (hs : Patterned E s)
    (h : s.addRows layout f = .ok s') (hsize : s.rhs.length + f.rows ≤ UInt64.size) :
    Patterned (E ++ (List.range f.rows).map (f.Touches layout)) s' := by
  refine ⟨?_, fun i j => ?_⟩
  · obtain ⟨_, -, h⟩ := Result.bind_eq_ok.1 h
    cases Result.pure_eq_ok.1 h
    simp [hs.length_eq, LinearRows.rows]
  rw [mem_keys_addRows h hsize, hs.stores, List.getElem?_append, hs.length_eq]
  split_ifs with hi
  · refine or_iff_left ?_
    rintro ⟨r, -, rfl, -⟩
    omega
  · obtain ⟨r, rfl⟩ := Nat.exists_eq_add_of_le (not_lt.1 hi)
    have hE : E[s.rhs.length + r]? = none :=
      List.getElem?_eq_none_iff.2 (hs.length_eq.trans_le (Nat.le_add_right _ _))
    rw [hE, Nat.add_sub_cancel_left, List.getElem?_map]
    by_cases hr : r < f.rows
    · simp [hr]
    · simp [hr]

/-- The rows of a graph store entries where its linear factors have them. -/
theorem patterned_ofGraph {g : Graph κ α} (h : ofGraph layout g = .ok s)
    (hrows : s.rhs.length ≤ UInt64.size) : Patterned ((g.factors.filterMap Factor.linear?).flatMap
      fun f => (List.range f.rows).map (f.Touches layout)) s :=
  rows_ofGraph (R := Patterned)
    ⟨rfl, fun i j => by simp [SparseMatrix.empty, SortedMap.keys, SortedMap.empty]⟩
    (fun _ _ _ _ _ hs' hsize hs => hs.addRows hs' hsize) h hrows

/-- The normal matrix stores the pairs of columns that some row has in common. -/
theorem Patterned.mem_keys_gram (hs : Patterned E s) {i j : ℕ} :
    (i, j) ∈ s.jacobian.gram.entries.keys ↔ i < s.jacobian.cols ∧ ∃ T ∈ E, T i ∧ T j := by
  simp only [SparseMatrix.mem_keys_gram, hs.stores]
  refine and_congr_right fun _ => ⟨?_, ?_⟩
  · rintro ⟨r, ⟨T, hT, hi⟩, T', hT', hj⟩
    cases hT.symm.trans hT'
    exact ⟨T, List.mem_of_getElem? hT, hi, hj⟩
  · rintro ⟨T, hT, hi, hj⟩
    obtain ⟨r, hr⟩ := List.getElem?_of_mem hT
    exact ⟨r, ⟨T, hr, hi⟩, T, hr, hj⟩

end LeastSquaresSystem

end Patterns

end GaussianProgram
