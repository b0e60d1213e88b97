import GaussianProgram.Proofs.Verification

/-! Reindexed systems. Where the unknowns and the equations of a square system are taken in another
order, the matrix stays nonsingular, solutions are taken in that order too, and all norms of the
check stay what they are. -/
namespace GaussianProgram
open Finset (range)

/-- The permutation that leaves the first `n` places as they are and acts on those behind them. -/
def shifted (n : ℕ) (σ : Equiv.Perm ℕ) : Equiv.Perm ℕ where
  toFun i := if i < n then i else n + σ (i - n)
  invFun i := if i < n then i else n + σ.symm (i - n)
  left_inv i := by
    by_cases hi : i < n
    · simp [hi]
    · simp [hi, Nat.add_sub_cancel' (not_lt.1 hi)]
  right_inv i := by
    by_cases hi : i < n
    · simp [hi]
    · simp [hi, Nat.add_sub_cancel' (not_lt.1 hi)]

theorem shifted_of_lt {n i : ℕ} (hi : i < n) (σ : Equiv.Perm ℕ) : shifted n σ i = i := if_pos hi

theorem shifted_add (n : ℕ) (σ : Equiv.Perm ℕ) (i : ℕ) : shifted n σ (n + i) = n + σ i := by
  simp [shifted]

/-- The members of a list in another order are its members at permuted places. -/
theorem exists_getElem?_of_perm {β : Type} {l l' : List β} (h : l.Perm l') :
    ∃ σ : Equiv.Perm ℕ, ∀ i, l'[σ i]? = l[i]? := by
  induction h with
  | nil => exact ⟨1, fun _ => rfl⟩
  | cons a _ ih =>
    obtain ⟨σ, hσ⟩ := ih
    refine ⟨shifted 1 σ, fun i => ?_⟩
    cases i with
    | zero => rfl
    | succ i => rw [Nat.add_comm i 1, shifted_add, Nat.add_comm 1, Nat.add_comm 1,
        List.getElem?_cons_succ, List.getElem?_cons_succ, hσ]
  | swap a b l =>
    refine ⟨Equiv.swap 0 1, fun i => ?_⟩
    match i with
    | 0 => rfl
    | 1 => rfl
    | i + 2 => rw [Equiv.swap_apply_of_ne_of_ne (by simp) (by simp)]; rfl
  | trans _ _ ih ih' =>
    obtain ⟨σ, hσ⟩ := ih
    obtain ⟨σ', hσ'⟩ := ih'
    exact ⟨σ.trans σ', fun i => (hσ' (σ i)).trans (hσ i)⟩

section Places
variable {β : Type} {l l' : List β} {σ : Equiv.Perm ℕ} (hσ : ∀ i, l'[σ i]? = l[i]?)
include hσ

theorem lt_length_iff_of_getElem? (i : ℕ) : σ i < l'.length ↔ i < l.length := by
  rw [← not_iff_not, not_lt, not_lt, ← List.getElem?_eq_none_iff, hσ, List.getElem?_eq_none_iff]

/-- Sums over the members with their places do not depend on the order. -/
theorem sum_zipIdx_of_getElem? {M : Type} [AddCommMonoid M] (φ : ℕ → β → M) :
    (l'.zipIdx.map fun e => φ e.2 e.1).sum = (l.zipIdx.map fun e => φ (σ e.2) e.1).sum := by
  have hnodup (l : List β) : l.zipIdx.Nodup := l.nodup_zipIdx_map_snd.of_map _
  have hperm : l'.zipIdx.Perm (l.zipIdx.map (Prod.map id σ)) := by
    refine (List.perm_ext_iff_of_nodup (hnodup l')
      ((hnodup l).map (Function.injective_id.prodMap σ.injective))).2 fun e => ?_
    obtain ⟨b, i⟩ := e
    rw [List.mk_mem_zipIdx_iff_getElem?, List.mem_map]
    constructor
    · intro hb
      refine ⟨(b, σ.symm i), List.mk_mem_zipIdx_iff_getElem?.2 ?_, ?_⟩
      · rw [← hσ, Equiv.apply_symm_apply, hb]
      · rw [Prod.map_apply, Equiv.apply_symm_apply, id_eq]
    · rintro ⟨⟨_, j⟩, hj, he⟩
      cases he
      exact (hσ j).trans (List.mk_mem_zipIdx_iff_getElem?.1 hj)
  rw [(hperm.map _).sum_eq, List.map_map]
  rfl

end Places

variable {α : Type} [ExactScalar α] {τ : Equiv.Perm ℕ}

/-- The entries of the second vector at permuted places are those of the first. -/
structure Vec.Reindexed (τ : Equiv.Perm ℕ) (v v' : Vec α) : Prop where
  length_eq : v'.length = v.length
  get_eq : ∀ i, Vec.get v' (τ i) = Vec.get v i

/-- The entries of the second matrix, square like the first, at permuted places are those of
the first. -/
structure SparseMatrix.Reindexed (τ : Equiv.Perm ℕ) (n : ℕ) (m m' : SparseMatrix α) : Prop where
  inside : m.isInside = true
  inside' : m'.isInside = true
  shape : m.rows = n ∧ m.cols = n
  shape' : m'.rows = n ∧ m'.cols = n
  get_eq : ∀ i j, m'.get (τ i) (τ j) = m.get i j

section Sums
variable {n : ℕ} (hτ : ∀ i, τ i < n ↔ i < n)
include hτ

theorem sum_range_reindexed (φ : ℕ → α) : ∑ i ∈ range n, φ (τ i) = ∑ i ∈ range n, φ i :=
  Finset.sum_equiv τ (by simp [hτ]) fun _ _ => rfl

namespace Vec
variable {v v' w w' : Vec α}

theorem exists_reindexed (hv : v.length = n) : ∃ v', Reindexed τ v v' := by
  refine ⟨(List.range n).map fun i => get v (τ.symm i), by simp [hv], fun i => ?_⟩
  by_cases hi : i < n
  · rw [get_map_range _ ((hτ i).2 hi), Equiv.symm_apply_apply]
  · rw [get_of_length_le (by simpa using mt (hτ i).1 hi), get_of_length_le (hv ▸ not_lt.1 hi)]

omit hτ in
theorem Reindexed.unique (h : Reindexed τ v v') (h' : Reindexed τ v w) : v' = w := by
  refine ext_get (h.length_eq.trans h'.length_eq.symm) fun i _ => ?_
  rw [← τ.apply_symm_apply i, h.get_eq, h'.get_eq]

omit hτ in
/-- Places that stay where they are keep their entries. -/
theorem Reindexed.take_eq (h : Reindexed τ v v') {k : ℕ} (hfix : ∀ i < k, τ i = i) :
    v'.take k = v.take k := by
  refine ext_get (by rw [List.length_take, List.length_take, h.length_eq]) fun i hi => ?_
  have hi : i < k := hi.trans_le (List.length_take_le _ _)
  have hget := h.get_eq i
  rw [hfix i hi] at hget
  simpa [get, hi] using hget

theorem Reindexed.sub (hv : v.length = n) (hw : w.length = n) (h : Reindexed τ v v')
    (h' : Reindexed τ w w') : Reindexed τ (Vec.sub v w) (Vec.sub v' w') := by
  have hv' := h.length_eq.trans hv
  have hw' := h'.length_eq.trans hw
  refine ⟨by simp [hv, hw, hv', hw'], fun i => ?_⟩
  by_cases hi : i < n
  · have hi' := (hτ i).2 hi
    rw [get_sub (hv'.symm ▸ hi') (hw'.symm ▸ hi'), get_sub (hv.symm ▸ hi) (hw.symm ▸ hi), h.get_eq,
      h'.get_eq]
  · rw [get_of_length_le (by simpa [hv', hw'] using mt (hτ i).1 hi),
      get_of_length_le (by simpa [hv, hw] using hi)]

theorem Reindexed.euclidean_eq (hv : v.length = n) (h : Reindexed τ v v') :
    v'.euclidean = v.euclidean := by
  rw [euclidean, euclidean, h.length_eq, hv, ← sum_range_reindexed hτ]
  simp only [h.get_eq]

theorem Reindexed.isFinite_eq (hv : v.length = n) (h : Reindexed τ v v') :
    Vec.isFinite v' = Vec.isFinite v := by
  have hall (u : Vec α) :
      Vec.isFinite u = true ↔ ∀ i < u.length, Scalar.isFinite (get u i) = true := by
    rw [Vec.isFinite, List.all_eq_true, List.forall_mem_iff_getElem]
    exact forall₂_congr fun i hi => by rw [get_eq_getElem hi]
  rw [Bool.eq_iff_iff, hall, hall, h.length_eq, hv]
  constructor
  · intro hfinite i hi
    rw [← h.get_eq]
    exact hfinite _ ((hτ i).2 hi)
  · intro hfinite i hi
    rw [← τ.apply_symm_apply i, h.get_eq]
    exact hfinite _ ((hτ _).1 (by rwa [τ.apply_symm_apply]))

end Vec

namespace SparseMatrix.Reindexed
variable {m m' : SparseMatrix α} (h : Reindexed τ n m m')
include h

theorem rowForm_eq (i : ℕ) (u : ℕ → α) : m'.rowForm (τ i) u = m.rowForm i (u ∘ τ) := by
  rw [rowForm_eq_sum h.inside, rowForm_eq_sum h.inside', h.shape.2, h.shape'.2,
    ← sum_range_reindexed hτ]
  simp only [h.get_eq, Function.comp_apply]

theorem mulVec {v v' : Vec α} (hv : Vec.Reindexed τ v v') :
    Vec.Reindexed τ (m.mulVec v) (m'.mulVec v') := by
  refine ⟨by simp [h.shape, h.shape'], fun i => ?_⟩
  by_cases hi : i < n
  · rw [get_mulVec _ _ (h.shape'.1.symm ▸ (hτ i).2 hi), get_mulVec _ _ (h.shape.1.symm ▸ hi),
      h.rowForm_eq hτ]
    exact congrArg _ (funext hv.get_eq)
  · rw [Vec.get_of_length_le (by simpa [h.shape'] using mt (hτ i).1 hi),
      Vec.get_of_length_le (by simpa [h.shape] using hi)]

theorem euclidean_eq : m'.euclidean = m.euclidean := by
  rw [euclidean, euclidean, h.shape.1, h.shape.2, h.shape'.1, h.shape'.2, ← sum_range_reindexed hτ]
  refine congrArg _ (Finset.sum_congr rfl fun i _ => ?_)
  rw [← sum_range_reindexed hτ]
  simp only [h.get_eq]

theorem fullColumnRank (hm : m.FullColumnRank) : m'.FullColumnRank := by
  rw [fullColumnRank_iff h.inside, h.shape.1, h.shape.2] at hm
  rw [fullColumnRank_iff h.inside', h.shape'.1, h.shape'.2]
  intro u hu j hj
  have hzero := hm (u ∘ τ) (fun i hi => ?_) (τ.symm j) ((hτ _).1 (by rwa [τ.apply_symm_apply]))
  · rwa [Function.comp_apply, τ.apply_symm_apply] at hzero
  · rw [← h.rowForm_eq hτ]
    exact hu _ ((hτ i).2 hi)

end SparseMatrix.Reindexed

/-- A solution of a reindexed system, reindexed like the system, solves it and passes the check
like the solution of the system itself. -/
theorem LinearSystem.exists_reindexed {s s' : LinearSystem α}
    (hm : s.matrix.Reindexed τ n s'.matrix) (hrhs : Vec.Reindexed τ s.rhs s'.rhs)
    (hlength : s.rhs.length = n) {v : Vec α} (hv : v.length = n) (hrank : s.matrix.FullColumnRank)
    (hsolves : s.matrix.mulVec v = s.rhs) (hverify : Elimination.verifySystem s v = .ok ()) :
    ∃ v', Vec.Reindexed τ v v' ∧ s'.matrix.FullColumnRank ∧ s'.matrix.mulVec v' = s'.rhs ∧
      Elimination.verifySystem s' v' = .ok () := by
  obtain ⟨v', hv'⟩ := Vec.exists_reindexed hτ hv
  have hmul := hm.mulVec hτ hv'
  have hproduct : (s.matrix.mulVec v).length = n := by rw [hsolves, hlength]
  have hresidual := hmul.sub hτ hproduct hlength hrhs
  refine ⟨v', hv', hm.fullColumnRank hτ hrank, ?_, ?_⟩
  · rw [hsolves] at hmul
    exact hmul.unique hrhs
  · rw [Elimination.verifySystem_eq_ok hm.inside] at hverify
    rw [Elimination.verifySystem_eq_ok hm.inside', Elimination.Small,
      hresidual.euclidean_eq hτ (by simp [hproduct, hlength]), hrhs.euclidean_eq hτ hlength,
      hm.euclidean_eq hτ, hv'.euclidean_eq hτ hv, hv'.isFinite_eq hτ hv]
    exact hverify

end Sums

end GaussianProgram
