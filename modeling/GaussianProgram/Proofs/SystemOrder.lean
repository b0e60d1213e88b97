import GaussianProgram.Proofs.FactorOrder
import GaussianProgram.Proofs.Pattern
import GaussianProgram.Proofs.Reindexing

/-! Assembled systems in another order of factors. The systems without equality rows are the same,
entry by entry and place by place; the rows of least-squares factors change their order, but not
their normal equations. Equality rows change their order and reindex the stationarity system. -/
namespace GaussianProgram
open Finset (range)

namespace Stacks
variable {κ α : Type} [Key κ] [ExactScalar α] {layout : Layout κ}
  {E E' : List ((Point κ α →ₗ[α] α) × α)} {m m' : SparseMatrix α} {b b' : Vec α}
  {σ : Equiv.Perm ℕ}

/-- Rows that change their order exchange their weights. -/
theorem form_reindexed (h : Stacks layout E m b) (h' : Stacks layout E' m' b')
    (hσ : ∀ i, E'[σ i]? = E[i]?) {w w' : ℕ → α} {p : Point κ α} (hw : layout.Reads w p)
    (hw' : layout.Reads w' p) (y : ℕ → α) : m'.form y w' = m.form (y ∘ σ) w := by
  rw [h'.form y w' p hw', h.form _ w p hw]
  exact sum_zipIdx_of_getElem? hσ fun i e => y i * e.1 p

theorem get_rhs_reindexed (h : Stacks layout E m b) (h' : Stacks layout E' m' b')
    (hσ : ∀ i, E'[σ i]? = E[i]?) (i : ℕ) : Vec.get b' (σ i) = Vec.get b i := by
  rw [h.rhs, h'.rhs]
  simp [Vec.get, hσ]

end Stacks

section Orders
variable {κ α : Type} [Key κ] [ExactScalar α] {g g' : Graph κ α} {dims : SortedMap κ ℕ}
  (h : g.factors.Perm g'.factors) (hdims : g.keyDimensions = .ok dims)
  (hsize : sumDims dims.values < UInt64.size)

namespace ConstrainedSystem
variable {s s' : ConstrainedSystem α}

omit [ExactScalar α] in
/-- The products of the blocks of a least-squares factor are stored while it is added. -/
theorem products_ofGraph [Scalar α] {layout : Layout κ} {s : ConstrainedSystem α}
    (hs : ofGraph layout g = .ok s) {c : LinearRows κ α} (hc : .linear c ∈ g.factors)
    (hcost : c.isLeastSquares = true) : ∀ t ∈ c.terms, ∀ t' ∈ c.terms,
      t.2.cols * t'.2.cols ≤ maxLength := by
  intro t ht t' ht'
  obtain ⟨_, -, hfold⟩ := Result.bind_eq_ok.1 hs
  obtain ⟨s₁, s₂, hfactor⟩ := Result.exists_of_foldlM hfold hc
  rw [ConstrainedSystem.addFactor, if_pos hcost] at hfactor
  obtain ⟨s₃, s₄, hterm⟩ := Result.exists_of_foldlM hfactor ht
  obtain ⟨row, -, hterm⟩ := Result.bind_eq_ok.1 hterm
  obtain ⟨_, -, hterm⟩ := Result.bind_eq_ok.1 hterm
  obtain ⟨hessian, hterms, -⟩ := Result.bind_eq_ok.1 hterm
  obtain ⟨m, m', hstep⟩ := Result.exists_of_foldlM hterms ht'
  obtain ⟨column, -, hstep⟩ := Result.bind_eq_ok.1 hstep
  obtain ⟨block, hproduct, -⟩ := Result.bind_eq_ok.1 hstep
  rw [Result.inRange_eq_ok] at hproduct
  by_contra hlarge
  cases hproduct.symm.trans (if_pos (not_le.1 hlarge))

include h hdims hsize

theorem exists_ofGraph_of_perm (hs : ofGraph (.ofDimensions dims) g = .ok s) :
    ∃ s' : ConstrainedSystem α, ofGraph (.ofDimensions dims) g' = .ok s' := by
  have hdims' := Graph.keyDimensions_of_perm h hdims
  refine exists_ofGraph (square_ofGraph hs).1
    (fun _ hc => Graph.stackable_of_size hdims' hsize hc) (Graph.places_keyDims hdims' hsize)
    fun c hc hcost => ?_
  exact products_ofGraph hs (h.mem_iff.2 hc) hcost

variable (hs : ofGraph (.ofDimensions dims) g = .ok s)
  (hs' : ofGraph (.ofDimensions dims) g' = .ok s')
include hs hs'

/-- The costs add up to the same matrix. -/
theorem hessian_of_perm : s'.hessian = s.hessian := by
  have hassembles := assembles hdims hsize hs
  have hassembles' := assembles (Graph.keyDimensions_of_perm h hdims) hsize hs'
  have hsquare := (square_ofGraph hs).2
  have hsquare' := (square_ofGraph hs').2
  refine SparseMatrix.ext_get (hsquare'.rows.trans hsquare.rows.symm)
    (hsquare'.cols.trans hsquare.cols.symm) (fun e => keys_hessian_of_perm h hs hs')
    fun i j => ?_
  obtain ⟨d, hd⟩ := (Layout.ofDimensions dims).exists_reads (Pi.single i 1 : ℕ → α)
  obtain ⟨p, hp⟩ := (Layout.ofDimensions dims).exists_reads (Pi.single j 1 : ℕ → α)
  rw [SparseMatrix.get_eq_form, SparseMatrix.get_eq_form, hassembles.hessian hd hp,
    hassembles'.hessian hd hp]
  exact Graph.coupling_of_perm h p d

theorem linear_of_perm : s'.linear = s.linear := by
  refine Vec.ext_against (square_ofGraph hs').2.linear (square_ofGraph hs).2.linear fun u d hu => ?_
  rw [(assembles hdims hsize hs).linear hu,
    (assembles (Graph.keyDimensions_of_perm h hdims) hsize hs').linear hu]
  exact congrArg Neg.neg (Graph.slope_of_perm h 0 d)

/-- Equality rows in another order take their places behind the variables in that order. -/
theorem form_stationarity_of_perm {σ : Equiv.Perm ℕ}
    (hσ : ∀ i, (g'.factors.flatMap Factor.equations)[σ i]? =
      (g.factors.flatMap Factor.equations)[i]?) (u w : ℕ → α) :
    s'.stationarity.matrix.form u w =
      s.stationarity.matrix.form (u ∘ shifted s.linear.length σ)
        (w ∘ shifted s.linear.length σ) := by
  have hassembles := assembles hdims hsize hs
  have hassembles' := assembles (Graph.keyDimensions_of_perm h hdims) hsize hs'
  have hlen := (square_ofGraph hs).2.linear
  obtain ⟨d, hd⟩ := (Layout.ofDimensions dims).exists_reads u
  obtain ⟨p, hp⟩ := (Layout.ofDimensions dims).exists_reads w
  have hreads {u : ℕ → α} {d : Point κ α} (hd : (Layout.ofDimensions dims).Reads u d) :
      (Layout.ofDimensions dims).Reads (u ∘ shifted s.linear.length σ) d := by
    refine Layout.reads_congr hsize hd fun i hi => ?_
    rw [Function.comp_apply, shifted_of_lt (hlen ▸ hi)]
  have htail (u : ℕ → α) : (fun i => (u ∘ shifted s.linear.length σ) (s.linear.length + i)) =
      (fun i => u (s.linear.length + i)) ∘ σ := by
    funext i
    rw [Function.comp_apply, Function.comp_apply, shifted_add]
  rw [form_stationarity, form_stationarity, htail, htail, hessian_of_perm h hdims hsize hs hs',
    linear_of_perm h hdims hsize hs hs', hassembles.hessian hd hp,
    hassembles.hessian (hreads hd) (hreads hp),
    hassembles.rows.form_reindexed hassembles'.rows hσ (hreads hp) hp,
    hassembles.rows.form_reindexed hassembles'.rows hσ (hreads hd) hd]

/-- Equality rows that change their order reindex the stationarity system behind the variables. -/
theorem exists_reindexed_stationarity : ∃ τ : Equiv.Perm ℕ,
    (∀ i < s.linear.length, τ i = i) ∧
      (∀ i, τ i < s.stationarity.rhs.length ↔ i < s.stationarity.rhs.length) ∧
        s.stationarity.matrix.Reindexed τ s.stationarity.rhs.length s'.stationarity.matrix ∧
          Vec.Reindexed τ s.stationarity.rhs s'.stationarity.rhs := by
  have hdims' := Graph.keyDimensions_of_perm h hdims
  have hrows := (assembles hdims hsize hs).rows
  have hrows' := (assembles hdims' hsize hs').rows
  have hlinear := linear_of_perm h hdims hsize hs hs'
  have hperm := h.flatMap_right Factor.equations
  obtain ⟨σ, hσ⟩ := exists_getElem?_of_perm hperm
  have hlength : s.rhs.length = (g.factors.flatMap Factor.equations).length := by
    rw [hrows.rhs, List.length_map]
  have hlength' : s'.rhs.length = s.rhs.length := by
    rw [hlength, hrows'.rhs, List.length_map, hperm.length_eq]
  have hsplit (s : ConstrainedSystem α) : s.stationarity.rhs = s.linear ++ s.rhs := rfl
  have hsame : s'.stationarity.rhs.length = s.stationarity.rhs.length := by
    rw [hsplit, hsplit, List.length_append, List.length_append, hlinear, hlength']
  have hcases (i : ℕ) : i < s.linear.length ∨ ∃ j, i = s.linear.length + j :=
    (Nat.lt_or_ge i s.linear.length).imp_right Nat.exists_eq_add_of_le
  -- The rows are compared through the forms of the two systems, read at unit vectors.
  refine ⟨shifted s.linear.length σ, fun i hi => shifted_of_lt hi σ, fun i => ?_,
    ⟨isInside_stationarity hdims hsize hs, isInside_stationarity hdims' hsize hs',
      s.shape_stationarity, hsame ▸ s'.shape_stationarity, fun i j => ?_⟩, hsame, fun i => ?_⟩
  · rw [hsplit, List.length_append]
    rcases hcases i with hi | ⟨j, rfl⟩
    · rw [shifted_of_lt hi]
    · rw [shifted_add, Nat.add_lt_add_iff_left, Nat.add_lt_add_iff_left, hlength,
        ← lt_length_iff_of_getElem? hσ j, hperm.length_eq]
  · have hsingle (i : ℕ) :
        (Pi.single (shifted s.linear.length σ i) 1 : ℕ → α) ∘ shifted s.linear.length σ =
          Pi.single i 1 := by
      rw [Pi.single_comp_equiv, Equiv.symm_apply_apply]
    rw [SparseMatrix.get_eq_form, SparseMatrix.get_eq_form,
      form_stationarity_of_perm h hdims hsize hs hs' hσ, hsingle, hsingle]
  · rw [hsplit, hsplit, get_append, get_append, hlinear]
    rcases hcases i with hi | ⟨j, rfl⟩
    · rw [shifted_of_lt hi, if_pos hi, if_pos hi]
    · rw [shifted_add, if_neg (by omega), if_neg (by omega), Nat.add_sub_cancel_left,
        Nat.add_sub_cancel_left, hrows.get_rhs_reindexed hrows' hσ]

end ConstrainedSystem

namespace LeastSquaresSystem
variable {s s' : LeastSquaresSystem α}

include h

theorem equations_perm : (equations g).Perm (equations g') :=
  (h.filterMap _).flatMap_right _

variable (hs : ofGraph (.ofDimensions dims) g = .ok s)
  (hs' : ofGraph (.ofDimensions dims) g' = .ok s')
include hs hs'

theorem length_rhs_of_perm : s'.rhs.length = s.rhs.length := by
  rw [length_ofGraph hs, length_ofGraph hs', sumDims_eq_sum, sumDims_eq_sum,
    ((h.filterMap _).map _).sum_eq]

variable (hrows : s.rhs.length ≤ UInt64.size)
include hdims hsize hrows

/-- Rows in another order have the same normal equations. -/
theorem normal_of_perm : s'.jacobian.gram = s.jacobian.gram ∧
    s'.jacobian.transposeMulVec s'.rhs = s.jacobian.transposeMulVec s.rhs := by
  have hdims' := Graph.keyDimensions_of_perm h hdims
  have hplaces := Graph.places_keyDims hdims hsize
  have hplaces' := Graph.places_keyDims hdims' hsize
  have hrows' : s'.rhs.length ≤ UInt64.size := length_rhs_of_perm h hs hs' ▸ hrows
  have hstacks : Stacks (Layout.ofDimensions dims) (equations g) s.jacobian s.rhs :=
    stacks_ofGraph (Layout.total_lt dims) hs hplaces hrows
  have hstacks' : Stacks (Layout.ofDimensions dims) (equations g') s'.jacobian s'.rhs :=
    stacks_ofGraph (Layout.total_lt dims) hs' hplaces' hrows'
  have hin := isInside_ofGraph hs hplaces
  have hin' := isInside_ofGraph hs' hplaces'
  have hcols := (shape_ofGraph hs).2
  have hcols' := (shape_ofGraph hs').2
  have hperm := equations_perm h
  have hcols_eq : s'.jacobian.cols = s.jacobian.cols := hcols'.trans hcols.symm
  constructor
  · refine SparseMatrix.ext_get hcols_eq hcols_eq (fun e => ?_) fun i j => ?_
    · obtain ⟨i, j⟩ := e
      rw [(patterned_ofGraph hs hrows).mem_keys_gram, (patterned_ofGraph hs' hrows').mem_keys_gram,
        hcols_eq]
      exact and_congr_right fun _ => exists_congr fun T =>
        and_congr_left' (((h.filterMap _).flatMap_right _).mem_iff).symm
    · obtain ⟨d, hd⟩ := (Layout.ofDimensions dims).exists_reads (Pi.single i 1 : ℕ → α)
      obtain ⟨p, hp⟩ := (Layout.ofDimensions dims).exists_reads (Pi.single j 1 : ℕ → α)
      rw [SparseMatrix.get_eq_form, SparseMatrix.get_eq_form, SparseMatrix.form_gram hin,
        SparseMatrix.form_gram hin', hstacks.form_eq hd fun i e he => hstacks.rowForm he hp,
        hstacks'.form_eq hd fun i e he => hstacks'.rowForm he hp, (hperm.map _).sum_eq]
  · refine Vec.ext_against ((SparseMatrix.length_transposeMulVec _ _).trans hcols')
      ((SparseMatrix.length_transposeMulVec _ _).trans hcols) fun u d hu => ?_
    rw [SparseMatrix.against_transposeMulVec hin, SparseMatrix.against_transposeMulVec hin',
      hstacks.form_eq hu fun i e he => hstacks.get_rhs he,
      hstacks'.form_eq hu fun i e he => hstacks'.get_rhs he, (hperm.map _).sum_eq]

end LeastSquaresSystem

end Orders

end GaussianProgram
