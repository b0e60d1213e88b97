import GaussianProgram.Proofs.ActiveRows
import GaussianProgram.Proofs.Critical

/-! The order of factors. What a graph collects from its factors one after the other, its keys with
their dimensions, its cost and its gradient, is the same in whatever order they stand. -/
namespace GaussianProgram

/-- Assignments of one shape that pair with every direction alike are equal. -/
theorem Assignment.ext_pairing {κ α : Type} [Key κ] [ExactScalar α] {x y : Assignment κ α}
    (hs : x.SameShape y) (h : ∀ d : Point κ α, pairing x.toList d = pairing y.toList d) :
    x = y := by
  refine ext_entries hs (funext fun k => funext fun j => ?_)
  cases hx : x.get? k with
  | none =>
    have hy : y.dim? k = none := by rw [← hs k, dim?, hx, Option.map_none]
    rw [entries_eq_zero hx, entries_eq_zero (Option.map_eq_none_iff.1 hy)]
  | some u =>
    have hy : y.dim? k = some u.length := by rw [← hs k, dim?, hx, Option.map_some]
    obtain ⟨v, hv, hlen⟩ := dim?_eq_some.1 hy
    rw [entries_eq hx, entries_eq hv]
    by_cases hj : j < u.length
    · rw [← pairing_unitPoint hx hj, h, pairing_unitPoint hv (hlen ▸ hj)]
    · rw [Vec.get_of_length_le (not_lt.1 hj), Vec.get_of_length_le (hlen ▸ not_lt.1 hj)]

namespace Graph
variable {κ α : Type} [Key κ] {g g' : Graph κ α} (h : g.factors.Perm g'.factors)
include h

theorem keys_of_perm : g'.keys = g.keys := by
  apply SortedMap.ext_keys
  intro k
  rw [keys, keys, SortedSet.mem_keys_ofKeys, SortedSet.mem_keys_ofKeys,
    (h.flatMap_right Factor.keys).mem_iff]

/-- Factors that agree about dimensions in one order do so in every other. -/
theorem keyDimensions_of_perm {dims : SortedMap κ ℕ} (hdims : g.keyDimensions = .ok dims) :
    g'.keyDimensions = .ok dims := by
  obtain ⟨dims', hdims'⟩ : ∃ dims', g'.keyDimensions = .ok dims' := by
    refine exists_keyDimensions (fun k => (dims.get? k).getD 0) fun f hf e he => ?_
    rw [(keyDimensions_spec hdims).2 ⟨f, h.mem_iff.2 hf, he⟩, Option.getD_some]
  rw [hdims', Except.ok.injEq]
  apply SortedMap.ext_get?
  intro k
  refine Option.ext fun n => ?_
  rw [keyDimensions_spec hdims', keyDimensions_spec hdims]
  exact exists_congr fun f => and_congr_left' h.mem_iff.symm

theorem isLeastSquares_of_perm : g'.isLeastSquares = g.isLeastSquares := by
  rw [Bool.eq_iff_iff, isLeastSquares_iff, isLeastSquares_iff]
  exact forall_congr' fun f => imp_congr_left h.mem_iff.symm

variable [ExactScalar α]

theorem value_of_perm (p : Point κ α) : g'.value p = g.value p := (h.map _).sum_eq.symm

theorem slope_of_perm (p d : Point κ α) : g'.slope p d = g.slope p d := (h.map _).sum_eq.symm

theorem coupling_of_perm (p d : Point κ α) : g'.coupling p d = g.coupling p d :=
  (h.map _).sum_eq.symm

theorem cost_of_perm {x : Assignment κ α} {c : α} (hc : g.cost x = .ok c) : g'.cost x = .ok c := by
  obtain ⟨hreadable, rfl⟩ := cost_eq_ok.1 hc
  exact cost_eq_ok.2 ⟨fun f hf => hreadable f (h.mem_iff.2 hf), (value_of_perm h _).symm⟩

/-- Where one order gives a gradient every other does, and its entries are the same sums. -/
theorem gradient_of_perm {x grad : Assignment κ α} (hgrad : g.gradient x = .ok grad) :
    g'.gradient x = .ok grad := by
  obtain ⟨⟨dims, hdims, hshape⟩, hpairing⟩ := gradient_spec hgrad
  have hdims' := keyDimensions_of_perm h hdims
  have hexists : ∃ grad', g'.gradient x = .ok grad' := by
    obtain ⟨_, hok, hfold⟩ := Result.bind_eq_ok.1 hgrad
    rw [dimensions, Result.mapCause_eq_ok, Result.ofExcept_eq_ok, hdims] at hok
    cases hok
    obtain ⟨start, hstart, hfold⟩ := Result.bind_eq_ok.1 hfold
    refine exists_gradient_of_parts hdims' (Result.inRange_eq_ok.1 hstart) fun f hf => ?_
    obtain ⟨_, _, hstep⟩ := Result.exists_of_foldlM hfold (h.mem_iff.2 hf)
    obtain ⟨parts, hparts, -⟩ := Result.bind_eq_ok.1 hstep
    exact ⟨parts, Result.mapCause_eq_ok.1 hparts⟩
  obtain ⟨grad', hgrad'⟩ := hexists
  obtain ⟨⟨_, hdims'', hshape'⟩, hpairing'⟩ := gradient_spec hgrad'
  cases hdims'.symm.trans hdims''
  rw [hgrad', Except.ok.injEq]
  refine Assignment.ext_pairing (fun k => (hshape' k).trans (hshape k).symm) fun d => ?_
  rw [hpairing', hpairing, slope_of_perm h]

end Graph

end GaussianProgram
