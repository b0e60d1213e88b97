import Mathlib
import GaussianProgram.Vec

/-! Exact arithmetic: the scalars are an ordered field, and the sums of vectors are sums over their
indices, in whatever order they are taken. -/
namespace GaussianProgram
open Finset (range)

/-- Scalars that are an ordered field. The decimal literals of the library read as the rational
numbers they stand for; nothing is asked of square roots and of finiteness. -/
class ExactScalar (α : Type) extends Scalar α, Field α, LinearOrder α, IsStrictOrderedRing α where
  abs_eq : ∀ x : α, Scalar.abs x = |x|
  beq_eq : ∀ x y : α, (x == y) = decide (x = y)
  ofScientific_eq : ∀ m s e,
    (OfScientific.ofScientific m s e : α) = (OfScientific.ofScientific m s e : ℚ)

/-- Rational numbers run every definition that takes no square root. -/
instance exactRat : ExactScalar ℚ where
  __ := (inferInstance : Field ℚ)
  __ := (inferInstance : LinearOrder ℚ)
  __ := (inferInstance : IsStrictOrderedRing ℚ)
  abs x := |x|
  sqrt x := x
  isFinite _ := true
  beq x y := decide (x = y)
  decidableLT := inferInstance
  decidableLE := inferInstance
  abs_eq _ := rfl
  beq_eq _ _ := rfl
  ofScientific_eq _ _ _ := by simp

namespace ExactScalar
variable {α : Type} [ExactScalar α]

theorem half_eq : (0.5 : α) = 1 / 2 := by
  refine (ofScientific_eq 5 true 1).trans ?_
  norm_num

theorem clampUnit_nonneg (x : α) : 0 ≤ Scalar.clampUnit x := by
  unfold Scalar.clampUnit
  split_ifs with h0 h1
  · exact le_rfl
  · exact zero_le_one
  · exact not_lt.1 h0

theorem clampUnit_le_one (x : α) : Scalar.clampUnit x ≤ 1 := by
  unfold Scalar.clampUnit
  split_ifs with h0 h1
  · exact zero_le_one
  · exact le_rfl
  · exact not_lt.1 h1

theorem clampUnit_of_mem {x : α} (h0 : 0 ≤ x) (h1 : x ≤ 1) : Scalar.clampUnit x = x := by
  simp [Scalar.clampUnit, not_lt.2 h0, not_lt.2 h1]

theorem clampUnit_of_nonpos {x : α} (h : x ≤ 0) : Scalar.clampUnit x = 0 := by
  unfold Scalar.clampUnit
  split_ifs with h0 h1
  · rfl
  · exact absurd (h1.trans_le h) (by simp)
  · exact le_antisymm h (not_lt.1 h0)

end ExactScalar

namespace Vec

section Entries
variable {α : Type} [Scalar α]

theorem get_eq_getElem {v : Vec α} {i : ℕ} (h : i < v.length) : get v i = v[i] := by
  simp [get, h]

theorem get_of_length_le {v : Vec α} {i : ℕ} (h : v.length ≤ i) : get v i = 0 := by
  simp [get, h]

theorem ext_get {u v : Vec α} (hl : u.length = v.length)
    (h : ∀ i < u.length, get u i = get v i) : u = v := by
  apply List.ext_getElem hl
  intro i hu hv
  rw [← get_eq_getElem hu, ← get_eq_getElem hv]
  exact h i hu

theorem get_map_range (f : ℕ → α) {n i : ℕ} (h : i < n) :
    get ((List.range n).map f) i = f i := by
  rw [get_eq_getElem (by simpa using h)]
  simp

end Entries

variable {α : Type} [ExactScalar α]

theorem get_add {u v : Vec α} {i : ℕ} (hu : i < u.length) (hv : i < v.length) :
    get (add u v) i = get u i + get v i := by
  rw [get_eq_getElem (by simp [hu, hv]), get_eq_getElem hu, get_eq_getElem hv]
  simp [add]

theorem get_sub {u v : Vec α} {i : ℕ} (hu : i < u.length) (hv : i < v.length) :
    get (sub u v) i = get u i - get v i := by
  rw [get_eq_getElem (by simp [hu, hv]), get_eq_getElem hu, get_eq_getElem hv]
  simp [sub]

theorem get_neg (v : Vec α) (i : ℕ) : get (neg v) i = -get v i := by
  by_cases h : i < v.length
  · rw [get_eq_getElem (by simpa using h), get_eq_getElem h]
    simp [neg]
  · rw [get_of_length_le (by simpa using h), get_of_length_le (by simpa using h), neg_zero]

theorem get_scale (v : Vec α) (c : α) (i : ℕ) : get (scale v c) i = get v i * c := by
  by_cases h : i < v.length
  · rw [get_eq_getElem (by simpa using h), get_eq_getElem h]
    simp [scale]
  · rw [get_of_length_le (by simpa using h), get_of_length_le (by simpa using h), zero_mul]

theorem get_zeros (n i : ℕ) : get (zeros n : Vec α) i = 0 := by
  by_cases h : i < n
  · rw [get_eq_getElem (by simpa using h)]
    simp [zeros]
  · exact get_of_length_le (by simpa using h)

private theorem amax_cons_le_iff {x : α} {v : Vec α} {m : α} :
    amax (x :: v) ≤ m ↔ ∀ a ∈ x :: v, |a| ≤ m := by
  have hfold (l : List α) (b : α) :
      l.foldl (fun b y => if Scalar.abs y ≤ b then b else Scalar.abs y) b ≤ m ↔
        b ≤ m ∧ ∀ a ∈ l, |a| ≤ m := by
    induction l generalizing b with
    | nil => simp
    | cons y l ih =>
      rw [List.foldl_cons, ih, List.forall_mem_cons, ← and_assoc, ExactScalar.abs_eq]
      refine and_congr_left fun _ => ?_
      split_ifs with hy
      · exact ⟨fun hb => ⟨hb, hy.trans hb⟩, And.left⟩
      · exact ⟨fun hb => ⟨(not_le.1 hy).le.trans hb, hb⟩, And.right⟩
  rw [amax, hfold, ExactScalar.abs_eq, List.forall_mem_cons]

theorem amax_nonneg (v : Vec α) : 0 ≤ amax v := by
  cases v with
  | nil => exact le_rfl
  | cons x v => exact (abs_nonneg x).trans (amax_cons_le_iff.1 le_rfl x List.mem_cons_self)

/-- The largest magnitude is within a bound where all magnitudes are. -/
theorem amax_le_iff {v : Vec α} {m : α} (hm : 0 ≤ m) : amax v ≤ m ↔ ∀ a ∈ v, |a| ≤ m := by
  cases v with
  | nil => simpa [amax] using hm
  | cons x v => exact amax_cons_le_iff

/-- No magnitude is above the largest one. -/
theorem abs_le_amax {v : Vec α} {a : α} (ha : a ∈ v) : |a| ≤ amax v :=
  (amax_le_iff (amax_nonneg v)).1 le_rfl a ha

private theorem foldl_add (v : List α) (a : α) : v.foldl (· + ·) a = a + v.sum := by
  induction v generalizing a with
  | nil => simp
  | cons x v ih => rw [List.foldl_cons, ih, List.sum_cons, add_assoc]

theorem sum_eq (v : Vec α) : Vec.sum v = List.sum v := by
  rw [Vec.sum, foldl_add, zero_add]

theorem list_sum_eq (v : Vec α) : List.sum v = ∑ i ∈ range v.length, get v i := by
  induction v with
  | nil => simp
  | cons x v ih =>
    rw [List.sum_cons, List.length_cons, Finset.sum_range_succ', ih, add_comm]
    simp [get]

private theorem sum_zipWith_mul (u v : Vec α) (h : u.length = v.length) :
    List.sum (List.zipWith (· * ·) u v) = ∑ i ∈ range u.length, get u i * get v i := by
  rw [list_sum_eq]
  have hl : (List.zipWith (· * ·) u v).length = u.length := by simp [h]
  rw [hl]
  apply Finset.sum_congr rfl
  intro i hi
  have hu := Finset.mem_range.1 hi
  rw [get_eq_getElem (by rw [hl]; exact hu), get_eq_getElem hu, get_eq_getElem (by omega)]
  simp

theorem dot_eq {u v : Vec α} (h : u.length = v.length) :
    dot u v = ∑ i ∈ range u.length, get u i * get v i := by
  rw [dot, sum_eq, sum_zipWith_mul u v h]

/-- Whether a sum starts with zero or with its first term makes no difference. -/
theorem combine_eq_dot (u v : Vec α) : combine u v = dot u v := by
  rw [combine, dot, sum_eq]
  cases List.zipWith (· * ·) u v with
  | nil => simp
  | cons x xs => rw [List.sum_cons, ← foldl_add]

private theorem sum_range_blocks (f : ℕ → α) (q : ℕ) :
    ∑ i ∈ range (8 * q), f i = ∑ block ∈ range q, ∑ lane ∈ range 8, f (8 * block + lane) := by
  induction q with
  | zero => simp
  | succ q ih => rw [Nat.mul_succ, Finset.sum_range_add, ih, Finset.sum_range_succ _ q]

private theorem laneSum_eq (v : Vec α) (lane : ℕ) :
    laneSum v lane = ∑ block ∈ range (v.length / 8), get v (8 * block + lane) := by
  rw [laneSum, sum_eq, list_sum_eq]
  simp only [List.length_map, List.length_range]
  exact Finset.sum_congr rfl fun i hi => get_map_range _ (Finset.mem_range.1 hi)

private theorem sum_take (v : Vec α) {n : ℕ} (h : n ≤ v.length) :
    List.sum (v.take n) = ∑ i ∈ range n, get v i := by
  rw [list_sum_eq, List.length_take, Nat.min_eq_left h]
  apply Finset.sum_congr rfl
  intro i hi
  simp [get, Finset.mem_range.1 hi]

/-- A sum in lanes is the sum of all entries. -/
theorem blockSum_eq (v : Vec α) : blockSum v = List.sum v := by
  have hlanes : List.sum ((List.range 4).map fun lane => laneSum v lane + laneSum v (lane + 4)) =
      ∑ lane ∈ range 8, laneSum v lane := by
    simp only [List.range_succ, List.range_zero, List.nil_append, List.cons_append, List.map_cons,
      List.map_nil, List.sum_cons, List.sum_nil, Finset.sum_range_succ, Finset.sum_range_zero]
    ring
  have hfull : ∑ lane ∈ range 8, laneSum v lane = List.sum (v.take (8 * (v.length / 8))) := by
    rw [sum_take v (Nat.mul_div_le _ _), sum_range_blocks, Finset.sum_comm]
    exact Finset.sum_congr rfl fun lane _ => laneSum_eq v lane
  rw [blockSum, sum_eq, List.sum_append, hlanes, hfull, ← List.sum_append, List.take_append_drop]

theorem inner_eq {u v : Vec α} (h : u.length = v.length) :
    inner u v = ∑ i ∈ range u.length, get u i * get v i := by
  rw [inner, blockSum_eq, sum_zipWith_mul u v h]

end Vec

end GaussianProgram
