import GaussianProgram.Proofs.ActiveRows
import GaussianProgram.Proofs.Critical
import GaussianProgram.Proofs.Table

/-! The gradient is the derivative of the cost. The information matrix of a cost is symmetric only
up to a tolerance, and the cost is a quadratic polynomial with the gradient and the curvature as
coefficients up to what this tolerance leaves. -/
namespace GaussianProgram
open Finset (range)

namespace Vec
variable {α : Type} [ExactScalar α]

def oneNorm (v : Vec α) : α := List.sum (v.map fun a => |a|)

theorem oneNorm_eq (v : Vec α) : oneNorm v = ∑ i ∈ range v.length, |get v i| := by
  rw [oneNorm, list_sum_eq, List.length_map]
  refine Finset.sum_congr rfl fun i hi => ?_
  have hlt := Finset.mem_range.1 hi
  rw [get_eq_getElem (by simpa using hlt), get_eq_getElem hlt, List.getElem_map]

end Vec

namespace Matrix
variable {α : Type} [ExactScalar α]

theorem get_mem {m : Matrix α} {i j : ℕ} (hi : i < m.rows) (hj : j < m.cols) :
    m.get i j ∈ m.entries.toList := by
  have hlt : i * m.cols + j < m.entries.size := by
    have := Nat.mul_le_mul_right m.cols (Nat.succ_le_of_lt hi)
    rw [Nat.succ_mul] at this
    rw [m.size_eq]
    omega
  rw [get, if_pos hj, Array.getD_eq_getD_getElem?, Array.getElem?_eq_getElem hlt]
  exact Array.getElem_mem_toList hlt

/-- No entry has a magnitude above the largest one. -/
theorem abs_get_le_amax {m : Matrix α} {i j : ℕ} (hi : i < m.rows) (hj : j < m.cols) :
    |m.get i j| ≤ m.amax := by
  rw [← m.get_transpose hj hi]
  exact Vec.abs_le_amax (get_mem hj hi)

end Matrix

namespace QuadraticCost
variable {κ α : Type} [Key κ]

/-- A cost that one of the constructors has accepted, with whatever constant. -/
inductive Accepted [Scalar α] : QuadraticCost κ α → Prop where
  | ofInformation {keyDims : List (κ × ℕ)} {information : Matrix α} {linear : Vec α} {constant : α}
      {f : QuadraticCost κ α} (h : ofInformation keyDims information linear constant = .ok f) :
      Accepted f
  | unary {k : κ} {information : Matrix α} {linear : Vec α} {constant : α} {f : QuadraticCost κ α}
      (h : unary k information linear constant = .ok f) : Accepted f
  | binary {k₁ k₂ : κ} {g₁₁ g₁₂ g₂₂ : Matrix α} {g₁ g₂ : Vec α} {constant : α}
      {f : QuadraticCost κ α} (h : binary k₁ k₂ g₁₁ g₁₂ g₁ g₂₂ g₂ constant = .ok f) : Accepted f
  | withConstant {f : QuadraticCost κ α} (h : Accepted f) (constant : α) :
      Accepted (f.withConstant constant)

variable [ExactScalar α]

def asymmetry (f : QuadraticCost κ α) : α := (f.information.sub f.information.transpose).amax

private theorem asymmetry_le_of_ofInformation {keyDims : List (κ × ℕ)} {information : Matrix α}
    {linear : Vec α} {constant : α} {f : QuadraticCost κ α}
    (h : ofInformation keyDims information linear constant = .ok f) :
    f.asymmetry ≤ symmetryTolerance * (1 + f.information.amax) := by
  unfold ofInformation at h
  split at h
  · cases h
  dsimp only at h
  split_ifs at h with hr hc hl hbound
  cases h
  exact not_lt.1 hbound

/-- An accepted matrix is symmetric up to a billionth of one more than its largest entry. -/
theorem Accepted.asymmetry_le {f : QuadraticCost κ α} (h : f.Accepted) :
    f.asymmetry ≤ 1 / 10 ^ 9 * (1 + f.information.amax) := by
  have htolerance : (symmetryTolerance : α) = 1 / 10 ^ 9 := by
    refine (ExactScalar.ofScientific_eq 1 true 9).trans ?_
    norm_num
  rw [← htolerance]
  induction h with
  | ofInformation h => exact asymmetry_le_of_ofInformation h
  | unary h => exact asymmetry_le_of_ofInformation h
  | binary h =>
    obtain ⟨_, -, h⟩ := Result.bind_eq_ok.1 h
    obtain ⟨_, -, h⟩ := Result.bind_eq_ok.1 h
    obtain ⟨_, -, h⟩ := Result.bind_eq_ok.1 h
    exact asymmetry_le_of_ofInformation h
  | withConstant _ _ ih => exact ih

/-- A step changes the cost by the slope and half the curvature along it, and by half of what the
two orders of the coupling differ. -/
theorem value_add (f : QuadraticCost κ α) (p d : Point κ α) :
    f.value (p + d) = f.value p + f.slope p d + 1 / 2 * f.curvature d +
      1 / 2 * (f.coupling d p - f.coupling p d) := by
  have hstack (i : ℕ) : Vec.get (stackOf f.keyDims (p + d)) i =
      Vec.get (stackOf f.keyDims p) i + Vec.get (stackOf f.keyDims d) i := by
    rw [← one_smul α d, get_stackOf_add_smul, one_smul, one_mul]
  have himage (i : ℕ) : f.image (p + d) i = f.image p i + f.image d i := by
    rw [← one_smul α d, image_add_smul, one_smul, one_mul]
  simp only [value, slope, curvature, coupling, hstack, himage, ExactScalar.half_eq]
  simp only [mul_add, add_mul, sub_mul, Finset.sum_add_distrib, Finset.sum_sub_distrib]
  simp only [mul_comm (f.image _ _), mul_comm (Vec.get f.linear _)]
  ring

theorem abs_get_sub_le {f : QuadraticCost κ α} {i j : ℕ} (hi : i < f.linear.length)
    (hj : j < f.linear.length) :
    |f.information.get i j - f.information.get j i| ≤ f.asymmetry := by
  have hrows := f.rows_information
  have hcols := f.cols_information
  have hget : (f.information.sub f.information.transpose).get i j =
      f.information.get i j - f.information.get j i := by
    rw [Matrix.sub, Matrix.get_ofFn _ (hrows ▸ hi) (hcols ▸ hj),
      f.information.get_transpose (hcols ▸ hi) (hrows ▸ hj)]
  rw [← hget]
  exact Matrix.abs_get_le_amax (hrows ▸ hi) (hcols ▸ hj)

theorem coupling_sub (f : QuadraticCost κ α) (p d : Point κ α) :
    f.coupling d p - f.coupling p d =
      ∑ i ∈ range f.linear.length, ∑ j ∈ range f.linear.length,
        (f.information.get i j - f.information.get j i) *
          (Vec.get (stackOf f.keyDims p) i * Vec.get (stackOf f.keyDims d) j) := by
  have hswap : f.coupling p d = ∑ i ∈ range f.linear.length, ∑ j ∈ range f.linear.length,
      f.information.get j i *
        (Vec.get (stackOf f.keyDims p) i * Vec.get (stackOf f.keyDims d) j) := by
    rw [coupling, Finset.sum_comm]
    refine Finset.sum_congr rfl fun j _ => ?_
    rw [image, Finset.sum_mul]
    exact Finset.sum_congr rfl fun i _ => by ring
  rw [hswap, coupling, ← Finset.sum_sub_distrib]
  refine Finset.sum_congr rfl fun i _ => ?_
  rw [image, Finset.sum_mul, ← Finset.sum_sub_distrib]
  exact Finset.sum_congr rfl fun j _ => by ring

/-- The two orders of the coupling differ by no more than the matrix from its transpose. -/
theorem abs_coupling_sub_le {f : QuadraticCost κ α} (hs : f.Stackable) (p d : Point κ α) :
    |f.coupling d p - f.coupling p d| ≤ f.asymmetry * Vec.oneNorm (stackOf f.keyDims p) *
      Vec.oneNorm (stackOf f.keyDims d) := by
  have hlen (q : Point κ α) : (stackOf f.keyDims q).length = f.linear.length := by
    rw [length_stackOf]
    exact hs
  set u := stackOf f.keyDims p with hu
  set v := stackOf f.keyDims d with hv
  calc |f.coupling d p - f.coupling p d|
      ≤ ∑ i ∈ range f.linear.length, ∑ j ∈ range f.linear.length,
          |(f.information.get i j - f.information.get j i) * (Vec.get u i * Vec.get v j)| := by
        rw [f.coupling_sub p d]
        exact (Finset.abs_sum_le_sum_abs _ _).trans
          (Finset.sum_le_sum fun i _ => Finset.abs_sum_le_sum_abs _ _)
    _ ≤ ∑ i ∈ range f.linear.length, ∑ j ∈ range f.linear.length,
          f.asymmetry * (|Vec.get u i| * |Vec.get v j|) := by
        refine Finset.sum_le_sum fun i hi => Finset.sum_le_sum fun j hj => ?_
        rw [abs_mul, abs_mul]
        exact mul_le_mul_of_nonneg_right
          (abs_get_sub_le (Finset.mem_range.1 hi) (Finset.mem_range.1 hj)) (by positivity)
    _ = f.asymmetry * Vec.oneNorm u * Vec.oneNorm v := by
        rw [Vec.oneNorm_eq, Vec.oneNorm_eq, hlen, hlen, mul_assoc, Finset.sum_mul_sum,
          Finset.mul_sum]
        exact Finset.sum_congr rfl fun i _ => by rw [Finset.mul_sum]

end QuadraticCost

namespace Factor
variable {κ α : Type} [Key κ] [ExactScalar α]

/-- What the asymmetry of a cost leaves of a step, at most. -/
def skewness : Factor κ α → Point κ α → Point κ α → α
  | quadratic f, p, d =>
    f.asymmetry * Vec.oneNorm (stackOf f.keyDims p) * Vec.oneNorm (stackOf f.keyDims d)
  | linear _, _, _ => 0

theorem value_add (f : Factor κ α) (p d : Point κ α) :
    f.value (p + d) = f.value p + f.slope p d + 1 / 2 * f.curvature d +
      1 / 2 * (f.coupling d p - f.coupling p d) := by
  cases f with
  | quadratic f => exact f.value_add p d
  | linear f =>
    have h := f.value_add_smul p d 1
    rw [one_smul] at h
    simp only [value, slope, curvature, coupling, f.coupling_comm d p, h]
    ring

theorem abs_coupling_sub_le {f : Factor κ α} (hs : ∀ c, f = .quadratic c → c.Stackable)
    (p d : Point κ α) : |f.coupling d p - f.coupling p d| ≤ f.skewness p d := by
  cases f with
  | quadratic c => exact QuadraticCost.abs_coupling_sub_le (hs c rfl) p d
  | linear f => simp [coupling, f.coupling_comm d p, skewness]

/-- A cost has no slope along a direction that leaves its variables where they are, and a constraint
has none at all. -/
theorem slope_eq_zero {f : Factor κ α} {d : Point κ α}
    (h : f.constraint?.isSome = true ∨ ∀ k ∈ f.keys, d k = 0) (p : Point κ α) :
    f.slope p d = 0 := by
  rcases h with h | h
  · obtain ⟨c, hc⟩ := Option.isSome_iff_exists.1 h
    obtain ⟨rfl, hconstrained⟩ := constraint?_eq_some.1 hc
    simp [slope, LinearRows.slope, hconstrained]
  · cases f with
    | quadratic f =>
      have hs : stackOf f.keyDims d = stackOf f.keyDims 0 :=
        stackOf_congr fun e he => h e.1 (List.mem_map_of_mem he)
      simp [slope, QuadraticCost.slope, hs, get_stackOf_zero]
    | linear f =>
      have hf (row : ℕ) : f.form row d = 0 :=
        (f.form_congr row (q := 0) fun k hk => h k (keys_linear f ▸ hk)).trans (map_zero _)
      simp [slope, LinearRows.slope, hf]

end Factor

namespace Assignment
variable {κ α : Type} [Key κ]

/-- The entries of `x` moved by those of `h` under the same keys. -/
def plus [Scalar α] (x h : Assignment κ α) : Assignment κ α where
  toList := x.toList.map fun e => (e.1, Vec.add e.2 ((h.get? e.1).getD (Vec.zeros e.2.length)))
  ascending := List.pairwise_map.2 x.ascending

/-- Each vector can be stored, and the stack of all of them does not wrap around. -/
structure Storable (x : Assignment κ α) : Prop where
  each : ∀ k v, x.get? k = some v → v.length ≤ maxLength
  total : x.totalDimension < UInt64.size

theorem get?_plus [Scalar α] {x h : Assignment κ α} {k : κ} {v u : Vec α}
    (hv : x.get? k = some v) (hu : h.get? k = some u) :
    (x.plus h).get? k = some (Vec.add v u) := by
  rw [SortedMap.get?_eq_some_iff] at hv ⊢
  refine List.mem_map.2 ⟨(k, v), hv, ?_⟩
  dsimp only
  rw [hu, Option.getD_some]

section Covered
variable {dims : List (κ × ℕ)} {x h : Assignment κ α} (hx : x.HasDims dims) (hh : h.HasDims dims)
include hx hh

theorem HasDims.plus [Scalar α] : (x.plus h).HasDims dims := by
  intro e he
  obtain ⟨v, hv, hlen⟩ := dim?_eq_some.1 (hx e he)
  obtain ⟨u, hu, hlen'⟩ := dim?_eq_some.1 (hh e he)
  exact dim?_eq_some.2 ⟨_, get?_plus hv hu, by rw [Vec.length_add, hlen, hlen', min_self]⟩

theorem HasDims.entries_plus [ExactScalar α] {k : κ} (hk : k ∈ dims.map (·.1)) :
    (x.plus h).entries k = x.entries k + h.entries k := by
  obtain ⟨e, he, rfl⟩ := List.mem_map.1 hk
  obtain ⟨v, hv, hlen⟩ := dim?_eq_some.1 (hx e he)
  obtain ⟨u, hu, hlen'⟩ := dim?_eq_some.1 (hh e he)
  funext i
  rw [Pi.add_apply, entries_eq (get?_plus hv hu), entries_eq hv, entries_eq hu]
  by_cases hi : i < e.2
  · exact Vec.get_add (hlen ▸ hi) (hlen' ▸ hi)
  · have hbeyond : e.2 ≤ i := not_lt.1 hi
    rw [Vec.get_of_length_le (by rw [Vec.length_add, hlen, hlen', min_self]; exact hbeyond),
      Vec.get_of_length_le (hlen ▸ hbeyond), Vec.get_of_length_le (hlen' ▸ hbeyond), add_zero]

end Covered

end Assignment

namespace Graph
variable {κ α : Type} [Key κ] [ExactScalar α] {g : Graph κ α}

def skewness (g : Graph κ α) (p d : Point κ α) : α := (g.factors.map (·.skewness p d)).sum

theorem value_add (g : Graph κ α) (p d : Point κ α) :
    g.value (p + d) = g.value p + g.slope p d + 1 / 2 * g.curvature d +
      1 / 2 * (g.coupling d p - g.coupling p d) := by
  have hfactor : g.factors.map (·.value (p + d)) = g.factors.map fun f => f.value p + f.slope p d +
      1 / 2 * f.curvature d + (1 / 2 * f.coupling d p + -(1 / 2) * f.coupling p d) :=
    List.map_congr_left fun f _ => by rw [f.value_add p d]; ring
  rw [value, hfactor]
  simp only [List.sum_map_add, List.sum_map_mul_left]
  rw [value, slope, curvature, coupling, coupling]
  ring

theorem abs_coupling_sub_le (hs : ∀ c, .quadratic c ∈ g.factors → c.Stackable) (p d : Point κ α) :
    |g.coupling d p - g.coupling p d| ≤ g.skewness p d := by
  have hlist (l : List (Factor κ α)) (hl : ∀ f ∈ l, f ∈ g.factors) :
      |(l.map (·.coupling d p)).sum - (l.map (·.coupling p d)).sum| ≤
        (l.map (·.skewness p d)).sum := by
    induction l with
    | nil => simp
    | cons f l ih =>
      obtain ⟨hf, hl⟩ := List.forall_mem_cons.1 hl
      have hfirst := Factor.abs_coupling_sub_le (fun c hc => hs c (hc ▸ hf)) p d
      rw [List.map_cons, List.map_cons, List.map_cons, List.sum_cons, List.sum_cons, List.sum_cons,
        add_sub_add_comm]
      exact (abs_add_le _ _).trans (add_le_add hfirst (ih hl))
  exact hlist g.factors fun _ => id

/-- A variable that only constraints touch has a gradient of zeros. -/
theorem gradient_eq_zeros {x grad : Assignment κ α} (hgrad : g.gradient x = .ok grad) {k : κ}
    {v : Vec α} (hv : grad.get? k = some v)
    (hk : ∀ f ∈ g.factors, k ∈ f.keys → f.constraint?.isSome = true) : v = Vec.zeros v.length := by
  refine Vec.ext_get (Vec.length_zeros _).symm fun j hj => ?_
  rw [← Assignment.pairing_unitPoint hv hj, (gradient_spec hgrad).2, Vec.get_zeros]
  refine List.sum_eq_zero fun a ha => ?_
  obtain ⟨f, hf, rfl⟩ := List.mem_map.1 ha
  refine Factor.slope_eq_zero ?_ _
  by_cases hmem : k ∈ f.keys
  · exact .inl (hk f hf hmem)
  · refine .inr fun k' hk' => Pi.single_eq_of_ne ?_ _
    rintro rfl
    exact hmem hk'

/-- The gradient is the derivative of the cost. A step changes the cost by what the gradient pairs
with it and by half its curvature, up to half the skewness; exactly so if the information matrices
are symmetric. Every variable has its part in the gradient, zeros if only constraints touch it. -/
theorem cost_plus {dims : SortedMap κ ℕ} (hdims : g.keyDimensions = .ok dims)
    (haccepted : ∀ f, .quadratic f ∈ g.factors → f.Accepted) {x h : Assignment κ α}
    (hx : g.Covers x) (hh : g.Covers h) (hstorable : x.Storable) :
    ∃ before after grad, g.cost x = .ok before ∧ g.cost (x.plus h) = .ok after ∧
      g.gradient x = .ok grad ∧
      |after - before - pairing grad.toList h.entries - 1 / 2 * g.curvature h.entries| ≤
        1 / 2 * g.skewness x.entries h.entries ∧
      (∀ f, .quadratic f ∈ g.factors → f.asymmetry ≤ 1 / 10 ^ 9 * (1 + f.information.amax)) ∧
      (g.Symmetric →
        after - before - pairing grad.toList h.entries - 1 / 2 * g.curvature h.entries = 0) ∧
      ∀ k n, dims.get? k = some n → ∃ v, grad.get? k = some v ∧ v.length = n ∧
        ((∀ f ∈ g.factors, k ∈ f.keys → f.constraint?.isSome = true) → v = Vec.zeros n) := by
  have hstack : ∀ c, .quadratic c ∈ g.factors → c.Stackable := fun c hc =>
    hx.stackable hstorable.total hc
  have hmax : ∀ e ∈ dims.toList, e.2 ≤ maxLength := by
    intro e he
    obtain ⟨f, hf, hmem⟩ := (keyDimensions_spec hdims).1 (SortedMap.get?_eq_some_iff.2 he)
    obtain ⟨v, hv, hlen⟩ := Assignment.dim?_eq_some.1 (hx f hf e hmem)
    exact hlen ▸ hstorable.each e.1 v hv
  have hplus : g.Covers (x.plus h) := fun f hf => (hx f hf).plus (hh f hf)
  obtain ⟨before, hbefore⟩ := exists_cost_of_stackable hstack hx
  obtain ⟨after, hafter⟩ := exists_cost_of_stackable hstack hplus
  obtain ⟨grad, hgrad⟩ := exists_gradient_of_stackable hdims hmax hstack hx
  have hvalue : g.value (x.plus h).entries = g.value (x.entries + h.entries) :=
    g.value_congr fun f hf k hk => (hx f hf).entries_plus (hh f hf) hk
  have hdifference : after - before - pairing grad.toList h.entries -
      1 / 2 * g.curvature h.entries =
        1 / 2 * (g.coupling h.entries x.entries - g.coupling x.entries h.entries) := by
    rw [(cost_eq_ok.1 hafter).2, (cost_eq_ok.1 hbefore).2, hvalue, value_add,
      (gradient_spec hgrad).2]
    ring
  refine ⟨before, after, grad, hbefore, hafter, hgrad, ?_,
    fun f hf => (haccepted f hf).asymmetry_le, fun hsymmetric => ?_, fun k n hk => ?_⟩
  · rw [hdifference, abs_mul, abs_of_nonneg (by norm_num : (0 : α) ≤ 1 / 2)]
    exact mul_le_mul_of_nonneg_left (abs_coupling_sub_le hstack _ _) (by norm_num)
  · rw [hdifference, coupling_comm hsymmetric, sub_self, mul_zero]
  · obtain ⟨dims', hdims', hdim⟩ := dim?_gradient hgrad
    cases hdims.symm.trans hdims'
    obtain ⟨v, hv, rfl⟩ := Assignment.dim?_eq_some.1 ((hdim k).trans hk)
    exact ⟨v, hv, rfl, gradient_eq_zeros hgrad hv⟩

end Graph

def Assignment.triple (a b c : ℚ) : Assignment ℕ ℚ :=
  SortedMap.ofList [(0, [a]), (1, [b]), (2, [c])]

/-- A cost on two variables whose information matrix is not quite symmetric. -/
def QuadraticCost.skewed : QuadraticCost ℕ ℚ where
  keyDims := [(0, 1), (1, 1)]
  information := .ofFn 2 2 fun i j => if i = j then 2 else if i < j then 1 else 1 + 1 / 10 ^ 10
  linear := [1, 0]
  constant := 0
  keys_nodup := by decide
  rows_eq := rfl
  cols_eq := rfl
  length_eq := rfl

def Graph.skewed : Graph ℕ ℚ := ⟨[.quadratic .skewed, .linear (.single 2 1 (some .inequality))]⟩

/-- A step changes the skewed cost as its gradient tells, up to the skewness; the bounded variable
has a gradient of zero. -/
theorem Graph.skewed_cost_plus : ∃ before after grad,
    skewed.cost (.triple 1 1 0) = .ok before ∧
      skewed.cost ((Assignment.triple 1 1 0).plus (.triple 1 2 5)) = .ok after ∧
      skewed.gradient (.triple 1 1 0) = .ok grad ∧
      |after - before - pairing grad.toList (Assignment.triple 1 2 5).entries -
          1 / 2 * skewed.curvature (Assignment.triple 1 2 5).entries| ≤
        1 / 2 * skewed.skewness (Assignment.triple 1 1 0).entries
          (Assignment.triple 1 2 5).entries ∧
      grad.get? 2 = some [0] := by
  have hdims : skewed.keyDimensions = .ok (SortedMap.ofList [(0, 1), (1, 1), (2, 1)]) := rfl
  have haccepted : ∀ f, .quadratic f ∈ skewed.factors → f.Accepted := by
    intro f hf
    obtain rfl : f = .skewed := by simpa [skewed] using hf
    have hok : QuadraticCost.ofInformation QuadraticCost.skewed.keyDims
        QuadraticCost.skewed.information QuadraticCost.skewed.linear
        QuadraticCost.skewed.constant = .ok .skewed := by decide +kernel
    exact .ofInformation hok
  have hx : skewed.Covers (.triple 1 1 0) := by decide +kernel
  have hh : skewed.Covers (.triple 1 2 5) := by decide +kernel
  have hshort : ∀ e ∈ (Assignment.triple 1 1 0).toList, e.2.length ≤ maxLength := by decide +kernel
  have hstorable : (Assignment.triple 1 1 0).Storable :=
    ⟨fun k v hv => hshort (k, v) (SortedMap.get?_eq_some_iff.1 hv), by decide +kernel⟩
  obtain ⟨before, after, grad, hbefore, hafter, hgrad, hbound, -, -, hparts⟩ :=
    cost_plus hdims haccepted hx hh hstorable
  obtain ⟨v, hv, -, hzero⟩ := hparts 2 1 (by decide +kernel)
  have hconstraint : ∀ f ∈ skewed.factors, 2 ∈ f.keys → f.constraint?.isSome = true := by
    decide +kernel
  exact ⟨before, after, grad, hbefore, hafter, hgrad, hbound, hv.trans (hzero hconstraint ▸ rfl)⟩

end GaussianProgram
