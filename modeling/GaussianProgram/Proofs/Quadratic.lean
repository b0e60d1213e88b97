import GaussianProgram.Proofs.Rows
import GaussianProgram.Factor.Quadratic

/-! Quadratic costs as functions of the point. The stacked variables are evaluated only if their
dimensions do not wrap around; the cost along a segment is a quadratic polynomial whose first
coefficient is the slope and whose second is half the curvature. -/
namespace GaussianProgram
open Finset (range)

section Stack
variable {κ α : Type}

def stackOf : List (κ × ℕ) → Point κ α → Vec α
  | [], _ => []
  | (k, d) :: rest, p => (List.range d).map (p k) ++ stackOf rest p

@[simp] theorem length_stackOf (dims : List (κ × ℕ)) (p : Point κ α) :
    (stackOf dims p).length = sumDims (dims.map (·.2)) := by
  induction dims with
  | nil => rfl
  | cons e dims ih => simp [stackOf, ih]

theorem stackOf_eq_flatMap (dims : List (κ × ℕ)) (p : Point κ α) :
    stackOf dims p = dims.flatMap fun e => (List.range e.2).map (p e.1) := by
  induction dims with
  | nil => rfl
  | cons e dims ih => rw [List.flatMap_cons, ← ih, stackOf]

/-- A stack reads the entries of the listed variables only. -/
theorem stackOf_ext {dims : List (κ × ℕ)} {p q : Point κ α}
    (h : ∀ e ∈ dims, ∀ i < e.2, p e.1 i = q e.1 i) : stackOf dims p = stackOf dims q := by
  induction dims with
  | nil => rfl
  | cons e dims ih =>
    rw [stackOf, stackOf, ih fun e he => h e (List.mem_cons_of_mem _ he)]
    exact congrArg (· ++ _) (List.map_congr_left fun i hi =>
      h e List.mem_cons_self i (List.mem_range.1 hi))

theorem stackOf_congr {dims : List (κ × ℕ)} {p q : Point κ α} (h : ∀ e ∈ dims, p e.1 = q e.1) :
    stackOf dims p = stackOf dims q := stackOf_ext fun e he i _ => congrFun (h e he) i

/-- Keys with the offsets and dimensions of their parts, in a stack that begins at `start`. -/
private def placed (start : ℕ) (dims : List (κ × ℕ)) : List (κ × ℕ × ℕ) :=
  (dims.map (·.1)).zip ((runningOffsets start (dims.map (·.2))).zip (dims.map (·.2)))

private theorem placed_cons (start d : ℕ) (k : κ) (dims : List (κ × ℕ)) :
    placed start ((k, d) :: dims) =
      (k, start, d) :: placed ((start + d) % UInt64.size) dims := rfl

private theorem placed_cons_of_lt {start n d : ℕ} (hn : n < UInt64.size) (hd : start + d ≤ n)
    (k : κ) (dims : List (κ × ℕ)) :
    placed start ((k, d) :: dims) = (k, start, d) :: placed (start + d) dims := by
  rw [placed_cons, Nat.mod_eq_of_lt (hd.trans_lt hn)]

theorem overwrite_eq_some {v w u : Vec α} {offset : ℕ} :
    Vec.overwrite v offset w = some u ↔ offset + w.length ≤ v.length ∧
      u = v.take offset ++ w ++ v.drop (offset + w.length) := by
  unfold Vec.overwrite
  split_ifs with h <;> simp [h, eq_comm]

variable [ExactScalar α]

/-- A part that is cut out has the entries from the offset on. -/
theorem Vec.get_of_slice {v w : Vec α} {offset n i : ℕ} (h : v.slice offset n = some w)
    (hi : i < n) : Vec.get w i = Vec.get v (offset + i) := by
  unfold Vec.slice at h
  split_ifs at h
  cases h
  simp [Vec.get, hi]

theorem get_append (u v : Vec α) (i : ℕ) :
    Vec.get (u ++ v) i = if i < u.length then Vec.get u i else Vec.get v (i - u.length) := by
  simp only [Vec.get, List.getD_eq_getElem?_getD, List.getElem?_append]
  split_ifs <;> rfl

theorem get_stackOf_cons (k : κ) (d : ℕ) (dims : List (κ × ℕ)) (p : Point κ α) (i : ℕ) :
    Vec.get (stackOf ((k, d) :: dims) p) i =
      if i < d then p k i else Vec.get (stackOf dims p) (i - d) := by
  rw [stackOf, get_append, List.length_map, List.length_range]
  split_ifs with hi
  · exact Vec.get_map_range _ hi
  · rfl

/-- Stacking is linear. -/
theorem get_stackOf_add_smul (dims : List (κ × ℕ)) (p q : Point κ α) (t : α) (i : ℕ) :
    Vec.get (stackOf dims (p + t • q)) i =
      Vec.get (stackOf dims p) i + t * Vec.get (stackOf dims q) i := by
  induction dims generalizing i with
  | nil => simp [stackOf, Vec.get]
  | cons e dims ih =>
    rw [get_stackOf_cons, get_stackOf_cons, get_stackOf_cons]
    split_ifs
    · rfl
    · exact ih _

theorem get_stackOf_zero (dims : List (κ × ℕ)) (i : ℕ) :
    Vec.get (stackOf dims (0 : Point κ α)) i = 0 := by
  have h := get_stackOf_add_smul dims (0 : Point κ α) 0 1 i
  rwa [smul_zero, add_zero, one_mul, left_eq_add] at h

private theorem mem_placed {start : ℕ} {dims : List (κ × ℕ)} {e : κ × ℕ × ℕ}
    (h : e ∈ placed start dims) : (e.1, e.2.2) ∈ dims := by
  induction dims generalizing start with
  | nil => cases h
  | cons d dims ih =>
    rcases List.mem_cons.1 h with rfl | h
    · exact List.mem_cons_self
    · exact List.mem_cons_of_mem _ (ih h)

private theorem placed_fits {n : ℕ} (hn : n < UInt64.size) {dims : List (κ × ℕ)} {start : ℕ}
    (h : start + sumDims (dims.map (·.2)) ≤ n) {e : κ × ℕ × ℕ} (he : e ∈ placed start dims) :
    e.2.1 + e.2.2 ≤ n := by
  induction dims generalizing start with
  | nil => cases he
  | cons d dims ih =>
    obtain ⟨k, d⟩ := d
    rw [List.map_cons, sumDims_cons] at h
    rw [placed_cons_of_lt hn (by omega)] at he
    rcases List.mem_cons.1 he with rfl | he
    · exact (Nat.add_le_add_left (Nat.le_add_right _ _) _).trans h
    · exact ih (by omega) he

/-- What a stack is paired with is paired with its parts. -/
private theorem sum_placed {n : ℕ} (hn : n < UInt64.size) (φ : ℕ → α) {dims : List (κ × ℕ)}
    (start : ℕ) (h : start + sumDims (dims.map (·.2)) ≤ n) (p : Point κ α) :
    ((placed start dims).map fun e => ∑ i ∈ range e.2.2, φ (e.2.1 + i) * p e.1 i).sum =
      ∑ i ∈ range (sumDims (dims.map (·.2))), φ (start + i) * Vec.get (stackOf dims p) i := by
  induction dims generalizing start with
  | nil => rfl
  | cons e dims ih =>
    obtain ⟨k, d⟩ := e
    simp only [List.map_cons, sumDims_cons] at h ⊢
    rw [placed_cons_of_lt hn (by omega), List.map_cons, List.sum_cons, ih _ (by omega),
      Finset.sum_range_add]
    refine congrArg₂ _ (Finset.sum_congr rfl fun i hi => ?_) (Finset.sum_congr rfl fun i _ => ?_)
    · rw [get_stackOf_cons, if_pos (Finset.mem_range.1 hi)]
    · rw [get_stackOf_cons, if_neg (by omega), Nat.add_sub_cancel_left, Nat.add_assoc]

private theorem pairing_slices (full : Vec α) {l : List (κ × ℕ × ℕ)} {parts : List (κ × Vec α)}
    (hparts : l.mapM (fun (k, offset, dim) => do
      let part ← Result.inRange (Vec.slice full offset dim)
      return (k, part)) = (.ok parts : Result (FactorError α) (List (κ × Vec α))))
    (p : Point κ α) : pairing parts p =
      (l.map fun e => ∑ i ∈ range e.2.2, Vec.get full (e.2.1 + i) * p e.1 i).sum := by
  rw [Result.mapM_eq_ok] at hparts
  induction hparts with
  | nil => rfl
  | cons hpart _ ih =>
    obtain ⟨u, hu, hpart⟩ := Result.bind_eq_ok.1 hpart
    cases Result.pure_eq_ok.1 hpart
    rw [Result.inRange_eq_ok] at hu
    rw [pairing_cons, ih, List.map_cons, List.sum_cons, Vec.length_of_slice hu]
    refine congrArg (· + _) (Finset.sum_congr rfl fun i hi => ?_)
    rw [Vec.get_of_slice hu (Finset.mem_range.1 hi)]

end Stack

theorem Assignment.eq_map_entries {κ α : Type} [Key κ] [ExactScalar α] {x : Assignment κ α} {k : κ}
    {v : Vec α} (h : x.get? k = some v) : v = (List.range v.length).map (x.entries k) := by
  apply Vec.ext_get (by simp)
  intro i hi
  rw [Vec.get_map_range _ hi, Assignment.entries_eq h]

namespace QuadraticCost
variable {κ α : Type} [Key κ] [ExactScalar α]

omit [ExactScalar α] in
theorem rows_information (f : QuadraticCost κ α) : f.information.rows = f.linear.length :=
  f.rows_eq.trans f.length_eq.symm

omit [ExactScalar α] in
theorem cols_information (f : QuadraticCost κ α) : f.information.cols = f.linear.length :=
  f.cols_eq.trans f.length_eq.symm

omit [ExactScalar α] in
/-- A vector that is written behind another one stands behind it. -/
private theorem splice_splice {stack w v : Vec α} {start : ℕ}
    (hfit : start + w.length ≤ stack.length) (n : ℕ) :
    (stack.take start ++ w ++ stack.drop (start + w.length)).take (start + w.length) ++ v ++
        (stack.take start ++ w ++ stack.drop (start + w.length)).drop (start + w.length + n) =
      stack.take start ++ (w ++ v) ++ stack.drop (start + (w.length + n)) := by
  have hfirst : (stack.take start ++ w).length = start + w.length := by
    rw [List.length_append, List.length_take]
    omega
  rw [List.take_append_of_le_length hfirst.ge, List.take_of_length_le hfirst.le, List.drop_append,
    List.drop_eq_nil_of_le (by omega), hfirst, Nat.add_sub_cancel_left, List.drop_drop]
  simp only [List.nil_append, List.append_assoc, Nat.add_assoc]

-- The offset stays below the length of the stack, so it never wraps around before a part fails to
-- fit.
private theorem stacked_placed {n : ℕ} (hn : n < UInt64.size) (x : Assignment κ α)
    (dims : List (κ × ℕ)) {start : ℕ} {stack : Vec α} (hs : stack.length = n) (h0 : start ≤ n)
    (v : Vec α) :
    (placed start dims).foldlM (fun stack (k, offset, dim) => do
      let v ← Result.ofExcept (x.valueOf k dim)
      Result.inRange (Vec.overwrite stack offset v)) stack =
        (.ok v : Result (FactorError α) (Vec α)) ↔
    x.HasDims dims ∧ start + sumDims (dims.map (·.2)) ≤ n ∧ v = stack.take start ++
      stackOf dims x.entries ++ stack.drop (start + sumDims (dims.map (·.2))) := by
  -- What stands before `start` is written already, so the stack generalizes along with it.
  induction dims generalizing start stack with
  | nil => simp [placed, pure, Except.pure, Assignment.hasDims_nil, stackOf, h0, eq_comm]
  | cons e dims ih =>
    obtain ⟨k, d⟩ := e
    by_cases hfit : start + d ≤ n
    · rw [placed_cons_of_lt hn hfit, Assignment.hasDims_cons]
      simp only [List.foldlM_cons, Result.bind_eq_ok, Result.ofExcept_eq_ok, Result.inRange_eq_ok,
        Assignment.valueOf_eq_ok, overwrite_eq_some, Assignment.dim?_eq_some, List.map_cons,
        sumDims_cons]
      have hnext {w : Vec α} (hw : x.get? k = some w) (hd : w.length = d) :
          (placed (start + d) dims).foldlM (fun stack (k, offset, dim) => do
            let v ← Result.ofExcept (x.valueOf k dim)
            Result.inRange (Vec.overwrite stack offset v))
              (stack.take start ++ w ++ stack.drop (start + w.length)) =
                (.ok v : Result (FactorError α) (Vec α)) ↔
          x.HasDims dims ∧ start + (d + sumDims (dims.map (·.2))) ≤ n ∧ v = stack.take start ++
            stackOf ((k, d) :: dims) x.entries ++
              stack.drop (start + (d + sumDims (dims.map (·.2)))) := by
        have hlen : (stack.take start ++ w ++ stack.drop (start + w.length)).length = n := by
          simp [hs, hd]; omega
        have hfirst : w = (List.range d).map (x.entries k) := hd ▸ Assignment.eq_map_entries hw
        subst hd
        rw [ih hlen hfit, splice_splice (hs ▸ hfit), stackOf, ← hfirst, Nat.add_assoc]
      constructor
      · rintro ⟨_, ⟨w, ⟨hw, hd⟩, _, rfl⟩, h⟩
        obtain ⟨hdims, hle, hv⟩ := (hnext hw hd).1 h
        exact ⟨⟨⟨w, hw, hd⟩, hdims⟩, hle, hv⟩
      · rintro ⟨⟨⟨w, hw, hd⟩, hdims⟩, hle, hv⟩
        exact ⟨_, ⟨w, ⟨hw, hd⟩, by omega, rfl⟩, (hnext hw hd).2 ⟨hdims, hle, hv⟩⟩
    · constructor
      · intro h
        rw [placed_cons, List.foldlM_cons] at h
        obtain ⟨stack', hstep, _⟩ := Result.bind_eq_ok.1 h
        obtain ⟨w, hw, hput⟩ := Result.bind_eq_ok.1 hstep
        rw [Result.ofExcept_eq_ok, Assignment.valueOf_eq_ok] at hw
        rw [Result.inRange_eq_ok, overwrite_eq_some, hw.2, hs] at hput
        exact absurd hput.1 hfit
      · rintro ⟨_, hle, _⟩
        simp only [List.map_cons, sumDims_cons] at hle
        omega

/-- The dimensions of the variables add up to the length of the linear term without
wrapping around. -/
def Stackable (f : QuadraticCost κ α) : Prop := sumDims f.dims = f.linear.length

omit [ExactScalar α] in
theorem length_lt (f : QuadraticCost κ α) : f.linear.length < UInt64.size := by
  rw [f.length_eq]
  exact Nat.mod_lt _ (by decide)

omit [ExactScalar α] in
theorem stackable_of_lt {f : QuadraticCost κ α} (h : sumDims f.dims < UInt64.size) : f.Stackable :=
  (f.length_eq.trans (Nat.mod_eq_of_lt h)).symm

/-- The variables can be stacked where they are all there in dimensions that do not wrap around. -/
theorem stacked_eq_ok {f : QuadraticCost κ α} {x : Assignment κ α} {v : Vec α} :
    f.stacked x = .ok v ↔
      x.HasDims f.keyDims ∧ f.Stackable ∧ v = stackOf f.keyDims x.entries := by
  have hle : f.linear.length ≤ sumDims f.dims := f.length_eq ▸ Nat.mod_le _ _
  refine (stacked_placed f.length_lt x f.keyDims (Vec.length_zeros _) (Nat.zero_le _) v).trans ?_
  rw [Nat.zero_add, List.take_zero, List.nil_append]
  apply and_congr_right
  intro _
  constructor
  · rintro ⟨hsum, rfl⟩
    have hs : f.Stackable := le_antisymm hsum hle
    refine ⟨hs, ?_⟩
    rw [List.drop_eq_nil_of_le (by rw [Vec.length_zeros]; exact hle), List.append_nil]
  · rintro ⟨hs, rfl⟩
    refine ⟨hs.le, ?_⟩
    rw [List.drop_eq_nil_of_le (by rw [Vec.length_zeros]; exact hle), List.append_nil]

omit [ExactScalar α] in
theorem mem_segments {f : QuadraticCost κ α} {e : κ × ℕ × ℕ} (h : e ∈ f.segments) :
    (e.1, e.2.2) ∈ f.keyDims := mem_placed h

omit [ExactScalar α] in
/-- Every variable has its part inside the stack. -/
theorem segment_fits {f : QuadraticCost κ α} (hs : f.Stackable) {e : κ × ℕ × ℕ}
    (he : e ∈ f.segments) : e.2.1 + e.2.2 ≤ f.linear.length := by
  have hsum : sumDims (f.keyDims.map (·.2)) = f.linear.length := hs
  exact placed_fits f.length_lt (by omega) he

/-- What the stacked variables are paired with is paired with the variables. -/
theorem sum_segments {f : QuadraticCost κ α} (hs : f.Stackable) (φ : ℕ → α) (p : Point κ α) :
    (f.segments.map fun e => ∑ i ∈ range e.2.2, φ (e.2.1 + i) * p e.1 i).sum =
      ∑ i ∈ range f.linear.length, φ i * Vec.get (stackOf f.keyDims p) i := by
  have hsum : sumDims (f.keyDims.map (·.2)) = f.linear.length := hs
  refine (sum_placed f.length_lt φ 0 (by omega) p).trans ?_
  simp only [hsum, Nat.zero_add]

def Symmetric (f : QuadraticCost κ α) : Prop :=
  ∀ i < f.linear.length, ∀ j < f.linear.length, f.information.get i j = f.information.get j i

def image (f : QuadraticCost κ α) (p : Point κ α) (i : ℕ) : α :=
  ∑ j ∈ range f.linear.length, f.information.get i j * Vec.get (stackOf f.keyDims p) j

def value (f : QuadraticCost κ α) (p : Point κ α) : α :=
  0.5 * ∑ i ∈ range f.linear.length, Vec.get (stackOf f.keyDims p) i * f.image p i -
    ∑ i ∈ range f.linear.length, Vec.get (stackOf f.keyDims p) i * Vec.get f.linear i +
    0.5 * f.constant

/-- Derivative of the cost at `p` along `d`. -/
def slope (f : QuadraticCost κ α) (p d : Point κ α) : α :=
  ∑ i ∈ range f.linear.length, (f.image p i - Vec.get f.linear i) * Vec.get (stackOf f.keyDims d) i

/-- Second derivative of the cost along `d`. -/
def curvature (f : QuadraticCost κ α) (d : Point κ α) : α :=
  ∑ i ∈ range f.linear.length, f.image d i * Vec.get (stackOf f.keyDims d) i

/-- Derivative of the slope along `e` in the direction `d`. -/
def coupling (f : QuadraticCost κ α) (d e : Point κ α) : α :=
  ∑ i ∈ range f.linear.length, f.image d i * Vec.get (stackOf f.keyDims e) i

theorem get_mulVec_stack {f : QuadraticCost κ α} {p : Point κ α} (hs : f.Stackable) {i : ℕ}
    (hi : i < f.linear.length) :
    Vec.get (f.information.mulVec (stackOf f.keyDims p)) i = f.image p i := by
  rw [Matrix.get_mulVec _ (f.rows_information ▸ hi)
    (by rw [length_stackOf, f.cols_information]; exact hs), f.cols_information, image]

theorem cost_eq_ok {f : QuadraticCost κ α} {x : Assignment κ α} {c : α} :
    f.cost x = .ok c ↔ x.HasDims f.keyDims ∧ f.Stackable ∧ c = f.value x.entries := by
  simp only [cost, Result.bind_eq_ok, Result.pure_eq_ok, stacked_eq_ok]
  have hvalue (hs : f.Stackable) :
      0.5 * Vec.inner (stackOf f.keyDims x.entries)
          (f.information.mulVec (stackOf f.keyDims x.entries)) -
        Vec.inner (stackOf f.keyDims x.entries) f.linear + 0.5 * f.constant =
          f.value x.entries := by
    have hlen : (stackOf f.keyDims x.entries).length = f.linear.length := by
      rw [length_stackOf]; exact hs
    rw [Vec.inner_eq (by rw [hlen, Matrix.length_mulVec, f.rows_information]), Vec.inner_eq hlen,
      hlen, value]
    congr 3
    exact Finset.sum_congr rfl fun i hi => by rw [get_mulVec_stack hs (Finset.mem_range.1 hi)]
  constructor
  · rintro ⟨_, ⟨hx, hs, rfl⟩, rfl⟩
    exact ⟨hx, hs, hvalue hs⟩
  · rintro ⟨hx, hs, rfl⟩
    exact ⟨_, ⟨hx, hs, rfl⟩, hvalue hs⟩

theorem image_add_smul (f : QuadraticCost κ α) (p d : Point κ α) (t : α) (i : ℕ) :
    f.image (p + t • d) i = f.image p i + t * f.image d i := by
  simp only [image, get_stackOf_add_smul, mul_add, Finset.sum_add_distrib, Finset.mul_sum]
  refine congrArg _ (Finset.sum_congr rfl fun j _ => by ring)

theorem slope_zero (f : QuadraticCost κ α) (d : Point κ α) : f.slope 0 d =
    -∑ i ∈ range f.linear.length, Vec.get f.linear i * Vec.get (stackOf f.keyDims d) i := by
  have himage (i : ℕ) : f.image 0 i = 0 := by simp [image, get_stackOf_zero]
  rw [slope, ← Finset.sum_neg_distrib]
  exact Finset.sum_congr rfl fun i _ => by rw [himage, zero_sub, neg_mul]

/-- A symmetric matrix can be moved from one factor of a product to the other. -/
private theorem sum_image_comm {f : QuadraticCost κ α} (hf : f.Symmetric) (p d : Point κ α) :
    ∑ i ∈ range f.linear.length, Vec.get (stackOf f.keyDims p) i * f.image d i =
      ∑ i ∈ range f.linear.length, Vec.get (stackOf f.keyDims d) i * f.image p i := by
  simp only [image, Finset.mul_sum]
  rw [Finset.sum_comm]
  refine Finset.sum_congr rfl fun j hj => Finset.sum_congr rfl fun i hi => ?_
  rw [hf i (Finset.mem_range.1 hi) j (Finset.mem_range.1 hj)]
  ring

theorem slope_add_smul (f : QuadraticCost κ α) (p d e : Point κ α) (t : α) :
    f.slope (p + t • d) e = f.slope p e + t * f.coupling d e := by
  simp only [slope, coupling, image_add_smul, Finset.mul_sum, ← Finset.sum_add_distrib]
  exact Finset.sum_congr rfl fun i _ => by ring

theorem coupling_add_smul (f : QuadraticCost κ α) (d e u : Point κ α) (t : α) :
    f.coupling d (e + t • u) = f.coupling d e + t * f.coupling d u := by
  simp only [coupling, get_stackOf_add_smul, Finset.mul_sum, ← Finset.sum_add_distrib]
  exact Finset.sum_congr rfl fun i _ => by ring

theorem coupling_comm {f : QuadraticCost κ α} (hf : f.Symmetric) (d e : Point κ α) :
    f.coupling d e = f.coupling e d := by
  simp only [coupling, mul_comm (f.image _ _)]
  exact sum_image_comm hf e d

/-- Along a segment a symmetric cost is a quadratic polynomial. -/
theorem value_add_smul {f : QuadraticCost κ α} (hf : f.Symmetric) (p d : Point κ α) (t : α) :
    f.value (p + t • d) = f.value p + t * f.slope p d + t * t / 2 * f.curvature d := by
  have hcomm := sum_image_comm hf p d
  have hquad : ∑ i ∈ range f.linear.length,
      Vec.get (stackOf f.keyDims (p + t • d)) i * f.image (p + t • d) i =
        ∑ i ∈ range f.linear.length, Vec.get (stackOf f.keyDims p) i * f.image p i +
        2 * t * ∑ i ∈ range f.linear.length, Vec.get (stackOf f.keyDims d) i * f.image p i +
        t * t * f.curvature d := by
    calc _ = ∑ i ∈ range f.linear.length, Vec.get (stackOf f.keyDims p) i * f.image p i +
          t * ∑ i ∈ range f.linear.length, Vec.get (stackOf f.keyDims p) i * f.image d i +
          t * ∑ i ∈ range f.linear.length, Vec.get (stackOf f.keyDims d) i * f.image p i +
          t * t * f.curvature d := by
          simp only [curvature, Finset.mul_sum, ← Finset.sum_add_distrib]
          apply Finset.sum_congr rfl
          intro i _
          rw [get_stackOf_add_smul, image_add_smul]
          ring
      _ = _ := by rw [hcomm]; ring
  have hlin : ∑ i ∈ range f.linear.length,
      Vec.get (stackOf f.keyDims (p + t • d)) i * Vec.get f.linear i =
        ∑ i ∈ range f.linear.length, Vec.get (stackOf f.keyDims p) i * Vec.get f.linear i +
        t * ∑ i ∈ range f.linear.length, Vec.get (stackOf f.keyDims d) i * Vec.get f.linear i := by
    simp only [Finset.mul_sum, ← Finset.sum_add_distrib]
    apply Finset.sum_congr rfl
    intro i _
    rw [get_stackOf_add_smul]
    ring
  have hslope : f.slope p d =
      ∑ i ∈ range f.linear.length, Vec.get (stackOf f.keyDims d) i * f.image p i -
        ∑ i ∈ range f.linear.length, Vec.get (stackOf f.keyDims d) i * Vec.get f.linear i := by
    rw [slope, ← Finset.sum_sub_distrib]
    exact Finset.sum_congr rfl fun i _ => by ring
  rw [value, hquad, hlin, hslope, value, ExactScalar.half_eq]
  ring

section Stacked
variable {f : QuadraticCost κ α} {x : Assignment κ α}

omit [ExactScalar α] in
/-- The stack of the variables has the length of the linear term. -/
theorem length_stacked [Scalar α] {v : Vec α} (h : f.stacked x = .ok v) :
    v.length = f.linear.length := by
  refine Result.foldlM_keeps (fun stack => stack.length = f.linear.length)
    (fun stack stack' e _ hlen hstep => ?_) (Vec.length_zeros _) h
  obtain ⟨w, -, hput⟩ := Result.bind_eq_ok.1 hstep
  rw [Vec.length_of_overwrite (Result.inRange_eq_ok.1 hput), hlen]

variable (hx : x.HasDims f.keyDims) (hs : f.Stackable)
include hx hs

omit [ExactScalar α] in
theorem exists_stacked [Scalar α] : ∃ v, f.stacked x = .ok v := by
  refine Result.exists_foldlM (fun stack => stack.length = f.linear.length)
    (fun stack e he hlen => ?_) (Vec.length_zeros _)
  obtain ⟨v, hv, hdim⟩ := Assignment.dim?_eq_some.1 (hx _ (mem_segments he))
  have hput : Vec.overwrite stack e.2.1 v =
      some (stack.take e.2.1 ++ v ++ stack.drop (e.2.1 + v.length)) := by
    refine overwrite_eq_some.2 ⟨?_, rfl⟩
    rw [hdim, hlen]
    exact segment_fits hs he
  refine ⟨_, Result.bind_eq_ok.2 ⟨v, ?_, Result.inRange_eq_ok.2 hput⟩, ?_⟩
  · exact Result.ofExcept_eq_ok.2 (Assignment.valueOf_eq_ok.2 ⟨hv, hdim⟩)
  · rw [Vec.length_of_overwrite hput, hlen]

omit [ExactScalar α] in
theorem exists_cost [Scalar α] : ∃ c, f.cost x = .ok c := by
  obtain ⟨v, hv⟩ := exists_stacked hx hs
  exact ⟨_, Result.bind_eq_ok.2 ⟨v, hv, rfl⟩⟩

omit [ExactScalar α] in
theorem exists_gradient [Scalar α] : ∃ parts, f.gradient x = .ok parts := by
  obtain ⟨v, hv⟩ := exists_stacked hx hs
  have hlen : (Vec.sub (f.information.mulVec v) f.linear).length = f.linear.length := by
    rw [Vec.length_sub, Matrix.length_mulVec, f.rows_eq, ← f.length_eq, min_self]
  obtain ⟨parts, hparts⟩ := Result.exists_mapM (l := f.segments) (f := fun e => do
      let part ← Result.inRange (Vec.slice (Vec.sub (f.information.mulVec v) f.linear) e.2.1 e.2.2)
      return (e.1, part)) (ε := Failure (FactorError α)) fun e he => by
    obtain ⟨part, hpart⟩ := Option.isSome_iff_exists.1
      (Vec.slice_isSome.2 ((segment_fits hs he).trans_eq hlen.symm))
    exact ⟨(e.1, part), by rw [hpart]; rfl⟩
  exact ⟨parts, Result.bind_eq_ok.2 ⟨v, hv, hparts⟩⟩

end Stacked

omit [ExactScalar α] in
/-- Every part of the gradient has the dimension of its variable. -/
theorem dims_gradient [Scalar α] {f : QuadraticCost κ α} {x : Assignment κ α}
    {parts : List (κ × Vec α)} (h : f.gradient x = .ok parts) {e : κ × Vec α} (he : e ∈ parts) :
    (e.1, e.2.length) ∈ f.keyDims := by
  obtain ⟨v, -, h⟩ := Result.bind_eq_ok.1 h
  obtain ⟨t, ht, hpart⟩ := Result.exists_of_mem_mapM h he
  obtain ⟨part, hslice, hpart⟩ := Result.bind_eq_ok.1 hpart
  cases Result.pure_eq_ok.1 hpart
  rw [Vec.length_of_slice (Result.inRange_eq_ok.1 hslice)]
  exact mem_segments ht

/-- The gradient pairs with a direction to the slope along it. -/
theorem pairing_gradient {f : QuadraticCost κ α} {x : Assignment κ α} {parts : List (κ × Vec α)}
    (h : f.gradient x = .ok parts) (d : Point κ α) : pairing parts d = f.slope x.entries d := by
  obtain ⟨v, hv, h⟩ := Result.bind_eq_ok.1 h
  obtain ⟨_, hs, rfl⟩ := stacked_eq_ok.1 hv
  rw [pairing_slices _ h, sum_segments hs, slope]
  apply Finset.sum_congr rfl
  intro i hi
  have hi := Finset.mem_range.1 hi
  rw [Vec.get_sub (by rw [Matrix.length_mulVec, f.rows_information]; exact hi) hi,
    get_mulVec_stack hs hi]

end QuadraticCost

end GaussianProgram
