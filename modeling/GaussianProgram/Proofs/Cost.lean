import GaussianProgram.Proofs.Quadratic
import GaussianProgram.Graph

/-! The cost of a graph as a function of the point. Along a segment it is a quadratic
polynomial, so a positive semidefinite cost is convex; the computed gradient pairs with a
direction to the slope along it. -/
namespace GaussianProgram
open Finset (range)

namespace LinearRows
variable {κ α : Type} [Key κ] [ExactScalar α]

/-- The cost as a function of the point; constraints cost nothing. -/
def value (f : LinearRows κ α) (p : Point κ α) : α :=
  if f.isConstrained then 0 else 0.5 * ∑ row ∈ range f.rows, f.gap row p * f.gap row p

def slope (f : LinearRows κ α) (p d : Point κ α) : α :=
  if f.isConstrained then 0 else ∑ row ∈ range f.rows, f.gap row p * f.form row d

def curvature (f : LinearRows κ α) (d : Point κ α) : α :=
  if f.isConstrained then 0 else ∑ row ∈ range f.rows, f.form row d * f.form row d

def coupling (f : LinearRows κ α) (d e : Point κ α) : α :=
  if f.isConstrained then 0 else ∑ row ∈ range f.rows, f.form row d * f.form row e

theorem curvature_nonneg (f : LinearRows κ α) (d : Point κ α) : 0 ≤ f.curvature d := by
  rw [curvature]
  split_ifs
  · exact le_rfl
  · exact Finset.sum_nonneg fun row _ => mul_self_nonneg _

theorem gap_add_smul (f : LinearRows κ α) (row : ℕ) (p d : Point κ α) (t : α) :
    f.gap row (p + t • d) = f.gap row p + t * f.form row d := by
  simp only [gap, map_add, map_smul, smul_eq_mul]
  ring

theorem value_add_smul (f : LinearRows κ α) (p d : Point κ α) (t : α) :
    f.value (p + t • d) = f.value p + t * f.slope p d + t * t / 2 * f.curvature d := by
  by_cases hf : f.isConstrained
  · simp [value, slope, curvature, hf]
  · simp only [value, slope, curvature, if_neg hf, Finset.mul_sum, ← Finset.sum_add_distrib,
      gap_add_smul, ExactScalar.half_eq]
    exact Finset.sum_congr rfl fun row _ => by ring

theorem slope_zero {f : LinearRows κ α} (hf : f.isConstrained = false) (d : Point κ α) :
    f.slope 0 d = -∑ row ∈ range f.rows, Vec.get f.rhs row * f.form row d := by
  rw [slope, hf, if_neg (by simp), ← Finset.sum_neg_distrib]
  exact Finset.sum_congr rfl fun row _ => by rw [gap, map_zero, zero_sub, neg_mul]

theorem slope_add_smul (f : LinearRows κ α) (p d e : Point κ α) (t : α) :
    f.slope (p + t • d) e = f.slope p e + t * f.coupling d e := by
  by_cases hf : f.isConstrained
  · simp [slope, coupling, hf]
  · simp only [slope, coupling, if_neg hf, Finset.mul_sum, ← Finset.sum_add_distrib, gap_add_smul]
    exact Finset.sum_congr rfl fun row _ => by ring

theorem coupling_add_smul (f : LinearRows κ α) (d e u : Point κ α) (t : α) :
    f.coupling d (e + t • u) = f.coupling d e + t * f.coupling d u := by
  by_cases hf : f.isConstrained
  · simp [coupling, hf]
  · simp only [coupling, if_neg hf, map_add, map_smul, smul_eq_mul, Finset.mul_sum,
      ← Finset.sum_add_distrib]
    exact Finset.sum_congr rfl fun row _ => by ring

theorem coupling_comm (f : LinearRows κ α) (d e : Point κ α) : f.coupling d e = f.coupling e d := by
  simp only [coupling, mul_comm (f.form _ d)]

end LinearRows

namespace Factor
variable {κ α : Type} [Key κ] [ExactScalar α]

def value : Factor κ α → Point κ α → α
  | quadratic f, p => f.value p
  | linear f, p => f.value p

def slope : Factor κ α → Point κ α → Point κ α → α
  | quadratic f, p, d => f.slope p d
  | linear f, p, d => f.slope p d

def curvature : Factor κ α → Point κ α → α
  | quadratic f, d => f.curvature d
  | linear f, d => f.curvature d

def coupling : Factor κ α → Point κ α → Point κ α → α
  | quadratic f, d, e => f.coupling d e
  | linear f, d, e => f.coupling d e

/-- The variables that the cost reads are there in their dimensions. -/
def Readable : Factor κ α → Assignment κ α → Prop
  | quadratic f, x => x.HasDims f.keyDims ∧ f.Stackable
  | linear f, x => f.isConstrained = false → x.HasDims f.keyDims

omit [ExactScalar α] in
theorem Readable.mono {f : Factor κ α} {x y : Assignment κ α} (h : f.Readable x)
    (hxy : ∀ e ∈ f.keyDims, x.dim? e.1 = some e.2 → y.dim? e.1 = some e.2) : f.Readable y := by
  cases f with
  | quadratic f => exact ⟨fun e he => hxy e he (h.1 e he), h.2⟩
  | linear f => exact fun hf e he => hxy e he (h hf e he)

omit [ExactScalar α] in
theorem keys_linear (f : LinearRows κ α) : (linear f).keys = f.keys := by
  simp [keys, keyDims, LinearRows.keyDims, LinearRows.keys]

theorem cost_eq_ok {f : Factor κ α} {x : Assignment κ α} {c : α} :
    f.cost x = .ok c ↔ f.Readable x ∧ c = f.value x.entries := by
  cases f with
  | quadratic f => exact QuadraticCost.cost_eq_ok.trans and_assoc.symm
  | linear f =>
    rw [cost, Result.ofExcept_eq_ok]
    cases hf : f.isConstrained with
    | true =>
      simp [LinearRows.cost, Readable, value, LinearRows.value, hf, pure, Except.pure, eq_comm]
    | false =>
      have hk : f.kinds = none := by simpa [LinearRows.isConstrained] using hf
      simp [LinearRows.cost_eq_ok hk, Readable, value, LinearRows.value, hf]

theorem value_add_smul {f : Factor κ α} (hf : ∀ c, f = .quadratic c → c.Symmetric)
    (p d : Point κ α) (t : α) :
    f.value (p + t • d) = f.value p + t * f.slope p d + t * t / 2 * f.curvature d := by
  cases f with
  | quadratic c => exact QuadraticCost.value_add_smul (hf c rfl) p d t
  | linear f => exact f.value_add_smul p d t

theorem pairing_gradient {f : Factor κ α} {x : Assignment κ α} {parts : List (κ × Vec α)}
    (h : f.gradient x = .ok parts) (d : Point κ α) : pairing parts d = f.slope x.entries d := by
  cases f with
  | quadratic f => exact QuadraticCost.pairing_gradient h d
  | linear f => exact LinearRows.pairing_gradient h d

theorem slope_add_smul (f : Factor κ α) (p d e : Point κ α) (t : α) :
    f.slope (p + t • d) e = f.slope p e + t * f.coupling d e := by
  cases f with
  | quadratic f => exact f.slope_add_smul p d e t
  | linear f => exact f.slope_add_smul p d e t

theorem coupling_self (f : Factor κ α) (d : Point κ α) : f.coupling d d = f.curvature d := by
  cases f <;> rfl

theorem coupling_add_smul (f : Factor κ α) (d e u : Point κ α) (t : α) :
    f.coupling d (e + t • u) = f.coupling d e + t * f.coupling d u := by
  cases f with
  | quadratic f => exact f.coupling_add_smul d e u t
  | linear f => exact f.coupling_add_smul d e u t

theorem coupling_comm {f : Factor κ α} (hf : ∀ c, f = .quadratic c → c.Symmetric)
    (d e : Point κ α) : f.coupling d e = f.coupling e d := by
  cases f with
  | quadratic c => exact QuadraticCost.coupling_comm (hf c rfl) d e
  | linear f => exact f.coupling_comm d e

/-- A direction that moves no entry of the factor's variables meets no curvature. -/
theorem curvature_eq_zero {f : Factor κ α} {d : Point κ α}
    (h : ∀ e ∈ f.keyDims, ∀ i < e.2, d e.1 i = 0) : f.curvature d = 0 := by
  cases f with
  | quadratic f =>
    have hs : stackOf f.keyDims d = stackOf f.keyDims 0 := stackOf_ext h
    simp [curvature, QuadraticCost.curvature, hs, get_stackOf_zero]
  | linear f =>
    have hf (row : ℕ) : f.form row d = 0 :=
      (f.form_ext row (p := d) (q := 0) h).trans (map_zero _)
    simp [curvature, LinearRows.curvature, hf]

/-- A factor whose gradient is computed has what its cost reads. -/
theorem readable_of_gradient {f : Factor κ α} {x : Assignment κ α} {parts : List (κ × Vec α)}
    (h : f.gradient x = .ok parts) : f.Readable x := by
  cases f with
  | quadratic f =>
    obtain ⟨v, hv, -⟩ := Result.bind_eq_ok.1 h
    obtain ⟨hx, hs, -⟩ := QuadraticCost.stacked_eq_ok.1 hv
    exact ⟨hx, hs⟩
  | linear f =>
    intro hf
    simp only [gradient, LinearRows.gradient, hf, Bool.false_eq_true, if_false] at h
    obtain ⟨r, hr, -⟩ := Result.bind_eq_ok.1 h
    exact (LinearRows.residual_eq_ok.1 (Result.ofExcept_eq_ok.1 hr)).1

omit [ExactScalar α] in
/-- A factor has a cost where the variables that it reads can be stacked. -/
theorem exists_cost [Scalar α] {f : Factor κ α} {x : Assignment κ α} (hx : x.HasDims f.keyDims)
    (hs : ∀ c, f = .quadratic c → c.Stackable) : ∃ c, f.cost x = .ok c := by
  cases f with
  | quadratic c => exact QuadraticCost.exists_cost hx (hs c rfl)
  | linear f => exact (LinearRows.exists_cost hx).imp fun _ => Result.ofExcept_eq_ok.2

omit [ExactScalar α] in
/-- A factor has a gradient where the variables that it reads can be stacked. -/
theorem exists_gradient [Scalar α] {f : Factor κ α} {x : Assignment κ α}
    (hx : x.HasDims f.keyDims) (hs : ∀ c, f = .quadratic c → c.Stackable)
    (hmax : ∀ e ∈ f.keyDims, e.2 ≤ maxLength) : ∃ parts, f.gradient x = .ok parts := by
  cases f with
  | quadratic c => exact QuadraticCost.exists_gradient hx (hs c rfl)
  | linear f => exact LinearRows.exists_gradient hx hmax

omit [ExactScalar α] in
theorem dims_gradient [Scalar α] {f : Factor κ α} {x : Assignment κ α} {parts : List (κ × Vec α)}
    (h : f.gradient x = .ok parts) {e : κ × Vec α} (he : e ∈ parts) :
    (e.1, e.2.length) ∈ f.keyDims := by
  cases f with
  | quadratic f => exact QuadraticCost.dims_gradient h he
  | linear f => exact LinearRows.dims_gradient h he

/-- Cost, slope and curvature read the variables of the factor only. -/
theorem value_congr (f : Factor κ α) {p q : Point κ α} (h : ∀ k ∈ f.keys, p k = q k) :
    f.value p = f.value q := by
  cases f with
  | quadratic f =>
    have hs : stackOf f.keyDims p = stackOf f.keyDims q :=
      stackOf_congr fun e he => h e.1 (List.mem_map_of_mem he)
    simp only [value, QuadraticCost.value, QuadraticCost.image, hs]
  | linear f =>
    have hf (row : ℕ) : f.form row p = f.form row q :=
      f.form_congr row fun k hk => h k (keys_linear f ▸ hk)
    simp only [value, LinearRows.value, LinearRows.gap, hf]

theorem slope_congr (f : Factor κ α) {p q : Point κ α} (h : ∀ k ∈ f.keys, p k = q k)
    (d : Point κ α) : f.slope p d = f.slope q d := by
  cases f with
  | quadratic f =>
    have hs : stackOf f.keyDims p = stackOf f.keyDims q :=
      stackOf_congr fun e he => h e.1 (List.mem_map_of_mem he)
    simp only [slope, QuadraticCost.slope, QuadraticCost.image, hs]
  | linear f =>
    have hf (row : ℕ) : f.form row p = f.form row q :=
      f.form_congr row fun k hk => h k (keys_linear f ▸ hk)
    simp only [slope, LinearRows.slope, LinearRows.gap, hf]

end Factor

namespace SortedMap
variable {κ β : Type} [Ord κ] [Std.TransOrd κ] [Std.LawfulEqOrd κ]

theorem ofList_eq {l : List (κ × β)} (hl : l.Pairwise fun a b => compare a.1 b.1 = .lt) :
    ofList l = ⟨l, hl⟩ := ext_get? (get?_ofList hl)

end SortedMap

namespace Assignment
variable {κ α : Type} [Key κ]

section Zeros
variable [Scalar α]

theorem zeros?_eq_some {dims : SortedMap κ ℕ} {x : Assignment κ α}
    (h : zeros? dims.toList = some x) : x = dims.mapValues Vec.zeros := by
  have hlist (l : List (κ × ℕ)) {parts : List (κ × Vec α)}
      (hl : l.mapM (fun e => (Vec.zeros? e.2).map (e.1, ·)) = some parts) :
      parts = l.map fun e => (e.1, Vec.zeros e.2) := by
    induction l generalizing parts with
    | nil => simpa using hl.symm
    | cons e l ih =>
      simp only [List.mapM_cons, Option.bind_eq_bind, Option.bind_eq_some_iff,
        Option.map_eq_some_iff, Vec.zeros?_eq_some] at hl
      obtain ⟨_, ⟨_, ⟨_, rfl⟩, rfl⟩, rest, hrest, hl⟩ := hl
      rw [List.map_cons, ← ih hrest]
      exact (Option.some.inj hl).symm
  obtain ⟨parts, hparts, hx⟩ := Option.map_eq_some_iff.1 h
  cases hlist _ hparts
  exact hx.symm.trans (SortedMap.ofList_eq (dims.mapValues Vec.zeros).ascending)

theorem dim?_zeros {dims : SortedMap κ ℕ} {x : Assignment κ α}
    (h : zeros? dims.toList = some x) (k : κ) : x.dim? k = dims.get? k := by
  rw [zeros?_eq_some h, dim?, SortedMap.get?_mapValues]
  cases dims.get? k <;> simp

theorem exists_zeros? {dims : List (κ × ℕ)} (h : ∀ e ∈ dims, e.2 ≤ maxLength) :
    ∃ x : Assignment κ α, zeros? dims = some x := by
  have hlist : ∃ parts : List (κ × Vec α),
      dims.mapM (fun e => (Vec.zeros? e.2).map (e.1, ·)) = some parts := by
    induction dims with
    | nil => exact ⟨[], rfl⟩
    | cons e dims ih =>
      obtain ⟨he, hdims⟩ := List.forall_mem_cons.1 h
      obtain ⟨parts, hparts⟩ := ih hdims
      exact ⟨(e.1, Vec.zeros e.2) :: parts, by
        rw [List.mapM_cons, hparts, Vec.zeros?_eq_some.2 ⟨he, rfl⟩]; rfl⟩
  obtain ⟨parts, hparts⟩ := hlist
  exact ⟨_, Option.map_eq_some_iff.2 ⟨parts, hparts, rfl⟩⟩

end Zeros

/-- Replacing an entry replaces its part of the pairing. -/
theorem pairing_insert [ExactScalar α] {x : Assignment κ α} {k : κ} {v : Vec α}
    (h : x.get? k = some v) (w : Vec α) (p : Point κ α) :
    pairing (x.insert k w).toList p = pairing x.toList p -
      ∑ i ∈ range v.length, Vec.get v i * p k i + ∑ i ∈ range w.length, Vec.get w i * p k i := by
  rw [pairing, SortedMap.sum_insert, h]
  rfl

end Assignment

namespace Graph
variable {κ α : Type} [Key κ] [ExactScalar α]

def value (g : Graph κ α) (p : Point κ α) : α := (g.factors.map (·.value p)).sum

def slope (g : Graph κ α) (p d : Point κ α) : α := (g.factors.map (·.slope p d)).sum

def curvature (g : Graph κ α) (d : Point κ α) : α := (g.factors.map (·.curvature d)).sum

def coupling (g : Graph κ α) (d e : Point κ α) : α := (g.factors.map (·.coupling d e)).sum

def Symmetric (g : Graph κ α) : Prop := ∀ f, Factor.quadratic f ∈ g.factors → f.Symmetric

def PositiveSemidefinite (g : Graph κ α) : Prop := ∀ d, 0 ≤ g.curvature d

/-- The summed quadratic form is positive along every direction that moves a variable of
the graph. -/
def PositiveDefinite (g : Graph κ α) : Prop :=
  ∀ d : Point κ α, (∃ f ∈ g.factors, ∃ e ∈ f.keyDims, ∃ i < e.2, d e.1 i ≠ 0) → 0 < g.curvature d

theorem cost_eq_ok {g : Graph κ α} {x : Assignment κ α} {c : α} :
    g.cost x = .ok c ↔ (∀ f ∈ g.factors, f.Readable x) ∧ c = g.value x.entries := by
  have hfold (l : List (Factor κ α)) (total : α) :
      l.foldlM (fun total f => do return total + (← (f.cost x).mapCause .factor)) total =
        (.ok c : Result (GraphError α) α) ↔
      (∀ f ∈ l, f.Readable x) ∧ c = total + (l.map (·.value x.entries)).sum := by
    induction l generalizing total with
    | nil => simp [pure, Except.pure, eq_comm]
    | cons f l ih =>
      simp only [List.foldlM_cons, Result.bind_eq_ok, Result.mapCause_eq_ok, Factor.cost_eq_ok,
        Result.pure_eq_ok, ih, List.forall_mem_cons, List.map_cons, List.sum_cons]
      constructor
      · rintro ⟨_, ⟨_, ⟨hf, rfl⟩, rfl⟩, hl, rfl⟩
        exact ⟨⟨hf, hl⟩, add_assoc _ _ _⟩
      · rintro ⟨⟨hf, hl⟩, rfl⟩
        exact ⟨_, ⟨_, ⟨hf, rfl⟩, rfl⟩, hl, (add_assoc _ _ _).symm⟩
  rw [cost, hfold, zero_add, value]

theorem value_congr (g : Graph κ α) {p q : Point κ α}
    (h : ∀ f ∈ g.factors, ∀ k ∈ f.keys, p k = q k) : g.value p = g.value q :=
  congrArg List.sum (List.map_congr_left fun f hf => f.value_congr (h f hf))

theorem slope_congr (g : Graph κ α) {p q : Point κ α}
    (h : ∀ f ∈ g.factors, ∀ k ∈ f.keys, p k = q k) (d : Point κ α) :
    g.slope p d = g.slope q d :=
  congrArg List.sum (List.map_congr_left fun f hf => f.slope_congr (h f hf) d)

/-- Along a segment the cost is a quadratic polynomial. -/
theorem value_add_smul {g : Graph κ α} (hg : g.Symmetric) (p d : Point κ α) (t : α) :
    g.value (p + t • d) = g.value p + t * g.slope p d + t * t / 2 * g.curvature d := by
  have hfactor : g.factors.map (·.value (p + t • d)) = g.factors.map fun f =>
      f.value p + t * f.slope p d + t * t / 2 * f.curvature d :=
    List.map_congr_left fun f hf =>
      Factor.value_add_smul (fun c hc => hg c (hc ▸ hf)) p d t
  rw [value, hfactor, List.sum_map_add, List.sum_map_add, List.sum_map_mul_left,
    List.sum_map_mul_left]
  rfl

theorem value_eq_add_slope {g : Graph κ α} (hg : g.Symmetric) (p q : Point κ α) :
    g.value q = g.value p + g.slope p (q - p) + 1 / 2 * g.curvature (q - p) := by
  have h := value_add_smul hg p (q - p) 1
  rw [one_smul, add_sub_cancel] at h
  rw [h]
  ring

/-- A convex cost lies above its tangents. -/
theorem value_add_slope_le {g : Graph κ α} (hg : g.Symmetric) (hc : g.PositiveSemidefinite)
    (p q : Point κ α) : g.value p + g.slope p (q - p) ≤ g.value q := by
  have hnonneg := hc (q - p)
  rw [value_eq_add_slope hg p q]
  linarith

/-- On the way to a point that is no worse than the middle of the way, a cost falls at least as its
curvature tells. -/
theorem value_step_le {g : Graph κ α} (hg : g.Symmetric) {p q : Point κ α}
    (hmid : g.value q ≤ g.value (p + (1 / 2 : α) • (q - p))) (hc : 0 ≤ g.curvature (q - p)) {t : α}
    (h0 : 0 ≤ t) (h1 : t ≤ 1) :
    g.value (p + t • (q - p)) ≤ g.value p - t / 4 * g.curvature (q - p) := by
  rw [value_add_smul hg, value_eq_add_slope hg p q] at hmid
  have hslope : g.slope p (q - p) ≤ -(3 / 4) * g.curvature (q - p) := by linarith
  have hlinear := mul_le_mul_of_nonneg_left hslope h0
  have hsquare := mul_nonneg (mul_nonneg h0 (sub_nonneg.2 h1)) hc
  rw [value_add_smul hg]
  linarith

theorem coupling_self (g : Graph κ α) (d : Point κ α) : g.coupling d d = g.curvature d :=
  congrArg List.sum (List.map_congr_left fun f _ => f.coupling_self d)

/-- The slopes at two points differ by what couples the way between them to the direction. -/
theorem slope_sub (g : Graph κ α) (p q e : Point κ α) :
    g.slope q e - g.slope p e = g.coupling (q - p) e := by
  have hfactor : g.factors.map (·.slope q e) =
      g.factors.map fun f => f.slope p e + f.coupling (q - p) e := by
    apply List.map_congr_left
    intro f _
    have h := f.slope_add_smul p (q - p) e 1
    rwa [one_smul, add_sub_cancel, one_mul] at h
  rw [slope, hfactor, List.sum_map_add, slope, coupling, add_sub_cancel_left]

theorem coupling_add_smul (g : Graph κ α) (d e u : Point κ α) (t : α) :
    g.coupling d (e + t • u) = g.coupling d e + t * g.coupling d u := by
  have hfactor : g.factors.map (·.coupling d (e + t • u)) =
      g.factors.map fun f => f.coupling d e + t * f.coupling d u :=
    List.map_congr_left fun f _ => f.coupling_add_smul d e u t
  rw [coupling, hfactor, List.sum_map_add, List.sum_map_mul_left]
  rfl

theorem coupling_comm {g : Graph κ α} (hg : g.Symmetric) (d e : Point κ α) :
    g.coupling d e = g.coupling e d :=
  congrArg List.sum (List.map_congr_left fun _ hf =>
    Factor.coupling_comm (fun c hc => hg c (hc ▸ hf)) d e)

theorem curvature_add_smul {g : Graph κ α} (hg : g.Symmetric) (d e : Point κ α) (t : α) :
    g.curvature (d + t • e) =
      g.curvature d + 2 * t * g.coupling d e + t * t * g.curvature e := by
  rw [← coupling_self, coupling_add_smul, coupling_comm hg _ d, coupling_comm hg _ e,
    coupling_add_smul, coupling_add_smul, coupling_self, coupling_self, coupling_comm hg e d]
  ring

/-- Where a convex cost is flat along a direction, that direction changes no slope. -/
theorem PositiveSemidefinite.coupling_eq_zero {g : Graph κ α} (hg : g.Symmetric)
    (hc : g.PositiveSemidefinite) {d : Point κ α} (hd : g.curvature d = 0) (e : Point κ α) :
    g.coupling d e = 0 := by
  by_contra hne
  set t := -(g.curvature e + 1) / (2 * g.coupling d e) with ht
  have hcancel : 2 * t * g.coupling d e = -(g.curvature e + 1) := by
    rw [ht]
    field_simp
  have hnonneg := hc (e + t • d)
  rw [curvature_add_smul hg, hd, coupling_comm hg e d, hcancel] at hnonneg
  linarith

/-- A positive definite cost is flat only along directions that move nothing. -/
theorem PositiveDefinite.positiveSemidefinite {g : Graph κ α} (h : g.PositiveDefinite) :
    g.PositiveSemidefinite := by
  intro d
  by_cases hd : ∃ f ∈ g.factors, ∃ e ∈ f.keyDims, ∃ i < e.2, d e.1 i ≠ 0
  · exact (h d hd).le
  · push Not at hd
    refine (List.sum_eq_zero fun a ha => ?_).ge
    obtain ⟨f, hf, rfl⟩ := List.mem_map.1 ha
    exact Factor.curvature_eq_zero (hd f hf)

section Gradient

omit [ExactScalar α] in
/-- What is added to an entry leaves the entry as long as it is. -/
theorem sameShape_accumulate [Scalar α] {total next : Assignment κ α} {part : κ × Vec α}
    (h : accumulate total part = .ok next) : total.SameShape next := by
  intro k
  unfold accumulate at h
  cases hv : total.get? part.1 with
  | none => simp [hv, Result.fail] at h
  | some v =>
    simp only [hv] at h
    split_ifs at h with hlen
    cases h
    by_cases hk : k = part.1
    · subst hk
      rw [Assignment.dim?, Assignment.dim?, SortedMap.get?_insert_self, hv]
      simp [hlen]
    · rw [Assignment.dim?, Assignment.dim?, SortedMap.get?_insert_of_ne hk]

omit [ExactScalar α] in
/-- The computed gradient has the dimensions of the variables. -/
theorem dim?_gradient [Scalar α] {g : Graph κ α} {x grad : Assignment κ α}
    (h : g.gradient x = .ok grad) :
    ∃ dims, g.keyDimensions = .ok dims ∧ ∀ k, grad.dim? k = dims.get? k := by
  obtain ⟨dims, hdims, h⟩ := Result.bind_eq_ok.1 h
  rw [dimensions, Result.mapCause_eq_ok, Result.ofExcept_eq_ok] at hdims
  obtain ⟨start, hstart, h⟩ := Result.bind_eq_ok.1 h
  have hshape : start.SameShape grad := by
    refine Result.foldlM_keeps start.SameShape (fun total next f _ hs hstep => ?_) (.refl start) h
    obtain ⟨parts, -, hstep⟩ := Result.bind_eq_ok.1 hstep
    exact Result.foldlM_keeps start.SameShape
      (fun total next part _ hs hok => hs.trans (sameShape_accumulate hok)) hs hstep
  refine ⟨dims, hdims, fun k => ?_⟩
  rw [← hshape k, Assignment.dim?_zeros (Result.inRange_eq_ok.1 hstart)]

private theorem pairing_accumulate {total next : Assignment κ α} {part : κ × Vec α}
    (h : accumulate total part = .ok next) (d : Point κ α) :
    pairing next.toList d = pairing total.toList d + pairing [part] d := by
  obtain ⟨k, u⟩ := part
  unfold accumulate at h
  cases hv : total.get? k with
  | none => simp [hv, Result.fail] at h
  | some v =>
    simp only [hv] at h
    split_ifs at h with hlen
    cases h
    have hadd : ∑ i ∈ range (Vec.add v u).length, Vec.get (Vec.add v u) i * d k i =
        ∑ i ∈ range v.length, Vec.get v i * d k i + ∑ i ∈ range u.length, Vec.get u i * d k i := by
      rw [Vec.length_add, ← hlen, min_self, ← Finset.sum_add_distrib]
      apply Finset.sum_congr rfl
      intro i hi
      have hi := Finset.mem_range.1 hi
      rw [Vec.get_add hi (hlen ▸ hi), add_mul]
    rw [Assignment.pairing_insert hv, hadd, pairing_cons, pairing_nil]
    ring

private theorem pairing_accumulate_all {parts : List (κ × Vec α)} {total next : Assignment κ α}
    (h : parts.foldlM accumulate total = .ok next) (d : Point κ α) :
    pairing next.toList d = pairing total.toList d + pairing parts d := by
  induction parts generalizing total with
  | nil =>
    cases Result.pure_eq_ok.1 h
    rw [pairing_nil, add_zero]
  | cons part parts ih =>
    rw [List.foldlM_cons, Result.bind_eq_ok] at h
    obtain ⟨mid, hmid, h⟩ := h
    obtain ⟨k, u⟩ := part
    rw [ih h, pairing_accumulate hmid d, pairing_cons, pairing_cons, pairing_nil]
    ring

/-- The computed gradient has the dimensions of the variables and pairs with a direction to the
slope along it. -/
theorem gradient_spec {g : Graph κ α} {x grad : Assignment κ α} (h : g.gradient x = .ok grad) :
    (∃ dims, g.keyDimensions = .ok dims ∧ ∀ k, grad.dim? k = dims.get? k) ∧
      ∀ d, pairing grad.toList d = g.slope x.entries d := by
  refine ⟨dim?_gradient h, fun d => ?_⟩
  obtain ⟨dims, -, h⟩ := Result.bind_eq_ok.1 h
  obtain ⟨start, hstart, h⟩ := Result.bind_eq_ok.1 h
  have hfold (l : List (Factor κ α)) (total : Assignment κ α)
      (hl : l.foldlM (fun total f => do
        let parts ← (f.gradient x).mapCause .factor
        parts.foldlM accumulate total) total = (.ok grad : Result (GraphError α) _)) :
      pairing grad.toList d =
        pairing total.toList d + (l.map (·.slope x.entries d)).sum := by
    induction l generalizing total with
    | nil =>
      cases Result.pure_eq_ok.1 hl
      simp
    | cons f l ih =>
      rw [List.foldlM_cons, Result.bind_eq_ok] at hl
      obtain ⟨mid, hmid, hl⟩ := hl
      obtain ⟨parts, hparts, hmid⟩ := Result.bind_eq_ok.1 hmid
      rw [Result.mapCause_eq_ok] at hparts
      rw [ih mid hl, pairing_accumulate_all hmid d, Factor.pairing_gradient hparts, List.map_cons,
        List.sum_cons, add_assoc]
  cases Assignment.zeros?_eq_some (Result.inRange_eq_ok.1 hstart)
  rw [hfold _ _ h, pairing_zeros, zero_add, slope]
  intro e he i
  obtain ⟨_, _, rfl⟩ := List.mem_map.1 he
  exact Vec.get_zeros _ i

omit [ExactScalar α] in
/-- Parts that have the dimensions of the entries are added to them. -/
theorem exists_accumulate [Scalar α] {parts : List (κ × Vec α)} {total : Assignment κ α}
    (h : ∀ e ∈ parts, total.dim? e.1 = some e.2.length) :
    ∃ next, parts.foldlM accumulate total = .ok next ∧ total.SameShape next := by
  have hstep (mid : Assignment κ α) (e : κ × Vec α) (he : e ∈ parts) (hs : total.SameShape mid) :
      ∃ next, accumulate mid e = .ok next ∧ total.SameShape next := by
    obtain ⟨v, hv, hlen⟩ := Assignment.dim?_eq_some.1 ((hs e.1).symm.trans (h e he))
    have hok : accumulate mid e = .ok (mid.insert e.1 (Vec.add v e.2)) := by
      rw [accumulate, hv]
      exact if_pos hlen
    exact ⟨_, hok, hs.trans (sameShape_accumulate hok)⟩
  obtain ⟨next, hnext⟩ := Result.exists_foldlM total.SameShape hstep (.refl total)
  exact ⟨next, hnext, Result.foldlM_keeps total.SameShape
    (fun mid next e _ hs hok => hs.trans (sameShape_accumulate hok)) (.refl total) hnext⟩

/-- Where the gradient is computed, every cost has what it reads. -/
theorem readable_of_gradient {g : Graph κ α} {x grad : Assignment κ α}
    (h : g.gradient x = .ok grad) : ∀ f ∈ g.factors, f.Readable x := by
  intro f hf
  obtain ⟨dims, -, h⟩ := Result.bind_eq_ok.1 h
  obtain ⟨start, -, h⟩ := Result.bind_eq_ok.1 h
  obtain ⟨_, _, h⟩ := Result.exists_of_foldlM h hf
  obtain ⟨parts, hparts, -⟩ := Result.bind_eq_ok.1 h
  exact Factor.readable_of_gradient (Result.mapCause_eq_ok.1 hparts)

end Gradient

end Graph

end GaussianProgram
