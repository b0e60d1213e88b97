import GaussianProgram.Proofs.Constraints
import GaussianProgram.Graph.Layout

/-! Layouts. Dimensions whose sum is a 64-bit word give every key a segment of its own, and a
stack of all variables has their entries in these segments. -/
namespace GaussianProgram
open Finset (range)

section Stack
variable {κ α : Type}

theorem stackOf_append (xs ys : List (κ × ℕ)) (p : Point κ α) :
    stackOf (xs ++ ys) p = stackOf xs p ++ stackOf ys p := by
  induction xs with
  | nil => rfl
  | cons e xs ih => rw [List.cons_append, stackOf, ih, stackOf, List.append_assoc]

theorem sumDims_split (pre post : List (κ × ℕ)) (k : κ) (n : ℕ) :
    sumDims ((pre ++ (k, n) :: post).map (·.2)) =
      sumDims (pre.map (·.2)) + (n + sumDims (post.map (·.2))) := by
  rw [List.map_append, sumDims_append, List.map_cons, sumDims_cons]

theorem sumDims_eq_sum (dims : List ℕ) : sumDims dims = dims.sum := by
  induction dims with
  | nil => rfl
  | cons d dims ih => rw [sumDims_cons, List.sum_cons, ih]

/-- A stack whose variables are among those of another is no longer. -/
theorem sumDims_le_of_subset {xs ys : List (κ × ℕ)} (hn : xs.Nodup) (h : xs ⊆ ys) :
    sumDims (xs.map (·.2)) ≤ sumDims (ys.map (·.2)) := by
  obtain ⟨l, hperm, hsub⟩ := List.subperm_of_subset hn h
  have hle := (hsub.map Prod.snd).sum_le_sum fun _ _ => Nat.zero_le _
  rwa [(hperm.map Prod.snd).sum_eq, ← sumDims_eq_sum, ← sumDims_eq_sum] at hle

/-- A stack of variables that an assignment has is no longer than the assignment. -/
theorem Assignment.HasDims.sumDims_le [Key κ] {x : Assignment κ α} {dims : List (κ × ℕ)}
    (hx : x.HasDims dims) (hn : dims.Nodup) : sumDims (dims.map (·.2)) ≤ x.totalDimension := by
  have hsubset : dims ⊆ x.toList.map fun e => (e.1, e.2.length) := fun e he => by
    obtain ⟨v, hv, hlen⟩ := Assignment.dim?_eq_some.1 (hx e he)
    exact List.mem_map.2 ⟨(e.1, v), SortedMap.get?_eq_some_iff.1 hv, Prod.ext rfl hlen⟩
  have hle := sumDims_le_of_subset hn hsubset
  rw [List.map_map] at hle
  rwa [totalDimension, SortedMap.values, List.map_map]

variable [ExactScalar α]

/-- A segment of a stack has the entries of its variable. -/
theorem get_stackOf_split (pre post : List (κ × ℕ)) (k : κ) {n j : ℕ} (hj : j < n)
    (p : Point κ α) : Vec.get (stackOf (pre ++ (k, n) :: post) p) (sumDims (pre.map (·.2)) + j) =
      p k j := by
  rw [stackOf_append, get_append, length_stackOf, if_neg (by omega), Nat.add_sub_cancel_left,
    get_stackOf_cons, if_pos hj]

/-- The product of two stacks goes variable by variable. -/
theorem sum_stackOf (dims : List (κ × ℕ)) (p q : Point κ α) :
    ∑ c ∈ range (sumDims (dims.map (·.2))),
        Vec.get (stackOf dims p) c * Vec.get (stackOf dims q) c =
      (dims.map fun e => ∑ j ∈ range e.2, p e.1 j * q e.1 j).sum := by
  induction dims with
  | nil => rfl
  | cons e dims ih =>
    obtain ⟨k, d⟩ := e
    rw [List.map_cons, sumDims_cons, Finset.sum_range_add, List.map_cons, List.sum_cons, ← ih]
    refine congrArg₂ _ (Finset.sum_congr rfl fun j hj => ?_) (Finset.sum_congr rfl fun c _ => ?_)
    · simp only [get_stackOf_cons, if_pos (Finset.mem_range.1 hj)]
    · simp only [get_stackOf_cons, if_neg (Nat.not_lt.2 (Nat.le_add_right d c)),
        Nat.add_sub_cancel_left]

end Stack

/-- The first segment begins at `start`, every other one where that before it ends, and the last
one ends at `stop`. -/
def Consecutive (start stop : ℕ) : List Segment → Prop
  | [] => start = stop
  | s :: l => s.offset = start ∧ Consecutive (start + s.dim) stop l

namespace Consecutive
variable {start stop : ℕ} {l : List Segment}

theorem sum (h : Consecutive start stop l) : start + sumDims (l.map (·.dim)) = stop := by
  induction l generalizing start with
  | nil => exact h
  | cons s l ih =>
    rw [List.map_cons, sumDims_cons, ← Nat.add_assoc]
    exact ih h.2

theorem within (h : Consecutive start stop l) {s : Segment} (hs : s ∈ l) :
    start ≤ s.offset ∧ s.offset + s.dim ≤ stop := by
  induction l generalizing start with
  | nil => cases hs
  | cons t l ih =>
    obtain ⟨rfl, hrest⟩ := h
    rcases List.mem_cons.1 hs with rfl | hs
    · have hsum := hrest.sum
      omega
    · have hlater := ih hrest hs
      omega

/-- What consecutive segments cut out of a vector has their dimensions and makes up the
vector again. -/
theorem exists_slices {κ α : Type} {l : List (κ × Segment)}
    (h : Consecutive start stop (l.map (·.2))) {v : Vec α} (hv : v.length = stop) :
    ∃ parts : List (κ × Vec α),
      l.mapM (fun e => (Vec.slice v e.2.offset e.2.dim).map (e.1, ·)) = some parts ∧
      parts.map (fun e => (e.1, e.2.length)) = l.map (fun e => (e.1, e.2.dim)) ∧
      (parts.map (·.2)).flatten = v.drop start := by
  induction l generalizing start with
  | nil =>
    have hend : v.length ≤ start := (hv.trans h.symm).le
    exact ⟨[], rfl, rfl, (List.drop_eq_nil_of_le hend).symm⟩
  | cons e l ih =>
    obtain ⟨k, offset, dim⟩ := e
    have hfit : offset + dim ≤ v.length := hv ▸ (h.within List.mem_cons_self).2
    obtain ⟨rfl, hrest⟩ := h
    obtain ⟨parts, hparts, hdims, hflatten⟩ := ih hrest
    have hslice : Vec.slice v offset dim = some ((v.drop offset).take dim) := if_pos hfit
    have hlength : ((v.drop offset).take dim).length = dim := Vec.length_of_slice hslice
    refine ⟨(k, (v.drop offset).take dim) :: parts, ?_, ?_, ?_⟩
    · simp [List.mapM_cons, hslice, hparts]
    · rw [List.map_cons, List.map_cons, hdims, hlength]
    · rw [List.map_cons, List.flatten_cons, hflatten, ← List.drop_drop, List.take_append_drop]

end Consecutive

namespace Layout
variable {κ : Type} [Key κ]

/-- While nothing wraps around, a key's segment begins where the dimensions before it end. -/
private theorem lookup_segmentsFrom (dims : List (κ × ℕ)) (start : ℕ)
    (h : start + sumDims (dims.map (·.2)) < UInt64.size) {k : κ} {n : ℕ}
    (hk : SortedMap.lookup k dims = some n) : ∃ pre post, dims = pre ++ (k, n) :: post ∧
      SortedMap.lookup k (segmentsFrom start dims) =
        some ⟨start + sumDims (pre.map (·.2)), n⟩ := by
  induction dims generalizing start with
  | nil => cases hk
  | cons e dims ih =>
    obtain ⟨a, d⟩ := e
    rw [List.map_cons, sumDims_cons] at h
    by_cases ha : k = a
    · subst ha
      rw [SortedMap.lookup_cons_self] at hk
      cases hk
      exact ⟨[], dims, rfl, SortedMap.lookup_cons_self _ _ _⟩
    · rw [SortedMap.lookup_cons_of_ne ha] at hk
      have hmod : (start + d) % UInt64.size = start + d := Nat.mod_eq_of_lt (by omega)
      obtain ⟨pre, post, rfl, hlook⟩ := ih (start + d) (by omega) hk
      refine ⟨(a, d) :: pre, post, rfl, ?_⟩
      rw [segmentsFrom, SortedMap.lookup_cons_of_ne ha, hmod, hlook, List.map_cons, sumDims_cons,
        Nat.add_assoc]

variable {dims : SortedMap κ ℕ}

/-- Every key of the dimensions has a segment, and the others come before or after it. -/
theorem exists_segment (h : sumDims dims.values < UInt64.size) {k : κ} {n : ℕ}
    (hk : dims.get? k = some n) : ∃ pre post, dims.toList = pre ++ (k, n) :: post ∧
      k ∉ pre.map (·.1) ∧ k ∉ post.map (·.1) ∧
        (ofDimensions dims).segments.get? k = some ⟨sumDims (pre.map (·.2)), n⟩ := by
  obtain ⟨pre, post, hsplit, hlook⟩ :=
    lookup_segmentsFrom dims.toList 0 (by rwa [Nat.zero_add]) hk
  have hnodup : (dims.toList.map (·.1)).Nodup := dims.nodup_keys
  rw [hsplit, List.map_append, List.map_cons, List.nodup_middle, List.nodup_cons] at hnodup
  rw [Nat.zero_add] at hlook
  exact ⟨pre, post, hsplit, fun hmem => hnodup.1 (List.mem_append_left _ hmem),
    fun hmem => hnodup.1 (List.mem_append_right _ hmem), hlook⟩

theorem total_ofDimensions (h : sumDims dims.values < UInt64.size) :
    (ofDimensions dims).total = sumDims dims.values := Nat.mod_eq_of_lt h

omit [Key κ] in
/-- While nothing wraps around, the segments are consecutive. -/
private theorem consecutive_segmentsFrom {dims : List (κ × ℕ)} {start : ℕ}
    (h : start + sumDims (dims.map (·.2)) < UInt64.size) :
    Consecutive start (start + sumDims (dims.map (·.2))) ((segmentsFrom start dims).map (·.2)) := by
  induction dims generalizing start with
  | nil => rfl
  | cons e dims ih =>
    obtain ⟨k, d⟩ := e
    rw [List.map_cons, sumDims_cons, ← Nat.add_assoc] at h ⊢
    have hmod : (start + d) % UInt64.size = start + d := Nat.mod_eq_of_lt (by omega)
    rw [segmentsFrom, hmod]
    exact ⟨rfl, ih h⟩

/-- Segments that do not wrap around are consecutive up to the end of the stacked vector. -/
theorem consecutive_ofDimensions (h : sumDims dims.values < UInt64.size) :
    Consecutive 0 (ofDimensions dims).total (ofDimensions dims).segments.values := by
  rw [total_ofDimensions h, ← Nat.zero_add (sumDims dims.values)]
  exact consecutive_segmentsFrom (by rwa [Nat.zero_add])

theorem total_lt (dims : SortedMap κ ℕ) : (ofDimensions dims).total < UInt64.size :=
  Nat.mod_lt _ (by decide)

/-- The segments have the dimensions, also where they wrap around. -/
theorem dim_segment (dims : SortedMap κ ℕ) (k : κ) :
    ((ofDimensions dims).segments.get? k).map (·.dim) = dims.get? k := by
  have hlist (l : List (κ × ℕ)) (start : ℕ) :
      (SortedMap.lookup k (segmentsFrom start l)).map (·.dim) = SortedMap.lookup k l := by
    induction l generalizing start with
    | nil => rfl
    | cons e l ih =>
      obtain ⟨a, d⟩ := e
      by_cases ha : k = a
      · subst ha
        rw [segmentsFrom, SortedMap.lookup_cons_self, SortedMap.lookup_cons_self]
        rfl
      · rw [segmentsFrom, SortedMap.lookup_cons_of_ne ha, SortedMap.lookup_cons_of_ne ha, ih]
  exact hlist dims.toList 0

/-- The key has a segment of the dimension, which ends inside the stacked vector. -/
def Places (layout : Layout κ) (k : κ) (n : ℕ) : Prop :=
  ∃ offset, layout.segments.get? k = some ⟨offset, n⟩ ∧ offset + n ≤ layout.total

theorem places_ofDimensions (h : sumDims dims.values < UInt64.size) {k : κ} {n : ℕ}
    (hk : dims.get? k = some n) : (ofDimensions dims).Places k n := by
  obtain ⟨pre, post, hsplit, -, -, hsegment⟩ := exists_segment h hk
  refine ⟨_, hsegment, ?_⟩
  have hsum := sumDims_split pre post k n
  rw [← hsplit] at hsum
  rw [total_ofDimensions h, SortedMap.values, hsum]
  omega

section Reads
variable {α : Type} [ExactScalar α]

/-- A function of the places of a stacked vector has the entries of a point in all segments. -/
def Reads (layout : Layout κ) (u : ℕ → α) (p : Point κ α) : Prop :=
  ∀ k s, layout.segments.get? k = some s → ∀ j < s.dim, u (s.offset + j) = p k j

omit [ExactScalar α] in
theorem exists_reads (layout : Layout κ) (u : ℕ → α) : ∃ p, layout.Reads u p := by
  refine ⟨fun k j => u (((layout.segments.get? k).map (·.offset)).getD 0 + j), fun k s hk j _ => ?_⟩
  simp only [hk, Option.map_some, Option.getD_some]

theorem reads_stackOf (h : sumDims dims.values < UInt64.size) (p : Point κ α) :
    (ofDimensions dims).Reads (Vec.get (stackOf dims.toList p)) p := by
  rintro k ⟨offset, n⟩ hk j hj
  have hdim := dim_segment dims k
  rw [hk, Option.map_some] at hdim
  obtain ⟨pre, post, hsplit, -, -, hsegment⟩ := exists_segment h hdim.symm
  cases hk.symm.trans hsegment
  rw [hsplit, get_stackOf_split pre post k hj]

omit [ExactScalar α] in
/-- What lies after the stacked vector is not read. -/
theorem reads_congr (h : sumDims dims.values < UInt64.size) {u u' : ℕ → α} {p : Point κ α}
    (hu : (ofDimensions dims).Reads u p) (huu' : ∀ i < (ofDimensions dims).total, u i = u' i) :
    (ofDimensions dims).Reads u' p := by
  rintro k ⟨offset, n⟩ hk j hj
  have hdim := dim_segment dims k
  rw [hk, Option.map_some] at hdim
  obtain ⟨_, hsegment, hfit⟩ := places_ofDimensions h hdim.symm
  cases hk.symm.trans hsegment
  rw [← hu k _ hk j hj]
  exact (huu' _ ((Nat.add_lt_add_left hj _).trans_le hfit)).symm

/-- What reads a point is, up to the end of the stacked vector, the stack of its variables. -/
theorem Reads.eq_stackOf (h : sumDims dims.values < UInt64.size) {u : ℕ → α} {p : Point κ α}
    (hu : (ofDimensions dims).Reads u p) {j : ℕ} (hj : j < (ofDimensions dims).total) :
    u j = Vec.get (stackOf dims.toList p) j := by
  have hlist (l : List (κ × ℕ)) (start j : ℕ) (hstart : start + sumDims (l.map (·.2)) < UInt64.size)
      (hl : ∀ e ∈ segmentsFrom start l, ∀ j < e.2.dim, u (e.2.offset + j) = p e.1 j)
      (hj : j < sumDims (l.map (·.2))) : u (start + j) = Vec.get (stackOf l p) j := by
    induction l generalizing start j with
    | nil => exact absurd hj (Nat.not_lt_zero j)
    | cons e l ih =>
      obtain ⟨k, d⟩ := e
      rw [List.map_cons, sumDims_cons] at hstart hj
      obtain ⟨hhead, hrest⟩ := List.forall_mem_cons.1 hl
      rw [Nat.mod_eq_of_lt (by omega : start + d < UInt64.size)] at hrest
      rw [get_stackOf_cons]
      split_ifs with hd
      · exact hhead j hd
      · rw [← ih (start + d) (j - d) (by omega) hrest (by omega)]
        congr 1
        omega
  rw [total_ofDimensions h] at hj
  have hread := hlist dims.toList 0 j (by rwa [Nat.zero_add]) (fun e he =>
    hu e.1 e.2 (SortedMap.get?_eq_some_iff.2 he)) hj
  rwa [Nat.zero_add] at hread

/-- A vector as long as the stack can be cut into the parts of its variables. -/
theorem exists_split? (h : sumDims dims.values < UInt64.size) {v : Vec α}
    (hv : v.length = (ofDimensions dims).total) :
    ∃ parts, (ofDimensions dims).split? v = some parts := by
  obtain ⟨parts, hparts, -⟩ := (consecutive_ofDimensions h).exists_slices hv
  exact ⟨parts, hparts⟩

private def Sliced (v : Vec α) : List (κ × Segment) → List (κ × Vec α) → Prop :=
  List.Forall₂ fun e part => part.1 = e.1 ∧ Vec.slice v e.2.offset e.2.dim = some part.2

omit [Key κ] [ExactScalar α] in
private theorem sliced_of_mapM {v : Vec α} {l : List (κ × Segment)} {parts : List (κ × Vec α)}
    (h : l.mapM (fun (k, s) => (Vec.slice v s.offset s.dim).map (k, ·)) = some parts) :
    Sliced v l parts := by
  induction l generalizing parts with
  | nil =>
    cases h
    exact .nil
  | cons e l ih =>
    simp only [List.mapM_cons, Option.bind_eq_bind, Option.bind_eq_some_iff,
      Option.map_eq_some_iff] at h
    obtain ⟨_, ⟨w, hw, rfl⟩, rest, hrest, h⟩ := h
    cases h
    exact .cons ⟨rfl, hw⟩ (ih hrest)

omit [ExactScalar α] in
/-- Segments that all end inside a vector no longer than the word of their sum do not
wrap around. -/
theorem sumDims_lt_of_split? [Scalar α] {v : Vec α} {parts : List (κ × Vec α)}
    (h : (ofDimensions dims).split? v = some parts) (hv : v.length ≤ (ofDimensions dims).total) :
    sumDims dims.values < UInt64.size := by
  have hlist (l : List (κ × ℕ)) (start : ℕ) (parts : List (κ × Vec α)) (hstart : start ≤ v.length)
      (hl : Sliced v (segmentsFrom start l) parts) : start + sumDims (l.map (·.2)) ≤
        v.length := by
    induction l generalizing start parts with
    | nil => simpa using hstart
    | cons e l ih =>
      obtain ⟨k, d⟩ := e
      cases hl with
      | cons hfirst hl =>
        have hfit := Vec.slice_isSome.1 (Option.isSome_of_eq_some hfirst.2)
        rw [Nat.mod_eq_of_lt (hfit.trans_lt (hv.trans_lt (total_lt dims)))] at hl
        rw [List.map_cons, sumDims_cons, ← Nat.add_assoc]
        exact ih _ _ hfit hl
  have hfit := hlist dims.toList 0 parts (Nat.zero_le _) (sliced_of_mapM h)
  rw [Nat.zero_add] at hfit
  exact hfit.trans_lt (hv.trans_lt (total_lt dims))

omit [ExactScalar α] in
/-- Every key of the segments has its part, which is cut out of the vector. -/
theorem get?_of_split? [Scalar α] {v : Vec α} {parts : List (κ × Vec α)}
    (h : (ofDimensions dims).split? v = some parts) (k : κ) :
    ((ofDimensions dims).segments.get? k = none ∧ (SortedMap.ofList parts).get? k = none) ∨
      ∃ s part, (ofDimensions dims).segments.get? k = some s ∧
        (SortedMap.ofList parts).get? k = some part ∧ Vec.slice v s.offset s.dim = some part :=
  SortedMap.get?_ofList_of_forall₂
    (R := fun _ (s : Segment) part => Vec.slice v s.offset s.dim = some part) (sliced_of_mapM h)

/-- The parts of a stacked vector have the dimensions and are read from it. -/
theorem split?_spec {v : Vec α} {parts : List (κ × Vec α)}
    (h : (ofDimensions dims).split? v = some parts) :
    (∀ k, Assignment.dim? (SortedMap.ofList parts) k = dims.get? k) ∧
      (ofDimensions dims).Reads (Vec.get v) (Assignment.entries (SortedMap.ofList parts)) := by
  constructor
  · intro k
    rw [Assignment.dim?, ← dim_segment dims k]
    rcases get?_of_split? h k with ⟨hnone, hpart⟩ | ⟨s, u, hs, hpart, hu⟩
    · rw [hnone, hpart, Option.map_none, Option.map_none]
    · rw [hs, hpart, Option.map_some, Option.map_some, Vec.length_of_slice hu]
  · intro k s hs j hj
    rcases get?_of_split? h k with ⟨hnone, -⟩ | ⟨_, u, hs', hpart, hu⟩
    · cases hnone.symm.trans hs
    · cases hs'.symm.trans hs
      rw [Assignment.entries_eq hpart, Vec.get_of_slice hu hj]

end Reads

end Layout

end GaussianProgram
