import GaussianProgram.Proofs.Offsets
import GaussianProgram.Proofs.Table

/-! Blocks of a quadratic cost. The parts of the variables cut its matrix into blocks that cover
every entry once, and its value and its gradient are sums over these blocks. A cost on two variables
has the blocks that it was made of. -/
namespace GaussianProgram
open Finset (range)

/-- Every index of a stack belongs to one part, at one place. -/
theorem existsUnique_part {κ : Type} {l : List (κ × ℕ)} {r : ℕ} (h : r < sumDims (l.map (·.2))) :
    ∃! p : Fin l.length × ℕ, p.2 < l[p.1.1].2 ∧ sumDims ((l.map (·.2)).take p.1) + p.2 = r := by
  induction l generalizing r with
  | nil => exact absurd h (Nat.not_lt_zero r)
  | cons e l ih =>
    obtain ⟨k, d⟩ := e
    rw [List.map_cons, sumDims_cons] at h
    by_cases hr : r < d
    · refine ⟨(0, r), ⟨hr, Nat.zero_add r⟩, ?_⟩
      rintro ⟨⟨i, hi⟩, a⟩ ⟨-, hsum⟩
      cases i with
      | zero => simpa using hsum
      | succ i =>
        rw [List.map_cons, List.take_succ_cons, sumDims_cons] at hsum
        omega
    · obtain ⟨⟨i, a⟩, ⟨ha, hsum⟩, hunique⟩ := ih (r := r - d) (by omega)
      refine ⟨(i.succ, a), ⟨ha, ?_⟩, ?_⟩
      · rw [Fin.val_succ, List.map_cons, List.take_succ_cons, sumDims_cons]
        dsimp only at hsum
        omega
      · rintro ⟨⟨i', hi'⟩, a'⟩ ⟨ha', hsum'⟩
        cases i' with
        | zero =>
          have hlt : a' < d := ha'
          simp at hsum'
          omega
        | succ i' =>
          rw [List.map_cons, List.take_succ_cons, sumDims_cons] at hsum'
          have hi : i' < l.length := Nat.lt_of_succ_lt_succ hi'
          have heq := hunique (⟨i', hi⟩, a') ⟨ha', by dsimp only; omega⟩
          rw [Prod.mk.injEq] at heq
          obtain ⟨rfl, rfl⟩ := heq
          rfl

namespace Matrix
variable {α : Type} [Scalar α]

/-- Equal shapes and entries at every place make equal matrices. -/
theorem ext_get {m n : Matrix α} (hr : m.rows = n.rows) (hc : m.cols = n.cols)
    (h : ∀ i < m.rows, ∀ j < m.cols, m.get i j = n.get i j) : m = n := by
  refine ext_entries hr hc (Array.ext ?_ fun k hm hn => ?_)
  · rw [m.size_eq, n.size_eq, hr, hc]
  · rw [m.size_eq] at hm
    have hcols : 0 < m.cols := Nat.pos_of_ne_zero fun h0 => by simp [h0] at hm
    have hplace : k / m.cols * m.cols + k % m.cols = k := Nat.div_add_mod' k m.cols
    have hget := h (k / m.cols) (Nat.div_lt_of_lt_mul (Nat.mul_comm _ _ ▸ hm)) (k % m.cols)
      (Nat.mod_lt k hcols)
    rw [get, get, if_pos (Nat.mod_lt k hcols), if_pos (hc ▸ Nat.mod_lt k hcols), hplace, ← hc,
      hplace] at hget
    simpa [Array.getD, hn, m.size_eq, hm] using hget

/-- A part that has the entries of a matrix is this matrix. -/
theorem block?_eq_some {m b : Matrix α} {row col height width : ℕ} (hr : b.rows = height)
    (hc : b.cols = width) (hrows : row + height ≤ m.rows) (hcols : col + width ≤ m.cols)
    (h : ∀ i < height, ∀ j < width, m.get (row + i) (col + j) = b.get i j) :
    m.block? row col height width = some b := by
  rw [block?, if_pos ⟨hrows, hcols⟩, Option.some.injEq]
  refine ext_get hr.symm hc.symm fun i (hi : i < height) j (hj : j < width) => ?_
  rw [get_ofFn _ hi hj, h i hi j hj]

end Matrix

/-- A part that lies inside has the entries from its offset on. -/
theorem Vec.slice_eq_map {α : Type} [ExactScalar α] {v : Vec α} {offset n : ℕ}
    (h : offset + n ≤ v.length) :
    Vec.slice v offset n = some ((List.range n).map fun a => Vec.get v (offset + a)) := by
  obtain ⟨w, hw⟩ := Option.isSome_iff_exists.1 (Vec.slice_isSome.2 h)
  have hlen := Vec.length_of_slice hw
  rw [hw, Option.some.injEq]
  refine Vec.ext_get (by simp [hlen]) fun a ha => ?_
  rw [Vec.get_map_range _ (hlen ▸ ha), Vec.get_of_slice hw (hlen ▸ ha)]

namespace QuadraticCost
variable {κ α : Type} [Key κ]

/-- Blocks and linear terms, one for every pair of positions and for every position. -/
structure HasBlocks [Scalar α] (f : QuadraticCost κ α)
    (B : Fin f.keyDims.length → Fin f.keyDims.length → Matrix α)
    (g : Fin f.keyDims.length → Vec α) : Prop where
  block : ∀ i j : Fin f.keyDims.length, f.block? i j = some (B i j) ∧
    (B i j).rows = f.keyDims[i.1].2 ∧ (B i j).cols = f.keyDims[j.1].2
  linearTerm : ∀ i : Fin f.keyDims.length, f.linearTerm? i = some (g i) ∧
    (g i).length = f.keyDims[i.1].2

/-- Blocks whose entries are those of the matrix, each at one place of one block. -/
structure Tiles [Scalar α] (f : QuadraticCost κ α)
    (B : Fin f.keyDims.length → Fin f.keyDims.length → Matrix α) : Prop where
  inside : ∀ i j : Fin f.keyDims.length, ∀ a < (B i j).rows, ∀ b < (B i j).cols,
    f.offset i + a < f.information.rows ∧ f.offset j + b < f.information.cols ∧
      (B i j).get a b = f.information.get (f.offset i + a) (f.offset j + b)
  covers : ∀ r < f.information.rows, ∀ c < f.information.cols,
    ∃! q : (Fin f.keyDims.length × Fin f.keyDims.length) × ℕ × ℕ,
      q.2.1 < (B q.1.1 q.1.2).rows ∧ q.2.2 < (B q.1.1 q.1.2).cols ∧
        f.offset q.1.1 + q.2.1 = r ∧ f.offset q.1.2 + q.2.2 = c

section Parts
variable {f : QuadraticCost κ α} (h : sumDims f.dims < UInt64.size)
include h

theorem exists_hasBlocks [Scalar α] : ∃ B g, f.HasBlocks B g := by
  have hblock (i j : Fin f.keyDims.length) := block?_eq h i.2 j.2
  have hterm (i : Fin f.keyDims.length) := (divided_of_lt h).linearTerm i i.2
  choose g hg using hterm
  exact ⟨_, g, fun i j => ⟨hblock i j, rfl, rfl⟩, hg⟩

theorem size_eq_sumDims : f.information.rows = sumDims f.dims ∧
    f.information.cols = sumDims f.dims ∧ f.linear.length = sumDims f.dims := by
  have hword : wordSum (f.keyDims.map (·.2)) = sumDims f.dims := Nat.mod_eq_of_lt h
  exact ⟨f.rows_eq.trans hword, f.cols_eq.trans hword, f.length_eq.trans hword⟩

section Entries
variable [Scalar α] {B : Fin f.keyDims.length → Fin f.keyDims.length → Matrix α}
  {g : Fin f.keyDims.length → Vec α} (hB : f.HasBlocks B g)
include hB

theorem HasBlocks.get {i j : Fin f.keyDims.length} {a b : ℕ} (ha : a < f.keyDims[i.1].2)
    (hb : b < f.keyDims[j.1].2) :
    (B i j).get a b = f.information.get (f.offset i + a) (f.offset j + b) := by
  have hblock := (block?_eq h i.2 j.2).symm.trans (hB.block i j).1
  rw [← Option.some.inj hblock]
  exact Matrix.get_ofFn _ ha hb

theorem HasBlocks.tiles : f.Tiles B := by
  obtain ⟨hrows, hcols, -⟩ := size_eq_sumDims h
  constructor
  · intro i j a ha b hb
    rw [(hB.block i j).2.1] at ha
    rw [(hB.block i j).2.2] at hb
    refine ⟨?_, ?_, hB.get h ha hb⟩
    · exact (Nat.add_lt_add_left ha _).trans_le ((offset_add_le i.2).trans_eq hrows.symm)
    · exact (Nat.add_lt_add_left hb _).trans_le ((offset_add_le j.2).trans_eq hcols.symm)
  · intro r hr c hc
    obtain ⟨⟨i, a⟩, ⟨ha, hra⟩, hrow⟩ := existsUnique_part (l := f.keyDims) (hrows ▸ hr)
    obtain ⟨⟨j, b⟩, ⟨hb, hcb⟩, hcol⟩ := existsUnique_part (l := f.keyDims) (hcols ▸ hc)
    refine ⟨((i, j), a, b), ⟨?_, ?_, hra, hcb⟩, ?_⟩
    · rw [(hB.block i j).2.1]
      exact ha
    · rw [(hB.block i j).2.2]
      exact hb
    · rintro ⟨⟨i', j'⟩, a', b'⟩ ⟨ha', hb', hr', hc'⟩
      rw [(hB.block i' j').2.1] at ha'
      rw [(hB.block i' j').2.2] at hb'
      cases hrow (i', a') ⟨ha', hr'⟩
      cases hcol (j', b') ⟨hb', hc'⟩
      rfl

end Entries

theorem segments_eq_ofFn : f.segments = List.ofFn fun i : Fin f.keyDims.length =>
    (f.keyDims[i.1].1, f.offset i, f.keyDims[i.1].2) := by
  have hlen : f.segments.length = f.keyDims.length := by simp [segments, keys, dims]
  refine List.ext_getElem (by rw [hlen, List.length_ofFn]) fun i hi _ => ?_
  have hget := getElem?_segments h (hlen ▸ hi)
  rw [List.getElem?_eq_getElem hi, Option.some.injEq] at hget
  rw [hget, List.getElem_ofFn]

variable [ExactScalar α]

/-- A sum over the stack is a sum over the parts of the variables. -/
theorem sum_parts (φ : ℕ → α) (p : Point κ α) :
    ∑ r ∈ range f.linear.length, φ r * Vec.get (stackOf f.keyDims p) r =
      ∑ i : Fin f.keyDims.length, ∑ a ∈ range f.keyDims[i.1].2,
        φ (f.offset i + a) * p f.keyDims[i.1].1 a := by
  rw [← sum_segments (stackable_of_lt h), segments_eq_ofFn h, List.map_ofFn, List.sum_ofFn]
  rfl

theorem HasBlocks.get_linear {B : Fin f.keyDims.length → Fin f.keyDims.length → Matrix α}
    {g : Fin f.keyDims.length → Vec α} (hB : f.HasBlocks B g) {i : Fin f.keyDims.length} {a : ℕ}
    (ha : a < f.keyDims[i.1].2) : Vec.get f.linear (f.offset i + a) = Vec.get (g i) a := by
  obtain ⟨v, hv, hslice⟩ := exists_linearTerm h i.2
  cases hv.symm.trans (hB.linearTerm i).1
  exact (Vec.get_of_slice hslice ha).symm

section Values
variable {B : Fin f.keyDims.length → Fin f.keyDims.length → Matrix α}
  {g : Fin f.keyDims.length → Vec α} (hB : f.HasBlocks B g) {x : Assignment κ α}
  {v : Fin f.keyDims.length → Vec α}
  (hx : ∀ i : Fin f.keyDims.length, x.get? f.keyDims[i.1].1 = some (v i) ∧
    (v i).length = f.keyDims[i.1].2)
include hB hx

/-- A part of the product with the stack is the sum of the products of a row of blocks. -/
theorem HasBlocks.image_eq {i : Fin f.keyDims.length} {a : ℕ} (ha : a < f.keyDims[i.1].2) :
    f.image x.entries (f.offset i + a) = ∑ j, Vec.get ((B i j).mulVec (v j)) a := by
  rw [image, sum_parts h]
  refine Finset.sum_congr rfl fun j _ => ?_
  obtain ⟨-, hrows, hcols⟩ := hB.block i j
  rw [Matrix.get_mulVec _ (hrows ▸ ha) ((hx j).2.trans hcols.symm), hcols]
  refine Finset.sum_congr rfl fun b hb => ?_
  rw [hB.get h ha (Finset.mem_range.1 hb), Assignment.entries_eq (hx j).1]

omit h hB [ExactScalar α] in
theorem hasDims_of_get? : x.HasDims f.keyDims := by
  intro e he
  obtain ⟨i, hi, rfl⟩ := List.mem_iff_getElem.1 he
  exact Assignment.dim?_eq_some.2 ⟨v ⟨i, hi⟩, hx ⟨i, hi⟩⟩

/-- The gradient lists the sums of the products of a row of blocks, less the linear terms. -/
theorem HasBlocks.gradient_eq : f.gradient x = .ok (List.ofFn fun i : Fin f.keyDims.length =>
    (f.keyDims[i.1].1, (List.range f.keyDims[i.1].2).map fun a =>
      (∑ j, Vec.get ((B i j).mulVec (v j)) a) - Vec.get (g i) a)) := by
  have hs : f.Stackable := stackable_of_lt h
  set full := Vec.sub (f.information.mulVec (stackOf f.keyDims x.entries)) f.linear with hfull
  have hlen : full.length = f.linear.length := by
    rw [hfull, Vec.length_sub, Matrix.length_mulVec, f.rows_information, min_self]
  have hparts : f.segments.mapM (fun e => do
      let part ← Result.inRange (Vec.slice full e.2.1 e.2.2)
      return (e.1, part)) = (.ok (f.segments.map fun e =>
        (e.1, (List.range e.2.2).map fun a => Vec.get full (e.2.1 + a))) :
          Result (FactorError α) (List (κ × Vec α))) := by
    refine Result.mapM_eq_map fun e he => Result.bind_eq_ok.2 ⟨_, ?_, rfl⟩
    exact Result.inRange_eq_ok.2 (Vec.slice_eq_map ((segment_fits hs he).trans_eq hlen.symm))
  refine Result.bind_eq_ok.2 ⟨_, stacked_eq_ok.2 ⟨hasDims_of_get? hx, hs, rfl⟩, hparts.trans ?_⟩
  rw [segments_eq_ofFn h, List.map_ofFn]
  refine congrArg Except.ok (congrArg List.ofFn (funext fun i => ?_))
  refine Prod.ext rfl (List.map_congr_left fun a ha => ?_)
  have ha := List.mem_range.1 ha
  have hr : f.offset i + a < f.linear.length :=
    ((Nat.add_lt_add_left ha _).trans_le (offset_add_le i.2)).trans_eq hs
  rw [hfull, Vec.get_sub (by rwa [Matrix.length_mulVec, f.rows_information]) hr,
    get_mulVec_stack hs hr, hB.image_eq h hx ha, hB.get_linear h ha]

/-- The cost is the sum of the products of all blocks with the variables on both sides. -/
theorem HasBlocks.cost_eq : f.cost x =
    .ok (1 / 2 * (∑ i, ∑ j, Vec.dot (v i) ((B i j).mulVec (v j))) -
      (∑ i, Vec.dot (v i) (g i)) + 1 / 2 * f.constant) := by
  have hquad : ∑ r ∈ range f.linear.length, f.image x.entries r *
      Vec.get (stackOf f.keyDims x.entries) r =
        ∑ i, ∑ j, Vec.dot (v i) ((B i j).mulVec (v j)) := by
    rw [sum_parts h]
    refine Finset.sum_congr rfl fun i _ => ?_
    have hdot (j : Fin f.keyDims.length) : Vec.dot (v i) ((B i j).mulVec (v j)) =
        ∑ a ∈ range f.keyDims[i.1].2, Vec.get (v i) a * Vec.get ((B i j).mulVec (v j)) a := by
      rw [Vec.dot_eq (by rw [Matrix.length_mulVec, (hB.block i j).2.1, (hx i).2]), (hx i).2]
    simp only [hdot]
    rw [Finset.sum_comm]
    refine Finset.sum_congr rfl fun a ha => ?_
    rw [hB.image_eq h hx (Finset.mem_range.1 ha), Assignment.entries_eq (hx i).1, mul_comm,
      Finset.mul_sum]
  have hlin : ∑ r ∈ range f.linear.length, Vec.get f.linear r *
      Vec.get (stackOf f.keyDims x.entries) r = ∑ i, Vec.dot (v i) (g i) := by
    rw [sum_parts h]
    refine Finset.sum_congr rfl fun i _ => ?_
    rw [Vec.dot_eq ((hx i).2.trans (hB.linearTerm i).2.symm), (hx i).2]
    refine Finset.sum_congr rfl fun a ha => ?_
    rw [hB.get_linear h (Finset.mem_range.1 ha), Assignment.entries_eq (hx i).1, mul_comm]
  refine cost_eq_ok.2 ⟨hasDims_of_get? hx, stackable_of_lt h, ?_⟩
  rw [← hquad, ← hlin, value, ExactScalar.half_eq]
  simp only [mul_comm (Vec.get (stackOf f.keyDims x.entries) _)]

end Values

end Parts

section Binary
variable [Scalar α] {k₁ k₂ : κ} {g₁₁ g₁₂ g₂₂ : Matrix α} {g₁ g₂ : Vec α} {c : α}
  {f : QuadraticCost κ α}

omit [Scalar α] in
theorem checkShape_eq_ok {m : Matrix α} {rows cols : ℕ} {u : Unit} :
    checkShape m rows cols = .ok u ↔ m.rows = rows ∧ m.cols = cols := by
  unfold checkShape
  split_ifs <;> simp_all

/-- Blocks are accepted that fit together, and stored as one matrix. -/
theorem binary_eq_ok (h : binary k₁ k₂ g₁₁ g₁₂ g₁ g₂₂ g₂ c = .ok f) :
    (g₁₁.rows = g₁.length ∧ g₁₁.cols = g₁.length) ∧
      (g₁₂.rows = g₁.length ∧ g₁₂.cols = g₂.length) ∧
      (g₂₂.rows = g₂.length ∧ g₂₂.cols = g₂.length) ∧
      f.keyDims = [(k₁, g₁.length), (k₂, g₂.length)] ∧
      f.information = Matrix.symmetricBlocks g₁₁ g₁₂ g₂₂ ∧ f.linear = g₁ ++ g₂ := by
  obtain ⟨_, h₁₂, h⟩ := Result.bind_eq_ok.1 h
  obtain ⟨_, h₁₁, h⟩ := Result.bind_eq_ok.1 h
  obtain ⟨_, h₂₂, h⟩ := Result.bind_eq_ok.1 h
  obtain ⟨-, -, -, hkeys, hinformation, hlinear, -⟩ := ofInformation_eq_ok.1 h
  exact ⟨checkShape_eq_ok.1 h₁₁, checkShape_eq_ok.1 h₁₂, checkShape_eq_ok.1 h₂₂, hkeys,
    hinformation, hlinear⟩

/-- A cost on two variables has the blocks and the linear terms that it was made of. -/
theorem binary_blocks (h : binary k₁ k₂ g₁₁ g₁₂ g₁ g₂₂ g₂ c = .ok f) :
    (f.block? 0 0 = some g₁₁ ∧ f.block? 0 1 = some g₁₂ ∧
      f.block? 1 0 = some g₁₂.transpose ∧ f.block? 1 1 = some g₂₂) ∧
      f.linearTerm? 0 = some g₁ ∧ f.linearTerm? 1 = some g₂ := by
  obtain ⟨⟨hr₁₁, hc₁₁⟩, ⟨hr₁₂, hc₁₂⟩, ⟨hr₂₂, hc₂₂⟩, hkeys, hinformation, hlinear⟩ := binary_eq_ok h
  have hlt : sumDims f.dims < UInt64.size := by
    have hsum : sumDims f.dims = f.linear.length := by
      rw [dims, hkeys, hlinear, List.length_append]
      rfl
    exact hsum ▸ f.length_lt
  have hfirst : f.segments[0]? = some (k₁, 0, g₁.length) := by
    rw [segments, keys, dims, hkeys]
    rfl
  have hsecond : f.segments[1]? = some (k₂, g₁.length, g₂.length) := by
    have hget := getElem?_segments hlt (i := 1) (by simp [hkeys])
    simpa [hkeys, offset, dims] using hget
  have hget {i j : ℕ} (hi : i < g₁.length + g₂.length) (hj : j < g₁.length + g₂.length) :
      f.information.get i j =
        if i < g₁.length then if j < g₁.length then g₁₁.get i j else g₁₂.get i (j - g₁.length)
        else if j < g₁.length then g₁₂.get j (i - g₁.length)
        else g₂₂.get (i - g₁.length) (j - g₁.length) := by
    rw [hinformation, Matrix.symmetricBlocks, hr₁₁, hr₂₂, Matrix.get_ofFn _ hi hj]
  have hrows : f.information.rows = g₁.length + g₂.length := by
    rw [hinformation, Matrix.symmetricBlocks, Matrix.rows_ofFn, hr₁₁, hr₂₂]
  have hcols : f.information.cols = g₁.length + g₂.length := by
    rw [hinformation, Matrix.symmetricBlocks, Matrix.cols_ofFn, hr₁₁, hr₂₂]
  simp only [block?, linearTerm?, hfirst, hsecond, Option.bind_eq_bind, Option.bind_some]
  -- Each block is compared with the information matrix entry by entry, by the cases of `hget`.
  refine ⟨⟨?_, ?_, ?_, ?_⟩, ?_, ?_⟩
  · refine Matrix.block?_eq_some hr₁₁ hc₁₁ (by omega) (by omega) fun i hi j hj => ?_
    rw [Nat.zero_add, Nat.zero_add, hget (by omega) (by omega), if_pos hi, if_pos hj]
  · refine Matrix.block?_eq_some hr₁₂ hc₁₂ (by omega) (by omega) fun i hi j hj => ?_
    rw [Nat.zero_add, hget (by omega) (by omega), if_pos hi, if_neg (by omega),
      Nat.add_sub_cancel_left]
  · refine Matrix.block?_eq_some hc₁₂ hr₁₂ (by omega) (by omega) fun i hi j hj => ?_
    rw [Nat.zero_add, hget (by omega) (by omega), if_neg (by omega), if_pos hj,
      Nat.add_sub_cancel_left, Matrix.transpose, Matrix.get_ofFn _ (hc₁₂ ▸ hi) (hr₁₂ ▸ hj)]
  · refine Matrix.block?_eq_some hr₂₂ hc₂₂ (by omega) (by omega) fun i hi j hj => ?_
    rw [hget (by omega) (by omega), if_neg (by omega), if_neg (by omega), Nat.add_sub_cancel_left,
      Nat.add_sub_cancel_left]
  · simp [Vec.slice, hlinear]
  · simp [Vec.slice, hlinear]

end Binary

/-- The blocks of a cost whose dimensions add up to a word tile its matrix, and wherever the
variables are there in their dimensions its gradient and its value are the sums over the blocks. Two
variables have the blocks that they were given, whatever their dimensions are. -/
theorem blocks_spec [ExactScalar α] :
    (∀ f : QuadraticCost κ α, sumDims f.dims < UInt64.size →
      ∃ B g, f.HasBlocks B g ∧ f.Tiles B ∧
        ∀ (x : Assignment κ α) (v : Fin f.keyDims.length → Vec α),
          (∀ i : Fin f.keyDims.length, x.get? f.keyDims[i.1].1 = some (v i) ∧
            (v i).length = f.keyDims[i.1].2) →
          f.gradient x = .ok (List.ofFn fun i : Fin f.keyDims.length =>
            (f.keyDims[i.1].1, (List.range f.keyDims[i.1].2).map fun a =>
              (∑ j, Vec.get ((B i j).mulVec (v j)) a) - Vec.get (g i) a)) ∧
          f.cost x = .ok (1 / 2 * (∑ i, ∑ j, Vec.dot (v i) ((B i j).mulVec (v j))) -
            (∑ i, Vec.dot (v i) (g i)) + 1 / 2 * f.constant)) ∧
    ∀ (k₁ k₂ : κ) (g₁₁ g₁₂ : Matrix α) (g₁ : Vec α) (g₂₂ : Matrix α) (g₂ : Vec α) (c : α)
      (f : QuadraticCost κ α), binary k₁ k₂ g₁₁ g₁₂ g₁ g₂₂ g₂ c = .ok f →
      (f.block? 0 0 = some g₁₁ ∧ f.block? 0 1 = some g₁₂ ∧
        f.block? 1 0 = some g₁₂.transpose ∧ f.block? 1 1 = some g₂₂) ∧
        f.linearTerm? 0 = some g₁ ∧ f.linearTerm? 1 = some g₂ := by
  refine ⟨fun f h => ?_, fun _ _ _ _ _ _ _ _ _ hf => binary_blocks hf⟩
  obtain ⟨B, g, hB⟩ := exists_hasBlocks h
  exact ⟨B, g, hB, hB.tiles h, fun x v hx => ⟨hB.gradient_eq h hx, hB.cost_eq h hx⟩⟩

/-- A variable of two entries and one of one entry, coupled by three and four. -/
def coupled : QuadraticCost ℕ ℚ where
  keyDims := [(0, 2), (1, 1)]
  information := ⟨3, 3, #[2, 0, 3, 0, 2, 4, 3, 4, 4], rfl⟩
  linear := [5, 6, 7]
  constant := 1
  keys_nodup := by decide
  rows_eq := rfl
  cols_eq := rfl
  length_eq := rfl

/-- The transposed coupling has one row and two columns, and with the other blocks and the linear
terms it makes up the gradient and the cost. -/
theorem coupled_blocks : ∃ (B : Fin 2 → Fin 2 → Matrix ℚ) (g : Fin 2 → Vec ℚ),
    B = ![![⟨2, 2, #[2, 0, 0, 2], rfl⟩, ⟨2, 1, #[3, 4], rfl⟩],
        ![⟨1, 2, #[3, 4], rfl⟩, ⟨1, 1, #[4], rfl⟩]] ∧
      g = ![[5, 6], [7]] ∧ coupled.HasBlocks B g ∧ coupled.Tiles B ∧
      coupled.gradient (SortedMap.ofList [(0, [1, 2]), (1, [3])]) =
        .ok [(0, [6, 10]), (1, [16])] ∧
      coupled.cost (SortedMap.ofList [(0, [1, 2]), (1, [3])]) = .ok (37 / 2) := by
  obtain ⟨hvalues, hbinary⟩ := blocks_spec (κ := ℕ) (α := ℚ)
  obtain ⟨B, g, hB, htiles, hsums⟩ := hvalues coupled (by decide)
  obtain ⟨⟨h₀₀, h₀₁, h₁₀, h₁₁⟩, hg₀, hg₁⟩ := hbinary 0 1 ⟨2, 2, #[2, 0, 0, 2], rfl⟩
    ⟨2, 1, #[3, 4], rfl⟩ [5, 6] ⟨1, 1, #[4], rfl⟩ [7] 1 coupled (by decide +kernel)
  obtain rfl : B = (![![⟨2, 2, #[2, 0, 0, 2], rfl⟩, ⟨2, 1, #[3, 4], rfl⟩],
      ![⟨1, 2, #[3, 4], rfl⟩, ⟨1, 1, #[4], rfl⟩]] : Fin 2 → Fin 2 → Matrix ℚ) := by
    funext i j
    refine Option.some.inj ((hB.block i j).1.symm.trans ?_)
    fin_cases i <;> fin_cases j
    exacts [h₀₀, h₀₁, h₁₀.trans (by decide +kernel), h₁₁]
  obtain rfl : g = (![[5, 6], [7]] : Fin 2 → Vec ℚ) := by
    funext i
    refine Option.some.inj ((hB.linearTerm i).1.symm.trans ?_)
    fin_cases i
    exacts [hg₀, hg₁]
  obtain ⟨hgradient, hcost⟩ := hsums (SortedMap.ofList [(0, [1, 2]), (1, [3])])
    (![[1, 2], [3]] : Fin 2 → Vec ℚ) (by decide +kernel)
  exact ⟨_, _, rfl, rfl, hB, htiles, hgradient.trans (by decide +kernel),
    hcost.trans (by decide +kernel)⟩

end QuadraticCost

end GaussianProgram
