import GaussianProgram.Proofs.Agreement
import GaussianProgram.Proofs.Rank
import GaussianProgram.Proofs.Table

/-! Segments of the keys of a graph in the stacked variables. Segments that follow one another cut
the columns into a part for every key, and a stacked vector into the values that it was made of. The
segments of a graph do so exactly if the sum of its dimensions is a word. -/
namespace GaussianProgram

def Segment.Has (s : Segment) (j : ℕ) : Prop := s.offset ≤ j ∧ j < s.offset + s.dim

instance (s : Segment) (j : ℕ) : Decidable (s.Has j) :=
  inferInstanceAs (Decidable (s.offset ≤ j ∧ j < s.offset + s.dim))

namespace Consecutive
variable {start stop : ℕ} {l : List Segment}

theorem separate (h : Consecutive start stop l) :
    l.Pairwise fun s t => s.offset + s.dim ≤ t.offset := by
  induction l generalizing start with
  | nil => exact .nil
  | cons s l ih =>
    obtain ⟨rfl, hrest⟩ := h
    exact .cons (fun t ht => (hrest.within ht).1) (ih hrest)

theorem exists_has (h : Consecutive start stop l) {j : ℕ} (hstart : start ≤ j) (hstop : j < stop) :
    ∃ s ∈ l, s.Has j := by
  induction l generalizing start with
  | nil => exact absurd (h ▸ hstart) (not_le.2 hstop)
  | cons s l ih =>
    obtain ⟨rfl, hrest⟩ := h
    by_cases hj : j < s.offset + s.dim
    · exact ⟨s, List.mem_cons_self, hstart, hj⟩
    · obtain ⟨t, ht, hhas⟩ := ih hrest (not_lt.1 hj)
      exact ⟨t, List.mem_cons_of_mem s ht, hhas⟩

end Consecutive

/-- Assignments of the same dimensions are equal if they have the same stack. -/
theorem Assignment.eq_of_stacked {κ α : Type} [Key κ] {x y : Assignment κ α}
    (hdims : x.toList.map (fun e => (e.1, e.2.length)) = y.toList.map fun e => (e.1, e.2.length))
    (h : x.stacked = y.stacked) : x = y := by
  have hkeys := congrArg (List.map Prod.fst) hdims
  have hlengths := congrArg (List.map Prod.snd) hdims
  rw [List.map_map, List.map_map] at hkeys hlengths
  have hvalues : x.values = y.values := by
    rw [List.eq_iff_flatten_eq, SortedMap.values, SortedMap.values, List.map_map, List.map_map]
    exact ⟨h, hlengths⟩
  have hlist : x.toList = y.toList :=
    (List.zip_of_prod hkeys hvalues).trans (List.zip_of_prod rfl rfl).symm
  cases x
  cases y
  congr

namespace Layout
variable {κ : Type} [Key κ]

def Owns (layout : Layout κ) (k : κ) (j : ℕ) : Prop :=
  ∃ s, layout.segments.get? k = some s ∧ s.Has j

/-- The segments are consecutive from the first column to the last, so every column belongs to
exactly one key. A vector over all columns is cut into values that stack to it, and a stack into the
values that it was made of. -/
structure Partitions (layout : Layout κ) (α : Type) [Scalar α] : Prop where
  consecutive : Consecutive 0 layout.total layout.segments.values
  inside : ∀ k j, layout.Owns k j → j < layout.total
  disjoint : ∀ k k' j, layout.Owns k j → layout.Owns k' j → k = k'
  covered : ∀ j < layout.total, ∃ k, layout.Owns k j
  restacked : ∀ v : Vec α, v.length = layout.total → ∃ x : Assignment κ α,
    (layout.split? v).map SortedMap.ofList = some x ∧ x.stacked = v
  resliced : ∀ x : Assignment κ α,
    (∀ k, x.dim? k = (layout.segments.get? k).map (·.dim)) →
      (layout.split? x.stacked).map SortedMap.ofList = some x

section Partition
variable {layout : Layout κ} (h : Consecutive 0 layout.total layout.segments.values)
include h

theorem lt_of_owns {k : κ} {j : ℕ} (hj : layout.Owns k j) : j < layout.total := by
  obtain ⟨s, hs, hhas⟩ := hj
  have hmem : s ∈ layout.segments.values :=
    List.mem_map_of_mem (SortedMap.get?_eq_some_iff.1 hs)
  exact hhas.2.trans_le (h.within hmem).2

theorem eq_of_owns {k k' : κ} {j : ℕ} (hk : layout.Owns k j) (hk' : layout.Owns k' j) :
    k = k' := by
  obtain ⟨s, hs, hhas⟩ := hk
  obtain ⟨s', hs', hhas'⟩ := hk'
  have hapart : layout.segments.toList.Pairwise fun e e' => ∀ i, e.2.Has i → ¬e'.2.Has i :=
    (List.pairwise_map.1 h.separate).imp fun hle i hi hi' =>
      absurd (hi'.1.trans_lt hi.2) (not_lt.2 hle)
  have hsymm : Std.Symm fun e e' : κ × Segment => ∀ i, e.2.Has i → ¬e'.2.Has i :=
    ⟨fun _ _ hee i hi hi' => hee i hi' hi⟩
  by_contra hne
  exact hapart.forall (SortedMap.get?_eq_some_iff.1 hs) (SortedMap.get?_eq_some_iff.1 hs')
    (fun heq => hne (congrArg Prod.fst heq)) j hhas hhas'

theorem exists_owns {j : ℕ} (hj : j < layout.total) : ∃ k, layout.Owns k j := by
  obtain ⟨s, hs, hhas⟩ := h.exists_has (Nat.zero_le j) hj
  obtain ⟨⟨k, _⟩, he, rfl⟩ := List.mem_map.1 hs
  exact ⟨k, _, SortedMap.get?_eq_some_iff.2 he, hhas⟩

theorem partitions_of_consecutive (α : Type) [Scalar α] : layout.Partitions α where
  consecutive := h
  inside _ _ := lt_of_owns h
  disjoint _ _ _ := eq_of_owns h
  covered _ := exists_owns h
  restacked v hv := by
    obtain ⟨x, hsplit, hstacked, -⟩ := exists_restacked h hv
    exact ⟨x, hsplit, hstacked⟩
  resliced x hx := by
    -- The stack is as long as the segments, and vectors of known lengths are known by their stack.
    have hdims : (layout.segments.mapValues (·.dim)).toList =
        x.toList.map fun e => (e.1, e.2.length) :=
      Assignment.toList_dims fun k => by rw [hx k, SortedMap.get?_mapValues]
    have htotal : x.stacked.length = layout.total := by
      have hlengths := congrArg (List.map Prod.snd) hdims
      rw [SortedMap.mapValues, List.map_map, List.map_map] at hlengths
      rw [← h.sum, Nat.zero_add, sumDims_eq_sum, Assignment.stacked, List.length_flatten,
        SortedMap.values, SortedMap.values, List.map_map, List.map_map]
      exact congrArg List.sum hlengths.symm
    obtain ⟨y, hsplit, hstacked, hdims'⟩ := exists_restacked h htotal
    rw [hsplit, Option.some.injEq]
    exact Assignment.eq_of_stacked (hdims'.trans hdims) hstacked

end Partition

theorem dims_segments (dims : SortedMap κ ℕ) :
    (ofDimensions dims).segments.mapValues (·.dim) = dims :=
  SortedMap.ext_get? fun k => by rw [SortedMap.get?_mapValues, dim_segment]

/-- The segments partition the columns exactly if the sum of the dimensions is a word. -/
theorem partitions_ofDimensions_iff {dims : SortedMap κ ℕ} {α : Type} [Scalar α] :
    (ofDimensions dims).Partitions α ↔ sumDims dims.values < UInt64.size := by
  constructor
  · intro h
    have hsum := h.consecutive.sum
    have hdims : (ofDimensions dims).segments.values.map (·.dim) = dims.values := by
      have hvalues := congrArg SortedMap.values (dims_segments dims)
      simpa [SortedMap.values, SortedMap.mapValues, Function.comp_def] using hvalues
    rw [Nat.zero_add, hdims] at hsum
    exact hsum ▸ total_lt dims
  · exact fun h => partitions_of_consecutive (consecutive_ofDimensions h) α

end Layout

namespace Graph

/-- Dimensions are recorded for the keys of the graph. -/
theorem keys_keyDimensions {κ α : Type} [Key κ] {g : Graph κ α} {dims : SortedMap κ ℕ}
    (h : g.keyDimensions = .ok dims) : dims.keys = g.keys.keys := by
  have hkeys : dims.mapValues (fun _ => ()) = g.keys := SortedMap.ext_keys fun k => by
    rw [SortedMap.keys_mapValues, SortedMap.mem_keys_iff, keys, SortedSet.mem_keys_ofKeys,
      List.mem_flatMap]
    constructor
    · rintro ⟨n, hn⟩
      obtain ⟨f, hf, he⟩ := (keyDimensions_spec h).1 hn
      exact ⟨f, hf, List.mem_map_of_mem he⟩
    · rintro ⟨f, hf, hk⟩
      obtain ⟨e, he, rfl⟩ := List.mem_map.1 hk
      exact ⟨e.2, (keyDimensions_spec h).2 ⟨f, hf, he⟩⟩
  rw [← hkeys, SortedMap.keys_mapValues]

/-- A graph has dimensions exactly if no two places ask for a key in two of them. They are the
dimensions that all places ask for, of the keys of the graph, and every key has one segment of
its dimension; the segments partition the stacked variables exactly if the sum of the dimensions
is a word. A graph without dimensions is refused for the first place that disagrees with an
earlier one. -/
theorem keyDimensions_characterized {κ α : Type} [Key κ] [Scalar α] (g : Graph κ α) :
    ((∃ dims, g.keyDimensions = .ok dims) ↔
      ∀ a b k n m, g.Asks a k n → g.Asks b k m → n = m) ∧
    (∀ dims, g.keyDimensions = .ok dims →
      dims.keys = g.keys.keys ∧ (∀ a k n, g.Asks a k n → dims.get? k = some n) ∧
      (Layout.ofDimensions dims).segments.mapValues (·.dim) = dims ∧
      ((Layout.ofDimensions dims).Partitions α ↔ sumDims dims.values < UInt64.size)) ∧
    ∀ fault, g.keyDimensions = .error fault ↔ ∃ a k n m, g.FirstConflict a k n m ∧
      fault = .factors a.factor (Key.text k) n m := by
  refine ⟨exists_keyDimensions_iff, fun dims hdims => ⟨keys_keyDimensions hdims,
    fun a k n hasks => (get?_keyDimensions hdims).2 ⟨a, hasks⟩, Layout.dims_segments dims,
    Layout.partitions_ofDimensions_iff⟩, fun fault => keyDimensions_eq_error_iff⟩

end Graph

/-- A least-squares cost without rows on a variable of the largest dimension. -/
def LinearRows.unread (k : ℕ) : LinearRows ℕ ℚ where
  terms := [(k, ⟨0, UInt64.size - 1, #[], by simp⟩)]
  rhs := []
  kinds := none
  terms_ne_nil := List.cons_ne_nil _ _
  keys_nodup := List.nodup_singleton k
  block_rows := by simp
  kinds_length := by simp

namespace Graph

def wrapped : Graph ℕ ℚ :=
  ⟨[.linear (.single 0 1 (some .equality)), .linear (.unread 1),
    .linear (.single 2 2 (some .equality))]⟩

/-- Its dimensions, which have the sum `UInt64.size + 1`. -/
def wrappedDims : SortedMap ℕ ℕ := SortedMap.ofList [(0, 1), (1, UInt64.size - 1), (2, 1)]

/-- The two rows are independent, because their variables are distinct. -/
theorem wrapped_independent : wrapped.Independent .empty := by
  have hset : wrapped.activeSet .empty = {⟨0, 0⟩, ⟨2, 0⟩} := by decide +kernel
  have hrows : {r | wrapped.IsActive .empty r} = {⟨0, 0⟩, ⟨2, 0⟩} := Set.ext fun r => by
    rw [Set.mem_ofPred_eq, ← mem_activeSet, hset, ← Finset.mem_coe, Finset.coe_pair]
  rw [Independent, hrows, LinearIndepOn.pair_iff _ (by decide)]
  intro c d hzero
  have hpoint (v : Point ℕ ℚ) : c * v 0 0 + d * v 2 0 = 0 := by
    have hv := congrArg (· v) hzero
    rwa [rowForm_eq (c := .single 0 1 (some .equality)) rfl,
      rowForm_eq (c := .single 2 2 (some .equality)) rfl, LinearMap.add_apply,
      LinearMap.smul_apply, LinearMap.smul_apply, LinearRows.form_single,
      LinearRows.form_single] at hv
  exact ⟨by simpa using hpoint fun k _ => if k = 0 then 1 else 0,
    by simpa using hpoint fun k _ => if k = 2 then 1 else 0⟩

/-- The segment between them takes the variables `0` and `2` once around to the same column, so that
their independent rows become equal there, and no singular value lets them pass. -/
theorem wrapped_not_partitioned :
    wrapped.keyDimensions = .ok wrappedDims ∧ (Layout.ofDimensions wrappedDims).Owns 0 0 ∧
      (Layout.ofDimensions wrappedDims).Owns 2 0 ∧ ¬(Layout.ofDimensions wrappedDims).Partitions ℚ ∧
      wrapped.Independent .empty ∧
      wrapped.denseActiveRows .empty (.ofDimensions wrappedDims) = .ok [[1], [1]] ∧
      ∀ a tolerance : ℚ, ∃ rank, wrapped.checkActiveRank (fun _ => some [a]) .empty tolerance =
        .error (.cause (.degenerateActiveSet rank 2)) := by
  have hdims : wrapped.keyDimensions = .ok wrappedDims := rfl
  have hrows : wrapped.denseActiveRows .empty (.ofDimensions wrappedDims) = .ok [[1], [1]] := by
    decide +kernel
  have hfirst : (Layout.ofDimensions wrappedDims).Owns 0 0 := ⟨⟨0, 1⟩, rfl, by decide⟩
  have hlast : (Layout.ofDimensions wrappedDims).Owns 2 0 := ⟨⟨0, 1⟩, rfl, by decide⟩
  refine ⟨hdims, hfirst, hlast, fun h => ?_, wrapped_independent, hrows, fun a tolerance => ?_⟩
  · cases h.disjoint 0 2 0 hfirst hlast
  · have hrank : numericalRank tolerance [a] < 2 := Nat.lt_succ_of_le List.countP_le_length
    have hdimensions : wrapped.dimensions.mapCause SolverError.graph = .ok wrappedDims := by
      rw [dimensions, hdims]
      rfl
    refine ⟨numericalRank tolerance [a], ?_⟩
    rw [checkActiveRank, hdimensions]
    simp only [bind, Except.bind, hrows]
    exact if_pos hrank

end Graph

end GaussianProgram
