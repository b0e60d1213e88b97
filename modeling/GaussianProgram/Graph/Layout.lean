import GaussianProgram.Dimension
import GaussianProgram.Sorted.Map
import GaussianProgram.Vec

/-! Layout of the variables in one stacked vector: every key has a segment of its dimension, one
after the other in the order of keys. Offsets and the length of the whole are 64-bit words. -/
namespace GaussianProgram

/-- Place of one key in the stacked vector. -/
structure Segment where
  offset : Nat
  dim : Nat
  deriving DecidableEq, Repr

/-- Appends segments of the given dimensions from `start` on. -/
def segmentsFrom {κ : Type} (start : Nat) : List (κ × Nat) → List (κ × Segment)
  | [] => []
  | (k, dim) :: rest => (k, ⟨start, dim⟩) :: segmentsFrom ((start + dim) % UInt64.size) rest

theorem keys_segmentsFrom {κ : Type} (start : Nat) (dims : List (κ × Nat)) :
    (segmentsFrom start dims).map (·.1) = dims.map (·.1) := by
  induction dims generalizing start with
  | nil => rfl
  | cons head rest ih => simp [segmentsFrom, ih]

/-- A segment for every key, and the length of the whole. -/
structure Layout (κ : Type) [Ord κ] where
  segments : SortedMap κ Segment
  total : Nat

namespace Layout
variable {κ : Type} [Ord κ]

def ofDimensions (dims : SortedMap κ Nat) : Layout κ where
  segments := ⟨segmentsFrom 0 dims.toList, by
    have h : ((segmentsFrom 0 dims.toList).map (·.1)).Pairwise (compare · · = .lt) := by
      rw [keys_segmentsFrom, List.pairwise_map]; exact dims.ascending
    exact List.pairwise_map.1 h⟩
  total := wordSum (dims.toList.map (·.2))

def offset? (layout : Layout κ) (k : κ) : Option Nat := (layout.segments.get? k).map (·.offset)

def split? {α : Type} [Scalar α] (layout : Layout κ) (v : Vec α) : Option (List (κ × Vec α)) :=
  layout.segments.toList.mapM fun (k, s) => (Vec.slice v s.offset s.dim).map (k, ·)

end Layout

end GaussianProgram
