import GaussianProgram.Proofs.Quadratic

/-! Offsets of the parts of a quadratic cost. The dimensions of the variables are added up in 64-bit
words, so a cost is accepted wherever the word of their sum fits its matrix. It keeps every part
inside the matrix only if the sum itself is a word. -/
namespace GaussianProgram

/-- Every dimension starts at the sum of those before it, as long as all of them end inside
a word. -/
theorem runningOffsets_eq {start : ℕ} {dims : List ℕ} (h : start + sumDims dims < UInt64.size) :
    runningOffsets start dims =
      (List.range dims.length).map fun i => start + sumDims (dims.take i) := by
  induction dims generalizing start with
  | nil => rfl
  | cons d dims ih =>
    rw [sumDims_cons] at h
    rw [runningOffsets, Nat.mod_eq_of_lt (by omega), ih (by omega), List.length_cons,
      List.range_succ_eq_map, List.map_cons, List.map_map]
    congr 1
    refine List.map_congr_left fun i _ => ?_
    rw [Function.comp_apply, List.take_succ_cons, sumDims_cons, Nat.add_assoc]

namespace QuadraticCost
variable {κ α : Type} [Key κ]

def offset (f : QuadraticCost κ α) (i : ℕ) : ℕ := sumDims (f.dims.take i)

/-- Every variable starts where those before it end. -/
theorem getElem?_segments {f : QuadraticCost κ α} (h : sumDims f.dims < UInt64.size) {i : ℕ}
    (hi : i < f.keyDims.length) :
    f.segments[i]? = some (f.keyDims[i].1, f.offset i, f.keyDims[i].2) := by
  rw [segments, List.getElem?_zip_eq_some, List.getElem?_zip_eq_some,
    runningOffsets_eq (by rwa [Nat.zero_add])]
  simp [keys, offset, hi, dims]

theorem offset_add_le {f : QuadraticCost κ α} {i : ℕ} (hi : i < f.keyDims.length) :
    f.offset i + f.keyDims[i].2 ≤ sumDims f.dims := by
  have hlen : i < f.dims.length := by simpa [dims] using hi
  have hsplit : f.dims = f.dims.take i ++ f.dims[i] :: f.dims.drop (i + 1) := by
    rw [← List.drop_eq_getElem_cons hlen, List.take_append_drop]
  have hsum := congrArg sumDims hsplit
  rw [sumDims_append, sumDims_cons] at hsum
  have hdim : f.dims[i] = f.keyDims[i].2 := by simp [dims]
  rw [offset]
  omega

/-- The parts of a cost start at the exact sums of the dimensions before them, and every block and
every linear term can be cut out. -/
structure Divided [Scalar α] (f : QuadraticCost κ α) : Prop where
  offsets : runningOffsets 0 f.dims = (List.range f.dims.length).map f.offset
  block : ∀ i, ∀ hi : i < f.keyDims.length, ∀ j, ∀ hj : j < f.keyDims.length,
    ∃ b, f.block? i j = some b ∧ b.rows = f.keyDims[i].2 ∧ b.cols = f.keyDims[j].2
  linearTerm : ∀ i, ∀ hi : i < f.keyDims.length,
    ∃ v, f.linearTerm? i = some v ∧ v.length = f.keyDims[i].2

section Blocks
variable {f : QuadraticCost κ α} (h : sumDims f.dims < UInt64.size)
include h

theorem block?_eq [Scalar α] {i j : ℕ} (hi : i < f.keyDims.length) (hj : j < f.keyDims.length) :
    f.block? i j = some (.ofFn f.keyDims[i].2 f.keyDims[j].2 fun a b =>
      f.information.get (f.offset i + a) (f.offset j + b)) := by
  have hword : wordSum (f.keyDims.map (·.2)) = sumDims f.dims := Nat.mod_eq_of_lt h
  have hrows := (offset_add_le hi).trans_eq (hword.symm.trans f.rows_eq.symm)
  have hcols := (offset_add_le hj).trans_eq (hword.symm.trans f.cols_eq.symm)
  simp only [block?, getElem?_segments h hi, getElem?_segments h hj, Option.bind_eq_bind,
    Option.bind_some, Matrix.block?, if_pos (And.intro hrows hcols)]

theorem exists_linearTerm [Scalar α] {i : ℕ} (hi : i < f.keyDims.length) :
    ∃ v, f.linearTerm? i = some v ∧ Vec.slice f.linear (f.offset i) f.keyDims[i].2 = some v := by
  have hword : wordSum (f.keyDims.map (·.2)) = sumDims f.dims := Nat.mod_eq_of_lt h
  have hfit := (offset_add_le hi).trans_eq (hword.symm.trans f.length_eq.symm)
  obtain ⟨v, hv⟩ := Option.isSome_iff_exists.1 (Vec.slice_isSome.2 hfit)
  refine ⟨v, ?_, hv⟩
  simp only [linearTerm?, getElem?_segments h hi, Option.bind_eq_bind, Option.bind_some, hv]

/-- Dimensions whose sum is a word divide the matrix and the linear term. -/
theorem divided_of_lt [Scalar α] : f.Divided where
  offsets := by
    rw [runningOffsets_eq (by rwa [Nat.zero_add])]
    exact List.map_congr_left fun i _ => Nat.zero_add _
  block i hi j hj := ⟨_, block?_eq h hi hj, rfl, rfl⟩
  linearTerm i hi := by
    obtain ⟨v, hv, hslice⟩ := exists_linearTerm h hi
    exact ⟨v, hv, Vec.length_of_slice hslice⟩

end Blocks

/-- A square matrix and a vector of size `n`. -/
structure Measures (information : Matrix α) (linear : Vec α) (n : ℕ) : Prop where
  rows : information.rows = n
  cols : information.cols = n
  length : linear.length = n

variable [Scalar α]

def Tolerated (information : Matrix α) : Prop :=
  ¬symmetryTolerance * (1 + information.amax) < (information.sub information.transpose).amax

variable {keyDims : List (κ × ℕ)} {information : Matrix α} {linear : Vec α} {constant : α}

/-- A form is accepted with distinct keys, the shape that the word of the dimensions asks for, and a
matrix that is symmetric as far as is asked. -/
theorem ofInformation_eq_ok {f : QuadraticCost κ α} :
    ofInformation keyDims information linear constant = .ok f ↔
      (keyDims.map (·.1)).Nodup ∧
      Measures information linear (wordSum (keyDims.map (·.2))) ∧ Tolerated information ∧
      f.keyDims = keyDims ∧ f.information = information ∧ f.linear = linear ∧
      f.constant = constant := by
  constructor
  · intro h
    unfold ofInformation at h
    split at h
    · cases h
    next hkeys =>
      dsimp only at h
      split_ifs at h with hr hc hl hbound
      cases h
      exact ⟨nodup_of_firstRepeated hkeys, ⟨hr, hc, hl⟩, hbound, rfl, rfl, rfl, rfl⟩
  · rintro ⟨hkeys, ⟨hr, hc, hl⟩, hbound, rfl, rfl, rfl, rfl⟩
    have hfirst : firstRepeated [] (f.keyDims.map (·.1)) = none :=
      firstRepeated_eq_none.2 ⟨hkeys, by simp⟩
    unfold ofInformation
    split
    · simp_all
    · dsimp only
      rw [dif_pos hr, dif_pos hc, dif_pos hl, if_neg hbound]

/-- Between distinct keys a shape that the word of the dimensions does not ask for is refused with
the size it should have and one that it has instead. -/
theorem ofInformation_eq_invalidDimension (hkeys : (keyDims.map (·.1)).Nodup)
    (hsize : ¬Measures information linear (wordSum (keyDims.map (·.2)))) :
    ∃ actual ∈ [information.rows, information.cols, linear.length],
      actual ≠ wordSum (keyDims.map (·.2)) ∧
      ofInformation keyDims information linear constant =
        .error (.invalidDimension (wordSum (keyDims.map (·.2))) actual) := by
  have hfirst : firstRepeated [] (keyDims.map (·.1)) = none :=
    firstRepeated_eq_none.2 ⟨hkeys, by simp⟩
  unfold ofInformation
  split
  · simp_all
  · dsimp only
    split_ifs with hr hc hl
    · exact absurd ⟨hr, hc, hl⟩ hsize
    · exact absurd ⟨hr, hc, hl⟩ hsize
    · exact ⟨_, by simp, hl, rfl⟩
    · exact ⟨_, by simp, hc, rfl⟩
    · exact ⟨_, by simp, hr, rfl⟩

/-- What an outcome for a form should say: it is accepted only if its keys are distinct, its sizes
are the sum of its dimensions and its asymmetry is tolerated, and then it is divided at the sums of
its dimensions; sizes that are not the sum are a cause of their own. -/
structure Measured (keyDims : List (κ × ℕ)) (information : Matrix α) (linear : Vec α)
    (outcome : Except (FactorError α) (QuadraticCost κ α)) : Prop where
  accepted : ∀ f, outcome = .ok f → (keyDims.map (·.1)).Nodup ∧
    Measures information linear (sumDims (keyDims.map (·.2))) ∧ Tolerated information ∧ f.Divided
  refused : (keyDims.map (·.1)).Nodup →
    ¬Measures information linear (sumDims (keyDims.map (·.2))) →
    ∃ expected actual, outcome = .error (.invalidDimension expected actual)

/-- Forms are measured as they should be exactly if the dimensions of those that pass, between
distinct keys, for their word have a sum that is a word. -/
theorem measured_ofInformation_iff :
    Measured keyDims information linear (ofInformation keyDims information linear constant) ↔
      ((keyDims.map (·.1)).Nodup →
        Measures information linear (wordSum (keyDims.map (·.2))) →
        sumDims (keyDims.map (·.2)) < UInt64.size) := by
  constructor
  · intro h hkeys hsize
    by_contra hlarge
    -- A length is a word, so it cannot be the sum.
    have hmis : ¬Measures information linear (sumDims (keyDims.map (·.2))) := fun hsum =>
      hlarge (hsum.length ▸ hsize.length ▸ Nat.mod_lt _ (by decide))
    obtain ⟨expected, actual, herror⟩ := h.refused hkeys hmis
    unfold ofInformation at herror
    split at herror
    · cases herror
    · dsimp only at herror
      rw [dif_pos hsize.rows, dif_pos hsize.cols, dif_pos hsize.length] at herror
      split_ifs at herror
      cases herror
  · intro h
    constructor
    · intro f hf
      obtain ⟨hkeys, hsize, htolerated, rfl, rfl, rfl, -⟩ := ofInformation_eq_ok.1 hf
      have hlt := h hkeys hsize
      have hword : wordSum (f.keyDims.map (·.2)) = sumDims (f.keyDims.map (·.2)) :=
        Nat.mod_eq_of_lt hlt
      exact ⟨hkeys, hword ▸ hsize, htolerated, divided_of_lt hlt⟩
    · intro hkeys hmis
      have hword : ¬Measures information linear (wordSum (keyDims.map (·.2))) := fun hsize =>
        hmis (Nat.mod_eq_of_lt (h hkeys hsize) ▸ hsize)
      obtain ⟨actual, -, -, herror⟩ := ofInformation_eq_invalidDimension hkeys hword
      exact ⟨_, actual, herror⟩

/-- Two variables of half as many entries as there are words, over an empty matrix. -/
def halves : QuadraticCost String ℚ where
  keyDims := [("x", 2 ^ 63), ("y", 2 ^ 63)]
  information := .ofFn 0 0 fun _ _ => 0
  linear := []
  constant := 0
  keys_nodup := by decide
  rows_eq := rfl
  cols_eq := rfl
  length_eq := rfl

/-- The word of the two halves is zero, so the empty matrix passes for theirs, and neither a block
nor a linear term can be cut out of it. -/
theorem halves_not_measured :
    ofInformation halves.keyDims halves.information halves.linear halves.constant = .ok halves ∧
      sumDims halves.dims = UInt64.size ∧ halves.information.rows = 0 ∧
      halves.block? 0 0 = none ∧ halves.linearTerm? 0 = none ∧
      ¬Measured halves.keyDims halves.information halves.linear
        (ofInformation halves.keyDims halves.information halves.linear halves.constant) := by
  have htolerated : Tolerated halves.information := by
    unfold Tolerated
    decide +kernel
  have hok : ofInformation halves.keyDims halves.information halves.linear halves.constant =
      .ok halves :=
    ofInformation_eq_ok.2 ⟨halves.keys_nodup, ⟨rfl, rfl, rfl⟩, htolerated, rfl, rfl, rfl, rfl⟩
  refine ⟨hok, rfl, rfl, rfl, rfl, fun h => ?_⟩
  have hrows : 0 = UInt64.size := (h.accepted halves hok).2.1.rows
  cases hrows

end QuadraticCost

end GaussianProgram
