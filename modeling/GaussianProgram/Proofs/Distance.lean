import GaussianProgram.Proofs.Interpolation

/-! Distances of assignments. The largest difference of two entries is looked for under the keys of
one of the assignments only. With as many keys on both sides it tells whether they are equal up to
a tolerance, which is symmetric all the same. -/
namespace GaussianProgram

/-- The largest magnitude of a difference is within a bound where all differences are. -/
theorem Vec.amax_sub_le_iff {α : Type} [ExactScalar α] {v w : Vec α} (h : v.length = w.length)
    {m : α} (hm : 0 ≤ m) : amax (sub v w) ≤ m ↔ ∀ i, |get v i - get w i| ≤ m := by
  rw [amax_le_iff hm]
  constructor
  · intro hall i
    by_cases hi : i < v.length
    · have hlt : i < (sub v w).length := by simpa using ⟨hi, h ▸ hi⟩
      rw [← get_sub hi (h ▸ hi), get_eq_getElem hlt]
      exact hall _ (List.getElem_mem hlt)
    · have hv := not_lt.1 hi
      rwa [get_of_length_le hv, get_of_length_le (h ▸ hv), sub_zero, abs_zero]
  · intro hall a ha
    obtain ⟨i, hi, rfl⟩ := List.getElem_of_mem ha
    obtain ⟨hv, hw⟩ := lt_min_iff.1 (length_sub v w ▸ hi)
    rw [← get_eq_getElem hi, get_sub hv hw]
    exact hall i

namespace Assignment
variable {κ α : Type} [Key κ]

theorem SameShape.symm {x y : Assignment κ α} (h : x.SameShape y) : y.SameShape x :=
  fun k => (h k).symm

theorem SameShape.hasKeysOf {x y : Assignment κ α} (h : x.SameShape y) : x.HasKeysOf y :=
  fun k _ => h k

/-- With as many keys as `y`, an assignment that has the keys of `y` has no other ones. -/
theorem HasKeysOf.sameShape {x y : Assignment κ α} (h : x.HasKeysOf y) (hsize : x.size = y.size) :
    x.SameShape y := by
  have hsub : y.keys ⊆ x.keys := fun k hk => by
    obtain ⟨n, hn⟩ := mem_keys_iff_dim?.1 hk
    exact mem_keys_iff_dim?.2 ⟨n, (h k hk).trans hn⟩
  have hlength : x.keys.length = y.keys.length := by
    rw [SortedMap.keys, SortedMap.keys, List.length_map, List.length_map]
    exact hsize
  have hperm : y.keys.Perm x.keys :=
    (List.subperm_of_subset y.nodup_keys hsub).perm_of_length_le hlength.le
  intro k
  by_cases hk : k ∈ y.keys
  · exact h k hk
  · have hx : k ∉ x.keys := fun hx => hk (hperm.mem_iff.2 hx)
    rw [dim?, dim?, SortedMap.get?_eq_none_iff.2 hk, SortedMap.get?_eq_none_iff.2 hx]

theorem SameShape.size_eq {x y : Assignment κ α} (h : x.SameShape y) : x.size = y.size := by
  have hperm : x.keys.Perm y.keys :=
    (List.perm_ext_iff_of_nodup x.nodup_keys y.nodup_keys).2 fun k => by
      rw [mem_keys_iff_dim?, mem_keys_iff_dim?, h k]
  have hlength := hperm.length_eq
  rwa [SortedMap.keys, SortedMap.keys, List.length_map, List.length_map] at hlength

/-- A distance is measured wherever all keys are there in their dimensions. -/
theorem exists_maxAbsDiff [Scalar α] {x y : Assignment κ α} (h : x.HasKeysOf y) :
    ∃ d, x.maxAbsDiff y = .ok d := by
  refine Result.exists_foldlM (fun _ => True) (fun most e he _ => ?_) trivial
  have hdim : y.dim? e.1 = some e.2.length :=
    dim?_eq_some.2 ⟨e.2, SortedMap.get?_eq_some_iff.2 he, rfl⟩
  obtain ⟨v, hv, hlen⟩ := dim?_eq_some.1 (hasKeysOf_iff.1 h _ _ hdim)
  exact ⟨_, Result.bind_eq_ok.2 ⟨v, entryOf_eq_ok.2 ⟨hv, hlen⟩, rfl⟩, trivial⟩

/-- A distance that is not measured is refused for the first key that does not fit. -/
theorem exists_misfit_of_maxAbsDiff [Scalar α] {x y : Assignment κ α} {e : GraphError α}
    (h : x.maxAbsDiff y = .error e) : ∃ k n, x.FirstMisfit y k n ∧ e = x.misfit k n := by
  obtain ⟨part, ⟨k, w⟩, after, _, hy, hpart, hfail⟩ := Result.exists_split_of_foldlM_eq_error h
  obtain ⟨hne, rfl⟩ := entryOf_eq_error.1 (Result.bind_pure_eq_error.1 hfail)
  refine ⟨k, w.length, .of_split hy (fun d hd => ?_) hne, rfl⟩
  obtain ⟨_, _, hread⟩ := Result.exists_of_foldlM hpart hd
  obtain ⟨v, hv, -⟩ := Result.bind_eq_ok.1 hread
  exact dim?_eq_some.2 ⟨v, entryOf_eq_ok.1 hv⟩

variable [ExactScalar α] {x y z : Assignment κ α} {d m : α}

def differences (x y : Assignment κ α) : Set α :=
  {d | ∃ k n i, y.dim? k = some n ∧ i < n ∧ d = |x.entries k i - y.entries k i|}

/-- All entries under the keys of `y` agree up to `m` where all differences are within `m`. -/
theorem differences_le_iff (h : x.HasKeysOf y) (hm : 0 ≤ m) :
    (∀ d ∈ x.differences y, d ≤ m) ↔ ∀ k ∈ y.keys, ∀ i, |x.entries k i - y.entries k i| ≤ m := by
  constructor
  · intro hall k hk i
    obtain ⟨w, hw⟩ := SortedMap.mem_keys_iff.1 hk
    have hdim : y.dim? k = some w.length := dim?_eq_some.2 ⟨w, hw, rfl⟩
    by_cases hi : i < w.length
    · exact hall _ ⟨k, w.length, i, hdim, hi, rfl⟩
    · obtain ⟨v, hv, hlen⟩ := dim?_eq_some.1 ((h k hk).trans hdim)
      have hout := not_lt.1 hi
      rwa [entries_eq hv, entries_eq hw, Vec.get_of_length_le (hlen ▸ hout),
        Vec.get_of_length_le hout, sub_zero, abs_zero]
  · rintro hall _ ⟨k, n, i, hdim, -, rfl⟩
    exact hall k (mem_keys_iff_dim?.2 ⟨n, hdim⟩) i

/-- The measured distance is within a bound where all differences are. -/
theorem maxAbsDiff_le_iff (h : x.maxAbsDiff y = .ok d) (hm : 0 ≤ m) :
    d ≤ m ↔ ∀ k ∈ y.keys, ∀ i, |x.entries k i - y.entries k i| ≤ m := by
  have hscan (l : List (κ × Vec α)) (most : α)
      (hl : l.foldlM (fun most e => do
        let v ← x.entryOf e.1 e.2.length
        return Scalar.max most (Vec.amax (Vec.sub v e.2))) most =
          (.ok d : Except (GraphError α) α)) :
      d ≤ m ↔ most ≤ m ∧ ∀ e ∈ l, ∀ i, |x.entries e.1 i - Vec.get e.2 i| ≤ m := by
    induction l generalizing most with
    | nil => simp [Result.pure_eq_ok.1 hl]
    | cons e l ih =>
      rw [List.foldlM_cons, Result.bind_eq_ok] at hl
      obtain ⟨most', hhead, hl⟩ := hl
      obtain ⟨v, hv, hmost⟩ := Result.bind_eq_ok.1 hhead
      obtain ⟨hget, hlen⟩ := entryOf_eq_ok.1 hv
      have hmax : most' = max most (Vec.amax (Vec.sub v e.2)) := (Result.pure_eq_ok.1 hmost).symm
      rw [ih most' hl, hmax, max_le_iff, Vec.amax_sub_le_iff hlen hm, List.forall_mem_cons,
        and_assoc]
      simp only [entries_eq hget]
  rw [hscan y.toList 0 h]
  constructor
  · rintro ⟨-, hall⟩ k hk i
    obtain ⟨e, he, rfl⟩ := List.mem_map.1 hk
    rw [entries_eq (x := y) (SortedMap.get?_eq_some_iff.2 he)]
    exact hall e he i
  · refine fun hall => ⟨hm, fun e he i => ?_⟩
    rw [← entries_eq (x := y) (SortedMap.get?_eq_some_iff.2 he)]
    exact hall e.1 (List.mem_map_of_mem he) i

theorem maxAbsDiff_nonneg (h : x.maxAbsDiff y = .ok d) : 0 ≤ d := by
  refine Result.foldlM_keeps (0 ≤ ·) (fun most c e _ hmost hc => ?_) le_rfl h
  obtain ⟨v, -, hmax⟩ := Result.bind_eq_ok.1 hc
  have hc : c = max most (Vec.amax (Vec.sub v e.2)) := (Result.pure_eq_ok.1 hmax).symm
  exact hc ▸ hmost.trans (le_max_left _ _)

/-- The measured distance is the least bound of the differences, and zero if there are none. -/
theorem maxAbsDiff_spec (hxy : x.HasKeysOf y) (h : x.maxAbsDiff y = .ok d) :
    ((x.differences y).Nonempty → IsLUB (x.differences y) d) ∧
      (x.differences y = ∅ → d = 0) := by
  have hle {m : α} (hm : 0 ≤ m) : d ≤ m ↔ ∀ a ∈ x.differences y, a ≤ m :=
    (maxAbsDiff_le_iff h hm).trans (differences_le_iff hxy hm).symm
  refine ⟨fun ⟨a, ha⟩ => ⟨(hle (maxAbsDiff_nonneg h)).1 le_rfl, fun b hb => ?_⟩, fun hempty => ?_⟩
  · have hb0 : 0 ≤ b := by
      refine le_trans ?_ (hb ha)
      obtain ⟨_, _, _, -, -, rfl⟩ := ha
      exact abs_nonneg _
    exact (hle hb0).2 hb
  · refine le_antisymm ((hle le_rfl).2 fun a ha => ?_) (maxAbsDiff_nonneg h)
    rw [hempty] at ha
    cases ha

/-- Assignments are equal up to a tolerance if they have the same keys and dimensions, and no
difference is above it. -/
theorem equals_iff (hm : 0 ≤ m) :
    x.equals y m = true ↔ x.SameShape y ∧ ∀ d ∈ x.differences y, d ≤ m := by
  rw [equals, Bool.and_eq_true, beq_iff_eq]
  cases h : x.maxAbsDiff y with
  | error e =>
    obtain ⟨k, n, hmisfit, -⟩ := exists_misfit_of_maxAbsDiff h
    have hne : ¬x.SameShape y := fun hs => hmisfit.not_hasKeysOf hs.hasKeysOf
    simp [hne]
  | ok d =>
    have hxy : x.HasKeysOf y := hasKeysOf_iff.2 fun _ _ => dim?_of_maxAbsDiff h
    simp only [decide_eq_true_eq]
    rw [maxAbsDiff_le_iff h hm, differences_le_iff hxy hm]
    exact and_congr_left fun _ => ⟨hxy.sameShape, SameShape.size_eq⟩

/-- Where the keys are the same, all entries anywhere can be compared. -/
theorem equals_iff_entries (hm : 0 ≤ m) :
    x.equals y m = true ↔ x.SameShape y ∧ ∀ k i, |x.entries k i - y.entries k i| ≤ m := by
  rw [equals_iff hm]
  refine and_congr_right fun hs => ?_
  rw [differences_le_iff hs.hasKeysOf hm]
  refine ⟨fun hall k i => ?_, fun hall k _ => hall k⟩
  by_cases hk : k ∈ y.keys
  · exact hall k hk i
  · have hy := SortedMap.get?_eq_none_iff.2 hk
    have hx : x.get? k = none := Option.map_eq_none_iff.1 ((hs k).trans (by rw [dim?, hy]; rfl))
    rwa [entries_eq_zero hx, entries_eq_zero hy, sub_zero, abs_zero]

/-- Equality up to a tolerance means the same keys, the same dimensions, and no entries further
apart. It is reflexive and symmetric, tolerances add up along a chain, and the tolerance zero is
equality. The distance it rests on is measured exactly where all keys of the second assignment are
there in their dimensions. It is the least bound of the differences, and a refusal names the first
key that does not fit. -/
theorem equals_metric (x y z : Assignment κ α) :
    (∀ t, 0 ≤ t → (x.equals y t = true ↔ x.SameShape y ∧ ∀ d ∈ x.differences y, d ≤ t)) ∧
      (∀ t, 0 ≤ t → x.equals x t = true) ∧
      (∀ t, 0 ≤ t → x.equals y t = y.equals x t) ∧
      (∀ s t, 0 ≤ s → 0 ≤ t → x.equals y s = true → y.equals z t = true →
        x.equals z (s + t) = true) ∧
      (x.equals y 0 = true ↔ x = y) ∧
      (x.HasKeysOf y → ∃ d, x.maxAbsDiff y = .ok d ∧
        ((x.differences y).Nonempty → IsLUB (x.differences y) d) ∧
        (x.differences y = ∅ → d = 0)) ∧
      (¬x.HasKeysOf y → ∃ k n, x.FirstMisfit y k n ∧ x.maxAbsDiff y = .error (x.misfit k n)) := by
  refine ⟨fun t ht => equals_iff ht, fun t ht => ?_, fun t ht => ?_,
    fun s t hs ht hxy hyz => ?_, ?_, fun h => ?_, fun h => ?_⟩
  · refine (equals_iff_entries ht).2 ⟨.refl x, fun k i => ?_⟩
    rwa [sub_self, abs_zero]
  · rw [Bool.eq_iff_iff, equals_iff_entries ht, equals_iff_entries ht]
    simp only [abs_sub_comm (x.entries _ _)]
    exact and_congr_left fun _ => ⟨SameShape.symm, SameShape.symm⟩
  · obtain ⟨hxy, hfirst⟩ := (equals_iff_entries hs).1 hxy
    obtain ⟨hyz, hsecond⟩ := (equals_iff_entries ht).1 hyz
    refine (equals_iff_entries (add_nonneg hs ht)).2 ⟨hxy.trans hyz, fun k i => ?_⟩
    exact (abs_sub_le _ (y.entries k i) _).trans (add_le_add (hfirst k i) (hsecond k i))
  · rw [equals_iff_entries le_rfl]
    constructor
    · rintro ⟨hs, hall⟩
      refine ext_entries hs (funext fun k => funext fun i => ?_)
      exact sub_eq_zero.1 (abs_nonpos_iff.1 (hall k i))
    · rintro rfl
      exact ⟨.refl x, fun k i => by rw [sub_self, abs_zero]⟩
  · obtain ⟨d, hd⟩ := exists_maxAbsDiff h
    exact ⟨d, hd, maxAbsDiff_spec h hd⟩
  · cases hd : x.maxAbsDiff y with
    | ok d => exact absurd (hasKeysOf_iff.2 fun _ _ => dim?_of_maxAbsDiff hd) h
    | error e =>
      obtain ⟨k, n, hmisfit, rfl⟩ := exists_misfit_of_maxAbsDiff hd
      exact ⟨k, n, hmisfit, rfl⟩

/-- Three assignments of which the first two and the last two agree up to one and up to two. -/
theorem equals_metric_chain :
    let x : Assignment ℕ ℚ := .ofList [(0, [0, 2]), (1, [1])]
    let y : Assignment ℕ ℚ := .ofList [(0, [1, 2]), (1, [0])]
    let z : Assignment ℕ ℚ := .ofList [(0, [2, 4]), (1, [1])]
    let other : Assignment ℕ ℚ := .ofList [(0, [0, 2]), (2, [1])]
    x.equals z (1 + 2) = true ∧ x.equals y 1 = y.equals x 1 ∧
      (∃ d, x.maxAbsDiff y = .ok d ∧ IsLUB (x.differences y) d) ∧
      ∃ k n, x.FirstMisfit other k n ∧ x.maxAbsDiff other = .error (x.misfit k n) := by
  intro x y z other
  obtain ⟨-, -, hsymm, htrans, -, hdist, -⟩ := equals_metric x y z
  obtain ⟨-, -, -, -, -, -, hrefused⟩ := equals_metric x other z
  obtain ⟨d, hd, hlub, -⟩ := hdist (by decide +kernel)
  exact ⟨htrans 1 2 (by decide) (by decide) (by decide +kernel) (by decide +kernel),
    hsymm 1 (by decide),
    ⟨d, hd, hlub ⟨1, 0, 2, 0, by decide +kernel, by decide, by decide +kernel⟩⟩,
    hrefused (by decide +kernel)⟩

end Assignment

end GaussianProgram
