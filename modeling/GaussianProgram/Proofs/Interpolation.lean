import GaussianProgram.Proofs.Rows

/-! Interpolation of assignments. A step towards a target moves the entries under the keys of the
target in the order of keys. It stops at the first key that does not fit, and what it has moved
until then stays moved. -/
namespace GaussianProgram

namespace Assignment
variable {κ α : Type} [Key κ] {x y z : Assignment κ α} {k : κ} {n : ℕ}

def HasKeysOf (x y : Assignment κ α) : Prop := ∀ k ∈ y.keys, x.dim? k = y.dim? k

instance (x y : Assignment κ α) : Decidable (x.HasKeysOf y) :=
  inferInstanceAs (Decidable (∀ k ∈ y.keys, x.dim? k = y.dim? k))

theorem mem_keys_iff_dim? : k ∈ x.keys ↔ ∃ n, x.dim? k = some n := by
  rw [SortedMap.mem_keys_iff]
  constructor
  · rintro ⟨v, hv⟩
    exact ⟨v.length, dim?_eq_some.2 ⟨v, hv, rfl⟩⟩
  · rintro ⟨n, hn⟩
    obtain ⟨v, hv, -⟩ := dim?_eq_some.1 hn
    exact ⟨v, hv⟩

theorem hasKeysOf_iff : x.HasKeysOf y ↔ ∀ k n, y.dim? k = some n → x.dim? k = some n := by
  constructor
  · intro h k n hn
    rw [h k (mem_keys_iff_dim?.2 ⟨n, hn⟩), hn]
  · intro h k hk
    obtain ⟨n, hn⟩ := mem_keys_iff_dim?.1 hk
    rw [h k n hn, hn]

theorem get?_update_of_mem (x : Assignment κ α) (h : k ∈ y.keys) :
    (x.update y).get? k = y.get? k := by
  obtain ⟨v, hv⟩ := SortedMap.mem_keys_iff.1 h
  rw [get?_update, hv, Option.some_or]

theorem get?_update_of_notMem (x : Assignment κ α) (h : k ∉ y.keys) :
    (x.update y).get? k = x.get? k := by
  rw [get?_update, SortedMap.get?_eq_none_iff.2 h, Option.none_or]

/-! ### Keys that do not fit -/

def misfit (x : Assignment κ α) (k : κ) (n : ℕ) : GraphError α :=
  match x.dim? k with
  | none => .missingValue (Key.text k)
  | some m => .dimensionMismatch (.entry (Key.text k) m n)

theorem entryOf_eq_error {e : GraphError α} :
    x.entryOf k n = .error e ↔ x.dim? k ≠ some n ∧ e = x.misfit k n := by
  unfold entryOf tryGet misfit dim?
  cases x.get? k with
  | none => simp [bind, Except.bind, eq_comm]
  | some v =>
    by_cases hv : v.length = n
    · simp [bind, Except.bind, pure, Except.pure, hv]
    · have hne : ¬n = v.length := fun h => hv h.symm
      simp [bind, Except.bind, throw, throwThe, MonadExceptOf.throw, hv, eq_comm, hne]

/-- The first key of `y`, in the order of keys, that is missing or has another dimension than the
`n` that it has in `y`. -/
structure FirstMisfit (x y : Assignment κ α) (k : κ) (n : ℕ) : Prop where
  dim_target : y.dim? k = some n
  dim_ne : x.dim? k ≠ some n
  first : ∀ a ∈ y.keys, compare a k = .lt → x.dim? a = y.dim? a

instance (x y : Assignment κ α) (k : κ) (n : ℕ) : Decidable (x.FirstMisfit y k n) :=
  decidable_of_iff (y.dim? k = some n ∧ x.dim? k ≠ some n ∧
      ∀ a ∈ y.keys, compare a k = .lt → x.dim? a = y.dim? a)
    ⟨fun ⟨hn, hne, hfirst⟩ => ⟨hn, hne, hfirst⟩, fun h => ⟨h.dim_target, h.dim_ne, h.first⟩⟩

theorem FirstMisfit.not_hasKeysOf (h : x.FirstMisfit y k n) : ¬x.HasKeysOf y := fun hxy =>
  h.dim_ne (hasKeysOf_iff.1 hxy k n h.dim_target)

/-- The keys before an entry of `y` are those of the part of `y` in front of it. -/
private theorem mem_part {part after : List (κ × Vec α)} {v : Vec α}
    (hy : y.toList = part ++ (k, v) :: after) {e : κ × Vec α} (he : e ∈ y.toList) :
    compare e.1 k = .lt ↔ e ∈ part := by
  have hascending := y.ascending
  rw [hy] at hascending he
  obtain ⟨-, htail, hbefore⟩ := List.pairwise_append.1 hascending
  refine ⟨fun hlt => ?_, fun hpart => hbefore e hpart _ List.mem_cons_self⟩
  rcases List.mem_append.1 he with hpart | htarget
  · exact hpart
  · rcases List.mem_cons.1 htarget with rfl | hafter
    · simp at hlt
    · have hgt := (List.pairwise_cons.1 htail).1 e hafter
      rw [Std.OrientedCmp.gt_of_lt hgt] at hlt
      cases hlt

/-- A scan through `y` that passes some entries and stops at the next one stops at the
first misfit. -/
theorem FirstMisfit.of_split {part after : List (κ × Vec α)} {v : Vec α}
    (hy : y.toList = part ++ (k, v) :: after)
    (hpart : ∀ e ∈ part, x.dim? e.1 = some e.2.length) (hk : x.dim? k ≠ some v.length) :
    x.FirstMisfit y k v.length := by
  have hdim {e : κ × Vec α} (he : e ∈ y.toList) : y.dim? e.1 = some e.2.length :=
    dim?_eq_some.2 ⟨e.2, SortedMap.get?_eq_some_iff.2 he, rfl⟩
  have hmem : (k, v) ∈ y.toList := by simp [hy]
  refine ⟨hdim hmem, hk, fun a ha hlt => ?_⟩
  obtain ⟨e, he, rfl⟩ := List.mem_map.1 ha
  rw [hdim he, hpart e ((mem_part hy he).1 hlt)]

end Assignment

/-! ### Steps -/
namespace Assignment
variable {κ α : Type} [Key κ] [ExactScalar α] {x y z : Assignment κ α} {t : α} {k : κ}

/-- The vector under a key is the fraction `t` of the way from that of `x` to that of `y`. -/
structure MovedAt (x y z : Assignment κ α) (t : α) (k : κ) : Prop where
  dim_start : x.dim? k = y.dim? k
  dim : z.dim? k = y.dim? k
  entry : ∀ i, z.entries k i = x.entries k i + t * (y.entries k i - x.entries k i)

/-- A step that succeeds moves what is under the keys of its target. -/
theorem movedAt_of_stepTowards (h : x.stepTowards y t = (.ok (), z)) (hk : k ∈ y.keys) :
    MovedAt x y z t k := by
  obtain ⟨w, hw⟩ := SortedMap.mem_keys_iff.1 hk
  rcases stepAlong_ok y.ascending h k with ⟨hnone, -⟩ | ⟨goal, v, hgoal, hv, hlen, hz⟩
  · cases hnone.symm.trans hw
  · have hy : y.get? k = some goal := hgoal
    refine ⟨?_, ?_, fun i => ?_⟩
    · rw [dim?, dim?, hv, hy, Option.map_some, Option.map_some, hlen]
    · rw [dim?, dim?, hz, hy, Option.map_some, Option.map_some, length_interpolate hlen, hlen]
    · rw [entries_eq hz, entries_eq hv, entries_eq hy, get_interpolate hlen]

theorem get?_of_stepTowards (h : x.stepTowards y t = (.ok (), z)) (hk : k ∉ y.keys) :
    z.get? k = x.get? k := by
  rcases stepAlong_ok y.ascending h k with ⟨-, hz⟩ | ⟨goal, v, hgoal, -⟩
  · exact hz
  · exact absurd (SortedMap.mem_keys_iff.2 ⟨goal, hgoal⟩) hk

/-- A point is where a step has led if it has moved under the keys of the target and
nowhere else. -/
theorem stepTowards_eq (hmoved : ∀ k ∈ y.keys, MovedAt x y z t k)
    (hkept : ∀ k, k ∉ y.keys → z.get? k = x.get? k) : x.stepTowards y t = (.ok (), z) := by
  obtain ⟨z', hz'⟩ := exists_stepTowards (hasKeysOf_iff.1 fun k hk => (hmoved k hk).dim_start) t
  have hsame : z' = z := by
    have hget (k : κ) (hk : k ∉ y.keys) : z'.get? k = z.get? k :=
      (get?_of_stepTowards hz' hk).trans (hkept k hk).symm
    refine ext_entries (fun k => ?_) (funext fun k => funext fun i => ?_)
    · by_cases hk : k ∈ y.keys
      · rw [(movedAt_of_stepTowards hz' hk).dim, (hmoved k hk).dim]
      · rw [dim?, hget k hk, dim?]
    · by_cases hk : k ∈ y.keys
      · rw [(movedAt_of_stepTowards hz' hk).entry, (hmoved k hk).entry]
      · rw [entries, hget k hk, entries]
  rw [hz', hsame]

theorem stepTowards_zero (h : x.HasKeysOf y) : x.stepTowards y 0 = (.ok (), x) :=
  stepTowards_eq (fun k hk => ⟨h k hk, h k hk, fun i => by rw [zero_mul, add_zero]⟩)
    fun _ _ => rfl

/-- A full step takes over the target. -/
theorem stepTowards_one (h : x.HasKeysOf y) : x.stepTowards y 1 = (.ok (), x.update y) := by
  refine stepTowards_eq (fun k hk => ⟨h k hk, ?_, fun i => ?_⟩) fun k => get?_update_of_notMem x
  · rw [dim?, get?_update_of_mem x hk, dim?]
  · rw [entries_update hk, one_mul, add_sub_cancel]

/-- A step towards the whole point that the target makes of the start is a step towards
the target. -/
theorem stepTowards_update (h : x.HasKeysOf y) (t : α) :
    x.stepTowards (x.update y) t = x.stepTowards y t := by
  obtain ⟨z, hz⟩ := exists_stepTowards (hasKeysOf_iff.1 h) t
  have hshape : x.SameShape (x.update y) := sameShape_update (hasKeysOf_iff.1 h)
  rw [hz]
  refine stepTowards_eq (fun k _ => ?_) fun k hk => ?_
  · by_cases hk : k ∈ y.keys
    · obtain ⟨hstart, hdim, hentry⟩ := movedAt_of_stepTowards hz hk
      exact ⟨hshape k, (hdim.trans hstart.symm).trans (hshape k), fun i => by
        rw [entries_update hk, hentry]⟩
    · have hget : z.get? k = x.get? k := get?_of_stepTowards hz hk
      have hself := get?_update_of_notMem x hk
      refine ⟨hshape k, by rw [dim?, hget, dim?, hself], fun i => ?_⟩
      rw [entries, entries, entries, hget, hself, sub_self, mul_zero, add_zero]
  · exact get?_of_stepTowards hz fun hy => hk (mem_keys_update.2 (.inl hy))

/-- Two steps towards one target are one step. -/
theorem stepTowards_stepTowards (h : x.stepTowards y t = (.ok (), z)) (s : α) :
    z.stepTowards y s = x.stepTowards y (t + s - t * s) := by
  have hmoved {k : κ} (hk : k ∈ y.keys) : MovedAt x y z t k := movedAt_of_stepTowards h hk
  obtain ⟨z', hz'⟩ := exists_stepTowards
    (hasKeysOf_iff.1 fun k hk => (hmoved hk).dim) s
  rw [hz']
  refine (stepTowards_eq (fun k hk => ?_) fun k hk => ?_).symm
  · have hthen := movedAt_of_stepTowards hz' hk
    refine ⟨(hmoved hk).dim_start, hthen.dim, fun i => ?_⟩
    rw [hthen.entry, (hmoved hk).entry]
    ring
  · rw [get?_of_stepTowards hz' hk, get?_of_stepTowards h hk]

/-- A step that fails has succeeded towards the part of its target before an entry that does
not fit. -/
private theorem exists_split_of_stepAlong {l : List (κ × Vec α)}
    (hl : l.Pairwise fun a b => compare a.1 b.1 = .lt) {e : GraphError α}
    (h : stepAlong t l x = (.error e, z)) : ∃ part k v after,
      l = part ++ (k, v) :: after ∧ stepAlong t part x = (.ok (), z) ∧
        x.dim? k ≠ some v.length ∧ e = x.misfit k v.length := by
  induction l generalizing x with
  | nil => cases h
  | cons d l ih =>
    obtain ⟨k, goal⟩ := d
    obtain ⟨hlt, hl⟩ := List.pairwise_cons.1 hl
    rw [stepAlong] at h
    cases hv : x.entryOf k goal.length with
    | error e' =>
      rw [hv] at h
      cases h
      obtain ⟨hne, rfl⟩ := entryOf_eq_error.1 hv
      exact ⟨[], k, goal, l, rfl, rfl, hne, rfl⟩
    | ok v =>
      rw [hv] at h
      obtain ⟨part, k', w, after, rfl, hpart, hne, rfl⟩ := ih hl h
      -- the entries after this one are read at other keys, where nothing has changed yet
      have hdim : dim? (x.insert k (interpolate v goal t)) k' = x.dim? k' := by
        have hother : k' ≠ k := fun hk => by
          have hself := hlt (k', w) (by simp)
          simp [hk] at hself
        rw [dim?, SortedMap.get?_insert_of_ne hother, dim?]
      refine ⟨(k, goal) :: part, k', w, after, rfl, ?_, hdim ▸ hne, ?_⟩
      · rw [stepAlong, hv]
        exact hpart
      · rw [misfit, misfit, hdim]

/-- A step fails at the first key of its target that does not fit. The entries before it
have moved. -/
theorem exists_misfit_of_stepTowards {e : GraphError α} (h : x.stepTowards y t = (.error e, z)) :
    ∃ k n, x.FirstMisfit y k n ∧ e = x.misfit k n ∧
      (∀ a ∈ y.keys, compare a k = .lt → MovedAt x y z t a) ∧
      ∀ a, (a ∈ y.keys → compare a k ≠ .lt) → z.get? a = x.get? a := by
  obtain ⟨part, k, w, after, hy, hpart, hne, rfl⟩ := exists_split_of_stepAlong y.ascending h
  -- the part of the target that has been reached is a target of its own
  let m : Assignment κ α := ⟨part, (List.pairwise_append.1 (hy ▸ y.ascending)).1⟩
  have hm : x.stepTowards m t = (.ok (), z) := hpart
  have hkeys {a : κ} : a ∈ m.keys ↔ a ∈ y.keys ∧ compare a k = .lt := by
    constructor
    · intro ha
      obtain ⟨e, he, rfl⟩ := List.mem_map.1 ha
      have hmem : e ∈ y.toList := hy ▸ List.mem_append_left _ he
      exact ⟨List.mem_map_of_mem hmem, (mem_part hy hmem).2 he⟩
    · rintro ⟨ha, hlt⟩
      obtain ⟨e, he, rfl⟩ := List.mem_map.1 ha
      exact List.mem_map_of_mem ((mem_part hy he).1 hlt)
  have hget {a : κ} (ha : a ∈ m.keys) : y.get? a = m.get? a := by
    obtain ⟨v, hv⟩ := SortedMap.mem_keys_iff.1 ha
    rw [hv, SortedMap.get?_eq_some_iff, hy]
    exact List.mem_append_left _ (SortedMap.get?_eq_some_iff.1 hv)
  refine ⟨k, w.length, .of_split hy (fun e he => ?_) hne, rfl, fun a ha hlt => ?_, fun a ha => ?_⟩
  · exact dim?_of_stepTowards hm
      (dim?_eq_some.2 ⟨e.2, SortedMap.get?_eq_some_iff.2 he, rfl⟩)
  · have hmem := hkeys.2 ⟨ha, hlt⟩
    have hdim : y.dim? a = m.dim? a := by rw [dim?, hget hmem, dim?]
    have hentries : y.entries a = m.entries a := by funext i; rw [entries, hget hmem, entries]
    have hmoved := movedAt_of_stepTowards hm hmem
    exact ⟨hmoved.dim_start.trans hdim.symm, hmoved.dim.trans hdim.symm,
      fun i => hentries ▸ hmoved.entry i⟩
  · exact get?_of_stepTowards hm fun hmem => ha (hkeys.1 hmem).1 (hkeys.1 hmem).2

end Assignment

/-! ### Rows along a step -/

/-- Two folds fail alike if each member decides whether their steps fail, whatever has been
folded before. -/
theorem Result.foldlM_eq_error_of {α β γ ε : Type} {f : β → α → Except ε β}
    {g : γ → α → Except ε γ} {l : List α} {b : β} {c : γ} {e : ε}
    (hstep : ∀ a ∈ l, ((∀ b, ∃ b', f b a = .ok b') ∧ ∀ c, ∃ c', g c a = .ok c') ∨
      ∃ e, (∀ b, f b a = .error e) ∧ ∀ c, g c a = .error e)
    (h : l.foldlM f b = .error e) : l.foldlM g c = .error e := by
  induction l generalizing b c with
  | nil => cases h
  | cons a l ih =>
    obtain ⟨hhead, hrest⟩ := List.forall_mem_cons.1 hstep
    rw [List.foldlM_cons] at h ⊢
    rcases hhead with ⟨hf, hg⟩ | ⟨e', hf, hg⟩
    · obtain ⟨b', hb'⟩ := hf b
      obtain ⟨c', hc'⟩ := hg c
      rw [hb'] at h
      rw [hc']
      exact ih hrest h
    · rw [hf b] at h
      cases (h : (.error e' : Except ε β) = .error e)
      rw [hg c]
      rfl

namespace LinearRows
variable {κ α : Type} [Key κ] {x y z : Assignment κ α} {row : ℕ} {e : Failure (FactorError α)}

/-- Whether entries are read under a key, and what is reported if not, is up to their dimension. -/
private theorem valueOf_congr {k : κ} (h : x.dim? k = z.dim? k) (n : ℕ) :
    (∃ v w, x.valueOf k n = .ok v ∧ z.valueOf k n = .ok w) ∨
      ∃ e, x.valueOf k n = .error e ∧ z.valueOf k n = .error e := by
  unfold Assignment.valueOf
  unfold Assignment.dim? at h
  cases hx : x.get? k with
  | none =>
    rw [hx] at h
    rw [Option.map_eq_none_iff.1 h.symm]
    exact .inr ⟨_, rfl, rfl⟩
  | some v =>
    rw [hx] at h
    obtain ⟨w, hw, hlen⟩ := Option.map_eq_some_iff.1 h.symm
    simp only [hw, hlen]
    by_cases hn : v.length = n
    · exact .inl ⟨v, w, by rw [if_pos hn], by rw [if_pos hn]⟩
    · exact .inr ⟨_, by rw [if_neg hn], by rw [if_neg hn]⟩

/-- A row fails alike at points that have its variables in the same dimensions. -/
theorem rowValue_eq_error_of_dims [Scalar α] {f : LinearRows κ α}
    (h : ∀ k ∈ f.keys, x.dim? k = z.dim? k) (he : f.rowValue row x = .error e) :
    f.rowValue row z = .error e := by
  unfold rowValue at he ⊢
  split_ifs at he ⊢
  · exact he
  refine Result.foldlM_eq_error_of (fun t ht => ?_) he
  obtain ⟨k, block⟩ := t
  rcases valueOf_congr (h k (List.mem_map_of_mem ht)) block.cols with ⟨v, w, hv, hw⟩ | ⟨_, hv, hw⟩
  · simp only [hv, hw]
    cases block.row? row with
    | none => exact .inr ⟨.outOfRange, fun _ => rfl, fun _ => rfl⟩
    | some coefficients => exact .inl ⟨fun _ => ⟨_, rfl⟩, fun _ => ⟨_, rfl⟩⟩
  · simp only [hv, hw]
    exact .inr ⟨_, fun _ => rfl, fun _ => rfl⟩

/-- A row over moved entries takes the value between those at both ends, and fails where it does at
the start. -/
theorem rowValue_of_movedAt [ExactScalar α] {f : LinearRows κ α} {t : α}
    (h : ∀ k ∈ f.keys, x.MovedAt y z t k) :
    f.rowValue row z = do
      let a ← f.rowValue row x
      let b ← f.rowValue row y
      return (1 - t) * a + t * b := by
  cases hx : f.rowValue row x with
  | error e =>
    exact rowValue_eq_error_of_dims (fun k hk => (h k hk).dim_start.trans (h k hk).dim.symm) hx
  | ok a =>
    obtain ⟨hrow, hdims, rfl⟩ := rowValue_eq_ok.1 hx
    have hkey {d : κ × ℕ} (hd : d ∈ f.keyDims) : x.MovedAt y z t d.1 := by
      obtain ⟨term, hterm, rfl⟩ := List.mem_map.1 hd
      exact h term.1 (List.mem_map_of_mem hterm)
    have hy : f.rowValue row y = .ok (f.form row y.entries) :=
      rowValue_eq_ok.2 ⟨hrow, fun d hd => (hkey hd).dim_start ▸ hdims d hd, rfl⟩
    have hz : f.form row z.entries =
        f.form row ((1 - t) • x.entries + t • y.entries) := by
      refine f.form_congr row fun k hk => funext fun i => ?_
      rw [(h k hk).entry]
      simp only [Pi.add_apply, Pi.smul_apply, smul_eq_mul]
      ring
    rw [hy, rowValue_eq_ok.2 ⟨hrow, fun d hd => ?_, rfl⟩, hz, map_add, map_smul, map_smul]
    · rfl
    · rw [(hkey hd).dim, ← (hkey hd).dim_start]
      exact hdims d hd

end LinearRows

namespace Assignment
variable {κ α : Type} [Key κ] [ExactScalar α]

/-- A step succeeds exactly towards a target whose keys are all there in their dimensions. It then
moves the entries under these keys and no other. Steps of no and of full length lead to the start
and to the target, two steps are one, and rows over the keys of the target are interpolated. A step
that fails names the first key that does not fit. It has moved the entries under the keys before
it and no other. -/
theorem stepTowards_spec (x y : Assignment κ α) (t : α) :
    ((x.stepTowards y t).1 = .ok () ↔ x.HasKeysOf y) ∧
      (x.HasKeysOf y → ∃ z, x.stepTowards y t = (.ok (), z) ∧
        (∀ k ∈ y.keys, x.MovedAt y z t k) ∧ (∀ k, k ∉ y.keys → z.get? k = x.get? k) ∧
        x.stepTowards y 0 = (.ok (), x) ∧ x.stepTowards y 1 = (.ok (), x.update y) ∧
        (∀ s, z.stepTowards y s = x.stepTowards y (t + s - t * s)) ∧
        ∀ (f : LinearRows κ α) (row : ℕ), (∀ k ∈ f.keys, k ∈ y.keys) →
          f.rowValue row z = do
            let a ← f.rowValue row x
            let b ← f.rowValue row y
            return (1 - t) * a + t * b) ∧
      (¬x.HasKeysOf y → ∃ k n z, x.FirstMisfit y k n ∧
        x.stepTowards y t = (.error (x.misfit k n), z) ∧
        (∀ a ∈ y.keys, compare a k = .lt → x.MovedAt y z t a) ∧
        ∀ a, (a ∈ y.keys → compare a k ≠ .lt) → z.get? a = x.get? a) := by
  have hiff : (x.stepTowards y t).1 = .ok () ↔ x.HasKeysOf y := by
    constructor
    · intro h
      exact hasKeysOf_iff.2 fun k n => dim?_of_stepTowards (Prod.ext h rfl)
    · intro h
      obtain ⟨z, hz⟩ := exists_stepTowards (hasKeysOf_iff.1 h) t
      rw [hz]
  refine ⟨hiff, fun h => ?_, fun h => ?_⟩
  · obtain ⟨z, hz⟩ := exists_stepTowards (hasKeysOf_iff.1 h) t
    exact ⟨z, hz, fun k => movedAt_of_stepTowards hz, fun k => get?_of_stepTowards hz,
      stepTowards_zero h, stepTowards_one h, stepTowards_stepTowards hz, fun f row hf =>
        LinearRows.rowValue_of_movedAt fun k hk => movedAt_of_stepTowards hz (hf k hk)⟩
  · obtain ⟨e, he⟩ : ∃ e, (x.stepTowards y t).1 = .error e := by
      cases hr : (x.stepTowards y t).1 with
      | error e => exact ⟨e, rfl⟩
      | ok _ => exact absurd (hiff.1 hr) h
    obtain ⟨k, n, hmisfit, rfl, hmoved, hkept⟩ :=
      exists_misfit_of_stepTowards (z := (x.stepTowards y t).2) (Prod.ext he rfl)
    exact ⟨k, n, _, hmisfit, Prod.ext he rfl, hmoved, hkept⟩

/-- Half a step towards a target with two of three keys, and towards one whose second key has
another dimension. -/
theorem stepTowards_spec_half :
    let x : Assignment ℕ ℚ := .ofList [(0, [0, 2]), (1, [1]), (2, [5])]
    let y : Assignment ℕ ℚ := .ofList [(0, [4, 0]), (1, [3])]
    let y' : Assignment ℕ ℚ := .ofList [(0, [4, 0]), (1, [3, 3]), (3, [1])]
    (∃ z, x.stepTowards y (1 / 2) = (.ok (), z) ∧ z = .ofList [(0, [2, 1]), (1, [2]), (2, [5])] ∧
      x.stepTowards y 1 = (.ok (), x.update y)) ∧
    ∃ k n z, x.FirstMisfit y' k n ∧ x.stepTowards y' (1 / 2) = (.error (x.misfit k n), z) ∧
      z = .ofList [(0, [2, 1]), (1, [1]), (2, [5])] := by
  intro x y y'
  obtain ⟨-, hstep, -⟩ := stepTowards_spec x y (1 / 2)
  obtain ⟨-, -, hstop⟩ := stepTowards_spec x y' (1 / 2)
  obtain ⟨z, hz, -, -, -, hone, -⟩ := hstep (by decide +kernel)
  obtain ⟨k, n, z', hmisfit, hz', -⟩ := hstop (by decide +kernel)
  have hend : (x.stepTowards y (1 / 2)).2 = .ofList [(0, [2, 1]), (1, [2]), (2, [5])] := by
    decide +kernel
  have hend' : (x.stepTowards y' (1 / 2)).2 = .ofList [(0, [2, 1]), (1, [1]), (2, [5])] := by
    decide +kernel
  rw [hz] at hend
  rw [hz'] at hend'
  exact ⟨⟨z, hz, hend, hone⟩, k, n, z', hmisfit, hz', hend'⟩

end Assignment

end GaussianProgram
