import GaussianProgram.Proofs.Exact
import GaussianProgram.Proofs.Sequence
import GaussianProgram.Assignment
import GaussianProgram.Sorted.Lookup

/-! Assignments as points: a number for every entry of every variable, zero where there is none.
Updates and steps along a segment are read off entry by entry. -/
namespace GaussianProgram

/-- A number for every entry of every variable. -/
abbrev Point (κ α : Type) := κ → ℕ → α

namespace SortedMap
variable {κ β : Type} [Ord κ] [Std.LawfulEqOrd κ]

theorem lookup_cons_self (k : κ) (v : β) (l : List (κ × β)) : lookup k ((k, v) :: l) = some v := by
  simp [lookup]

theorem lookup_cons_of_ne {a k : κ} (h : a ≠ k) (v : β) (l : List (κ × β)) :
    lookup a ((k, v) :: l) = lookup a l := by
  rw [lookup]
  split
  next he => exact absurd (compare_eq_iff.1 he) h
  next => rfl

/-- A lookup finds nothing when all keys come later. -/
theorem lookup_eq_none {k : κ} {l : List (κ × β)} (h : ∀ e ∈ l, compare k e.1 = .lt) :
    lookup k l = none := by
  induction l with
  | nil => rfl
  | cons e l ih =>
    have hne : k ≠ e.1 := fun he => by
      have hlt := h e List.mem_cons_self
      rw [he] at hlt
      simp at hlt
    rw [lookup_cons_of_ne hne]
    exact ih fun e' he' => h e' (List.mem_cons_of_mem _ he')

variable [Std.TransOrd κ]

theorem get?_insertAll (m : SortedMap κ β) {l : List (κ × β)}
    (hl : l.Pairwise fun a b => compare a.1 b.1 = .lt) (k : κ) :
    (m.insertAll l).get? k = (lookup k l).or (m.get? k) := by
  induction l generalizing m with
  | nil => rfl
  | cons e l ih =>
    obtain ⟨k', v⟩ := e
    obtain ⟨hlt, hl⟩ := List.pairwise_cons.1 hl
    rw [show m.insertAll ((k', v) :: l) = (m.insert k' v).insertAll l from rfl, ih _ hl]
    by_cases hk : k = k'
    · subst hk
      rw [lookup_eq_none hlt, lookup_cons_self, get?_insert_self]
      rfl
    · rw [lookup_cons_of_ne hk, get?_insert_of_ne hk]

theorem get?_ofList {l : List (κ × β)} (hl : l.Pairwise fun a b => compare a.1 b.1 = .lt) (k : κ) :
    (ofList l).get? k = lookup k l := by
  rw [ofList, get?_insertAll _ hl, get?_empty, Option.or_none]

section Related
variable {γ : Type} {R : κ → β → γ → Prop} {k : κ}

omit [Std.TransOrd κ] in
private theorem lookup_of_forall₂ {entries : List (κ × β)} {l : List (κ × γ)}
    (h : List.Forall₂ (fun e e' => e'.1 = e.1 ∧ R e.1 e.2 e'.2) entries l) :
    (lookup k entries = none ∧ lookup k l = none) ∨
      ∃ b c, lookup k entries = some b ∧ lookup k l = some c ∧ R k b c := by
  induction h with
  | nil => exact .inl ⟨rfl, rfl⟩
  | @cons e e' _ _ he _ ih =>
    obtain ⟨a, b⟩ := e
    obtain ⟨a', c⟩ := e'
    obtain ⟨rfl, hR⟩ := he
    by_cases hk : k = a'
    · subst hk
      rw [lookup_cons_self, lookup_cons_self]
      exact .inr ⟨b, c, rfl, rfl, hR⟩
    · rw [lookup_cons_of_ne hk, lookup_cons_of_ne hk]
      exact ih

/-- A list that has the keys of a map, with values related to those of the map, is a map so related
to it. -/
theorem get?_ofList_of_forall₂ {m : SortedMap κ β} {l : List (κ × γ)}
    (h : List.Forall₂ (fun e e' => e'.1 = e.1 ∧ R e.1 e.2 e'.2) m.toList l) :
    (m.get? k = none ∧ (ofList l).get? k = none) ∨
      ∃ b c, m.get? k = some b ∧ (ofList l).get? k = some c ∧ R k b c := by
  have hkeys : l.map (·.1) = m.keys := by
    rw [keys, ← List.forall₂_eq_eq_eq, List.forall₂_map_left_iff, List.forall₂_map_right_iff]
    exact h.flip.imp fun _ _ he => he.1
  have hascending : l.Pairwise fun a b => compare a.1 b.1 = .lt :=
    List.pairwise_map.1 (hkeys ▸ m.ascending_keys)
  rw [get?_ofList hascending]
  exact lookup_of_forall₂ h

end Related

theorem mem_keys_ofList {l : List (κ × β)} {k : κ} : k ∈ (ofList l).keys ↔ k ∈ l.map (·.1) := by
  have hall (m : SortedMap κ β) : k ∈ (m.insertAll l).keys ↔ k ∈ l.map (·.1) ∨ k ∈ m.keys := by
    induction l generalizing m with
    | nil => simp [insertAll]
    | cons e l ih =>
      rw [List.map_cons, List.mem_cons, or_assoc, or_left_comm, ← mem_keys_insert]
      exact ih _
  rw [ofList, hall]
  simp [keys, empty]

/-- A new value under a key replaces its term of a sum over the entries. -/
theorem sum_insert {M : Type} [AddCommGroup M] (m : SortedMap κ β) (k : κ) (v : β)
    (φ : κ × β → M) : ((m.insert k v).toList.map φ).sum =
      (m.toList.map φ).sum - ((m.get? k).map fun u => φ (k, u)).getD 0 + φ (k, v) := by
  have hput (l : List (κ × β)) (hl : l.Pairwise fun a b => compare a.1 b.1 = .lt) :
      ((put k v l).map φ).sum =
        (l.map φ).sum - ((lookup k l).map fun u => φ (k, u)).getD 0 + φ (k, v) := by
    induction l with
    | nil => simp [put, lookup]
    | cons e l ih =>
      obtain ⟨k', u⟩ := e
      obtain ⟨hlt, hrest⟩ := List.pairwise_cons.1 hl
      rw [put]
      cases hk : compare k k' with
      | lt =>
        have hnone : lookup k ((k', u) :: l) = none := by
          refine lookup_eq_none (List.forall_mem_cons.2 ⟨hk, fun e he => ?_⟩)
          exact Std.TransCmp.lt_trans hk (hlt e he)
        rw [hnone, Option.map_none, Option.getD_none, sub_zero, List.map_cons, List.sum_cons,
          add_comm]
      | eq =>
        obtain rfl := compare_eq_iff.1 hk
        rw [lookup_cons_self, Option.map_some, Option.getD_some, List.map_cons, List.map_cons,
          List.sum_cons, List.sum_cons, add_sub_cancel_left, add_comm]
      | gt =>
        have hne : k ≠ k' := fun he => by
          rw [compare_eq_iff.2 he] at hk
          cases hk
        rw [lookup_cons_of_ne hne]
        simp only [List.map_cons, List.sum_cons, ih hrest]
        abel
  exact hput m.toList m.ascending

/-- A list of pairs with different keys has the terms of the map that it makes. -/
theorem sum_ofList {M : Type} [AddCommGroup M] {l : List (κ × β)} (h : (l.map (·.1)).Nodup)
    (φ : κ × β → M) : ((ofList l).toList.map φ).sum = (l.map φ).sum := by
  have hall (m : SortedMap κ β) (hm : ∀ e ∈ l, m.get? e.1 = none) :
      ((m.insertAll l).toList.map φ).sum = (m.toList.map φ).sum + (l.map φ).sum := by
    induction l generalizing m with
    | nil => simp [insertAll]
    | cons e l ih =>
      obtain ⟨hnew, hl⟩ := List.nodup_cons.1 h
      obtain ⟨hnone, hm⟩ := List.forall_mem_cons.1 hm
      rw [show m.insertAll (e :: l) = (m.insert e.1 e.2).insertAll l from rfl, ih hl, sum_insert,
        hnone, List.map_cons, List.sum_cons, ← add_assoc, Option.map_none, Option.getD_none,
        sub_zero]
      intro e' he'
      have hne : e'.1 ≠ e.1 := fun he => hnew (List.mem_map.2 ⟨e', he', he⟩)
      rw [get?_insert_of_ne hne, hm e' he']
  rw [ofList, hall _ fun e _ => get?_empty e.1, show (empty : SortedMap κ β).toList = [] from rfl,
    List.map_nil, List.sum_nil, zero_add]

end SortedMap

namespace Assignment
variable {κ α : Type} [Key κ]

def dim? (x : Assignment κ α) (k : κ) : Option ℕ := (x.get? k).map List.length

theorem dim?_eq_some {x : Assignment κ α} {k : κ} {n : ℕ} :
    x.dim? k = some n ↔ ∃ v, x.get? k = some v ∧ v.length = n := by
  simp [dim?]

def SameShape (x y : Assignment κ α) : Prop := ∀ k, x.dim? k = y.dim? k

theorem SameShape.refl (x : Assignment κ α) : x.SameShape x := fun _ => rfl

theorem SameShape.trans {x y z : Assignment κ α} (hxy : x.SameShape y) (hyz : y.SameShape z) :
    x.SameShape z := fun k => (hxy k).trans (hyz k)

theorem get?_update (x y : Assignment κ α) (k : κ) :
    (x.update y).get? k = (y.get? k).or (x.get? k) :=
  SortedMap.get?_insertAll x y.ascending k

theorem dim?_update (x y : Assignment κ α) (k : κ) :
    (x.update y).dim? k = (y.dim? k).or (x.dim? k) := by
  rw [dim?, get?_update, dim?, dim?]
  cases y.get? k <;> rfl

theorem mem_keys_update {x y : Assignment κ α} {k : κ} :
    k ∈ (x.update y).keys ↔ k ∈ y.keys ∨ k ∈ x.keys := by
  simp only [SortedMap.mem_keys_iff, get?_update, Option.or_eq_some_iff]
  constructor
  · rintro ⟨v, hv | ⟨_, hv⟩⟩
    · exact .inl ⟨v, hv⟩
    · exact .inr ⟨v, hv⟩
  · rintro (⟨v, hv⟩ | ⟨v, hv⟩)
    · exact ⟨v, .inl hv⟩
    · cases hy : y.get? k with
      | none => exact ⟨v, .inr ⟨rfl, hv⟩⟩
      | some w => exact ⟨w, .inl rfl⟩

theorem mem_keys_update_of_mem (x y : Assignment κ α) : ∀ k ∈ x.keys, k ∈ (x.update y).keys :=
  fun _ hk => mem_keys_update.2 (.inr hk)

/-- Moving to a point that was itself reached by an update leads there. -/
theorem update_update_self (x y : Assignment κ α) : x.update (x.update y) = x.update y := by
  apply SortedMap.ext_get?
  intro k
  rw [get?_update, get?_update]
  cases y.get? k <;> cases x.get? k <;> rfl

/-- A second update with the same entries changes nothing. -/
theorem update_update_same (x y : Assignment κ α) : (x.update y).update y = x.update y := by
  apply SortedMap.ext_get?
  intro k
  rw [get?_update, get?_update]
  cases y.get? k <;> rfl

theorem valueOf_eq_ok {x : Assignment κ α} {k : κ} {n : ℕ} {v : Vec α} :
    x.valueOf k n = .ok v ↔ x.get? k = some v ∧ v.length = n := by
  unfold valueOf
  cases x.get? k with
  | none => simp
  | some w =>
    by_cases hw : w.length = n
    · simp only [hw, if_true, Except.ok.injEq, Option.some.injEq]
      exact ⟨fun h => ⟨h, h ▸ hw⟩, And.left⟩
    · simp only [hw, if_false, reduceCtorEq, Option.some.injEq, false_iff, not_and]
      rintro rfl
      exact hw

theorem entryOf_eq_ok {x : Assignment κ α} {k : κ} {n : ℕ} {v : Vec α} :
    x.entryOf k n = .ok v ↔ x.get? k = some v ∧ v.length = n := by
  unfold entryOf tryGet
  cases x.get? k with
  | none => simp [bind, Except.bind]
  | some w =>
    by_cases hw : w.length = n
    · simp only [bind, Except.bind, hw, if_true, pure, Except.pure, Except.ok.injEq,
        Option.some.injEq]
      exact ⟨fun h => ⟨h, h ▸ hw⟩, And.left⟩
    · simp only [bind, Except.bind, hw, if_false, throw, throwThe, MonadExceptOf.throw,
        reduceCtorEq, Option.some.injEq, false_iff, not_and]
      rintro rfl
      exact hw

/-- Updating with a point of the same dimensions keeps keys and dimensions. -/
theorem sameShape_update {x y : Assignment κ α}
    (h : ∀ k n, y.dim? k = some n → x.dim? k = some n) : x.SameShape (x.update y) := by
  intro k
  cases hy : y.get? k with
  | none => rw [dim?, dim?, get?_update, hy, Option.none_or]
  | some w =>
    have hd : y.dim? k = some w.length := by simp [dim?, hy]
    rw [h k _ hd, dim?, get?_update, hy]
    rfl

variable [Scalar α]

/-- A step along distinct keys moves every entry it names and no other. -/
theorem stepAlong_ok {t : α} {l : List (κ × Vec α)} {x z : Assignment κ α}
    (hl : l.Pairwise fun a b => compare a.1 b.1 = .lt) (h : stepAlong t l x = (.ok (), z)) (k : κ) :
    (SortedMap.lookup k l = none ∧ z.get? k = x.get? k) ∨
      ∃ goal v, SortedMap.lookup k l = some goal ∧ x.get? k = some v ∧ v.length = goal.length ∧
        z.get? k = some (interpolate v goal t) := by
  induction l generalizing x with
  | nil =>
    have hz : z = x := (Prod.ext_iff.1 h).2.symm
    exact .inl ⟨rfl, hz ▸ rfl⟩
  | cons e l ih =>
    obtain ⟨k', goal⟩ := e
    obtain ⟨hlt, hrest⟩ := List.pairwise_cons.1 hl
    rw [stepAlong] at h
    cases hv : x.entryOf k' goal.length with
    | error e => simp [hv] at h
    | ok v =>
      rw [hv] at h
      obtain ⟨hget, hlen⟩ := entryOf_eq_ok.1 hv
      by_cases hk : k = k'
      · subst hk
        have hnone : SortedMap.lookup k l = none := SortedMap.lookup_eq_none hlt
        rcases ih hrest h with ⟨_, hz⟩ | ⟨g, _, hg, _⟩
        · rw [SortedMap.get?_insert_self] at hz
          exact .inr ⟨goal, v, SortedMap.lookup_cons_self _ _ _, hget, hlen, hz⟩
        · exact absurd (hnone.symm.trans hg) (by simp)
      · rw [SortedMap.lookup_cons_of_ne hk]
        rw [← SortedMap.get?_insert_of_ne hk x (interpolate v goal t)]
        exact ih hrest h

/-- A step succeeds towards every target whose keys are there in the same dimension. -/
theorem exists_stepTowards {x y : Assignment κ α} (h : ∀ k n, y.dim? k = some n → x.dim? k = some n)
    (t : α) : ∃ z, x.stepTowards y t = (.ok (), z) := by
  have hlist (l : List (κ × Vec α)) (x : Assignment κ α)
      (hl : l.Pairwise fun a b => compare a.1 b.1 = .lt)
      (hx : ∀ e ∈ l, x.dim? e.1 = some e.2.length) : ∃ z, stepAlong t l x = (.ok (), z) := by
    induction l generalizing x with
    | nil => exact ⟨x, rfl⟩
    | cons e l ih =>
      obtain ⟨k, goal⟩ := e
      obtain ⟨hlt, hrest⟩ := List.pairwise_cons.1 hl
      obtain ⟨hhead, hx⟩ := List.forall_mem_cons.1 hx
      obtain ⟨v, hv, hlen⟩ := dim?_eq_some.1 hhead
      rw [stepAlong, entryOf_eq_ok.2 ⟨hv, hlen⟩]
      apply ih _ hrest
      intro e he
      have hne : e.1 ≠ k := fun heq => by
        have hself := hlt e he
        rw [heq] at hself
        simp at hself
      rw [dim?, SortedMap.get?_insert_of_ne hne]
      exact hx e he
  refine hlist y.toList x y.ascending fun e he => h _ _ ?_
  rw [dim?, SortedMap.get?_eq_some_iff.2 he]
  rfl

theorem length_interpolate {v goal : Vec α} (h : v.length = goal.length) (t : α) :
    (interpolate v goal t).length = v.length := by
  simp [interpolate, h]

theorem sameShape_stepTowards {x y z : Assignment κ α} {t : α}
    (h : x.stepTowards y t = (.ok (), z)) : x.SameShape z := by
  intro k
  rcases stepAlong_ok y.ascending h k with ⟨_, hz⟩ | ⟨goal, v, _, hx, hlen, hz⟩
  · rw [dim?, dim?, hz]
  · rw [dim?, dim?, hz, hx]
    simp [length_interpolate hlen]

/-- A step succeeds only towards a target whose keys are there in the same dimension. -/
theorem dim?_of_stepTowards {x y z : Assignment κ α} {t : α}
    (h : x.stepTowards y t = (.ok (), z)) {k : κ} {n : ℕ} (hk : y.dim? k = some n) :
    x.dim? k = some n := by
  obtain ⟨w, hw, hn⟩ := dim?_eq_some.1 hk
  rcases stepAlong_ok y.ascending h k with ⟨hnone, _⟩ | ⟨goal, v, hg, hx, hlen, _⟩
  · exact absurd (hnone.symm.trans hw) (by simp)
  · have hgw : goal = w := Option.some.inj (hg.symm.trans hw)
    exact dim?_eq_some.2 ⟨v, hx, by rw [hlen, hgw, hn]⟩

/-- A distance is measured only to a point whose keys are there in the same dimension. -/
theorem dim?_of_maxAbsDiff {x y : Assignment κ α} {d : α} (h : x.maxAbsDiff y = .ok d) {k : κ}
    {n : ℕ} (hk : y.dim? k = some n) : x.dim? k = some n := by
  obtain ⟨w, hw, hn⟩ := dim?_eq_some.1 hk
  rw [SortedMap.get?_eq_some_iff] at hw
  unfold maxAbsDiff at h
  generalize (0 : α) = most at h
  generalize y.toList = l at hw h
  induction l generalizing most with
  | nil => simp at hw
  | cons e l ih =>
    rw [List.foldlM_cons, Result.bind_eq_ok] at h
    obtain ⟨m, hm, hl⟩ := h
    obtain ⟨v, hv, _⟩ := Result.bind_eq_ok.1 hm
    rcases List.mem_cons.1 hw with rfl | hw
    · obtain ⟨hget, hlen⟩ := entryOf_eq_ok.1 hv
      exact dim?_eq_some.2 ⟨v, hget, hlen.trans hn⟩
    · exact ih m hw hl

theorem sameShape_of_maxAbsDiff {x y : Assignment κ α} {d : α}
    (h : x.maxAbsDiff (x.update y) = .ok d) : x.SameShape (x.update y) := by
  rw [← update_update_self]
  exact sameShape_update fun _ _ => dim?_of_maxAbsDiff h

def entries (x : Assignment κ α) : Point κ α := fun k i => Vec.get ((x.get? k).getD []) i

theorem entries_eq {x : Assignment κ α} {k : κ} {v : Vec α} (h : x.get? k = some v) (i : ℕ) :
    x.entries k i = Vec.get v i := by
  simp [entries, h]

theorem entries_eq_zero {x : Assignment κ α} {k : κ} (h : x.get? k = none) (i : ℕ) :
    x.entries k i = 0 := by
  simp [entries, h, Vec.get]

theorem entries_update {x y : Assignment κ α} {k : κ} (h : k ∈ y.keys) (i : ℕ) :
    (x.update y).entries k i = y.entries k i := by
  obtain ⟨v, hv⟩ := SortedMap.mem_keys_iff.1 h
  rw [entries_eq hv, entries_eq (v := v) (by rw [get?_update, hv]; rfl)]

end Assignment

namespace Assignment
variable {κ α : Type} [Key κ] [ExactScalar α]

/-- Every entry moves the stated fraction of its way. -/
theorem get_interpolate {v goal : Vec α} (h : v.length = goal.length) (t : α) (i : ℕ) :
    Vec.get (interpolate v goal t) i = Vec.get v i + t * (Vec.get goal i - Vec.get v i) := by
  by_cases hi : i < v.length
  · have hgoal : i < goal.length := h ▸ hi
    rw [interpolate, Vec.get_add hi (by simpa using ⟨hgoal, hi⟩), Vec.get_scale,
      Vec.get_sub hgoal hi, mul_comm]
  · have hv : v.length ≤ i := not_lt.1 hi
    rw [Vec.get_of_length_le (by rw [length_interpolate h]; exact hv), Vec.get_of_length_le hv,
      Vec.get_of_length_le (h ▸ hv), sub_zero, mul_zero, add_zero]

/-- A step towards a point that names all keys moves along the segment between the points. -/
theorem entries_stepTowards {x y z : Assignment κ α} {t : α} (h : x.stepTowards y t = (.ok (), z))
    (hxy : ∀ k ∈ x.keys, k ∈ y.keys) : z.entries = x.entries + t • (y.entries - x.entries) := by
  funext k i
  simp only [Pi.add_apply, Pi.smul_apply, Pi.sub_apply, smul_eq_mul]
  rcases stepAlong_ok y.ascending h k with ⟨hnone, hz⟩ | ⟨goal, v, hg, hx, hlen, hz⟩
  · have hy : y.get? k = none := hnone
    have hx : x.get? k = none := by
      rw [SortedMap.get?_eq_none_iff] at hy ⊢
      exact fun hk => hy (hxy k hk)
    rw [entries_eq_zero (hz.trans hx), entries_eq_zero hx, entries_eq_zero hy]
    ring
  · have hy : y.get? k = some goal := hg
    rw [entries_eq hz, entries_eq hx, entries_eq hy, get_interpolate hlen]

/-- The entries of an assignment other than zero lie inside its dimensions. -/
theorem lt_dim?_of_entries_ne_zero {x : Assignment κ α} {k : κ} {i : ℕ} (h : x.entries k i ≠ 0) :
    ∃ n, x.dim? k = some n ∧ i < n := by
  cases hv : x.get? k with
  | none => exact absurd (entries_eq_zero hv i) h
  | some v =>
    refine ⟨v.length, by rw [dim?, hv]; rfl, lt_of_not_ge fun hi => h ?_⟩
    rw [entries_eq hv, Vec.get_of_length_le hi]

/-- An entry inside the dimensions is there. -/
theorem getElem?_of_dim? {x : Assignment κ α} {k : κ} {n i : ℕ} (h : x.dim? k = some n)
    (hi : i < n) : (x.get? k).bind (·[i]?) = some (x.entries k i) := by
  obtain ⟨v, hv, rfl⟩ := dim?_eq_some.1 h
  rw [hv, Option.bind_some, entries_eq hv, Vec.get_eq_getElem hi, List.getElem?_eq_getElem hi]

/-- A point that is zero outside of some dimensions is the point of an assignment with these. -/
theorem exists_entries {dims : SortedMap κ ℕ} {p : Point κ α}
    (hp : ∀ k i, p k i ≠ 0 → ∃ n, dims.get? k = some n ∧ i < n) :
    ∃ x : Assignment κ α, (∀ k, x.dim? k = dims.get? k) ∧ x.entries = p := by
  let l := dims.toList.map fun e => (e.1, (List.range e.2).map (p e.1))
  have hl : List.Forall₂ (fun e e' => e'.1 = e.1 ∧ e'.2 = (List.range e.2).map (p e.1))
      dims.toList l := List.forall₂_map_right_iff.2 (List.forall₂_same.2 fun _ _ => ⟨rfl, rfl⟩)
  have hget (k : κ) := SortedMap.get?_ofList_of_forall₂ (k := k)
    (R := fun k n v => v = (List.range n).map (p k)) hl
  refine ⟨SortedMap.ofList l, fun k => ?_, funext fun k => funext fun i => ?_⟩
  · rcases hget k with ⟨hn, hx⟩ | ⟨n, v, hn, hx, rfl⟩
    · rw [dim?, hx, hn, Option.map_none]
    · rw [dim?, hx, hn, Option.map_some, List.length_map, List.length_range]
  · rcases hget k with ⟨hn, hx⟩ | ⟨n, v, hn, hx, rfl⟩
    · rw [entries_eq_zero hx]
      by_contra hne
      obtain ⟨n, hsome, -⟩ := hp k i (Ne.symm hne)
      cases hn.symm.trans hsome
    · rw [entries_eq hx]
      by_cases hi : i < n
      · exact Vec.get_map_range _ hi
      · rw [Vec.get_of_length_le (by simpa using hi)]
        by_contra hne
        obtain ⟨_, hsome, hlt⟩ := hp k i (Ne.symm hne)
        cases hn.symm.trans hsome
        exact hi hlt

/-- Points of one shape with the same entries are equal. -/
theorem ext_entries {x y : Assignment κ α} (hs : x.SameShape y) (h : x.entries = y.entries) :
    x = y := by
  apply SortedMap.ext_get?
  intro k
  cases hx : x.get? k with
  | none =>
    have hk : y.dim? k = none := by rw [← hs k, dim?, hx]; rfl
    exact (Option.map_eq_none_iff.1 hk).symm
  | some v =>
    have hk : y.dim? k = some v.length := by rw [← hs k, dim?, hx]; rfl
    obtain ⟨w, hw, hlen⟩ := dim?_eq_some.1 hk
    rw [hw, Option.some.injEq]
    apply Vec.ext_get hlen.symm
    intro i _
    rw [← entries_eq hx, ← entries_eq hw, h]

end Assignment

end GaussianProgram
