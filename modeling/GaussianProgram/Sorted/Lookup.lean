import GaussianProgram.Sorted.Map

/-! Lookups in sorted maps. An operation on a map is known by what it does to every lookup, and the
lookups determine the map. -/
namespace GaussianProgram.SortedMap

variable {κ β γ : Type} [Ord κ]

@[simp] theorem get?_empty (k : κ) : (empty : SortedMap κ β).get? k = none := rfl

@[simp] theorem keys_mapValues (f : β → γ) (m : SortedMap κ β) : (m.mapValues f).keys = m.keys := by
  simp [mapValues, keys]

/-- Keys come in strictly ascending order. -/
theorem ascending_keys (m : SortedMap κ β) : m.keys.Pairwise (compare · · = .lt) :=
  List.pairwise_map.2 m.ascending

variable [Std.LawfulEqOrd κ]

theorem compare_eq_iff {a b : κ} : compare a b = .eq ↔ a = b := Std.LawfulEqCmp.compare_eq_iff_eq

theorem nodup_keys (m : SortedMap κ β) : m.keys.Nodup :=
  m.ascending_keys.imp fun hlt he => by simp [he] at hlt

theorem lookup_put_self (k : κ) (v : β) (l : List (κ × β)) : lookup k (put k v l) = some v := by
  induction l with
  | nil => simp [put, lookup]
  | cons head rest ih =>
    rw [put]
    split
    · simp [lookup]
    · simp [lookup]
    next hk => simp [lookup, hk, ih]

theorem lookup_put_of_ne {a k : κ} (h : a ≠ k) (v : β) (l : List (κ × β)) :
    lookup a (put k v l) = lookup a l := by
  have hak : compare a k ≠ .eq := fun he => h (compare_eq_iff.1 he)
  have hskip (rest : List (κ × β)) : lookup a ((k, v) :: rest) = lookup a rest := by
    rw [lookup]
    split
    next he => exact absurd he hak
    next => rfl
  induction l with
  | nil => exact hskip []
  | cons head rest ih =>
    rw [put]
    split
    · exact hskip _
    next hk =>
      cases compare_eq_iff.1 hk
      rw [hskip, lookup]
      split
      next he => exact absurd he hak
      next => rfl
    next hk => rw [lookup, lookup, ih]

/-- In a list without repeated keys a lookup finds exactly the pairs of the list. -/
theorem lookup_eq_some_iff {k : κ} {v : β} {l : List (κ × β)}
    (h : l.Pairwise fun a b => compare a.1 b.1 = .lt) : lookup k l = some v ↔ (k, v) ∈ l := by
  induction l with
  | nil => simp [lookup]
  | cons head rest ih =>
    obtain ⟨k', v'⟩ := head
    obtain ⟨hlt, hrest⟩ := List.pairwise_cons.1 h
    rw [lookup, List.mem_cons]
    split
    next hk =>
      cases compare_eq_iff.1 hk
      refine ⟨fun hv => .inl (by simp_all), fun hv => ?_⟩
      rcases hv with hv | hv
      · simp_all
      · have := hlt _ hv
        simp at this
    next hk =>
      have hne : k ≠ k' := fun he => hk (compare_eq_iff.2 he)
      rw [ih hrest]
      simp [hne]

theorem get?_eq_some_iff {m : SortedMap κ β} {k : κ} {v : β} :
    m.get? k = some v ↔ (k, v) ∈ m.toList := lookup_eq_some_iff m.ascending

theorem get?_eq_none_iff {m : SortedMap κ β} {k : κ} : m.get? k = none ↔ k ∉ m.keys := by
  rw [Option.eq_none_iff_forall_ne_some]
  simp [get?_eq_some_iff, keys]

theorem contains_iff {m : SortedMap κ β} {k : κ} : m.contains k = true ↔ k ∈ m.keys := by
  rw [contains, Option.isSome_iff_ne_none, ne_eq, get?_eq_none_iff, Classical.not_not]

theorem get?_filterKeys (m : SortedMap κ β) (keep : κ → Bool) (k : κ) :
    (m.filterKeys keep).get? k = if keep k then m.get? k else none := by
  refine Option.ext fun v => ?_
  rw [get?_eq_some_iff]
  split <;> simp_all [filterKeys, get?_eq_some_iff]

@[simp] theorem get?_erase_self (m : SortedMap κ β) (k : κ) : (m.erase k).get? k = none := by
  rw [get?_eq_none_iff]
  simp [erase, keys]

theorem get?_erase_of_ne {a k : κ} (h : a ≠ k) (m : SortedMap κ β) :
    (m.erase k).get? a = m.get? a := by
  refine Option.ext fun v => ?_
  have hka : compare k a ≠ .eq := fun he => h (compare_eq_iff.1 he).symm
  simp [get?_eq_some_iff, erase, hka]

@[simp] theorem get?_mapValues (f : β → γ) (m : SortedMap κ β) (k : κ) :
    (m.mapValues f).get? k = (m.get? k).map f := by
  refine Option.ext fun v => ?_
  rw [get?_eq_some_iff, Option.map_eq_some_iff]
  simp only [mapValues, get?_eq_some_iff, List.mem_map, Prod.exists, Prod.mk.injEq]
  exact ⟨fun ⟨_, w, hw, he, hv⟩ => ⟨w, he ▸ hw, hv⟩, fun ⟨w, hw, hv⟩ => ⟨k, w, hw, rfl, hv⟩⟩

theorem mem_keys_iff {m : SortedMap κ β} {k : κ} : k ∈ m.keys ↔ ∃ v, m.get? k = some v := by
  rw [← contains_iff, contains, Option.isSome_iff_exists]

theorem mem_keys_erase {m : SortedMap κ β} {a k : κ} :
    a ∈ (m.erase k).keys ↔ a ≠ k ∧ a ∈ m.keys := by
  by_cases h : a = k
  · subst h
    simp [mem_keys_iff]
  · simp [mem_keys_iff, get?_erase_of_ne h, h]

variable [Std.TransOrd κ]

@[simp] theorem get?_insert_self (m : SortedMap κ β) (k : κ) (v : β) :
    (m.insert k v).get? k = some v := lookup_put_self k v m.toList

theorem get?_insert_of_ne {a k : κ} (h : a ≠ k) (m : SortedMap κ β) (v : β) :
    (m.insert k v).get? a = m.get? a := lookup_put_of_ne h v m.toList

theorem mem_keys_insert {m : SortedMap κ β} {a k : κ} {v : β} :
    a ∈ (m.insert k v).keys ↔ a = k ∨ a ∈ m.keys := by
  by_cases h : a = k
  · subst h
    simp [mem_keys_iff]
  · simp [mem_keys_iff, get?_insert_of_ne h, h]

/-- Lookups determine a map. -/
theorem ext_get? {m n : SortedMap κ β} (h : ∀ k, m.get? k = n.get? k) : m = n := by
  have hmem (e : κ × β) : e ∈ m.toList ↔ e ∈ n.toList := by
    rw [← get?_eq_some_iff, ← get?_eq_some_iff, h]
  have hanti (a b : κ × β) (hab : compare a.1 b.1 = .lt) (hba : compare b.1 a.1 = .lt) : a = b := by
    rw [Std.OrientedCmp.gt_of_lt hba] at hab
    nomatch hab
  have hnodup (o : SortedMap κ β) : o.toList.Nodup :=
    o.ascending.imp fun hlt he => by simp [he] at hlt
  have hlist : m.toList = n.toList :=
    (List.perm_ext_iff_of_nodup (hnodup m) (hnodup n)).2 hmem |>.eq_of_pairwise
      (fun a b _ _ => hanti a b) m.ascending n.ascending
  cases m; cases n; simp_all

/-- Sets with the same members are equal. -/
theorem ext_keys {m n : SortedMap κ Unit} (h : ∀ k, k ∈ m.keys ↔ k ∈ n.keys) : m = n := by
  have hget (s : SortedMap κ Unit) (k : κ) : s.get? k = some () ↔ k ∈ s.keys := by
    rw [mem_keys_iff]
    exact ⟨fun hs => ⟨(), hs⟩, fun ⟨_, hs⟩ => hs⟩
  refine ext_get? fun k => Option.ext fun _ => ?_
  rw [hget, hget, h]

end GaussianProgram.SortedMap
