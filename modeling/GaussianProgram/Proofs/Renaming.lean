import GaussianProgram.Proofs.Constraints
import GaussianProgram.Proofs.Parallel
import GaussianProgram.Solver.Step

/-! Renamed keys. A renaming gives every key a name of another ordered type, no two keys the same,
and need not keep their order. What is computed at a renamed point is what was computed at the
point, and fails where that failed. -/
namespace GaussianProgram

namespace SortedMap
variable {κ κ' β γ : Type} [Ord κ] [Ord κ'] [Std.LawfulEqOrd κ] [Std.LawfulEqOrd κ']
  [Std.TransOrd κ] [Std.TransOrd κ']

omit [Ord κ'] [Std.LawfulEqOrd κ'] [Std.TransOrd κ'] in
/-- A list of pairs with different keys makes a map that finds exactly these pairs. -/
theorem get?_ofList_eq_some {l : List (κ × β)} (h : (l.map (·.1)).Nodup) {k : κ} {v : β} :
    (ofList l).get? k = some v ↔ (k, v) ∈ l := by
  have hall (m : SortedMap κ β) (hm : ∀ e ∈ l, m.get? e.1 = none) :
      (m.insertAll l).get? k = some v ↔ (k, v) ∈ l ∨ m.get? k = some v := by
    induction l generalizing m with
    | nil => simp [insertAll]
    | cons e l ih =>
      obtain ⟨a, b⟩ := e
      obtain ⟨hnew, hl⟩ := List.nodup_cons.1 h
      obtain ⟨hnone, hm⟩ := List.forall_mem_cons.1 hm
      have hne {e' : κ × β} (he' : e' ∈ l) : e'.1 ≠ a :=
        fun he => hnew (List.mem_map.2 ⟨e', he', he⟩)
      rw [show m.insertAll ((a, b) :: l) = (m.insert a b).insertAll l from rfl, ih hl _
        fun e' he' => by rw [get?_insert_of_ne (hne he'), hm e' he'], List.mem_cons]
      by_cases hk : k = a
      · subst hk
        have hnotin : (k, v) ∉ l := fun hmem => hne hmem rfl
        simp only [get?_insert_self, hnotin, Prod.mk.injEq, true_and, false_or, hnone, reduceCtorEq,
          or_false, Option.some.injEq]
        exact eq_comm
      · simp [get?_insert_of_ne hk, hk]
  rw [ofList, hall _ fun e _ => get?_empty e.1]
  simp

variable (ρ : κ ↪ κ')

def rename (m : SortedMap κ β) : SortedMap κ' β := ofList (m.toList.map (Prod.map ρ id))

omit [Ord κ'] [Std.LawfulEqOrd κ'] [Std.TransOrd κ] [Std.TransOrd κ'] in
private theorem nodup_renamed (m : SortedMap κ β) :
    ((m.toList.map (Prod.map ρ id)).map (·.1)).Nodup := by
  have h := m.nodup_keys.map ρ.injective
  rw [keys, List.map_map] at h
  rw [List.map_map]
  exact h

variable {ρ}

omit [Std.TransOrd κ] in
theorem get?_rename_eq_some {m : SortedMap κ β} {k' : κ'} {v : β} :
    (m.rename ρ).get? k' = some v ↔ ∃ k, m.get? k = some v ∧ ρ k = k' := by
  rw [rename, get?_ofList_eq_some (nodup_renamed ρ m)]
  simp [get?_eq_some_iff]

omit [Std.TransOrd κ] in
@[simp] theorem get?_rename (m : SortedMap κ β) (k : κ) : (m.rename ρ).get? (ρ k) = m.get? k := by
  refine Option.ext fun v => ?_
  rw [get?_rename_eq_some]
  simp

omit [Std.TransOrd κ] in
theorem mem_keys_rename {m : SortedMap κ β} {k' : κ'} :
    k' ∈ (m.rename ρ).keys ↔ ∃ k ∈ m.keys, ρ k = k' := by
  simp only [mem_keys_iff, get?_rename_eq_some]
  constructor
  · rintro ⟨v, k, hv, hk⟩
    exact ⟨k, ⟨v, hv⟩, hk⟩
  · rintro ⟨k, ⟨v, hv⟩, hk⟩
    exact ⟨v, k, hv, hk⟩

omit [Std.TransOrd κ] in
/-- A map that has new names only, and under each of them what was there, is renamed. -/
theorem eq_rename {m : SortedMap κ β} {m' : SortedMap κ' β}
    (h : ∀ k, m'.get? (ρ k) = m.get? k) (hnames : ∀ k' ∈ m'.keys, ∃ k, ρ k = k') :
    m' = m.rename ρ := by
  apply ext_get?
  intro k'
  by_cases hk : ∃ k, ρ k = k'
  · obtain ⟨k, rfl⟩ := hk
    rw [h, get?_rename]
  · rw [get?_eq_none_iff.2 fun hmem => hk (hnames k' hmem), get?_eq_none_iff.2 fun hmem => ?_]
    obtain ⟨k, -, he⟩ := mem_keys_rename.1 hmem
    exact hk ⟨k, he⟩

/-- A map that has new names only is renamed from one that has the old ones. -/
theorem exists_rename {m' : SortedMap κ' β} (hnames : ∀ k' ∈ m'.keys, ∃ k, ρ k = k') :
    ∃ m : SortedMap κ β, m' = m.rename ρ := by
  have hlist : ∃ l : List (κ × β), l.map (Prod.map ρ id) = m'.toList := by
    have h (l' : List (κ' × β)) (hl' : ∀ e ∈ l', ∃ k, ρ k = e.1) :
        ∃ l : List (κ × β), l.map (Prod.map ρ id) = l' := by
      induction l' with
      | nil => exact ⟨[], rfl⟩
      | cons e l' ih =>
        obtain ⟨⟨k, hk⟩, hl'⟩ := List.forall_mem_cons.1 hl'
        obtain ⟨l, hl⟩ := ih hl'
        exact ⟨(k, e.2) :: l, by rw [List.map_cons, hl, Prod.map_apply, hk]; rfl⟩
    exact h m'.toList fun e he => hnames e.1 (List.mem_map_of_mem he)
  obtain ⟨l, hl⟩ := hlist
  have hnodup : (l.map (·.1)).Nodup := by
    refine List.Nodup.of_map ρ ?_
    have h := m'.nodup_keys
    rwa [keys, ← hl, List.map_map,
      show (fun e : κ' × β => e.1) ∘ Prod.map ρ id = ρ ∘ (·.1) from rfl, ← List.map_map] at h
  refine ⟨ofList l, eq_rename (fun k => Option.ext fun v => ?_) hnames⟩
  rw [get?_eq_some_iff, get?_ofList_eq_some hnodup, ← hl]
  simp

theorem rename_injective : Function.Injective (rename ρ : SortedMap κ β → SortedMap κ' β) := by
  intro m n h
  apply ext_get?
  intro k
  have hk := congrArg (get? · (ρ k)) h
  rwa [get?_rename, get?_rename] at hk

@[simp] theorem rename_insert (m : SortedMap κ β) (k : κ) (v : β) :
    (m.insert k v).rename ρ = (m.rename ρ).insert (ρ k) v := by
  refine (eq_rename (fun a => ?_) fun k' hk' => ?_).symm
  · by_cases ha : a = k
    · rw [ha, get?_insert_self, get?_insert_self]
    · rw [get?_insert_of_ne ha, get?_insert_of_ne (ρ.injective.ne ha), get?_rename]
  · rcases mem_keys_insert.1 hk' with rfl | hk'
    · exact ⟨k, rfl⟩
    · obtain ⟨k, -, he⟩ := mem_keys_rename.1 hk'
      exact ⟨k, he⟩

omit [Std.TransOrd κ] in
@[simp] theorem rename_mapValues (f : β → γ) (m : SortedMap κ β) :
    (m.mapValues f).rename ρ = (m.rename ρ).mapValues f := by
  refine (eq_rename (fun k => ?_) fun k' hk' => ?_).symm
  · rw [get?_mapValues, get?_mapValues, get?_rename]
  · rw [keys_mapValues] at hk'
    obtain ⟨k, -, he⟩ := mem_keys_rename.1 hk'
    exact ⟨k, he⟩

omit [Std.TransOrd κ] in
/-- The entries of a renamed map are those of the map, in another order. -/
theorem toList_rename (m : SortedMap κ β) :
    (m.toList.map (Prod.map ρ id)).Perm (m.rename ρ).toList := by
  refine (List.perm_ext_iff_of_nodup (List.Nodup.of_map _ (nodup_renamed ρ m))
    (List.Nodup.of_map _ (m.rename ρ).nodup_keys)).2 fun e => ?_
  rw [← get?_eq_some_iff, get?_rename_eq_some]
  simp only [get?_eq_some_iff, List.mem_map, Prod.exists, Prod.map, id]
  constructor
  · rintro ⟨k, v, hmem, rfl⟩
    exact ⟨k, hmem, rfl⟩
  · rintro ⟨k, hmem, hk⟩
    exact ⟨k, e.2, hmem, Prod.ext hk rfl⟩

omit [Std.TransOrd κ] in
@[simp] theorem size_rename (m : SortedMap κ β) : (m.rename ρ).size = m.size := by
  have hlength := (toList_rename (ρ := ρ) m).length_eq
  rw [List.length_map] at hlength
  exact hlength.symm

end SortedMap

variable {κ κ' α : Type} [Key κ] [Key κ']

abbrev Assignment.rename (ρ : κ ↪ κ') (x : Assignment κ α) : Assignment κ' α :=
  SortedMap.rename ρ x

def QuadraticCost.rename (ρ : κ ↪ κ') (f : QuadraticCost κ α) : QuadraticCost κ' α where
  keyDims := f.keyDims.map (Prod.map ρ id)
  information := f.information
  linear := f.linear
  constant := f.constant
  keys_nodup := by
    have h := f.keys_nodup.map ρ.injective
    rw [List.map_map] at h ⊢
    exact h
  rows_eq := by rw [List.map_map]; exact f.rows_eq
  cols_eq := by rw [List.map_map]; exact f.cols_eq
  length_eq := by rw [List.map_map]; exact f.length_eq

def LinearRows.rename (ρ : κ ↪ κ') (f : LinearRows κ α) : LinearRows κ' α where
  terms := f.terms.map (Prod.map ρ id)
  rhs := f.rhs
  kinds := f.kinds
  terms_ne_nil := by simpa using f.terms_ne_nil
  keys_nodup := by
    have h := f.keys_nodup.map ρ.injective
    rw [List.map_map] at h ⊢
    exact h
  block_rows := by
    intro t ht
    obtain ⟨t', ht', rfl⟩ := List.mem_map.1 ht
    exact f.block_rows t' ht'
  kinds_length := f.kinds_length

def Factor.rename (ρ : κ ↪ κ') : Factor κ α → Factor κ' α
  | quadratic f => quadratic (f.rename ρ)
  | linear f => linear (f.rename ρ)

def Graph.rename (ρ : κ ↪ κ') (g : Graph κ α) : Graph κ' α := ⟨g.factors.map (Factor.rename ρ)⟩

variable {ρ : κ ↪ κ'}

open Result (Mirrors)

namespace Assignment

@[simp] theorem dim?_rename (x : Assignment κ α) (k : κ) : (x.rename ρ).dim? (ρ k) = x.dim? k := by
  rw [dim?, SortedMap.get?_rename, dim?]

theorem hasDims_rename {x : Assignment κ α} {dims : List (κ × ℕ)} :
    (x.rename ρ).HasDims (dims.map (Prod.map ρ id)) ↔ x.HasDims dims := by
  rw [HasDims, HasDims, List.forall_mem_map]
  exact forall₂_congr fun e _ => by rw [Prod.map_fst, dim?_rename, Prod.map_snd, id]

theorem update_rename (x y : Assignment κ α) :
    (x.rename ρ).update (y.rename ρ) = (x.update y).rename ρ := by
  refine SortedMap.eq_rename (fun k => ?_) fun k' hk' => ?_
  · rw [get?_update, get?_update, SortedMap.get?_rename, SortedMap.get?_rename]
  · have hnamed {z : Assignment κ α} (h : k' ∈ (z.rename ρ).keys) : ∃ k, ρ k = k' := by
      obtain ⟨k, -, he⟩ := SortedMap.mem_keys_rename.1 h
      exact ⟨k, he⟩
    rcases mem_keys_update.1 hk' with h | h
    · exact hnamed h
    · exact hnamed h

theorem mirrors_valueOf (x : Assignment κ α) (k : κ) (n : ℕ) :
    Mirrors Eq (x.valueOf k n) ((x.rename ρ).valueOf (ρ k) n) := by
  refine Result.mirrors_of_forall (fun v hv => ⟨v, ?_, rfl⟩) fun v hv => ⟨v, ?_⟩
  · rwa [valueOf_eq_ok, SortedMap.get?_rename, ← valueOf_eq_ok]
  · rwa [valueOf_eq_ok, SortedMap.get?_rename, ← valueOf_eq_ok] at hv

theorem mirrors_entryOf (x : Assignment κ α) (k : κ) (n : ℕ) :
    Mirrors Eq (x.entryOf k n) ((x.rename ρ).entryOf (ρ k) n) := by
  refine Result.mirrors_of_forall (fun v hv => ⟨v, ?_, rfl⟩) fun v hv => ⟨v, ?_⟩
  · rwa [entryOf_eq_ok, SortedMap.get?_rename, ← entryOf_eq_ok]
  · rwa [entryOf_eq_ok, SortedMap.get?_rename, ← entryOf_eq_ok] at hv

section Scalar
variable [Scalar α]

/-- A step between renamed points leads to the renamed point. -/
theorem stepTowards_rename {x y z : Assignment κ α} {t : α}
    (h : x.stepTowards y t = (.ok (), z)) :
    (x.rename ρ).stepTowards (y.rename ρ) t = (.ok (), z.rename ρ) := by
  have hdims (k' : κ') (n : ℕ) (hn : (y.rename ρ).dim? k' = some n) :
      (x.rename ρ).dim? k' = some n := by
    obtain ⟨v, hv, hlen⟩ := dim?_eq_some.1 hn
    obtain ⟨k, hk, rfl⟩ := SortedMap.get?_rename_eq_some.1 hv
    rw [dim?_rename] at hn ⊢
    exact dim?_of_stepTowards h hn
  obtain ⟨z', hz'⟩ := exists_stepTowards hdims t
  rw [hz']
  refine congrArg _ (SortedMap.eq_rename (fun k => ?_) fun k' hk' => ?_)
  · have hy : SortedMap.lookup (ρ k) (y.rename ρ).toList = SortedMap.lookup k y.toList :=
      SortedMap.get?_rename y k
    rcases stepAlong_ok (y.rename ρ).ascending hz' (ρ k) with
      ⟨hnone, hk'⟩ | ⟨goal, v, hg, hx, -, hk'⟩
    · rcases stepAlong_ok y.ascending h k with ⟨-, hk⟩ | ⟨goal, v, hg, -⟩
      · rw [hk', hk, SortedMap.get?_rename]
      · cases (hy.symm.trans hnone).symm.trans hg
    · rcases stepAlong_ok y.ascending h k with ⟨hnone, -⟩ | ⟨goal', v', hg', hx', -, hk⟩
      · cases (hy.symm.trans hg).symm.trans hnone
      · rw [SortedMap.get?_rename] at hx
        cases hx.symm.trans hx'
        cases (hy.symm.trans hg).symm.trans hg'
        rw [hk', hk]
  · obtain ⟨v, hv⟩ := SortedMap.mem_keys_iff.1 hk'
    have hx : (x.rename ρ).dim? k' = some v.length :=
      (sameShape_stepTowards hz' k').trans (dim?_eq_some.2 ⟨v, hv, rfl⟩)
    obtain ⟨u, hu, -⟩ := dim?_eq_some.1 hx
    obtain ⟨k, -, hk⟩ := SortedMap.get?_rename_eq_some.1 hu
    exact ⟨k, hk⟩

/-- A step that succeeds between renamed points does so between the points. -/
theorem exists_of_stepTowards_rename {x y : Assignment κ α} {z' : Assignment κ' α} {t : α}
    (h : (x.rename ρ).stepTowards (y.rename ρ) t = (.ok (), z')) :
    ∃ z, x.stepTowards y t = (.ok (), z) := by
  refine exists_stepTowards (fun k n hn => ?_) t
  rw [← dim?_rename (ρ := ρ)] at hn ⊢
  exact dim?_of_stepTowards h hn

private theorem le_maxLength_of_zeros? {dims : List (κ × ℕ)} {x : Assignment κ α}
    (h : zeros? dims = some x) : ∀ e ∈ dims, e.2 ≤ maxLength := by
  obtain ⟨parts, hparts, -⟩ := Option.map_eq_some_iff.1 h
  clear h
  induction dims generalizing parts with
  | nil => simp
  | cons e dims ih =>
    simp only [List.mapM_cons, Option.bind_eq_bind, Option.bind_eq_some_iff, Option.map_eq_some_iff,
      Vec.zeros?_eq_some] at hparts
    obtain ⟨_, ⟨_, ⟨he, -⟩, -⟩, rest, hrest, -⟩ := hparts
    exact List.forall_mem_cons.2 ⟨he, ih rest hrest⟩

/-- Zeros of renamed dimensions are renamed. -/
theorem zeros?_rename (dims : SortedMap κ ℕ) :
    Option.Rel (fun x x' => x' = x.rename ρ) (zeros? dims.toList : Option (Assignment κ α))
      (zeros? (dims.rename ρ).toList) := by
  have hmem : (∀ e ∈ (dims.rename ρ).toList, e.2 ≤ maxLength) ↔
      ∀ e ∈ dims.toList, e.2 ≤ maxLength := by
    simp only [← (SortedMap.toList_rename dims).mem_iff, List.forall_mem_map]
    rfl
  by_cases h : ∀ e ∈ dims.toList, e.2 ≤ maxLength
  · obtain ⟨x, hx⟩ := exists_zeros? (α := α) h
    obtain ⟨x', hx'⟩ := exists_zeros? (α := α) (hmem.2 h)
    rw [hx, hx', zeros?_eq_some hx, zeros?_eq_some hx']
    exact .some (SortedMap.rename_mapValues Vec.zeros dims).symm
  · have hnone {κ : Type} [Key κ] {dims : List (κ × ℕ)} (h : ¬∀ e ∈ dims, e.2 ≤ maxLength) :
        (zeros? dims : Option (Assignment κ α)) = none :=
      Option.eq_none_iff_forall_ne_some.2 fun x hx => h (le_maxLength_of_zeros? hx)
    rw [hnone h, hnone (mt hmem.1 h)]
    exact .none

end Scalar

section Exact
variable [ExactScalar α]

/-- The distance of two points does not depend on the names of their variables. -/
theorem mirrors_maxAbsDiff (x y : Assignment κ α) :
    Mirrors Eq (x.maxAbsDiff y) ((x.rename ρ).maxAbsDiff (y.rename ρ)) := by
  let gap {κ : Type} [Key κ] (x : Assignment κ α) (e : κ × Vec α) : Except (GraphError α) α := do
    return Vec.amax (Vec.sub (← x.entryOf e.1 e.2.length) e.2)
  have hfold {κ : Type} [Key κ] (x y : Assignment κ α) :
      x.maxAbsDiff y = do return (← y.toList.mapM (gap x)).foldl Scalar.max 0 := by
    rw [← Result.foldlM_eq_mapM]
    exact Result.foldlM_congr (fun b e _ => by simp [gap]) 0
  have hgaps : Mirrors (List.Forall₂ Eq) (y.toList.mapM (gap x))
      ((y.toList.map (Prod.map ρ id)).mapM (gap (x.rename ρ))) := by
    refine .mapM (List.forall₂_map_right_iff.2 (List.forall₂_same.2 fun e _ => ?_))
    exact (mirrors_entryOf x e.1 e.2.length).bind fun v v' hv => hv ▸ .ok rfl
  rw [hfold, hfold]
  refine (hgaps.trans (Result.mirrors_mapM_perm (SortedMap.toList_rename y))).bind ?_
  rintro ds ds' ⟨_, hsame, hperm⟩
  rw [List.forall₂_eq_eq_eq] at hsame
  rw [hsame]
  exact .ok (hperm.foldl_eq' (fun a _ b _ c => max_right_comm c a b) 0)

end Exact

end Assignment

section Factors
variable [Scalar α] {x : Assignment κ α}

namespace QuadraticCost
variable (f : QuadraticCost κ α)

omit [Scalar α] in
theorem segments_rename : (f.rename ρ).segments = f.segments.map (Prod.map ρ id) := by
  have hkeys : (f.rename ρ).keys = f.keys.map ρ := by
    rw [keys, keys, rename, List.map_map, List.map_map]
    rfl
  have hdims : (f.rename ρ).dims = f.dims := by
    rw [dims, dims, rename, List.map_map]
    rfl
  rw [segments, segments, hkeys, hdims, List.zip_map_left]

theorem mirrors_stacked : Mirrors Eq (f.stacked x) ((f.rename ρ).stacked (x.rename ρ)) := by
  rw [stacked, stacked, segments_rename]
  refine Result.mirrors_foldlM_map (fun e _ => ?_) rfl
  rintro stack _ rfl
  refine (Assignment.mirrors_valueOf x e.1 e.2.2).ofExcept.bind fun v _ hv => ?_
  rw [← hv]
  exact Result.mirrors_self _

theorem mirrors_cost : Mirrors Eq (f.cost x) ((f.rename ρ).cost (x.rename ρ)) :=
  f.mirrors_stacked.bind fun _ _ hv => hv ▸ .ok rfl

theorem mirrors_gradient : Mirrors (fun parts parts' => parts' = parts.map (Prod.map ρ id))
    (f.gradient x) ((f.rename ρ).gradient (x.rename ρ)) := by
  refine f.mirrors_stacked.bind fun v _ hv => ?_
  rw [← hv, segments_rename]
  refine Result.mirrors_mapM_map fun e _ => ?_
  exact (Result.mirrors_self _).bind fun part _ hpart => hpart ▸ .ok rfl

end QuadraticCost

namespace LinearRows
variable (f : LinearRows κ α)

omit [Scalar α] in
@[simp] theorem keys_rename : (f.rename ρ).keys = f.keys.map ρ := by
  rw [keys, keys, rename, List.map_map, List.map_map]
  rfl

omit [Scalar α] in
@[simp] theorem keyDims_rename : (f.rename ρ).keyDims = f.keyDims.map (Prod.map ρ id) := by
  rw [keyDims, keyDims, rename, List.map_map, List.map_map]
  rfl

omit [Scalar α] in
@[simp] theorem rows_rename : (f.rename ρ).rows = f.rows := rfl

theorem rowCoefficients?_rename (row position : ℕ) :
    (f.rename ρ).rowCoefficients? row position = f.rowCoefficients? row position := by
  rw [rowCoefficients?, rowCoefficients?, block?, block?, rename, List.getElem?_map, Option.map_map]
  rfl

theorem mirrors_rowValue (row : ℕ) :
    Mirrors Eq (f.rowValue row x) ((f.rename ρ).rowValue row (x.rename ρ)) := by
  rw [rowValue, rowValue, rows_rename]
  split_ifs
  · exact .error _ _
  · refine Result.mirrors_foldlM_map (fun t _ => ?_) rfl
    rintro total _ rfl
    refine (Assignment.mirrors_valueOf x t.1 t.2.cols).ofExcept.bind fun v _ hv => ?_
    rw [← hv]
    exact Result.mirrors_self _

theorem mirrors_residual : Mirrors Eq (f.residual x) ((f.rename ρ).residual (x.rename ρ)) := by
  refine Result.mirrors_foldlM_map (fun t _ => ?_) rfl
  rintro total _ rfl
  exact (Assignment.mirrors_valueOf x t.1 t.2.cols).bind fun v _ hv => hv ▸ .ok rfl

theorem mirrors_cost : Mirrors Eq (f.cost x) ((f.rename ρ).cost (x.rename ρ)) := by
  rw [cost, cost, show (f.rename ρ).isConstrained = f.isConstrained from rfl]
  split_ifs
  · exact .ok rfl
  · exact f.mirrors_residual.bind fun _ _ h => h ▸ .ok rfl

theorem mirrors_gradient : Mirrors (fun parts parts' => parts' = parts.map (Prod.map ρ id))
    (f.gradient x) ((f.rename ρ).gradient (x.rename ρ)) := by
  rw [gradient, gradient, show (f.rename ρ).isConstrained = f.isConstrained from rfl,
    keyDims_rename]
  split_ifs
  · refine Result.mirrors_mapM_map fun e _ => ?_
    exact (Result.mirrors_self _).bind fun part _ hpart => hpart ▸ .ok rfl
  · refine f.mirrors_residual.ofExcept.bind fun residual _ h => .ok ?_
    rw [← h, rename, List.map_map, List.map_map]
    rfl

theorem mirrors_selectRows (indices : List ℕ) (kind : RowKind) :
    Mirrors (fun c c' => c' = c.rename ρ) (f.selectRows indices kind)
      ((f.rename ρ).selectRows indices kind) := by
  unfold selectRows
  rw [rows_rename]
  split
  · exact .error _ _
  · refine .ok ?_
    simp [rename, Function.comp_def]

end LinearRows

namespace Factor
variable (f : Factor κ α)

omit [Scalar α] in
@[simp] theorem keyDims_rename : (f.rename ρ).keyDims = f.keyDims.map (Prod.map ρ id) := by
  cases f with
  | quadratic f => rfl
  | linear f => exact f.keyDims_rename

omit [Scalar α] in
@[simp] theorem keys_rename : (f.rename ρ).keys = f.keys.map ρ := by
  rw [keys, keys, keyDims_rename, List.map_map, List.map_map]
  rfl

omit [Scalar α] in
theorem constraint?_rename :
    (f.rename ρ).constraint? = f.constraint?.map (LinearRows.rename ρ) := by
  cases f with
  | quadratic f => rfl
  | linear f =>
    rw [constraint?, constraint?, rename, linear?, linear?, Option.filter_some, Option.filter_some,
      show (f.rename ρ).isConstrained = f.isConstrained from rfl]
    split_ifs <;> rfl

theorem mirrors_cost : Mirrors Eq (f.cost x) ((f.rename ρ).cost (x.rename ρ)) := by
  cases f with
  | quadratic f => exact f.mirrors_cost
  | linear f => exact f.mirrors_cost.ofExcept

theorem mirrors_gradient : Mirrors (fun parts parts' => parts' = parts.map (Prod.map ρ id))
    (f.gradient x) ((f.rename ρ).gradient (x.rename ρ)) := by
  cases f with
  | quadratic f => exact f.mirrors_gradient
  | linear f => exact f.mirrors_gradient

end Factor

end Factors

namespace Graph
variable {g : Graph κ α} {x : Assignment κ α}

section Structure

theorem indexed_rename (g : Graph κ α) :
    (g.rename ρ).indexed = g.indexed.map (Prod.map id (Factor.rename ρ)) := by
  rw [indexed, indexed, rename, List.zipIdx_map, List.map_map, List.map_map]
  rfl

theorem constraints_rename (g : Graph κ α) :
    (g.rename ρ).constraints = g.constraints.map (Prod.map id (LinearRows.rename ρ)) := by
  rw [constraints, constraints, indexed_rename, List.filterMap_map, List.map_filterMap]
  refine List.filterMap_congr fun e _ => ?_
  simp only [Function.comp_apply, Prod.map, Factor.constraint?_rename, Option.map_map, id]
  rfl

theorem constraintAt?_rename (g : Graph κ α) (i : ℕ) :
    (g.rename ρ).constraintAt? i = (g.constraintAt? i).map (LinearRows.rename ρ) := by
  rw [constraintAt?, constraintAt?, at?, at?, rename, List.getElem?_map]
  cases g.factors[i]? with
  | none => rfl
  | some f => exact f.constraint?_rename

@[simp] theorem rowKind?_rename (g : Graph κ α) (r : ConstraintRow) :
    (g.rename ρ).rowKind? r = g.rowKind? r := by
  rw [rowKind?, rowKind?, constraintAt?_rename]
  cases g.constraintAt? r.factor <;> rfl

@[simp] theorem inequalityRows_rename (g : Graph κ α) :
    (g.rename ρ).inequalityRows = g.inequalityRows := by
  rw [inequalityRows, inequalityRows, constraints_rename, List.flatMap_map]
  rfl

@[simp] theorem equalityIndices_rename (g : Graph κ α) :
    (g.rename ρ).equalityIndices = g.equalityIndices := by
  rw [equalityIndices, equalityIndices, constraints_rename, List.filter_map, List.map_map]
  rfl

/-- Renamed variables have the dimensions of the variables. -/
theorem mirrors_keyDimensions (g : Graph κ α) :
    Mirrors (fun dims dims' => dims' = dims.rename ρ) g.keyDimensions
      (g.rename ρ).keyDimensions := by
  have hrecord (i : ℕ) (dims : SortedMap κ ℕ) (e : κ × ℕ) :
      Mirrors (fun dims dims' => dims' = dims.rename ρ) (recordDimension i dims e)
        (recordDimension i (dims.rename ρ) (Prod.map ρ id e)) := by
    unfold recordDimension
    rw [Prod.map_fst, SortedMap.get?_rename]
    cases dims.get? e.1 with
    | none => exact .ok (SortedMap.rename_insert dims e.1 e.2).symm
    | some known =>
      simp only [Prod.map_snd, id]
      split_ifs
      · exact .ok rfl
      · exact .error _ _
  rw [keyDimensions, keyDimensions, indexed_rename]
  refine Result.mirrors_foldlM_map (fun e _ => ?_) rfl
  obtain ⟨i, f⟩ := e
  rintro dims _ rfl
  simp only [Prod.map_apply, id, Factor.keyDims_rename]
  refine Result.mirrors_foldlM_map (fun e' _ => ?_) rfl
  rintro dims _ rfl
  exact hrecord i dims e'

theorem mirrors_dimensions (g : Graph κ α) :
    Mirrors (fun dims dims' => dims' = dims.rename ρ) g.dimensions (g.rename ρ).dimensions :=
  g.mirrors_keyDimensions.ofExcept.mapCause _ _

theorem fits_rename : (g.rename ρ).Fits (x.rename ρ) ↔ g.Fits x := by
  have hcovers : (g.rename ρ).Covers (x.rename ρ) ↔ g.Covers x := by
    rw [Covers, Covers, rename, List.forall_mem_map]
    exact forall₂_congr fun f _ => by rw [Factor.keyDims_rename, Assignment.hasDims_rename]
  refine and_congr hcovers ⟨fun h k hk => ?_, fun h k' hk' => ?_⟩
  · obtain ⟨f', hf', hmem⟩ := h (ρ k) (SortedMap.mem_keys_rename.2 ⟨k, hk, rfl⟩)
    obtain ⟨f, hf, rfl⟩ := List.mem_map.1 hf'
    rw [Factor.keys_rename] at hmem
    exact ⟨f, hf, (List.mem_map_of_injective ρ.injective).1 hmem⟩
  · obtain ⟨k, hk, rfl⟩ := SortedMap.mem_keys_rename.1 hk'
    obtain ⟨f, hf, hmem⟩ := h k hk
    refine ⟨f.rename ρ, List.mem_map_of_mem hf, ?_⟩
    rw [Factor.keys_rename]
    exact List.mem_map_of_mem hmem

/-- What fits a renamed graph is renamed. -/
theorem Fits.exists_rename {x' : Assignment κ' α} (h : (g.rename ρ).Fits x') :
    ∃ x : Assignment κ α, x' = x.rename ρ := by
  refine SortedMap.exists_rename fun k' hk' => ?_
  obtain ⟨f', hf', hmem⟩ := h.2 k' hk'
  obtain ⟨f, -, rfl⟩ := List.mem_map.1 hf'
  rw [Factor.keys_rename] at hmem
  obtain ⟨k, -, hk⟩ := List.mem_map.1 hmem
  exact ⟨k, hk⟩

end Structure

section Values
variable [Scalar α]

theorem mirrors_cost (g : Graph κ α) (x : Assignment κ α) :
    Mirrors Eq (g.cost x) ((g.rename ρ).cost (x.rename ρ)) := by
  refine Result.mirrors_foldlM_map (fun f _ => ?_) rfl
  rintro total _ rfl
  exact (f.mirrors_cost.mapCause _ _).bind fun cost _ h => h ▸ .ok rfl

/-- The gradient at a renamed point is renamed, whatever the order in which keys come. -/
theorem mirrors_gradient (g : Graph κ α) (x : Assignment κ α) :
    Mirrors (fun grad grad' => grad' = grad.rename ρ) (g.gradient x)
      ((g.rename ρ).gradient (x.rename ρ)) := by
  have hpart (total : Assignment κ α) (part : κ × Vec α) :
      Mirrors (fun total total' => total' = total.rename ρ) (accumulate total part)
        (accumulate (total.rename ρ) (Prod.map ρ id part)) := by
    unfold accumulate
    rw [Prod.map_fst, SortedMap.get?_rename]
    cases total.get? part.1 with
    | none => exact .error _ _
    | some v =>
      simp only [Prod.map_snd, id]
      split_ifs
      · exact .ok (SortedMap.rename_insert total part.1 _).symm
      · exact .error _ _
  refine g.mirrors_dimensions.bind ?_
  rintro dims _ rfl
  refine (Result.mirrors_inRange (Assignment.zeros?_rename dims)).bind ?_
  rintro start _ rfl
  refine Result.mirrors_foldlM_map (fun f _ => ?_) rfl
  rintro total _ rfl
  refine (f.mirrors_gradient.mapCause _ _).bind ?_
  rintro parts _ rfl
  refine Result.mirrors_foldlM_map (fun part _ => ?_) rfl
  rintro total _ rfl
  exact hpart total part

theorem mirrors_rowSlack (g : Graph κ α) (r : ConstraintRow) (x : Assignment κ α) :
    Mirrors Eq (g.rowSlack r x) ((g.rename ρ).rowSlack r (x.rename ρ)) := by
  rw [rowSlack, rowSlack, constraintAt?_rename]
  cases g.constraintAt? r.factor with
  | none => exact .error _ _
  | some c =>
    refine (Result.mirrors_self (Result.inRange c.rhs[r.row]?)).bind fun b _ hb => ?_
    rw [← hb]
    exact (c.mirrors_rowValue r.row).bind fun value _ h => h ▸ .ok rfl

/-- The working problem over the new names is the working problem, renamed. -/
theorem mirrors_workingGraph (g : Graph κ α) (w : WorkingSet) :
    Mirrors (fun working working' => working' = working.rename ρ) (g.workingGraph w)
      ((g.rename ρ).workingGraph w) := by
  have hfactor (i : ℕ) (f : Factor κ α) :
      Mirrors (fun part part' => part' = part.map (Factor.rename ρ)) (workingFactor? w i f)
        (workingFactor? w i (f.rename ρ)) := by
    unfold workingFactor?
    rw [Factor.constraint?_rename]
    cases f.constraint? with
    | none => exact .ok rfl
    | some c =>
      simp only [Option.map_some]
      rw [show enforcedRows w i (c.rename ρ) = enforcedRows w i c from rfl]
      split_ifs
      · exact .ok rfl
      · exact (c.mirrors_selectRows _ _).bind fun c c' h => h ▸ .ok rfl
  rw [workingGraph, workingGraph, indexed_rename]
  refine (Result.mirrors_mapM_map fun e _ => hfactor e.1 e.2).bind ?_
  rintro parts _ rfl
  refine .ok (congrArg Graph.mk ?_)
  rw [List.filterMap_map, List.map_filterMap]
  rfl

/-- The ratio test finds the same row at the same fraction of the way. -/
theorem mirrors_stepSize (g : Graph κ α) (w : WorkingSet) (tolerance : α)
    (current candidate : Assignment κ α) :
    Mirrors Eq (g.stepSize w tolerance current candidate)
      ((g.rename ρ).stepSize w tolerance (current.rename ρ) (candidate.rename ρ)) := by
  have hblock (c : LinearRows κ α) (row : ℕ) :
      Mirrors Eq (blockingFraction? c row tolerance current candidate)
        (blockingFraction? (c.rename ρ) row tolerance (current.rename ρ) (candidate.rename ρ)) := by
    refine (Result.mirrors_self (Result.inRange c.rhs[row]?)).bind fun b _ hb => ?_
    rw [← hb]
    refine (c.mirrors_rowValue row).bind fun after _ hafter => ?_
    rw [← hafter]
    dsimp only
    split_ifs
    · exact .ok rfl
    · exact (c.mirrors_rowValue row).bind fun before _ h => h ▸ .ok rfl
  rw [stepSize, stepSize, inequalityRows_rename]
  refine .foldlM (List.forall₂_same.2 fun r _ => ?_) rfl
  rintro best _ rfl
  split_ifs
  · exact .ok rfl
  · rw [constraintAt?_rename]
    cases g.constraintAt? r.factor with
    | none => exact .ok rfl
    | some c =>
      refine (hblock c r.row).bind fun found _ h => ?_
      rw [← h]
      cases found <;> exact .ok rfl

end Values

end Graph

end GaussianProgram
