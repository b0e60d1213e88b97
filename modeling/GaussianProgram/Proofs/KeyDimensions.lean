import GaussianProgram.Graph
import GaussianProgram.Proofs.Sequence

/-! Dimensions of the keys of a graph. Its places, which are the keys of every factor in order, each
ask for a dimension of a key. A graph whose places agree has the dimensions that they ask for. In
any other graph the first place that disagrees with an earlier one is named. -/
namespace GaussianProgram

/-- A factor names no key twice. -/
theorem Factor.nodup_keys {κ α : Type} [Key κ] (f : Factor κ α) : f.keys.Nodup := by
  cases f with
  | quadratic f => exact f.keys_nodup
  | linear f =>
    rw [keys, keyDims, LinearRows.keyDims, List.map_map]
    exact f.keys_nodup

/-- A place in a graph: the index of a factor and a position among its keys. -/
structure Place where
  factor : ℕ
  position : ℕ

def Place.Before (a b : Place) : Prop :=
  a.factor < b.factor ∨ a.factor = b.factor ∧ a.position < b.position

theorem Place.Before.trans {a b c : Place} (hab : a.Before b) (hbc : b.Before c) : a.Before c := by
  simp only [Before] at *
  omega

theorem Place.Before.asymm {a b : Place} (hab : a.Before b) : ¬b.Before a := by
  simp only [Before] at *
  omega

theorem Place.before_or_eq_or_before (a b : Place) : a.Before b ∨ a = b ∨ b.Before a := by
  obtain ⟨i, p⟩ := a
  obtain ⟨j, q⟩ := b
  simp only [Before, mk.injEq]
  omega

namespace Graph
variable {κ α : Type} [Key κ]

theorem mem_indexed {g : Graph κ α} {i : ℕ} {f : Factor κ α} :
    (i, f) ∈ g.indexed ↔ g.factors[i]? = some f := by
  rw [← List.mk_mem_zipIdx_iff_getElem?, indexed, List.mem_map]
  constructor
  · rintro ⟨⟨f', j⟩, hmem, he⟩
    cases he
    exact hmem
  · exact fun h => ⟨(f, i), h, rfl⟩

/-- Factors are listed in the order of their indices. -/
theorem ascending_indexed (g : Graph κ α) : g.indexed.Pairwise fun a b => a.1 < b.1 := by
  have hlt : (g.indexed.map (·.1)).Pairwise (· < ·) := by
    rw [indexed, List.map_map]
    exact (List.zipIdx_map_snd 0 g.factors).symm ▸ List.pairwise_lt_range' 1
  exact List.pairwise_map.1 hlt

def Asks (g : Graph κ α) (a : Place) (k : κ) (n : ℕ) : Prop :=
  ∃ f, g.factors[a.factor]? = some f ∧ f.keyDims[a.position]? = some (k, n)

def asked (g : Graph κ α) : List (Place × κ × ℕ) :=
  g.indexed.flatMap fun (i, f) => f.keyDims.zipIdx.map fun (e, p) => (⟨i, p⟩, e)

theorem mem_asked {g : Graph κ α} {a : Place} {k : κ} {n : ℕ} :
    (a, k, n) ∈ g.asked ↔ g.Asks a k n := by
  rw [asked, List.mem_flatMap, Asks]
  constructor
  · rintro ⟨⟨i, f⟩, hf, hmem⟩
    obtain ⟨⟨e, p⟩, he, heq⟩ := List.mem_map.1 hmem
    cases heq
    exact ⟨f, mem_indexed.1 hf, List.mk_mem_zipIdx_iff_getElem?.1 he⟩
  · rintro ⟨f, hf, he⟩
    exact ⟨(a.factor, f), mem_indexed.2 hf, List.mem_map.2
      ⟨((k, n), a.position), List.mk_mem_zipIdx_iff_getElem?.2 he, rfl⟩⟩

theorem ascending_asked (g : Graph κ α) : g.asked.Pairwise fun a b => a.1.Before b.1 := by
  refine List.pairwise_flatMap.2 ⟨fun e _ => ?_, g.ascending_indexed.imp fun {a b} hlt => ?_⟩
  · have hlt : (e.2.keyDims.zipIdx.map (·.2)).Pairwise (· < ·) :=
      (List.zipIdx_map_snd 0 e.2.keyDims).symm ▸ List.pairwise_lt_range' 1
    exact List.pairwise_map.2 ((List.pairwise_map.1 hlt).imp fun hp => .inr ⟨rfl, hp⟩)
  · intro x hx y hy
    obtain ⟨_, -, rfl⟩ := List.mem_map.1 hx
    obtain ⟨_, -, rfl⟩ := List.mem_map.1 hy
    exact .inl hlt

/-- The places ask for what the factors name. -/
theorem exists_asks {g : Graph κ α} {k : κ} {n : ℕ} :
    (∃ a, g.Asks a k n) ↔ ∃ f ∈ g.factors, (k, n) ∈ f.keyDims := by
  constructor
  · rintro ⟨a, f, hf, he⟩
    exact ⟨f, List.mem_of_getElem? hf, List.mem_of_getElem? he⟩
  · rintro ⟨f, hf, he⟩
    obtain ⟨i, hi⟩ := List.getElem?_of_mem hf
    obtain ⟨p, hp⟩ := List.getElem?_of_mem he
    exact ⟨⟨i, p⟩, f, hi, hp⟩

/-- The dimensions are recorded place by place. -/
theorem keyDimensions_eq_foldlM (g : Graph κ α) : g.keyDimensions =
    g.asked.foldlM (fun dims a => recordDimension a.1.factor dims a.2) SortedMap.empty := by
  have hfactor (i p : ℕ) (l : List (κ × ℕ)) (dims : SortedMap κ ℕ) :
      ((l.zipIdx p).map fun (e, p) => ((⟨i, p⟩ : Place), e)).foldlM
        (fun dims a => recordDimension a.1.factor dims a.2) dims =
        l.foldlM (recordDimension i) dims := by
    rw [List.foldlM_map]
    induction l generalizing p dims with
    | nil => rfl
    | cons e l ih =>
      rw [List.zipIdx_cons, List.foldlM_cons, List.foldlM_cons]
      exact bind_congr fun next => ih (p + 1) next
  rw [keyDimensions, asked]
  generalize (SortedMap.empty : SortedMap κ ℕ) = dims
  induction g.indexed generalizing dims with
  | nil => rfl
  | cons e l ih =>
    rw [List.flatMap_cons, List.foldlM_append, List.foldlM_cons, hfactor]
    exact bind_congr fun next => ih next

private def Recorded (l : List (Place × κ × ℕ)) (dims : SortedMap κ ℕ) : Prop :=
  ∀ k n, dims.get? k = some n ↔ ∃ a, (a, k, n) ∈ l

private theorem recorded_step {l : List (Place × κ × ℕ)} {dims next : SortedMap κ ℕ}
    {a : Place × κ × ℕ} (hd : Recorded l dims)
    (h : recordDimension a.1.factor dims a.2 = .ok next) : Recorded (l ++ [a]) next := by
  obtain ⟨a, b, m⟩ := a
  have hmem {k : κ} {n : ℕ} : (∃ c, (c, k, n) ∈ l ++ [(a, b, m)]) ↔
      dims.get? k = some n ∨ k = b ∧ n = m := by
    simp [hd k n, exists_or]
  intro k n
  rw [hmem]
  unfold recordDimension at h
  split at h
  next hnone =>
    cases h
    by_cases hk : k = b
    · subst hk
      simp [show dims.get? k = none from hnone, eq_comm]
    · simp [SortedMap.get?_insert_of_ne hk, hk]
  next known hknown =>
    split_ifs at h with heq
    cases h
    subst heq
    refine ⟨.inl, fun hn => hn.elim id fun he => ?_⟩
    rw [he.1, he.2]
    exact hknown

private theorem recorded_foldlM {l l' : List (Place × κ × ℕ)} {dims next : SortedMap κ ℕ}
    (hd : Recorded l dims)
    (h : l'.foldlM (fun dims a => recordDimension a.1.factor dims a.2) dims = .ok next) :
    Recorded (l ++ l') next := by
  induction l' generalizing l dims with
  | nil =>
    cases Result.pure_eq_ok.1 h
    rwa [List.append_nil]
  | cons a l' ih =>
    rw [List.foldlM_cons, Result.bind_eq_ok] at h
    obtain ⟨mid, hmid, h⟩ := h
    rw [List.append_cons]
    exact ih (recorded_step hd hmid) h

private theorem recorded_nil : Recorded [] (SortedMap.empty : SortedMap κ ℕ) :=
  fun k n => by simp

/-- The dimensions of a graph are those that its places ask for. -/
theorem get?_keyDimensions {g : Graph κ α} {dims : SortedMap κ ℕ} (h : g.keyDimensions = .ok dims)
    {k : κ} {n : ℕ} : dims.get? k = some n ↔ ∃ a, g.Asks a k n := by
  rw [keyDimensions_eq_foldlM] at h
  simp only [recorded_foldlM recorded_nil h k n, List.nil_append, mem_asked]

/-- The dimensions of a graph are those that its factors ask for. -/
theorem keyDimensions_spec {g : Graph κ α} {dims : SortedMap κ ℕ} (h : g.keyDimensions = .ok dims)
    {k : κ} {n : ℕ} : dims.get? k = some n ↔ ∃ f ∈ g.factors, (k, n) ∈ f.keyDims :=
  (get?_keyDimensions h).trans exists_asks

/-- The place `a` is the first that disagrees with an earlier one: it asks for the key `k` in the
dimension `n`, and it was asked for in the dimension `m`. -/
structure FirstConflict (g : Graph κ α) (a : Place) (k : κ) (n m : ℕ) : Prop where
  asks : g.Asks a k n
  known : ∃ b, b.Before a ∧ g.Asks b k m
  ne : m ≠ n
  agreed : ∀ b c, b.Before a → c.Before a → ∀ k n m, g.Asks b k n → g.Asks c k m → n = m

/-- A mismatch is that of the first place that disagrees with an earlier one. -/
theorem exists_firstConflict {g : Graph κ α} {fault : DimensionMismatch}
    (h : g.keyDimensions = .error fault) : ∃ a k n m,
      fault = .factors a.factor (Key.text k) n m ∧ g.FirstConflict a k n m := by
  rw [keyDimensions_eq_foldlM] at h
  obtain ⟨before, ⟨a, k, n⟩, after, dims, hsplit, hbefore, hfail⟩ :=
    Result.exists_split_of_foldlM_eq_error h
  have hrecorded := recorded_foldlM recorded_nil hbefore
  rw [List.nil_append] at hrecorded
  have hsorted := hsplit ▸ g.ascending_asked
  have hmem {b : Place} {k' : κ} {n' : ℕ} :
      g.Asks b k' n' ↔ (b, k', n') ∈ before ++ (a, k, n) :: after := by
    rw [← mem_asked, hsplit]
  -- Only the places of the split's first part come before its middle.
  have hpre {b : Place} (hb : b.Before a) {k' : κ} {n' : ℕ} (hasks : g.Asks b k' n') :
      dims.get? k' = some n' := by
    rw [hrecorded]
    refine ⟨b, (List.mem_append.1 (hmem.1 hasks)).resolve_right fun hlate => ?_⟩
    rcases List.mem_cons.1 hlate with heq | hlate
    · cases heq
      exact hb.asymm hb
    · exact hb.asymm ((List.pairwise_cons.1 (List.pairwise_append.1 hsorted).2.1).1 _ hlate)
  unfold recordDimension at hfail
  split at hfail
  · cases hfail
  next m hm =>
    split_ifs at hfail with hne
    cases hfail
    obtain ⟨b, hb⟩ := (hrecorded k m).1 hm
    refine ⟨a, k, n, m, rfl, hmem.2 (List.mem_append_right _ List.mem_cons_self), ⟨b, ?_, ?_⟩, hne,
      fun b c hb hc k n m hn hm => ?_⟩
    · exact (List.pairwise_append.1 hsorted).2.2 _ hb _ List.mem_cons_self
    · exact hmem.2 (List.mem_append_left _ hb)
    · exact Option.some.inj ((hpre hb hn).symm.trans (hpre hc hm))

/-- A graph has dimensions exactly if no two places ask for a key in two of them. -/
theorem exists_keyDimensions_iff {g : Graph κ α} : (∃ dims, g.keyDimensions = .ok dims) ↔
    ∀ a b k n m, g.Asks a k n → g.Asks b k m → n = m := by
  constructor
  · rintro ⟨dims, hdims⟩ a b k n m hn hm
    have hget := (get?_keyDimensions hdims).2 ⟨a, hn⟩
    exact Option.some.inj (hget.symm.trans ((get?_keyDimensions hdims).2 ⟨b, hm⟩))
  · intro hagree
    cases h : g.keyDimensions with
    | ok dims => exact ⟨dims, rfl⟩
    | error fault =>
      obtain ⟨a, k, n, m, -, hfirst⟩ := exists_firstConflict h
      obtain ⟨b, -, hm⟩ := hfirst.known
      exact absurd (hagree b a k m n hm hfirst.asks) hfirst.ne

theorem Asks.unique {g : Graph κ α} {a : Place} {k k' : κ} {n n' : ℕ} (h : g.Asks a k n)
    (h' : g.Asks a k' n') : k = k' ∧ n = n' := by
  obtain ⟨f, hf, he⟩ := h
  obtain ⟨f', hf', he'⟩ := h'
  cases hf.symm.trans hf'
  simpa using he.symm.trans he'

/-- There is one first conflict at most. -/
theorem FirstConflict.unique {g : Graph κ α} {a a' : Place} {k k' : κ} {n n' m m' : ℕ}
    (h : g.FirstConflict a k n m) (h' : g.FirstConflict a' k' n' m') :
    a = a' ∧ k = k' ∧ n = n' ∧ m = m' := by
  -- A conflict cannot lie among the places before another one.
  have hbefore {a a' : Place} {k k' : κ} {n n' m m' : ℕ} (h : g.FirstConflict a k n m)
      (h' : g.FirstConflict a' k' n' m') : ¬a.Before a' := fun hlt => by
    obtain ⟨b, hb, hm⟩ := h.known
    exact h.ne (h'.agreed b a (hb.trans hlt) hlt k m n hm h.asks)
  rcases a.before_or_eq_or_before a' with hlt | rfl | hlt
  · exact absurd hlt (hbefore h h')
  · obtain ⟨rfl, rfl⟩ := h.asks.unique h'.asks
    obtain ⟨b, hb, hm⟩ := h.known
    obtain ⟨c, hc, hm'⟩ := h'.known
    exact ⟨rfl, rfl, rfl, h.agreed b c hb hc k m m' hm hm'⟩
  · exact absurd hlt (hbefore h' h)

/-- A graph has no dimensions exactly if some place disagrees with an earlier one, and the first of
these is named. -/
theorem keyDimensions_eq_error_iff {g : Graph κ α} {fault : DimensionMismatch} :
    g.keyDimensions = .error fault ↔ ∃ a k n m, g.FirstConflict a k n m ∧
      fault = .factors a.factor (Key.text k) n m := by
  constructor
  · intro h
    obtain ⟨a, k, n, m, hfault, hfirst⟩ := exists_firstConflict h
    exact ⟨a, k, n, m, hfirst, hfault⟩
  · rintro ⟨a, k, n, m, hfirst, rfl⟩
    cases h : g.keyDimensions with
    | ok dims =>
      obtain ⟨b, -, hm⟩ := hfirst.known
      exact absurd (exists_keyDimensions_iff.1 ⟨dims, h⟩ b a k m n hm hfirst.asks) hfirst.ne
    | error fault =>
      obtain ⟨a', k', n', m', rfl, hfirst'⟩ := exists_firstConflict h
      obtain ⟨rfl, rfl, rfl, rfl⟩ := hfirst.unique hfirst'
      rfl

/-- A graph has no dimensions if some factor disagrees with an earlier one about a key. That factor
is named, with both dimensions. -/
theorem keyDimensions_eq_error {g : Graph κ α} {fault : DimensionMismatch}
    (h : g.keyDimensions = .error fault) : ∃ i f j f' k n m,
      fault = .factors i (Key.text k) n m ∧ g.factors[i]? = some f ∧ (k, n) ∈ f.keyDims ∧
        j < i ∧ g.factors[j]? = some f' ∧ (k, m) ∈ f'.keyDims ∧ m ≠ n := by
  obtain ⟨⟨i, p⟩, k, n, m, rfl, hfirst⟩ := exists_firstConflict h
  obtain ⟨f, hf, hn⟩ := hfirst.asks
  obtain ⟨⟨j, q⟩, hbefore, f', hf', hm⟩ := hfirst.known
  refine ⟨i, f, j, f', k, n, m, rfl, hf, List.mem_of_getElem? hn, ?_, hf', List.mem_of_getElem? hm,
    hfirst.ne⟩
  rcases hbefore with hlt | ⟨heq, hlt⟩
  · exact hlt
  · -- Within a factor the key would be named twice.
    cases heq
    cases hf.symm.trans hf'
    have hkey {p n : ℕ} (he : f.keyDims[p]? = some (k, n)) : f.keys[p]? = some k := by
      rw [Factor.keys, List.getElem?_map, he]
      rfl
    have hp : q < f.keys.length := (List.getElem?_eq_some_iff.1 (hkey hm)).1
    have hsame := (List.getElem?_inj hp f.nodup_keys).1 ((hkey hm).trans (hkey hn).symm)
    exact absurd hsame (Nat.ne_of_lt hlt)

/-- Factors that agree about the dimension of every key have dimensions in common. -/
theorem exists_keyDimensions {g : Graph κ α} (dim : κ → ℕ)
    (h : ∀ f ∈ g.factors, ∀ e ∈ f.keyDims, dim e.1 = e.2) : ∃ dims, g.keyDimensions = .ok dims := by
  have hdim {a : Place} {k : κ} {n : ℕ} (hasks : g.Asks a k n) : dim k = n := by
    obtain ⟨f, hf, he⟩ := exists_asks.1 ⟨a, hasks⟩
    exact h f hf _ he
  exact exists_keyDimensions_iff.2 fun a b k n m hn hm => (hdim hn).symm.trans (hdim hm)

end Graph

end GaussianProgram
