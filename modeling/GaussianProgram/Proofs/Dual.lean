import GaussianProgram.Proofs.ActiveRows
import GaussianProgram.Proofs.Scatter

/-! The dual graph. Its factors say that the weighed active rows cancel the gradient and that
inactive rows have no multiplier, so its residuals vanish exactly at the multipliers. -/
namespace GaussianProgram
open Finset (range)

namespace LinearRows
variable {κ α : Type} [Key κ] [ExactScalar α]

omit [ExactScalar α] in
theorem leastSquares_spec {terms : List (κ × Matrix α)} {rhs : Vec α} {c : LinearRows κ α}
    (h : leastSquares terms rhs = .ok c) : c.terms = terms ∧ c.rhs = rhs ∧ c.kinds = none := by
  unfold leastSquares build at h
  split_ifs at h
  split at h
  · cases h
  · split at h
    · cases h
    · cases h
      exact ⟨rfl, rfl, rfl⟩

omit [ExactScalar α] in
/-- Terms with distinct keys and a row for every right-hand side make least-squares rows. -/
theorem exists_leastSquares (terms : List (κ × Matrix α)) (rhs : Vec α) (hne : terms ≠ [])
    (hkeys : (terms.map (·.1)).Nodup) (hrows : ∀ t ∈ terms, t.2.rows = rhs.length) :
    ∃ c, leastSquares terms rhs = .ok c := by
  unfold leastSquares build
  rw [dif_neg hne]
  split
  next k hk =>
    rw [firstRepeated_eq_none.2 ⟨hkeys, fun _ _ => List.not_mem_nil⟩] at hk
    cases hk
  next =>
    split
    next t ht =>
      have hne : t.2.rows ≠ rhs.length := by simpa using List.find?_some ht
      exact absurd (hrows t (List.mem_of_find?_eq_some ht)) hne
    next => exact ⟨_, rfl⟩

omit [ExactScalar α] in
/-- The first place of a key is that of its block. -/
theorem exists_term_of_findIdx? {f : LinearRows κ α} {k : κ} {position : ℕ}
    (h : (f.keys.findIdx? fun k' => decide (k' = k)) = some position) :
    ∃ block, f.terms[position]? = some (k, block) := by
  obtain ⟨hlt, hkey, -⟩ := List.findIdx?_eq_some_iff_getElem.1 h
  have hget := List.getElem?_eq_getElem hlt
  rw [of_decide_eq_true hkey, keys, List.getElem?_map] at hget
  obtain ⟨⟨_, block⟩, hterm, rfl⟩ := Option.map_eq_some_iff.1 hget
  exact ⟨block, hterm⟩

end LinearRows

namespace Graph
variable {κ α : Type} [Key κ]

section Stated
variable [Scalar α]

/-- The signed coefficients of a row for a key, zeros for a row that is not active. -/
def signedPart (w : WorkingSet) (i : ℕ) (f : LinearRows κ α) (k : κ) (n row : ℕ) : Vec α :=
  match signOf w i f row with
  | none => Vec.zeros n
  | some sign => Vec.scale ((f.part? k row).getD []) sign

/-- A factor has a term in the condition for each of its keys. -/
theorem stationarityTerm?_eq {w : WorkingSet} {k : κ} {n i : ℕ} {f : LinearRows κ α}
    (hn : ∀ e ∈ f.keyDims, e.1 = k → e.2 = n) : stationarityTerm? w k n i f =
      .ok (if k ∈ f.keys then
        some (i, .ofColumns n ((List.range f.rows).map (signedPart w i f k n))) else none) := by
  unfold stationarityTerm?
  cases hfind : f.keys.findIdx? fun k' => decide (k' = k) with
  | none =>
    have hk : k ∉ f.keys := fun hk => by simpa using List.findIdx?_eq_none_iff.1 hfind k hk
    rw [if_neg hk]
  | some position =>
    obtain ⟨hlt, hfirst, -⟩ := List.findIdx?_eq_some_iff_getElem.1 hfind
    have hkey : f.keys[position]? = some k := by
      rw [List.getElem?_eq_getElem hlt, of_decide_eq_true hfirst]
    have hk : k ∈ f.keys := List.mem_of_getElem? hkey
    rw [if_pos hk]
    refine Result.bind_eq_ok.2 ⟨_, Result.mapM_eq_map fun row hrow => ?_, rfl⟩
    rw [signedPart]
    cases (signOf w i f row : Option α) with
    | none => rfl
    | some sign =>
      obtain ⟨v, hv, hlen⟩ := f.exists_part? hk (List.mem_range.1 hrow) hn
      simp only [LinearRows.rowCoefficients?_eq hkey, hv, Result.inRange_some, Option.getD_some]
      exact if_pos hlen

/-- Every multiplier can be pinned. -/
theorem exists_pin (i rows row : ℕ) : ∃ c : LinearRows ℕ α, pin i rows row = .ok c ∧
    c.terms = [(i, Matrix.ofFn 1 rows fun _ j => if j = row then 1 else 0)] ∧
      c.rhs = Vec.zeros 1 ∧ c.kinds = none := by
  obtain ⟨c, hc⟩ := LinearRows.exists_leastSquares
    [(i, Matrix.ofFn 1 rows fun _ j => if j = row then (1 : α) else 0)] (Vec.zeros 1)
    (List.cons_ne_nil _ _) (List.nodup_singleton _) (List.forall_mem_singleton.2 rfl)
  exact ⟨c, by rw [pin, hc]; rfl, LinearRows.leastSquares_spec hc⟩

/-- Every multiplier of some factors can be pinned. -/
theorem exists_pins (w : WorkingSet) (l : List (ℕ × LinearRows κ α)) :
    ∃ pinned, pins w l = .ok pinned := by
  suffices hlists : ∃ lists, l.mapM (fun e => ((List.range e.2.rows).filter fun row =>
      (signOf w e.1 e.2 row : Option α).isNone).mapM (pin e.1 e.2.rows)) =
        (.ok lists : Result (SolverError α) (List (List (LinearRows ℕ α)))) by
    obtain ⟨lists, hlists⟩ := hlists
    exact ⟨_, Result.bind_eq_ok.2 ⟨lists, hlists, rfl⟩⟩
  exact Result.exists_mapM fun e _ => Result.exists_mapM fun row _ =>
    (exists_pin e.1 e.2.rows row).imp fun _ => And.left

def columnsOf (w : WorkingSet) (k : κ) (n : ℕ) (e : ℕ × LinearRows κ α) : ℕ × Matrix α :=
  (e.1, .ofColumns n ((List.range e.2.rows).map (signedPart w e.1 e.2 k n)))

/-- The terms for a key come from those of the listed factors that have the key. -/
theorem exists_terms (w : WorkingSet) {l : List (ℕ × LinearRows κ α)} {k : κ} {n : ℕ}
    (hn : ∀ e ∈ l, ∀ e' ∈ e.2.keyDims, e'.1 = k → e'.2 = n) : ∃ terms,
      l.mapM (fun e => stationarityTerm? w k n e.1 e.2) = .ok terms ∧
        terms.filterMap id =
          (l.filter fun e => decide (k ∈ e.2.keys)).map (columnsOf w k n) := by
  refine ⟨_, Result.mapM_eq_map fun e he => stationarityTerm?_eq (hn e he), ?_⟩
  rw [List.filterMap_map, ← List.filterMap_eq_map, List.filterMap_filter]
  refine List.filterMap_congr fun e _ => ?_
  simp only [Function.comp_apply, decide_eq_true_eq, id_eq]
  rfl

/-- The condition for a key has a term for each of the listed factors that have the key. Without
such a factor there is none. -/
theorem exists_stationarityFactor? (w : WorkingSet) {l : List (ℕ × LinearRows κ α)} (k : κ)
    (part : Vec α) (hnodup : (l.map (·.1)).Nodup)
    (hn : ∀ e ∈ l, ∀ e' ∈ e.2.keyDims, e'.1 = k → e'.2 = part.length) :
    ∃ o, stationarityFactor? w l k part = .ok o ∧
      (o = none ∧ (l.filter fun e => decide (k ∈ e.2.keys)) = [] ∨
        ∃ c, o = some c ∧ c.terms = (l.filter fun e => decide (k ∈ e.2.keys)).map
          (columnsOf w k part.length) ∧ c.rhs = Vec.neg part ∧ c.kinds = none) := by
  obtain ⟨terms, hall, hterms⟩ := exists_terms w hn
  rw [stationarityFactor?]
  by_cases hempty : l.filter (fun e => decide (k ∈ e.2.keys)) = []
  · refine ⟨none, Result.bind_eq_ok.2 ⟨_, hall, if_pos ?_⟩, .inl ⟨rfl, hempty⟩⟩
    rw [hterms, hempty]
    rfl
  · have hne : (l.filter fun e => decide (k ∈ e.2.keys)).map (columnsOf w k part.length) ≠ [] :=
      fun hnil => hempty (List.map_eq_nil_iff.1 hnil)
    have hnodup' : ((l.filter fun e => decide (k ∈ e.2.keys)).map
        fun e => (columnsOf w k part.length e).1).Nodup :=
      hnodup.sublist (List.filter_sublist.map _)
    obtain ⟨c, hc⟩ := LinearRows.exists_leastSquares _ (Vec.neg part) hne
      (by rwa [List.map_map]) (List.forall_mem_map.2 fun e _ => (Vec.length_neg part).symm)
    refine ⟨some c, Result.bind_eq_ok.2 ⟨_, hall, ?_⟩,
      .inr ⟨c, rfl, LinearRows.leastSquares_spec hc⟩⟩
    rw [hterms, if_neg fun hnil => hne (List.isEmpty_iff.1 hnil), hc]
    rfl

/-- The dual graph is empty without participating factors. Else it is made of the conditions of the
gradient and of the pins. -/
theorem dualGraph_eq_ok {g : Graph κ α} {w : WorkingSet} {x : Assignment κ α} {dual : Graph ℕ α} :
    g.dualGraph w x = .ok dual ↔ g.participating w = [] ∧ dual = empty ∨ g.participating w ≠ [] ∧
      ∃ grad conditions pinned, g.gradient x = .ok grad ∧
        grad.toList.mapM (fun e => stationarityFactor? w (g.participating w) e.1 e.2) =
          .ok conditions ∧
        pins w (g.participating w) = .ok pinned ∧
        dual = ⟨(conditions.filterMap id ++ pinned).map .linear⟩ := by
  unfold dualGraph
  by_cases hempty : g.participating w = []
  · simp [hempty, Result.pure_eq_ok, @eq_comm _ dual]
  · simp [hempty, -bind_pure_comp, Result.bind_eq_ok, Result.mapCause_eq_ok, Result.pure_eq_ok,
      @eq_comm _ dual]

end Stated

variable [ExactScalar α] {g : Graph κ α} {w : WorkingSet}

/-- A term of a stationarity condition has the signed coefficients of the rows as columns. -/
theorem stationarityTerm?_spec {k : κ} {dim i : ℕ} {f : LinearRows κ α}
    {o : Option (ℕ × Matrix α)} (h : stationarityTerm? w k dim i f = .ok o) :
    (o = none ∧ k ∉ f.keys) ∨ ∃ m, o = some (i, m) ∧ k ∈ f.keys ∧ m.rows = dim ∧ m.cols = f.rows ∧
      ∀ j < dim, ∀ row < f.rows,
        m.get j row = (signOf w i f row).getD 0 * f.form row (unitPoint k j) := by
  unfold stationarityTerm? at h
  cases hfind : f.keys.findIdx? fun k' => decide (k' = k) with
  | none =>
    rw [hfind] at h
    cases h
    refine .inl ⟨rfl, fun hk => ?_⟩
    simpa using List.findIdx?_eq_none_iff.1 hfind k hk
  | some position =>
    obtain ⟨block, hblock⟩ := LinearRows.exists_term_of_findIdx? hfind
    have hmem : (k, block) ∈ f.terms := List.mem_of_getElem? hblock
    have hrows : block.rows = f.rows := f.block_rows _ hmem
    rw [hfind] at h
    obtain ⟨columns, hcolumns, h⟩ := Result.bind_eq_ok.1 h
    cases Result.pure_eq_ok.1 h
    rw [Result.mapM_eq_ok] at hcolumns
    have hlen : columns.length = f.rows := by
      rw [← hcolumns.length_eq, List.length_range]
    refine .inr ⟨_, rfl, List.mem_map_of_mem hmem, rfl, hlen, fun j hj row hrow => ?_⟩
    -- A row that is not active has no sign, and its column is zero.
    have hrow' : row < columns.length := hlen ▸ hrow
    have hcolumn := (List.forall₂_iff_get.1 hcolumns).2 row (by simpa using hrow) hrow'
    rw [Matrix.ofColumns, Matrix.get_ofFn _ hj hrow', List.getD_eq_getElem _ _ hrow']
    simp only [List.get_eq_getElem, List.getElem_range] at hcolumn
    cases hs : (signOf w i f row : Option α) with
    | none =>
      rw [hs] at hcolumn
      rw [← (Except.ok.inj hcolumn : Vec.zeros dim = columns[row]), Vec.get_zeros, Option.getD_none,
        zero_mul]
    | some t =>
      have hcoeff : f.rowCoefficients? row position = some (block.row row) := by
        simp [LinearRows.rowCoefficients?, LinearRows.block?, hblock, Matrix.row?, hrows, hrow]
      simp only [hs, hcoeff, Result.inRange_some] at hcolumn
      obtain ⟨_, hcoeff', hcolumn⟩ := Result.bind_eq_ok.1 hcolumn
      cases hcoeff'
      split_ifs at hcolumn with hdim
      have hcols : j < block.cols := by
        rw [← Matrix.length_row block row, hdim]
        exact hj
      rw [← (Except.ok.inj hcolumn : Vec.scale (block.row row) t = columns[row]), Vec.get_scale,
        Matrix.get_row block hcols, LinearRows.form_unitPoint hmem hcols,
        Option.getD_some, mul_comm]

def Touches (g : Graph κ α) (w : WorkingSet) (k : κ) : Prop :=
  ∃ e ∈ g.participating w, k ∈ e.2.keys

/-- The row belongs to a participating factor and is not active. -/
def IsIdle (g : Graph κ α) (w : WorkingSet) (r : ConstraintRow) : Prop :=
  ¬g.IsActive w r ∧ ∃ f, (r.factor, f) ∈ g.participating w ∧ r.row < f.rows

/-- The rows say that the weighed active rows cancel one part of the gradient. -/
structure IsCondition (g : Graph κ α) (w : WorkingSet) (k : κ) (part : Vec α)
    (c : LinearRows ℕ α) : Prop where
  kinds : c.kinds = none
  rows : c.rows = part.length
  keyDims : ∀ i f, (i, f) ∈ g.participating w → k ∈ f.keys → (i, f.rows) ∈ c.keyDims
  gap : ∀ d, ∀ j < part.length,
    c.gap j d = g.weighted w d (unitPoint k j) + Vec.get part j

/-- The row says that a row that is not active has no multiplier. -/
structure IsPin (g : Graph κ α) (w : WorkingSet) (r : ConstraintRow) (c : LinearRows ℕ α) :
    Prop where
  inactive : ¬g.IsActive w r
  kinds : c.kinds = none
  rows : c.rows = 1
  gap : ∀ d, c.gap 0 d = d r.factor r.row

/-- The terms of a condition add up to the weighed rows of the listed factors. -/
private theorem rowSum_terms {l : List (ℕ × LinearRows κ α)} {k : κ} {dim j : ℕ} (hj : j < dim)
    {terms : List (Option (ℕ × Matrix α))}
    (h : List.Forall₂ (fun e o => stationarityTerm? w k dim e.1 e.2 = .ok o) l terms)
    (d : Point ℕ α) : rowSum (terms.filterMap id) j d = (l.map fun e => ∑ row ∈ range e.2.rows,
      (signOf w e.1 e.2 row).getD 0 * (d e.1 row * e.2.form row (unitPoint k j))).sum := by
  induction h with
  | nil => rfl
  | @cons e o l terms he _ ih =>
    rw [List.map_cons, List.sum_cons, ← ih]
    rcases stationarityTerm?_spec he with ⟨rfl, hk⟩ | ⟨m, rfl, -, -, hcols, hget⟩
    · simp [LinearRows.form_unitPoint_of_notMem hk]
    · rw [List.filterMap_cons_some (show id (some (e.1, m)) = some (e.1, m) from rfl), rowSum_cons,
        hcols]
      refine congrArg (· + _) (Finset.sum_congr rfl fun row hrow => ?_)
      rw [hget j hj row (Finset.mem_range.1 hrow)]
      ring

section Terms
variable {l : List (ℕ × LinearRows κ α)} {k : κ} {dim : ℕ} {terms : List (Option (ℕ × Matrix α))}
  (h : l.mapM (fun e => stationarityTerm? w k dim e.1 e.2) = .ok terms)
include h

/-- A listed factor that has the key has a term. -/
private theorem exists_term {i : ℕ} {f : LinearRows κ α} (hf : (i, f) ∈ l) (hk : k ∈ f.keys) :
    ∃ m : Matrix α, (i, m) ∈ terms.filterMap id ∧ m.cols = f.rows := by
  obtain ⟨o, -, hok⟩ := Result.exists_mem_of_mapM h hf
  obtain ⟨-, hnot⟩ | ⟨m, rfl, -, -, hcols, -⟩ := stationarityTerm?_spec hok
  · exact absurd hk hnot
  · exact ⟨m, (Result.mem_filterMap_of_mapM h).2 ⟨_, hf, hok⟩, hcols⟩

/-- Every term is that of a listed factor that has the key. -/
private theorem exists_of_term {t : ℕ × Matrix α} (ht : t ∈ terms.filterMap id) :
    ∃ f, (t.1, f) ∈ l ∧ k ∈ f.keys ∧ t.2.cols = f.rows := by
  obtain ⟨⟨i, f⟩, hf, hok⟩ := (Result.mem_filterMap_of_mapM h).1 ht
  obtain ⟨hnone, -⟩ | ⟨m, ht, hk, -, hcols, -⟩ := stationarityTerm?_spec hok
  · cases hnone
  · cases ht
    exact ⟨f, hf, hk, hcols⟩

end Terms

/-- A condition is stated for every variable that a participating factor touches, over the
multipliers of such factors. -/
theorem stationarityFactor?_spec {k : κ} {part : Vec α} {o : Option (LinearRows ℕ α)}
    (h : stationarityFactor? w (g.participating w) k part = .ok o) :
    (o = none ∧ ¬g.Touches w k) ∨ ∃ c, o = some c ∧ g.Touches w k ∧ g.IsCondition w k part c ∧
      ∀ e ∈ c.keyDims, ∃ f, (e.1, f) ∈ g.participating w ∧ f.rows = e.2 := by
  obtain ⟨terms, hterms, h⟩ := Result.bind_eq_ok.1 h
  simp only at h
  split_ifs at h with hempty
  · cases Result.pure_eq_ok.1 h
    refine .inl ⟨rfl, fun ⟨e, he, hk⟩ => ?_⟩
    obtain ⟨m, hm, -⟩ := exists_term hterms he hk
    exact List.ne_nil_of_mem hm (List.isEmpty_iff.1 hempty)
  · rw [map_eq_pure_bind, Result.bind_eq_ok] at h
    obtain ⟨c, hc, h⟩ := h
    cases Result.pure_eq_ok.1 h
    rw [Result.mapCause_eq_ok, Result.ofExcept_eq_ok] at hc
    obtain ⟨hcterms, hrhs, hkinds⟩ := LinearRows.leastSquares_spec hc
    refine .inr ⟨c, rfl, ?_, ⟨hkinds, by simp [LinearRows.rows, hrhs], fun i f hf hk => ?_,
      fun d j hj => ?_⟩, fun e he => ?_⟩
    · obtain ⟨t, ht⟩ := List.exists_mem_of_ne_nil _ c.terms_ne_nil
      obtain ⟨f, hf, hk, -⟩ := exists_of_term hterms (hcterms ▸ ht)
      exact ⟨_, hf, hk⟩
    · obtain ⟨m, hm, hcols⟩ := exists_term hterms hf hk
      exact List.mem_map.2 ⟨_, hcterms ▸ hm, congrArg (i, ·) hcols⟩
    · rw [LinearRows.gap, LinearRows.form_apply, hcterms, hrhs, Vec.get_neg, sub_neg_eq_add,
        rowSum_terms hj (Result.mapM_eq_ok.1 hterms), weighted_apply, ← sum_participating]
      refine congrArg (List.sum · + _) (List.map_congr_left fun e he => ?_)
      apply Finset.sum_congr rfl
      intro row _
      rw [rowForm_eq (r := ⟨e.1, row⟩) (mem_participating.1 he).1]
    · obtain ⟨t, ht, rfl⟩ := List.mem_map.1 he
      obtain ⟨f, hf, -, hcols⟩ := exists_of_term hterms (hcterms ▸ ht)
      exact ⟨f, hf, hcols.symm⟩

theorem pin_spec {i row : ℕ} {f : LinearRows κ α} {c : LinearRows ℕ α}
    (hf : (i, f) ∈ g.participating w) (hrow : row < f.rows)
    (hsign : (signOf w i f row : Option α).isNone = true) (h : pin i f.rows row = .ok c) :
    g.IsPin w ⟨i, row⟩ c ∧ c.keyDims = [(i, f.rows)] := by
  rw [pin, Result.mapCause_eq_ok, Result.ofExcept_eq_ok] at h
  obtain ⟨hterms, hrhs, hkinds⟩ := LinearRows.leastSquares_spec h
  refine ⟨⟨fun hactive => ?_, hkinds, by simp [LinearRows.rows, hrhs], fun d => ?_⟩, ?_⟩
  · have hsome : (signOf w i f row : Option α).isSome = true := by
      obtain ⟨c', hc, hk⟩ := isActive_iff_exists.1 hactive
      cases Option.some.inj ((mem_participating.1 hf).1.symm.trans hc)
      exact signOf_isSome.2 hk
    rw [Option.isNone_iff_eq_none] at hsign
    simp [hsign] at hsome
  · rw [LinearRows.gap, LinearRows.form_apply, hterms, hrhs, Vec.get_zeros, sub_zero, rowSum_cons,
      rowSum_nil, add_zero, Matrix.cols_ofFn,
      Finset.sum_eq_single_of_mem row (Finset.mem_range.2 hrow)]
    · rw [Matrix.get_ofFn _ one_pos hrow, if_pos rfl, one_mul]
    · intro j hj hne
      rw [Matrix.get_ofFn _ one_pos (Finset.mem_range.1 hj), if_neg hne, zero_mul]
  · rw [LinearRows.keyDims, hterms]
    rfl

/-- Every pin is one of an idle row, and every idle row has one. -/
theorem pins_spec {pinned : List (LinearRows ℕ α)}
    (h : pins w (g.participating w) = .ok pinned) :
    (∀ c ∈ pinned, ∃ r, g.IsIdle w r ∧ g.IsPin w r c ∧
      ∀ e ∈ c.keyDims, ∃ f, (e.1, f) ∈ g.participating w ∧ f.rows = e.2) ∧
    ∀ r, g.IsIdle w r → ∃ c ∈ pinned, g.IsPin w r c := by
  obtain ⟨lists, hlists, h⟩ := Result.bind_eq_ok.1 h
  cases Result.pure_eq_ok.1 h
  constructor
  · intro c hc
    obtain ⟨l, hl, hcl⟩ := List.mem_flatten.1 hc
    obtain ⟨⟨i, f⟩, hmem, hok⟩ := Result.exists_of_mem_mapM hlists hl
    obtain ⟨row, hrow, hpin⟩ := Result.exists_of_mem_mapM hok hcl
    obtain ⟨hlt, hsign⟩ := List.mem_filter.1 hrow
    have hlt := List.mem_range.1 hlt
    obtain ⟨hpin, hkeys⟩ := pin_spec hmem hlt hsign hpin
    refine ⟨⟨i, row⟩, ⟨hpin.inactive, f, hmem, hlt⟩, hpin, fun e he => ?_⟩
    rw [hkeys, List.mem_singleton] at he
    exact ⟨f, he ▸ hmem, by rw [he]⟩
  · rintro ⟨i, row⟩ ⟨hinactive, f, hf, hlt⟩
    have hsign : (signOf w i f row : Option α).isNone = true := by
      rw [Option.isNone_iff_eq_none, ← Option.not_isSome_iff_eq_none, signOf_isSome]
      exact fun hk => hinactive (isActive_iff_exists.2 ⟨f, (mem_participating.1 hf).1, hk⟩)
    obtain ⟨l, hl, hok⟩ := Result.exists_mem_of_mapM hlists hf
    have hrow : row ∈ (List.range f.rows).filter fun row => (signOf w i f row : Option α).isNone :=
      List.mem_filter.2 ⟨List.mem_range.2 hlt, hsign⟩
    obtain ⟨c, hc, hpin⟩ := Result.exists_mem_of_mapM hok hrow
    exact ⟨c, List.mem_flatten.2 ⟨l, hl, hc⟩, (pin_spec hf hlt hsign hpin).1⟩

/-- The factors are conditions for parts of a gradient and pins, one for every variable that is
touched and one for every idle row, all over the multipliers of participating factors. -/
structure IsDual (g : Graph κ α) (w : WorkingSet) (grad : Assignment κ α) (dual : Graph ℕ α) :
    Prop where
  factors : ∀ f ∈ dual.factors, ∃ c, f = .linear c ∧
    ((∃ k part, g.Touches w k ∧ grad.get? k = some part ∧ g.IsCondition w k part c) ∨
      ∃ r, g.IsIdle w r ∧ g.IsPin w r c)
  condition : ∀ k part, g.Touches w k → grad.get? k = some part →
    ∃ c, .linear c ∈ dual.factors ∧ g.IsCondition w k part c
  pin : ∀ r, g.IsIdle w r → ∃ c, .linear c ∈ dual.factors ∧ g.IsPin w r c
  keyDims : ∀ f ∈ dual.factors, ∀ e ∈ f.keyDims,
    ∃ c, (e.1, c) ∈ g.participating w ∧ c.rows = e.2

/-- Without participating factors nothing is to be stated. -/
theorem isDual_empty (h : g.participating w = []) (grad : Assignment κ α) :
    g.IsDual w grad empty where
  factors _ hf := absurd hf List.not_mem_nil
  condition _ _ := fun ⟨_, he, _⟩ => absurd he (h ▸ List.not_mem_nil)
  pin _ := fun ⟨_, _, hf, _⟩ => absurd hf (h ▸ List.not_mem_nil)
  keyDims _ hf := absurd hf List.not_mem_nil

/-- A dual graph states the conditions of the gradient, if there is anything to state. -/
theorem dualGraph_spec {x : Assignment κ α} {dual : Graph ℕ α} (h : g.dualGraph w x = .ok dual) :
    (g.participating w = [] ∧ dual = empty) ∨
      ∃ grad, g.gradient x = .ok grad ∧ g.IsDual w grad dual := by
  obtain hempty | ⟨-, grad, conditions, pinned, hgrad, hconditions, hpinned, rfl⟩ :=
    dualGraph_eq_ok.1 h
  · exact .inl hempty
  · obtain ⟨hpins, hall⟩ := pins_spec hpinned
    have hcondition {c : LinearRows ℕ α} (hc : c ∈ conditions.filterMap id) :
        ∃ k part, grad.get? k = some part ∧ g.Touches w k ∧ g.IsCondition w k part c ∧
          ∀ e ∈ c.keyDims, ∃ f, (e.1, f) ∈ g.participating w ∧ f.rows = e.2 := by
      obtain ⟨⟨k, part⟩, hmem, hok⟩ := (Result.mem_filterMap_of_mapM hconditions).1 hc
      obtain ⟨hnone, -⟩ | ⟨c', hc', hcond⟩ := stationarityFactor?_spec hok
      · cases hnone
      · cases hc'
        exact ⟨k, part, SortedMap.get?_eq_some_iff.2 hmem, hcond⟩
    refine .inr ⟨grad, hgrad, fun f hf => ?_, fun k part hk hpart => ?_, fun r hr => ?_,
      fun f hf e he => ?_⟩
    · obtain ⟨c, hc, rfl⟩ := List.mem_map.1 hf
      refine ⟨c, rfl, (List.mem_append.1 hc).imp (fun hc => ?_) fun hc => ?_⟩
      · obtain ⟨k, part, hpart, hk, hcond, -⟩ := hcondition hc
        exact ⟨k, part, hk, hpart, hcond⟩
      · obtain ⟨r, hr, hpin, -⟩ := hpins c hc
        exact ⟨r, hr, hpin⟩
    · have hmem := SortedMap.get?_eq_some_iff.1 hpart
      obtain ⟨o, -, hok⟩ := Result.exists_mem_of_mapM hconditions hmem
      rcases stationarityFactor?_spec hok with ⟨-, hnot⟩ | ⟨c, rfl, -, hcond, -⟩
      · exact absurd hk hnot
      · refine ⟨c, List.mem_map_of_mem (List.mem_append_left _ ?_), hcond⟩
        exact (Result.mem_filterMap_of_mapM hconditions).2 ⟨_, hmem, hok⟩
    · obtain ⟨c, hc, hpin⟩ := hall r hr
      exact ⟨c, List.mem_map_of_mem (List.mem_append_right _ hc), hpin⟩
    · obtain ⟨c, hc, rfl⟩ := List.mem_map.1 hf
      rcases List.mem_append.1 hc with hc | hc
      · obtain ⟨k, part, -, -, -, hkeys⟩ := hcondition hc
        exact hkeys e he
      · obtain ⟨r, -, -, hkeys⟩ := hpins c hc
        exact hkeys e he

end Graph

end GaussianProgram
