import GaussianProgram.Proofs.Descent
import GaussianProgram.Proofs.DualSystem
import GaussianProgram.Proofs.Renaming
import GaussianProgram.Proofs.SingularValues

/-! Renamed problems. The order of keys decides the order of the columns in the check of the rank,
and of the factors in the dual graph. Neither the rank nor a minimum depends on these orders. -/
namespace GaussianProgram
open Result (Mirrors)

variable {κ κ' α : Type} [Key κ] [Key κ'] {ρ : κ ↪ κ'}

section Columns

/-- Lists of the same members, none of them twice, have their members at places in one to
one correspondence. -/
theorem exists_equiv_of_perm {β : Type} [DecidableEq β] {l l' : List β} (hl : l.Nodup)
    (h : l.Perm l') {n m : ℕ} (hn : l.length = n) (hm : l'.length = m) :
    ∃ σ : Fin n ≃ Fin m, ∀ c : Fin n, l'[(σ c : ℕ)]? = l[(c : ℕ)]? := by
  subst hn hm
  let σ := (hl.getEquiv l).trans ((Equiv.subtypeEquivRight fun _ => h.mem_iff).trans
    ((h.nodup_iff.1 hl).getEquiv l').symm)
  refine ⟨σ, fun c => ?_⟩
  have hget : l'.get (σ c) = l.get c :=
    congrArg Subtype.val (((h.nodup_iff.1 hl).getEquiv l').apply_symm_apply _)
  rw [List.getElem?_eq_getElem (σ c).isLt, List.getElem?_eq_getElem c.isLt]
  exact congrArg some hget

/-- Every entry of the variables, by key and index, in the order of a stacked vector. -/
def places (dims : List (κ × ℕ)) : List (κ × ℕ) :=
  dims.flatMap fun e => (List.range e.2).map (Prod.mk e.1)

omit [Key κ] in
theorem stackOf_eq_map (dims : List (κ × ℕ)) (p : Point κ α) :
    stackOf dims p = (places dims).map fun e => p e.1 e.2 := by
  rw [stackOf_eq_flatMap, places, List.map_flatMap]
  exact List.flatMap_congr fun e _ => by rw [List.map_map]; rfl

theorem nodup_places (dims : SortedMap κ ℕ) : (places dims.toList).Nodup := by
  refine List.nodup_flatMap.2 ⟨fun e _ => ?_, dims.ascending.imp fun {a b} hlt => ?_⟩
  · exact List.nodup_range.map fun i j h => congrArg Prod.snd h
  · intro e he he'
    obtain ⟨i, -, rfl⟩ := List.mem_map.1 he
    obtain ⟨j, -, hj⟩ := List.mem_map.1 he'
    rw [congrArg Prod.fst hj] at hlt
    simp at hlt

omit [Key κ] in
theorem length_places (dims : List (κ × ℕ)) : (places dims).length = sumDims (dims.map (·.2)) := by
  rw [places, List.length_flatMap, sumDims_eq_sum]
  exact congrArg List.sum (List.map_congr_left fun e _ => by
    rw [List.length_map, List.length_range])

theorem sumDims_rename (dims : SortedMap κ ℕ) :
    sumDims (dims.rename ρ).values = sumDims dims.values := by
  rw [sumDims_eq_sum, sumDims_eq_sum, SortedMap.values, SortedMap.values,
    ← ((SortedMap.toList_rename dims).map _).sum_eq, List.map_map]
  rfl

/-- Renamed variables have their entries at other places of the stacked vector, one for one. -/
theorem exists_columns [Scalar α] {dims : SortedMap κ ℕ}
    (hsize : sumDims dims.values < UInt64.size) :
    ∃ σ : Fin (Layout.ofDimensions dims).total ≃ Fin (Layout.ofDimensions (dims.rename ρ)).total,
      ∀ (p : Point κ α) (p' : Point κ' α), (∀ k, p' (ρ k) = p k) → ∀ c,
        Vec.get (stackOf (dims.rename ρ).toList p') (σ c) = Vec.get (stackOf dims.toList p) c := by
  have hmap : (places dims.toList).map (Prod.map ρ id) =
      places (dims.toList.map (Prod.map ρ id)) := by
    rw [places, places, List.flatMap_map, List.map_flatMap]
    exact List.flatMap_congr fun e _ => by rw [List.map_map]; rfl
  have hperm : ((places dims.toList).map (Prod.map ρ id)).Perm (places (dims.rename ρ).toList) := by
    rw [hmap]
    exact (SortedMap.toList_rename dims).flatMap_right _
  obtain ⟨σ, hσ⟩ := exists_equiv_of_perm
    ((nodup_places dims).map (ρ.injective.prodMap Function.injective_id)) hperm
    (n := (Layout.ofDimensions dims).total) (m := (Layout.ofDimensions (dims.rename ρ)).total)
    (by rw [List.length_map, length_places, Layout.total_ofDimensions hsize]; rfl)
    (by
      rw [length_places, Layout.total_ofDimensions (by rwa [sumDims_rename])]
      rfl)
  refine ⟨σ, fun p p' hp c => ?_⟩
  have hentry := hσ c
  rw [List.getElem?_map] at hentry
  rw [stackOf_eq_map, stackOf_eq_map, Vec.get, Vec.get, List.getD_eq_getElem?_getD,
    List.getD_eq_getElem?_getD, List.getElem?_map, List.getElem?_map, hentry, Option.map_map]
  congr 2
  funext e
  exact congrFun (hp e.1) e.2

end Columns

namespace LinearRows
variable [Scalar α] {f : LinearRows κ α} {dims : SortedMap κ ℕ}

/-- The scattered row is the stack of its parts. -/
theorem scattered_eq_stackOf (hf : ∀ e ∈ f.keyDims, dims.get? e.1 = some e.2) {row : ℕ}
    (hrow : row < f.rows) : f.scattered dims row =
      stackOf dims.toList fun k => Vec.get ((f.part? k row).getD []) := by
  rw [scattered, stackOf_eq_flatMap]
  refine List.flatMap_congr fun e he => ?_
  have hlen := length_part hf hrow he
  cases hpart : f.part? e.1 row with
  | some v =>
    rw [hpart, Option.getD_some] at hlen
    rw [Option.getD_some, Option.getD_some, ← hlen, Vec.map_get_range]
  | none =>
    have hzero : (List.range e.2).map (Vec.get ([] : Vec α)) = (List.range e.2).map fun _ => 0 :=
      List.map_congr_left fun j _ => Vec.get_of_length_le (Nat.zero_le j)
    rw [Option.getD_none, Option.getD_none, hzero, List.map_const', List.length_range, Vec.zeros]

theorem part?_rename (f : LinearRows κ α) (k : κ) (row : ℕ) :
    (f.rename ρ).part? (ρ k) row = f.part? k row := by
  by_cases hk : k ∈ f.keys
  · obtain ⟨⟨k, block⟩, ht, rfl⟩ := List.mem_map.1 hk
    rw [part?_eq ht, part?_eq (List.mem_map.2 ⟨_, ht, rfl⟩)]
    rfl
  · rw [part?_of_notMem hk, part?_of_notMem (mt ?_ hk)]
    rw [keys_rename]
    exact (List.mem_map_of_injective ρ.injective).1

end LinearRows

namespace Graph
variable {g : Graph κ α} {w : WorkingSet}

theorem participating_rename (g : Graph κ α) (w : WorkingSet) :
    (g.rename ρ).participating w =
      (g.participating w).map (Prod.map id (LinearRows.rename ρ)) := by
  rw [participating, participating, constraints_rename, List.filter_map]
  rfl

section Rank
variable [ExactScalar α] {dims : SortedMap κ ℕ}

/-- A row over the renamed variables has the same coefficients, in other columns. -/
private theorem mirrors_denseRow (hdims : g.keyDimensions = .ok dims)
    (hsize : sumDims dims.values < UInt64.size)
    {σ : Fin (Layout.ofDimensions dims).total ≃ Fin (Layout.ofDimensions (dims.rename ρ)).total}
    (hσ : ∀ (p : Point κ α) (p' : Point κ' α), (∀ k, p' (ρ k) = p k) → ∀ c,
      Vec.get (stackOf (dims.rename ρ).toList p') (σ c) = Vec.get (stackOf dims.toList p) c)
    {f : LinearRows κ α} (hf : .linear f ∈ g.factors) {row : ℕ} (hrow : row < f.rows) :
    Mirrors (fun d d' => ∀ c, Vec.get d' (σ c) = Vec.get d c)
      (denseRow (Layout.ofDimensions dims) f row)
      (denseRow (Layout.ofDimensions (dims.rename ρ)) (f.rename ρ) row) := by
  have hget : ∀ e ∈ f.keyDims, dims.get? e.1 = some e.2 :=
    fun e he => (keyDimensions_spec hdims).2 ⟨_, hf, he⟩
  have hget' : ∀ e ∈ (f.rename ρ).keyDims, (dims.rename ρ).get? e.1 = some e.2 := by
    rw [LinearRows.keyDims_rename, List.forall_mem_map]
    intro e he
    rw [Prod.map_fst, SortedMap.get?_rename, hget e he]
    rfl
  have hsize' : sumDims (dims.rename ρ).values < UInt64.size := by rwa [sumDims_rename]
  by_cases hmax : sumDims dims.values ≤ maxLength
  · have hmax' : sumDims (dims.rename ρ).values ≤ maxLength := by rwa [sumDims_rename]
    have hrow' : row < (f.rename ρ).rows := hrow
    rw [LinearRows.denseRow_eq_ok hget hrow hmax, LinearRows.denseRow_eq_ok hget' hrow' hmax',
      LinearRows.scattered_eq_stackOf hget hrow, LinearRows.scattered_eq_stackOf hget' hrow']
    exact .ok (hσ _ _ fun k => by rw [LinearRows.part?_rename])
  · have hnone {κ : Type} [Key κ] {dims : SortedMap κ ℕ} (hsize : sumDims dims.values < UInt64.size)
        (hmax : ¬sumDims dims.values ≤ maxLength) (f : LinearRows κ α) :
        denseRow (Layout.ofDimensions dims) f row = .error .outOfRange := by
      rw [denseRow, Layout.total_ofDimensions hsize, Vec.zeros?, if_neg hmax]
      rfl
    rw [hnone hsize hmax, hnone hsize' (by rwa [sumDims_rename])]
    exact .error _ _

/-- The active rows over the renamed variables have the same coefficients, in other columns. -/
private theorem mirrors_denseActiveRows (hdims : g.keyDimensions = .ok dims)
    (hsize : sumDims dims.values < UInt64.size)
    {σ : Fin (Layout.ofDimensions dims).total ≃ Fin (Layout.ofDimensions (dims.rename ρ)).total}
    (hσ : ∀ (p : Point κ α) (p' : Point κ' α), (∀ k, p' (ρ k) = p k) → ∀ c,
      Vec.get (stackOf (dims.rename ρ).toList p') (σ c) = Vec.get (stackOf dims.toList p) c) :
    Mirrors (List.Forall₂ fun d d' => ∀ c, Vec.get d' (σ c) = Vec.get d c)
      (g.denseActiveRows w (Layout.ofDimensions dims))
      ((g.rename ρ).denseActiveRows w (Layout.ofDimensions (dims.rename ρ))) := by
  rw [denseActiveRows, denseActiveRows, participating_rename]
  refine (Mirrors.mapM (List.forall₂_map_right_iff.2 (List.forall₂_same.2 fun e he => ?_))).bind
    fun parts parts' h => .ok (List.rel_flatten h)
  obtain ⟨hc, -⟩ := mem_participating.1 he
  refine Mirrors.mapM (List.forall₂_same.2 fun row hrow => ?_)
  exact mirrors_denseRow hdims hsize hσ (mem_factors_of_constraintAt? hc)
    (List.mem_range.1 (List.mem_filter.1 hrow).1)

/-- The check of the rank does not depend on the names of the variables. -/
theorem mirrors_checkActiveRank {f f' : Matrix α → Option (Vec α)} (hf : ExactSingularValues f)
    (hf' : ExactSingularValues f') (tolerance : α)
    (hsize : ∀ dims, g.keyDimensions = .ok dims → sumDims dims.values < UInt64.size) :
    Mirrors Eq (g.checkActiveRank f w tolerance) ((g.rename ρ).checkActiveRank f' w tolerance) := by
  have hdimensions := (g.mirrors_dimensions (ρ := ρ)).mapCause SolverError.graph SolverError.graph
  refine (hdimensions.imp (S := fun dims dims' =>
    dims' = dims.rename ρ ∧ g.keyDimensions = .ok dims) fun dims dims' hok h => ⟨h, ?_⟩).bind ?_
  · rwa [Result.mapCause_eq_ok, dimensions, Result.mapCause_eq_ok, Result.ofExcept_eq_ok] at hok
  rintro dims _ ⟨rfl, hdims⟩
  obtain ⟨σ, hσ⟩ := exists_columns (ρ := ρ) (α := α) (hsize dims hdims)
  have htotal : (Layout.ofDimensions (dims.rename ρ)).total = (Layout.ofDimensions dims).total :=
    (Fin.equiv_iff_eq.1 ⟨σ⟩).symm
  refine (mirrors_denseActiveRows hdims (hsize dims hdims) hσ).bind fun rows rows' h => ?_
  have hempty : rows'.isEmpty = rows.isEmpty := by cases h <;> rfl
  rw [hempty]
  split_ifs with hnone hzero hzero' hzero'
  · exact .ok rfl
  · exact .error _ _
  · exact absurd (htotal.trans hzero) hzero'
  · exact absurd (htotal.symm.trans hzero') hzero
  · refine (Result.mirrors_inRange (hf.rel_ofRows hf' σ h)).bind fun values values' hperm => ?_
    rw [h.length_eq, numericalRank_perm hperm]
    exact Result.mirrors_self _

end Rank

section Dual
variable [Scalar α]

theorem stationarityTerm?_rename (k : κ) (dim i : ℕ) (f : LinearRows κ α) :
    stationarityTerm? w (ρ k) dim i (f.rename ρ) = stationarityTerm? w k dim i f := by
  have hkey : (f.rename ρ).keys.findIdx? (fun k' => decide (k' = ρ k)) =
      f.keys.findIdx? fun k' => decide (k' = k) := by
    rw [LinearRows.keys_rename, List.findIdx?_map]
    refine congrArg (f.keys.findIdx? ·) (funext fun k' => ?_)
    rw [Function.comp_apply, decide_eq_decide.2 ρ.injective.eq_iff]
  unfold stationarityTerm?
  rw [hkey]
  simp only [LinearRows.rowCoefficients?_rename]
  rfl

theorem stationarityFactor?_rename (l : List (ℕ × LinearRows κ α)) (k : κ) (part : Vec α) :
    stationarityFactor? w (l.map (Prod.map id (LinearRows.rename ρ))) (ρ k) part =
      stationarityFactor? w l k part := by
  have hterms : (l.map (Prod.map id (LinearRows.rename ρ))).mapM
      (fun e => stationarityTerm? w (ρ k) part.length e.1 e.2) =
        l.mapM fun e => stationarityTerm? w k part.length e.1 e.2 := by
    rw [List.mapM_map]
    exact congrArg l.mapM (funext fun e => stationarityTerm?_rename k part.length e.1 e.2)
  exact congrArg (· >>= _) hterms

theorem pins_rename (l : List (ℕ × LinearRows κ α)) :
    pins w (l.map (Prod.map id (LinearRows.rename ρ))) = pins w l := by
  rw [pins, pins, List.mapM_map]
  rfl

/-- The dual graph states the same conditions, in the order of the names. -/
theorem mirrors_dualGraph (g : Graph κ α) (w : WorkingSet) (x : Assignment κ α) :
    Mirrors (fun dual dual' => dual.factors.Perm dual'.factors) (g.dualGraph w x)
      ((g.rename ρ).dualGraph w (x.rename ρ)) := by
  rw [dualGraph, dualGraph, participating_rename, List.isEmpty_map]
  split_ifs
  · exact .ok (.refl _)
  refine ((g.mirrors_gradient x).mapCause _ _).bind ?_
  rintro grad _ rfl
  have hsame : (grad.toList.map (Prod.map ρ id)).mapM (fun e => stationarityFactor? w
      ((g.participating w).map (Prod.map id (LinearRows.rename ρ))) e.1 e.2) =
        grad.toList.mapM fun e => stationarityFactor? w (g.participating w) e.1 e.2 := by
    rw [List.mapM_map]
    exact congrArg grad.toList.mapM
      (funext fun e => stationarityFactor?_rename (g.participating w) e.1 e.2)
  have hconditions := Result.mirrors_mapM_perm (SortedMap.toList_rename (ρ := ρ) grad)
    (f := fun e => stationarityFactor? w
      ((g.participating w).map (Prod.map id (LinearRows.rename ρ))) e.1 e.2)
  rw [hsame] at hconditions
  refine hconditions.bind fun conditions conditions' hperm => ?_
  rw [pins_rename]
  refine (Result.mirrors_self _).bind fun pinned _ h => h ▸ .ok ?_
  exact ((hperm.filterMap id).append_right pinned).map Factor.linear

end Dual

section Minima
variable [ExactScalar α] {x : Assignment κ α}

/-- A renamed minimum is a minimum of the renamed graph. -/
theorem minimizes_rename : (g.rename ρ).Minimizes (x.rename ρ) ↔ g.Minimizes x := by
  have hrows (y : Assignment κ α) : (∀ r, (g.rename ρ).rowKind? r = some .equality →
      (g.rename ρ).rowSlack r (y.rename ρ) = .ok 0) ↔
        ∀ r, g.rowKind? r = some .equality → g.rowSlack r y = .ok 0 :=
    forall_congr' fun r => by rw [rowKind?_rename, (g.mirrors_rowSlack r y).eq_ok_iff]
  have hcost (y : Assignment κ α) (c : α) : (g.rename ρ).cost (y.rename ρ) = .ok c ↔
      g.cost y = .ok c := (g.mirrors_cost y).eq_ok_iff
  constructor
  · rintro ⟨hfits, hx, least, hleast, hle⟩
    exact ⟨fits_rename.1 hfits, (hrows x).1 hx, least, (hcost x least).1 hleast,
      fun y cost hy hyr hc =>
        hle _ cost (fits_rename.2 hy) ((hrows y).2 hyr) ((hcost y cost).2 hc)⟩
  · rintro ⟨hfits, hx, least, hleast, hle⟩
    refine ⟨fits_rename.2 hfits, (hrows x).2 hx, least, (hcost x least).2 hleast, ?_⟩
    intro y' cost hy hyr hc
    obtain ⟨y, rfl⟩ := hy.exists_rename
    exact hle y cost (fits_rename.1 hy) ((hrows y).1 hyr) ((hcost y cost).1 hc)

/-- The order of least-squares factors makes no difference to a minimum. -/
theorem Minimizes.perm {g' : Graph κ α} (hx : g.Minimizes x) (hg : g.isLeastSquares = true)
    (h : g.factors.Perm g'.factors) : g'.Minimizes x := by
  have hg' : g'.isLeastSquares = true :=
    isLeastSquares_iff.2 fun f hf => isLeastSquares_iff.1 hg f (h.mem_iff.2 hf)
  have hfits (y : Assignment κ α) : g'.Fits y ↔ g.Fits y := by
    simp only [Fits, Covers, h.mem_iff]
  have hvalue (p : Point κ α) : g'.value p = g.value p :=
    (h.map fun f : Factor κ α => f.value p).sum_eq.symm
  refine minimizes_of_value_le hg' ((hfits x).2 hx.fits) fun y hy => ?_
  rw [hvalue, hvalue]
  exact hx.value_le hg ((hfits y).1 hy)

def IsSolution (g : Graph κ α) (x : Assignment κ α) : Prop :=
  g.Minimizes x ∧ ∀ y, g.Minimizes y → y = x

theorem isSolution_rename : (g.rename ρ).IsSolution (x.rename ρ) ↔ g.IsSolution x := by
  refine and_congr minimizes_rename ⟨fun h y hy => ?_, fun h y' hy => ?_⟩
  · exact SortedMap.rename_injective (h _ (minimizes_rename.2 hy))
  · obtain ⟨y, rfl⟩ := hy.fits.exists_rename
    rw [h y (minimizes_rename.1 hy)]

theorem isSolution_perm {g' : Graph κ α} (hg : g.isLeastSquares = true)
    (h : g.factors.Perm g'.factors) : g'.IsSolution x ↔ g.IsSolution x := by
  have hg' : g'.isLeastSquares = true :=
    isLeastSquares_iff.2 fun f hf => isLeastSquares_iff.1 hg f (h.mem_iff.2 hf)
  have hminimizes (y : Assignment κ α) : g'.Minimizes y ↔ g.Minimizes y :=
    ⟨fun hy => hy.perm hg' h.symm, fun hy => hy.perm hg h⟩
  rw [IsSolution, IsSolution, hminimizes]
  simp only [hminimizes]

end Minima

end Graph

section Eliminator
variable [ExactScalar α] {σ σ' : Type} {e : Eliminator κ α σ} {e' : Eliminator κ' α σ'}

/-- The eliminator answers a graph with its only minimum, in every state, and fails where there is
no minimum or more than one. -/
structure Eliminator.IsExact (e : Eliminator κ α σ) : Prop where
  primal : ∀ g state x, (e.primal g state).1.result = .ok x ↔ g.IsSolution x
  dual : ∀ g state x, (e.dual g state).1.result = .ok x ↔ g.IsSolution x

variable (he : e.IsExact) (he' : e'.IsExact)
include he he'

/-- The answer to a renamed graph is the renamed answer. -/
theorem Eliminator.IsExact.mirrors_primal (g : Graph κ α) (state : σ) (state' : σ') :
    Mirrors (fun x x' => x' = x.rename ρ) (e.primal g state).1.result
      (e'.primal (g.rename ρ) state').1.result := by
  refine Result.mirrors_of_forall (fun x hx => ?_) fun x' hx' => ?_
  · exact ⟨_, (he'.primal _ _ _).2 (Graph.isSolution_rename.2 ((he.primal _ _ _).1 hx)), rfl⟩
  · have hsolution := (he'.primal _ _ _).1 hx'
    obtain ⟨x, rfl⟩ := hsolution.1.fits.exists_rename
    exact ⟨x, (he.primal _ _ _).2 (Graph.isSolution_rename.1 hsolution)⟩

/-- The answer to a least-squares graph does not depend on the order of its factors. -/
theorem Eliminator.IsExact.mirrors_dual {g g' : Graph ℕ α} (hg : g.isLeastSquares = true)
    (h : g.factors.Perm g'.factors) (state : σ) (state' : σ') :
    Mirrors Eq (e.dual g state).1.result (e'.dual g' state').1.result := by
  have hsame (d : Assignment ℕ α) :
      (e.dual g state).1.result = .ok d ↔ (e'.dual g' state').1.result = .ok d :=
    (he.dual _ _ _).trans ((Graph.isSolution_perm hg h).symm.trans (he'.dual _ _ _).symm)
  exact Result.mirrors_of_forall (fun d hd => ⟨d, (hsame d).1 hd, rfl⟩)
    fun d hd => ⟨d, (hsame d).2 hd⟩

end Eliminator

end GaussianProgram
