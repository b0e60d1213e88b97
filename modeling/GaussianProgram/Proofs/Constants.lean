import GaussianProgram.Proofs.Factorizations

/-! Constant terms. They move every cost of a problem by the same number and enter nothing else, so
runs of problems that differ in their constants go the same way. -/
namespace GaussianProgram

variable {κ α : Type} [Key κ]

/-- The factor with `c` for the constant of its cost; linear rows have none. -/
def Factor.withConstant (c : α) : Factor κ α → Factor κ α
  | quadratic f => quadratic (f.withConstant c)
  | linear f => linear f

namespace Graph

def withConstants (g : Graph κ α) (c : ℕ → α) : Graph κ α :=
  ⟨g.factors.zipIdx.map fun (f, i) => f.withConstant (c i)⟩

end Graph

section Unread
variable (c : α) (f : Factor κ α)

@[simp] theorem Factor.keyDims_withConstant : (f.withConstant c).keyDims = f.keyDims := by
  cases f <;> rfl

@[simp] theorem Factor.linear?_withConstant : (f.withConstant c).linear? = f.linear? := by
  cases f <;> rfl

@[simp] theorem Factor.constraint?_withConstant :
    (f.withConstant c).constraint? = f.constraint? := by
  cases f <;> rfl

@[simp] theorem Factor.withConstant_withConstant (c' : α) :
    (f.withConstant c).withConstant c' = f.withConstant c' := by
  cases f <;> rfl

variable [Scalar α]

@[simp] theorem Factor.gradient_withConstant (x : Assignment κ α) :
    (f.withConstant c).gradient x = f.gradient x := by
  cases f <;> rfl

@[simp] theorem ConstrainedSystem.addFactor_withConstant (layout : Layout κ)
    (s : ConstrainedSystem α) : s.addFactor layout (f.withConstant c) = s.addFactor layout f := by
  cases f <;> rfl

namespace Graph
variable (g : Graph κ α)

def withoutConstants : Graph κ α := ⟨g.factors.map (·.withConstant 0)⟩

theorem indexed_withoutConstants :
    g.withoutConstants.indexed = g.indexed.map fun e => (e.1, e.2.withConstant 0) := by
  simp [indexed, withoutConstants, List.zipIdx_map, Function.comp_def]

@[simp] theorem constraints_withoutConstants : g.withoutConstants.constraints = g.constraints := by
  simp [constraints, indexed_withoutConstants, List.filterMap_map]

@[simp] theorem equalityIndices_withoutConstants :
    g.withoutConstants.equalityIndices = g.equalityIndices := by
  rw [equalityIndices, constraints_withoutConstants, equalityIndices]

@[simp] theorem constraintAt?_withoutConstants (i : ℕ) :
    g.withoutConstants.constraintAt? i = g.constraintAt? i := by
  simp only [constraintAt?, at?, withoutConstants, List.getElem?_map, Option.bind_map,
    Function.comp_def, Factor.constraint?_withConstant]

@[simp] theorem keyDimensions_withoutConstants :
    g.withoutConstants.keyDimensions = g.keyDimensions := by
  simp [keyDimensions, indexed_withoutConstants, List.foldlM_map]

@[simp] theorem dimensions_withoutConstants : g.withoutConstants.dimensions = g.dimensions := by
  rw [dimensions, keyDimensions_withoutConstants, dimensions]

@[simp] theorem gradient_withoutConstants (x : Assignment κ α) :
    g.withoutConstants.gradient x = g.gradient x := by
  rw [gradient, dimensions_withoutConstants]
  simp [gradient, gradientOver, withoutConstants, List.foldlM_map]

@[simp] theorem isLeastSquares_withoutConstants :
    g.withoutConstants.isLeastSquares = g.isLeastSquares := by
  simp [isLeastSquares, withoutConstants, List.all_map, Function.comp_def]

@[simp] theorem participating_withoutConstants (w : WorkingSet) :
    g.withoutConstants.participating w = g.participating w := by
  rw [participating, constraints_withoutConstants, participating]

@[simp] theorem checkActiveRank_withoutConstants (singularValues : Matrix α → Option (Vec α))
    (w : WorkingSet) (tolerance : α) :
    g.withoutConstants.checkActiveRank singularValues w tolerance =
      g.checkActiveRank singularValues w tolerance := by
  simp only [checkActiveRank, denseActiveRows, dimensions_withoutConstants,
    participating_withoutConstants]

@[simp] theorem dualGraph_withoutConstants (w : WorkingSet) (x : Assignment κ α) :
    g.withoutConstants.dualGraph w x = g.dualGraph w x := by
  rw [dualGraph, participating_withoutConstants, gradient_withoutConstants, dualGraph]

@[simp] theorem isInequality_withoutConstants :
    g.withoutConstants.isInequality = g.isInequality := by
  funext r
  rw [isInequality, rowKind?, constraintAt?_withoutConstants, isInequality, rowKind?]

@[simp] theorem worstRow?_withoutConstants (w : WorkingSet) (duals : Assignment ℕ α)
    (tolerance : α) :
    g.withoutConstants.worstRow? w duals tolerance = g.worstRow? w duals tolerance := by
  simp only [worstRow?, multiplier?, isInequality_withoutConstants]

@[simp] theorem stepSize_withoutConstants (w : WorkingSet) (tolerance : α) (x y : Assignment κ α) :
    g.withoutConstants.stepSize w tolerance x y = g.stepSize w tolerance x y := by
  simp only [stepSize, inequalityRows, constraints_withoutConstants, constraintAt?_withoutConstants]

/-- Which rows a working graph enforces is decided without the costs. -/
theorem workingGraph_withoutConstants (w : WorkingSet) :
    g.withoutConstants.workingGraph w = (g.workingGraph w).map withoutConstants := by
  have hfactor (i : ℕ) (f : Factor κ α) : workingFactor? w i (f.withConstant 0) =
      (workingFactor? w i f).map (Option.map (·.withConstant 0)) := by
    unfold workingFactor?
    rw [Factor.constraint?_withConstant]
    cases f.constraint? with
    | none => rfl
    | some constraint =>
      dsimp only
      split_ifs
      · rfl
      · cases constraint.selectRows (enforcedRows w i constraint) .equality <;> rfl
  have hall (l : List (ℕ × Factor κ α)) :
      (l.map fun e => (e.1, e.2.withConstant 0)).mapM (fun e => workingFactor? w e.1 e.2) =
        (l.mapM fun e => workingFactor? w e.1 e.2).map
          (List.map (Option.map fun f => f.withConstant 0)) := by
    induction l with
    | nil => rfl
    | cons e l ih =>
      rw [List.map_cons, List.mapM_cons, List.mapM_cons, ih, hfactor]
      cases workingFactor? w e.1 e.2 with
      | error _ => rfl
      | ok _ => cases l.mapM fun e => workingFactor? w e.1 e.2 <;> rfl
  rw [workingGraph, indexed_withoutConstants, hall, workingGraph]
  cases g.indexed.mapM fun e => workingFactor? w e.1 e.2 with
  | error _ => rfl
  | ok factors =>
    have hsome : (factors.map (Option.map fun f => f.withConstant 0)).filterMap id =
        (factors.filterMap id).map fun f => f.withConstant 0 := by
      rw [List.filterMap_map, List.map_filterMap]
      rfl
    exact congrArg (fun l => Except.ok (Graph.mk l)) hsome

end Graph

@[simp] theorem LeastSquaresSystem.ofGraph_withoutConstants (layout : Layout κ) (g : Graph κ α) :
    ofGraph layout g.withoutConstants = ofGraph layout g := by
  simp [ofGraph, Graph.withoutConstants, List.filterMap_map]

@[simp] theorem ConstrainedSystem.ofGraph_withoutConstants (layout : Layout κ) (g : Graph κ α) :
    ofGraph layout g.withoutConstants = ofGraph layout g := by
  simp [ofGraph, Graph.withoutConstants, List.foldlM_map]

/-- An elimination does not read the constants. -/
@[simp] theorem Elimination.eliminate_withoutConstants (b : Backend α) (kind : SolverKind)
    (g : Graph κ α) : eliminate b kind g.withoutConstants = eliminate b kind g := by
  simp only [eliminate, solveLeastSquares, solveConstrained, Graph.keyDimensions_withoutConstants,
    Graph.isLeastSquares_withoutConstants, LeastSquaresSystem.ofGraph_withoutConstants,
    ConstrainedSystem.ofGraph_withoutConstants]

end Unread

section Costs
variable [ExactScalar α]

def Factor.constant : Factor κ α → α
  | quadratic f => f.constant / 2
  | linear _ => 0

def Graph.constant (g : Graph κ α) : α := (g.factors.map Factor.constant).sum

/-- Half the sum of what the given constants are above those of the costs. -/
def Graph.constantGain (g : Graph κ α) (c : ℕ → α) : α :=
  (g.indexed.filterMap fun (i, f) => f.quadratic?.map fun q => c i - q.constant).sum / 2

theorem Factor.cost_withoutConstant (f : Factor κ α) (x : Assignment κ α) :
    (f.withConstant 0).cost x = (f.cost x).map (· - f.constant) := by
  cases f with
  | quadratic f =>
    have hstacked : (f.withConstant 0).stacked x = f.stacked x := rfl
    simp only [withConstant, cost, QuadraticCost.cost, hstacked, constant]
    cases f.stacked x with
    | error _ => rfl
    | ok v =>
      change Except.ok _ = Except.ok _
      rw [ExactScalar.half_eq]
      congr 1
      simp only [QuadraticCost.withConstant]
      ring
  | linear f =>
    simp only [withConstant, constant, sub_zero]
    exact (congrFun Except.map_id _).symm

/-- Without its constants the costs of a problem are lower by them. -/
theorem Graph.cost_withoutConstants (g : Graph κ α) (x : Assignment κ α) :
    g.withoutConstants.cost x = (g.cost x).map (· - g.constant) := by
  have hfold (l : List (Factor κ α)) (t e : α) :
      (l.map (·.withConstant 0)).foldlM (fun total (f : Factor κ α) => do
        return total + (← (f.cost x).mapCause GraphError.factor)) (t - e) =
      (l.foldlM (fun total (f : Factor κ α) => do
        return total + (← (f.cost x).mapCause GraphError.factor)) t).map
          (· - (e + (l.map Factor.constant).sum)) := by
    induction l generalizing t e with
    | nil => simp [Except.map, pure, Except.pure]
    | cons f l ih =>
      rw [List.map_cons, List.foldlM_cons, List.foldlM_cons, f.cost_withoutConstant,
        Result.mapCause_map]
      cases Result.mapCause GraphError.factor (f.cost x) with
      | error _ => rfl
      | ok a =>
        have hrest := ih (t + a) (e + f.constant)
        rw [show t + a - (e + f.constant) = t - e + (a - f.constant) by ring, add_assoc] at hrest
        exact hrest
  have h := hfold g.factors 0 0
  rw [sub_zero, zero_add] at h
  exact h

omit [ExactScalar α] in
theorem Graph.withConstants_const (g : Graph κ α) (c : α) :
    g.withConstants (fun _ => c) = ⟨g.factors.map (·.withConstant c)⟩ := by
  have hfst := List.map_map (l := g.factors.zipIdx) (f := Prod.fst)
    (g := Factor.withConstant (κ := κ) c)
  rw [List.zipIdx_map_fst] at hfst
  exact congrArg Graph.mk hfst.symm

theorem Graph.withoutConstants_withConstants (g : Graph κ α) (c : ℕ → α) :
    (g.withConstants c).withoutConstants = g.withoutConstants := by
  have hzero : g.withoutConstants = g.withConstants fun _ => 0 := (g.withConstants_const 0).symm
  rw [hzero]
  simp only [withoutConstants, withConstants, List.map_map, Function.comp_def,
    Factor.withConstant_withConstant]

theorem Graph.constant_withConstants (g : Graph κ α) (c : ℕ → α) :
    (g.withConstants c).constant = g.constant + g.constantGain c := by
  have hlist (l : List (Factor κ α)) (n : ℕ) :
      ((l.zipIdx n).map fun e => (e.1.withConstant (c e.2)).constant).sum =
        (l.map Factor.constant).sum +
          ((l.zipIdx n).filterMap fun e =>
            e.1.quadratic?.map fun q => c e.2 - q.constant).sum / 2 := by
    induction l generalizing n with
    | nil => simp
    | cons f l ih =>
      rw [List.zipIdx_cons, List.map_cons, List.sum_cons, ih, List.map_cons, List.sum_cons]
      cases f with
      | quadratic q =>
        simp only [List.filterMap_cons, Factor.quadratic?, Option.map_some, List.sum_cons,
          Factor.withConstant, Factor.constant, QuadraticCost.withConstant]
        ring
      | linear q =>
        simp only [List.filterMap_cons, Factor.quadratic?, Option.map_none, Factor.withConstant,
          Factor.constant, zero_add]
  have h := hlist g.factors 0
  rw [constant, withConstants, List.map_map, constantGain, indexed, List.filterMap_map]
  exact h

/-- The factor is a quadratic cost that shares a variable with a constraint. -/
def Graph.IsCoupled (g : Graph κ α) : Factor κ α → Prop
  | .quadratic q => ∃ f ∈ g.factors, f.isConstrained = true ∧ ∃ k ∈ q.keys, k ∈ f.keys
  | .linear _ => False

instance (g : Graph κ α) : DecidablePred g.IsCoupled
  | .quadratic q =>
    inferInstanceAs (Decidable (∃ f ∈ g.factors, f.isConstrained = true ∧ ∃ k ∈ q.keys, k ∈ f.keys))
  | .linear _ => inferInstanceAs (Decidable False)

def Graph.coupledCosts (g : Graph κ α) : Graph κ α :=
  ⟨g.factors.filter fun f => decide (g.IsCoupled f)⟩

omit [ExactScalar α] in
private theorem Graph.isCoupled_iff_any (g : Graph κ α) (q : QuadraticCost κ α) :
    g.IsCoupled (.quadratic q) ↔ ((g.factors.filterMap Factor.constraint?).flatMap
      LinearRows.keys).any (Factor.quadratic q).involves = true := by
  simp only [List.any_eq_true, List.mem_flatMap, List.mem_filterMap, Factor.involves,
    decide_eq_true_eq, IsCoupled]
  constructor
  · rintro ⟨f, hf, hcon, k, hq, hk⟩
    obtain ⟨c, hc⟩ := Option.isSome_iff_exists.1 hcon
    obtain ⟨rfl, -⟩ := Factor.constraint?_eq_some.1 hc
    exact ⟨k, ⟨c, ⟨_, hf, hc⟩, Factor.keys_linear c ▸ hk⟩, hq⟩
  · rintro ⟨k, ⟨c, ⟨f, hf, hc⟩, hk⟩, hq⟩
    obtain ⟨rfl, -⟩ := Factor.constraint?_eq_some.1 hc
    exact ⟨_, hf, by rw [Factor.isConstrained, hc]; rfl, k, hq, Factor.keys_linear c ▸ hk⟩

/-- The free costs are the coupled ones, without their constants. -/
theorem Graph.freeCosts_eq (g : Graph κ α) :
    g.freeCosts = g.coupledCosts.withConstants fun _ => 0 := by
  have hlist {keep couples : Factor κ α → Bool} (hlinear : ∀ c, couples (.linear c) = false)
      (hquadratic : ∀ q, couples (.quadratic q) = keep (.quadratic q)) (l : List (Factor κ α)) :
      ((l.filter keep).filterMap Factor.quadratic?).map (fun q => .quadratic (q.withConstant 0)) =
        (l.filter couples).map (·.withConstant 0) := by
    induction l with
    | nil => rfl
    | cons f l ih =>
      cases f with
      | quadratic q =>
        rw [List.filter_cons, List.filter_cons, hquadratic]
        split_ifs
        · exact congrArg (_ :: ·) ih
        · exact ih
      | linear c =>
        have hc : ¬couples (.linear c) = true := by simp [hlinear]
        rw [List.filter_cons_of_neg hc, List.filter_cons]
        split_ifs
        · exact ih
        · exact ih
  rw [withConstants_const]
  refine congrArg Graph.mk (hlist (fun c => ?_) (fun q => ?_) g.factors)
  · exact decide_eq_false id
  · rw [Bool.eq_iff_iff, decide_eq_true_iff]
    exact g.isCoupled_iff_any q

end Costs

section Shift
variable {σ : Type} [ExactScalar α]

def Shift.byCost (c : α) : Shift α := ⟨(· + c), id⟩

variable (c c' : α)

theorem Optimum.shift_byCost (r : Optimum κ α) :
    (r.shift (.byCost c)).shift (.byCost c') = r.shift (.byCost (c + c')) := by
  simp only [Optimum.shift, Shift.byCost, add_assoc]

theorem Event.shift_byCost (e : Event κ α) :
    (e.shift (.byCost c)).shift (.byCost c') = e.shift (.byCost (c + c')) := by
  cases e with
  | report r =>
    cases r with
    | progress p => simp only [Event.shift, Report.shift, Shift.byCost, add_assoc]
    | optimum r => simp only [Event.shift, Report.shift, Optimum.shift_byCost]
    | _ => rfl
  | metrics cost fraction => simp only [Event.shift, Shift.byCost, add_assoc]
  | visited x w i => rfl

theorem Shift.cost_zero : (Shift.byCost (0 : α)).cost = id := funext add_zero

theorem RunState.shift_byCost (st : RunState κ α σ) :
    (st.shift (.byCost c) id).shift (.byCost c') id = st.shift (.byCost (c + c')) id := by
  simp only [RunState.shift, List.map_map, Function.comp_def, Event.shift_byCost, id]

theorem shiftEnd_byCost (e : Result (Error α) (Optimum κ α) × RunState κ α σ) :
    shiftEnd (.byCost c') (shiftEnd (.byCost c) e) = shiftEnd (.byCost (c + c')) e := by
  rcases e with ⟨_ | r, st⟩
  · exact Prod.ext rfl (st.shift_byCost c c')
  · exact Prod.ext (congrArg Except.ok (r.shift_byCost c c')) (st.shift_byCost c c')

theorem shiftEnd_zero (e : Result (Error α) (Optimum κ α) × RunState κ α σ) :
    shiftEnd (.byCost 0) e = e := by
  have hstate (st : RunState κ α σ) : st.shift (.byCost 0) id = st :=
    congrArg (fun events => { st with events }) (st.events_shift_eq_self id Shift.cost_zero rfl)
  rcases e with ⟨_ | r, st⟩
  · exact Prod.ext rfl (hstate st)
  · exact Prod.ext (congrArg Except.ok (r.shift_eq_self Shift.cost_zero)) (hstate st)

end Shift

namespace Solver
variable [ExactScalar α]

theorem checkWorkingSet_withoutConstants (g : Graph κ α) :
    checkWorkingSet g.withoutConstants = checkWorkingSet g := by
  funext w
  rw [checkWorkingSet, g.isInequality_withoutConstants, checkWorkingSet]

theorem restrict_withoutConstants (g : Graph κ α) :
    restrict g.withoutConstants = restrict g := by
  funext initial
  rw [restrict, g.dimensions_withoutConstants, restrict]

theorem checkFeasible_withoutConstants (g : Graph κ α) :
    checkFeasible g.withoutConstants = checkFeasible g := by
  funext tolerance x
  rw [checkFeasible, g.constraints_withoutConstants, checkFeasible]

/-- The run without constants goes where the run with them goes. -/
theorem tracks_withoutConstants (b : Backend α) (singularValues : Matrix α → Option (Vec α))
    (config : Config α) (g : Graph κ α) :
    (sparse b singularValues config g).Tracks True (.byCost (-g.constant)) id
      Graph.withoutConstants (sparse b singularValues config g.withoutConstants) where
  config := rfl
  checkWorkingSet := checkWorkingSet_withoutConstants g
  restrict := restrict_withoutConstants g
  checkFeasible := checkFeasible_withoutConstants g
  difference _ _ := add_sub_add_right_eq_sub _ _ _
  cost x := by
    simp only [sparse, g.cost_withoutConstants, sub_eq_add_neg, Shift.byCost]
  checkRank := by
    funext w
    exact g.checkActiveRank_withoutConstants _ w _
  workingGraph w := by
    simp only [Solver.workingGraph, sparse, g.workingGraph_withoutConstants]
    cases g.workingGraph w <;> rfl
  stepSize := by
    funext w x y
    simp only [Solver.stepSize, sparse, g.stepSize_withoutConstants]
  participating := by
    funext w
    exact g.participating_withoutConstants w
  dualGraph := by
    funext w x
    exact g.dualGraph_withoutConstants w x
  worstRow? := by
    funext w duals
    exact g.worstRow?_withoutConstants w duals _
  statusOf := by
    funext w
    unfold Solver.statusOf sparse
    rw [g.equalityIndices_withoutConstants]
  primal w working state _ _ := by
    simp only [sparse, Elimination.sparse, Elimination.reply,
      Elimination.eliminate_withoutConstants]
  dual _ _ _ _ _ _ := rfl

/-- Runs of problems that are the same without their constants go the same way. -/
theorem optimize_of_withoutConstants (b : Backend α)
    (singularValues : Matrix α → Option (Vec α)) (config : Config α) {g g' : Graph κ α}
    (h : g'.withoutConstants = g.withoutConstants) (initial : Assignment κ α) (w : WorkingSet) :
    (sparse b singularValues config g').optimize initial w () =
      shiftEnd (.byCost (g'.constant - g.constant))
        ((sparse b singularValues config g).optimize initial w ()) := by
  have hrun (g : Graph κ α) :
      (sparse b singularValues config g.withoutConstants).optimize initial w () =
        shiftEnd (.byCost (-g.constant))
          ((sparse b singularValues config g).optimize initial w ()) :=
    (tracks_withoutConstants b singularValues config g).optimize initial w () (.inl trivial)
  calc (sparse b singularValues config g').optimize initial w ()
      = shiftEnd (.byCost (-g'.constant + g'.constant))
          ((sparse b singularValues config g').optimize initial w ()) := by
        rw [neg_add_cancel, shiftEnd_zero]
    _ = shiftEnd (.byCost g'.constant)
          ((sparse b singularValues config g.withoutConstants).optimize initial w ()) := by
        rw [← shiftEnd_byCost, ← hrun g', h]
    _ = shiftEnd (.byCost (g'.constant - g.constant))
          ((sparse b singularValues config g).optimize initial w ()) := by
        rw [hrun g, shiftEnd_byCost, neg_add_eq_sub]

/-- Constants never influence a run. With other constants it goes the same way, through the same
points and working sets with the same reports, and ends alike: at the same optimum or for the same
reason. All its costs are higher by half the sum of what the constants are higher. In particular a
run on the costs that share variables with constraints, which are the free costs but for their
constants, goes the same way whether or not these have been taken off. -/
theorem constants_irrelevant (b : Backend α) (singularValues : Matrix α → Option (Vec α))
    (config : Config α) (g : Graph κ α) :
    (∀ (c : ℕ → α) (initial : Assignment κ α) (w : WorkingSet),
      (sparse b singularValues config (g.withConstants c)).optimize initial w () =
        shiftEnd (.byCost (g.constantGain c))
          ((sparse b singularValues config g).optimize initial w ())) ∧
    g.freeCosts = g.coupledCosts.withConstants (fun _ => 0) ∧
      ∀ (initial : Assignment κ α) (w : WorkingSet),
        (sparse b singularValues config g.freeCosts).optimize initial w () =
          shiftEnd (.byCost (g.coupledCosts.constantGain fun _ => 0))
            ((sparse b singularValues config g.coupledCosts).optimize initial w ()) := by
  have hshift (g : Graph κ α) (c : ℕ → α) (initial : Assignment κ α) (w : WorkingSet) :
      (sparse b singularValues config (g.withConstants c)).optimize initial w () =
        shiftEnd (.byCost (g.constantGain c))
          ((sparse b singularValues config g).optimize initial w ()) := by
    rw [optimize_of_withoutConstants b singularValues config (g.withoutConstants_withConstants c),
      g.constant_withConstants, add_sub_cancel_left]
  exact ⟨hshift g, g.freeCosts_eq, fun initial w => g.freeCosts_eq ▸ hshift _ _ initial w⟩

end Solver

end GaussianProgram
