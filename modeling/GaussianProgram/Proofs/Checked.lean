import GaussianProgram.Proofs.Cost
import GaussianProgram.Multiplier.Active
import GaussianProgram.Solver.Step

/-! Operations that check the shapes of their operands. Sums, products and differences of
vectors that do not match are out of range here, where the plain operations pad or cut
them. Whatever the point is, both kinds give the same: a factor reads from a point only
what has the right dimension. -/
namespace GaussianProgram

namespace Result
variable {β ε γ : Type}

/-- A value, out of range unless the condition holds. -/
def require (p : Prop) [Decidable p] (b : β) : Result ε β := if p then .ok b else .error .outOfRange

theorem require_of {p : Prop} [Decidable p] (h : p) (b : β) :
    (require p b : Result ε β) = .ok b := if_pos h

theorem ofExcept_bind (x : Except ε β) (f : β → Except ε γ) :
    (ofExcept (x >>= f) : Result ε γ) = ofExcept x >>= fun b => ofExcept (f b) := by
  cases x <;> rfl

/-- A fold whose steps can leave the range does not, if they agree with steps that cannot from what
these keep. -/
theorem foldlM_eq_ofExcept {δ : Type} {f : β → δ → Result ε β} {g : β → δ → Except ε β}
    {l : List δ} {b : β} (P : β → Prop) (hstep : ∀ b, ∀ a ∈ l, P b → f b a = ofExcept (g b a))
    (hkeep : ∀ b c, ∀ a ∈ l, P b → g b a = .ok c → P c) (hb : P b) :
    l.foldlM f b = ofExcept (l.foldlM g b) := by
  induction l generalizing b with
  | nil => rfl
  | cons a l ih =>
    rw [List.foldlM_cons, List.foldlM_cons, ofExcept_bind, hstep b a List.mem_cons_self hb]
    refine bind_congr_of_ok fun c hc => ?_
    exact ih (fun b a ha => hstep b a (List.mem_cons_of_mem _ ha))
      (fun b c a ha => hkeep b c a (List.mem_cons_of_mem _ ha))
      (hkeep b c a List.mem_cons_self hb (ofExcept_eq_ok.1 hc))

end Result

def Vec.matched {α β ε : Type} (op : Vec α → Vec α → β) (u v : Vec α) : Result ε β :=
  Result.require (u.length = v.length) (op u v)

theorem Vec.matched_of {α β ε : Type} (op : Vec α → Vec α → β) {u v : Vec α}
    (h : u.length = v.length) : (matched op u v : Result ε β) = .ok (op u v) :=
  Result.require_of h _

def Matrix.mulVecChecked {α ε : Type} [Scalar α] (m : Matrix α) (v : Vec α) : Result ε (Vec α) :=
  Result.require (v.length = m.cols) (m.mulVec v)

theorem Matrix.mulVecChecked_of {α ε : Type} [Scalar α] {m : Matrix α} {v : Vec α}
    (h : v.length = m.cols) : (m.mulVecChecked v : Result ε (Vec α)) = .ok (m.mulVec v) :=
  Result.require_of h _

variable {κ α : Type} [Key κ] [Scalar α]

namespace LinearRows

def rowValueChecked (f : LinearRows κ α) (row : ℕ) (x : Assignment κ α) :
    Result (FactorError α) α :=
  if f.rows ≤ row then Result.fail (.invalidDimension f.rows row)
  else
    f.terms.foldlM (fun total (k, block) => do
      let v ← Result.ofExcept (x.valueOf k block.cols)
      let coefficients ← Result.inRange (block.row? row)
      return total + (← Vec.matched Vec.dot coefficients v)) 0

def residualChecked (f : LinearRows κ α) (x : Assignment κ α) : Result (FactorError α) (Vec α) :=
  f.terms.foldlM (fun total (k, block) => do
    let v ← Result.ofExcept (x.valueOf k block.cols)
    Vec.matched Vec.add total (← block.mulVecChecked v)) (Vec.neg f.rhs)

def costChecked (f : LinearRows κ α) (x : Assignment κ α) : Result (FactorError α) α :=
  if f.isConstrained then return 0
  else return 0.5 * Vec.normSq (← f.residualChecked x)

def gradientChecked (f : LinearRows κ α) (x : Assignment κ α) :
    Result (FactorError α) (List (κ × Vec α)) :=
  if f.isConstrained then
    f.keyDims.mapM fun (k, dim) => do
      return (k, ← Result.inRange (Vec.zeros? dim))
  else do
    let residual ← f.residualChecked x
    f.terms.mapM fun (k, block) => do
      return (k, ← block.transpose.mulVecChecked residual)

theorem rowValueChecked_eq (f : LinearRows κ α) (row : ℕ) (x : Assignment κ α) :
    f.rowValueChecked row x = f.rowValue row x := by
  unfold rowValueChecked rowValue
  refine if_congr Iff.rfl rfl (Result.foldlM_congr (fun total t _ => ?_) 0)
  refine Result.bind_congr_of_ok fun v hv => Result.bind_congr_of_ok fun coefficients hrow => ?_
  have hlen := (Assignment.valueOf_eq_ok.1 (Result.ofExcept_eq_ok.1 hv)).2
  rw [Result.inRange_eq_ok, Matrix.row?] at hrow
  split_ifs at hrow
  cases hrow
  rw [Vec.matched_of _ (by rw [Matrix.length_row, hlen])]
  rfl

/-- Adding the part of a key leaves an entry for every row. -/
theorem length_add_mulVec {f : LinearRows κ α} {t : κ × Matrix α} (ht : t ∈ f.terms)
    {total : Vec α} (hlen : total.length = f.rows) (v : Vec α) :
    (Vec.add total (t.2.mulVec v)).length = f.rows := by
  rw [Vec.length_add, Matrix.length_mulVec, hlen, f.block_rows t ht, rows, min_self]

/-- A residual has an entry for every row. -/
theorem length_residual {f : LinearRows κ α} {x : Assignment κ α} {r : Vec α}
    (h : f.residual x = .ok r) : r.length = f.rows := by
  refine Result.foldlM_keeps (fun total => total.length = f.rows)
    (fun total next t ht hlen hstep => ?_) (Vec.length_neg _) h
  obtain ⟨v, -, hnext⟩ := Result.bind_eq_ok.1 hstep
  cases Result.pure_eq_ok.1 hnext
  exact length_add_mulVec ht hlen v

theorem residualChecked_eq (f : LinearRows κ α) (x : Assignment κ α) :
    f.residualChecked x = Result.ofExcept (f.residual x) := by
  refine Result.foldlM_eq_ofExcept (fun total => total.length = f.rows)
    (fun total t ht hlen => ?_) (fun total next t ht hlen hstep => ?_) (Vec.length_neg _)
  · rw [Result.ofExcept_bind]
    refine Result.bind_congr_of_ok fun v hv => ?_
    have hv := (Assignment.valueOf_eq_ok.1 (Result.ofExcept_eq_ok.1 hv)).2
    have hmatch : total.length = (t.2.mulVec v).length := by
      rw [hlen, Matrix.length_mulVec, f.block_rows t ht, rows]
    rw [Matrix.mulVecChecked_of hv]
    exact Vec.matched_of _ hmatch
  · obtain ⟨v, -, hnext⟩ := Result.bind_eq_ok.1 hstep
    cases Result.pure_eq_ok.1 hnext
    exact length_add_mulVec ht hlen v

theorem costChecked_eq (f : LinearRows κ α) (x : Assignment κ α) :
    f.costChecked x = Result.ofExcept (f.cost x) := by
  unfold costChecked cost
  split_ifs
  · rfl
  · rw [residualChecked_eq, Result.ofExcept_bind]
    rfl

theorem gradientChecked_eq (f : LinearRows κ α) (x : Assignment κ α) :
    f.gradientChecked x = f.gradient x := by
  unfold gradientChecked gradient
  split_ifs
  · rfl
  · rw [residualChecked_eq]
    refine Result.bind_congr_of_ok fun r hr => Result.mapM_eq_map fun t ht => ?_
    have hlen := length_residual (Result.ofExcept_eq_ok.1 hr)
    have hcols : r.length = t.2.transpose.cols := by
      rw [hlen, Matrix.cols_transpose, f.block_rows t ht, rows]
    simp only [Matrix.mulVecChecked_of hcols]
    rfl

/-- Rows are selected only where there are right-hand sides and coefficients. -/
theorem lt_of_selectRows {f f' : LinearRows κ α} {indices : List ℕ} {kind : RowKind}
    (h : f.selectRows indices kind = .ok f') :
    ∀ row ∈ indices, row < f.rhs.length ∧ ∀ t ∈ f.terms, row < t.2.rows := by
  intro row hrow
  have hlt : row < f.rows := (selectRows_eq_ok.1 h).1 row hrow
  exact ⟨hlt, fun t ht => (f.block_rows t ht).symm ▸ hlt⟩

end LinearRows

namespace QuadraticCost

def costChecked (f : QuadraticCost κ α) (x : Assignment κ α) : Result (FactorError α) α := do
  let v ← f.stacked x
  let image ← f.information.mulVecChecked v
  return 0.5 * (← Vec.matched Vec.inner v image) - (← Vec.matched Vec.inner v f.linear) +
    0.5 * f.constant

def gradientChecked (f : QuadraticCost κ α) (x : Assignment κ α) :
    Result (FactorError α) (List (κ × Vec α)) := do
  let v ← f.stacked x
  let full ← Vec.matched Vec.sub (← f.information.mulVecChecked v) f.linear
  f.segments.mapM fun (k, offset, dim) => do
    let part ← Result.inRange (Vec.slice full offset dim)
    return (k, part)

section Stacked
variable {f : QuadraticCost κ α} {x : Assignment κ α} {v : Vec α}

theorem mulVecChecked_stacked (h : f.stacked x = .ok v) :
    (f.information.mulVecChecked v : Result (FactorError α) _) =
      .ok (f.information.mulVec v) :=
  Matrix.mulVecChecked_of (by rw [length_stacked h, f.cols_eq, f.length_eq])

theorem length_image (h : f.stacked x = .ok v) : (f.information.mulVec v).length = v.length := by
  rw [Matrix.length_mulVec, length_stacked h, f.rows_eq, f.length_eq]

end Stacked

theorem costChecked_eq (f : QuadraticCost κ α) (x : Assignment κ α) :
    f.costChecked x = f.cost x := by
  refine Result.bind_congr_of_ok fun v hv => ?_
  rw [mulVecChecked_stacked hv]
  simp only [bind, Except.bind, Vec.matched_of _ (length_image hv).symm,
    Vec.matched_of _ (length_stacked hv)]

theorem gradientChecked_eq (f : QuadraticCost κ α) (x : Assignment κ α) :
    f.gradientChecked x = f.gradient x := by
  refine Result.bind_congr_of_ok fun v hv => ?_
  rw [mulVecChecked_stacked hv]
  have hmatch : (f.information.mulVec v).length = f.linear.length := by
    rw [length_image hv, length_stacked hv]
  simp only [bind, Except.bind, Vec.matched_of _ hmatch]

end QuadraticCost

namespace Factor

def costChecked : Factor κ α → Assignment κ α → Result (FactorError α) α
  | quadratic f, x => f.costChecked x
  | linear f, x => f.costChecked x

def gradientChecked : Factor κ α → Assignment κ α → Result (FactorError α) (List (κ × Vec α))
  | quadratic f, x => f.gradientChecked x
  | linear f, x => f.gradientChecked x

theorem costChecked_eq (f : Factor κ α) (x : Assignment κ α) : f.costChecked x = f.cost x := by
  cases f with
  | quadratic f => exact f.costChecked_eq x
  | linear f => exact f.costChecked_eq x

theorem gradientChecked_eq (f : Factor κ α) (x : Assignment κ α) :
    f.gradientChecked x = f.gradient x := by
  cases f with
  | quadratic f => exact f.gradientChecked_eq x
  | linear f => exact f.gradientChecked_eq x

end Factor

namespace Assignment

def interpolateChecked (v goal : Vec α) (t : α) : Result (GraphError α) (Vec α) := do
  let way ← Vec.matched Vec.sub goal v
  Vec.matched Vec.add v (Vec.scale way t)

def stepAlongChecked (t : α) :
    List (κ × Vec α) → Assignment κ α → Result (GraphError α) Unit × Assignment κ α
  | [], x => (.ok (), x)
  | (k, goal) :: rest, x =>
    match (do interpolateChecked (← Result.ofExcept (x.entryOf k goal.length)) goal t) with
    | .error failure => (.error failure, x)
    | .ok v => stepAlongChecked t rest (x.insert k v)

def stepTowardsChecked (x target : Assignment κ α) (t : α) :
    Result (GraphError α) Unit × Assignment κ α :=
  stepAlongChecked t target.toList x

def maxAbsDiffChecked (x y : Assignment κ α) : Result (GraphError α) α :=
  y.toList.foldlM (fun most (k, w) => do
    let v ← Result.ofExcept (x.entryOf k w.length)
    return Scalar.max most (Vec.amax (← Vec.matched Vec.sub v w))) 0

theorem interpolateChecked_eq {v goal : Vec α} (h : v.length = goal.length) (t : α) :
    interpolateChecked v goal t = .ok (interpolate v goal t) := by
  rw [interpolateChecked, Vec.matched_of _ h.symm]
  exact Vec.matched_of _ (by simp [h])

theorem stepTowardsChecked_eq (x y : Assignment κ α) (t : α) :
    x.stepTowardsChecked y t =
      (Result.ofExcept (x.stepTowards y t).1, (x.stepTowards y t).2) := by
  unfold stepTowardsChecked stepTowards
  generalize y.toList = l
  induction l generalizing x with
  | nil => rfl
  | cons e l ih =>
    obtain ⟨k, goal⟩ := e
    rw [stepAlongChecked, stepAlong]
    cases hv : x.entryOf k goal.length with
    | error e => rfl
    | ok v =>
      have hlen := (entryOf_eq_ok.1 hv).2
      have hmoved : (Result.ofExcept (.ok v) >>= fun v => interpolateChecked v goal t) =
          .ok (interpolate v goal t) := interpolateChecked_eq hlen t
      rw [hmoved]
      exact ih _

theorem maxAbsDiffChecked_eq (x y : Assignment κ α) :
    x.maxAbsDiffChecked y = Result.ofExcept (x.maxAbsDiff y) := by
  refine Result.foldlM_eq_ofExcept (fun _ => True) (fun most e _ _ => ?_)
    (fun _ _ _ _ _ _ => trivial) trivial
  rw [Result.ofExcept_bind]
  refine Result.bind_congr_of_ok fun v hv => ?_
  have hlen := (entryOf_eq_ok.1 (Result.ofExcept_eq_ok.1 hv)).2
  rw [Vec.matched_of _ hlen]
  rfl

end Assignment

namespace Graph

/-- Dense rows are as long as the layout says. -/
theorem length_of_denseActiveRows {g : Graph κ α} {w : WorkingSet} {layout : Layout κ}
    {rows : List (Vec α)} (h : g.denseActiveRows w layout = .ok rows) :
    ∀ v ∈ rows, v.length = layout.total := by
  intro v hv
  obtain ⟨lists, hlists, hrows⟩ := Result.bind_eq_ok.1 h
  cases Result.pure_eq_ok.1 hrows
  obtain ⟨list, hlist, hv⟩ := List.mem_flatten.1 hv
  obtain ⟨e, -, hfactor⟩ := Result.exists_of_mem_mapM hlists hlist
  obtain ⟨row, -, hrow⟩ := Result.exists_of_mem_mapM hfactor hv
  obtain ⟨start, hstart, hfold⟩ := Result.bind_eq_ok.1 hrow
  rw [Result.inRange_eq_ok, Vec.zeros?_eq_some] at hstart
  refine Result.foldlM_keeps (fun dense => dense.length = layout.total)
    (fun dense next e _ hlen hstep => ?_) (hstart.2 ▸ Vec.length_zeros _) hfold
  simp only at hstep
  split at hstep
  · cases hstep
  · obtain ⟨coefficients, -, hput⟩ := Result.bind_eq_ok.1 hstep
    rw [Vec.length_of_overwrite (Result.inRange_eq_ok.1 hput), hlen]

/-- Wherever the graph is evaluated, checked operations give what the plain ones give, rows that are
selected are there, and the active rows that a rank is taken of are of one length. -/
structure Matches (g : Graph κ α) : Prop where
  cost : ∀ f ∈ g.factors, ∀ x, f.costChecked x = f.cost x
  gradient : ∀ f ∈ g.factors, ∀ x, f.gradientChecked x = f.gradient x
  residual : ∀ i c, g.constraintAt? i = some c →
    ∀ x, c.residualChecked x = Result.ofExcept (c.residual x)
  rowValue : ∀ i c, g.constraintAt? i = some c →
    ∀ row x, c.rowValueChecked row x = c.rowValue row x
  selected : ∀ i c, g.constraintAt? i = some c → ∀ indices kind c',
    c.selectRows indices kind = .ok c' →
      ∀ row ∈ indices, row < c.rhs.length ∧ ∀ t ∈ c.terms, row < t.2.rows
  dense : ∀ w layout rows, g.denseActiveRows w layout = .ok rows →
    ∀ v ∈ rows, v.length = layout.total

theorem all_match (g : Graph κ α) : g.Matches where
  cost f _ := f.costChecked_eq
  gradient f _ := f.gradientChecked_eq
  residual _ c _ := c.residualChecked_eq
  rowValue _ c _ := c.rowValueChecked_eq
  selected _ _ _ _ _ _ h := LinearRows.lt_of_selectRows h
  dense _ _ _ h := length_of_denseActiveRows h

end Graph

end GaussianProgram
