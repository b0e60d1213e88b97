import GaussianProgram.Proofs.Sequence
import GaussianProgram.Solver

/-! Runs as functions of their state: what a run of two steps does, and runs that stay inside an
iteration, which notify nobody and leave it to the loop to give up. -/
namespace GaussianProgram

namespace Event
variable {κ α : Type} [Key κ]

def isReport : Event κ α → Bool
  | report _ => true
  | _ => false

end Event

def RunState.notices {κ α σ : Type} [Key κ] (st : RunState κ α σ) : List (Event κ α) :=
  st.events.filter fun e => !e.isReport

/-- The two failures by which the loop itself ends a run. -/
@[simp] def SolverError.GivesUp {α : Type} : SolverError α → Prop
  | iterationLimit _ => True
  | cycling _ => True
  | _ => False

/-- A kind of failure of the method itself, not of a graph, a factor or a linear system. -/
structure SolverError.IsOwn {α : Type} (P : SolverError α → Prop) : Prop where
  graph : ∀ e, ¬P (.graph e)
  factor : ∀ e, ¬P (.factor e)
  linear : ∀ e, ¬P (.linear e)

theorem SolverError.isOwn_givesUp {α : Type} : IsOwn (GivesUp (α := α)) :=
  ⟨fun _ => id, fun _ => id, fun _ => id⟩

def Result.Avoids {α β : Type} (P : SolverError α → Prop) (r : Result (SolverError α) β) : Prop :=
  ∀ e, r = .error (.cause e) → ¬P e

namespace Result
variable {α β γ ε : Type} {P : SolverError α → Prop}

theorem avoids_ok (b : β) : Avoids P (.ok b) := fun _ h => nomatch h

theorem avoids_outOfRange : Avoids P (.error .outOfRange : Result (SolverError α) β) :=
  fun _ h => nomatch h

theorem avoids_fail {e : SolverError α} (he : ¬P e) :
    Avoids P (fail e : Result (SolverError α) β) := by
  intro e' h
  cases h
  exact he

theorem avoids_inRange (o : Option β) : Avoids P (inRange o) := by
  cases o with
  | none => exact avoids_outOfRange
  | some b => exact avoids_ok b

theorem avoids_mapCause {f : ε → SolverError α} (hf : ∀ e, ¬P (f e)) (r : Result ε β) :
    Avoids P (r.mapCause f) := by
  rcases r with (e | _) | b
  · exact avoids_fail (hf e)
  · exact avoids_outOfRange
  · exact avoids_ok b

theorem avoids_graph (hP : SolverError.IsOwn P) (r : Result (GraphError α) β) :
    Avoids P (r.mapCause .graph) := avoids_mapCause hP.graph r

theorem avoids_factor (hP : SolverError.IsOwn P) (r : Result (FactorError α) β) :
    Avoids P (r.mapCause .factor) := avoids_mapCause hP.factor r

theorem avoids_linear (hP : SolverError.IsOwn P) (r : Result LinearError β) :
    Avoids P (r.mapCause .linear) := avoids_mapCause hP.linear r

theorem avoids_bind_of_ok {r : Result (SolverError α) β} {f : β → Result (SolverError α) γ}
    (hr : Avoids P r) (hf : ∀ b, r = .ok b → Avoids P (f b)) : Avoids P (r >>= f) := by
  cases r with
  | ok b => exact hf b rfl
  | error e =>
    intro e' h
    exact hr e' (by cases h; rfl)

theorem avoids_bind {r : Result (SolverError α) β} {f : β → Result (SolverError α) γ}
    (hr : Avoids P r) (hf : ∀ b, Avoids P (f b)) : Avoids P (r >>= f) :=
  avoids_bind_of_ok hr fun b _ => hf b

theorem avoids_mapM {δ : Type} {f : δ → Result (SolverError α) β} {l : List δ}
    (hf : ∀ a, Avoids P (f a)) : Avoids P (l.mapM f) := by
  induction l with
  | nil => exact avoids_ok []
  | cons a l ih =>
    rw [List.mapM_cons]
    exact avoids_bind (hf a) fun b => avoids_bind ih fun bs => avoids_ok (b :: bs)

theorem avoids_foldlM {δ : Type} {f : β → δ → Result (SolverError α) β} {l : List δ} {b : β}
    (hf : ∀ b a, Avoids P (f b a)) : Avoids P (l.foldlM f b) := by
  induction l generalizing b with
  | nil => exact avoids_ok b
  | cons a l ih =>
    rw [List.foldlM_cons]
    exact avoids_bind (hf b a) fun _ => ih

theorem avoids_forM {δ : Type} {f : δ → Result (SolverError α) Unit} {l : List δ}
    (hf : ∀ a, Avoids P (f a)) : Avoids P (l.forM f) := by
  induction l with
  | nil => exact avoids_ok ()
  | cons a l ih => exact avoids_bind (hf a) fun _ => ih

end Result

namespace Run
variable {κ α σ ε ε' β γ : Type} [Key κ]

def exec (m : Run κ α σ ε β) (st : RunState κ α σ) : Result ε β × RunState κ α σ := m.run.run st

variable {st st' st'' : RunState κ α σ}

theorem exec_bind (m : Run κ α σ ε β) (f : β → Run κ α σ ε γ) (st : RunState κ α σ) :
    exec (m >>= f) st = match exec m st with
      | (.ok b, st') => exec (f b) st'
      | (.error e, st') => (.error e, st') := by
  simp only [exec, ExceptT.run_bind, StateT.run_bind]
  rcases m.run.run st with ⟨_ | _, _⟩ <;> rfl

theorem exec_bind_ok {m : Run κ α σ ε β} {f : β → Run κ α σ ε γ} {c : γ} :
    exec (m >>= f) st = (.ok c, st'') ↔
      ∃ b st', exec m st = (.ok b, st') ∧ exec (f b) st' = (.ok c, st'') := by
  rw [exec_bind]
  rcases exec m st with ⟨e | b, st'⟩
  · simp
  · simp

theorem exec_bind_of_ok {m : Run κ α σ ε β} {f : β → Run κ α σ ε γ} {b : β}
    (h : exec m st = (.ok b, st')) : exec (m >>= f) st = exec (f b) st' := by
  rw [exec_bind, h]

/-- A run of two steps fails where one of them does. -/
theorem exec_bind_error {m : Run κ α σ ε β} {f : β → Run κ α σ ε γ} {e : Failure ε} :
    (exec (m >>= f) st).1 = .error e ↔ (exec m st).1 = .error e ∨
      ∃ b st', exec m st = (.ok b, st') ∧ (exec (f b) st').1 = .error e := by
  rw [exec_bind]
  rcases exec m st with ⟨e' | b, st'⟩
  · simp
  · simp

@[simp] theorem exec_workingSet (st : RunState κ α σ) :
    exec (workingSet : Run κ α σ ε WorkingSet) st = (.ok st.workingSet, st) := rfl

@[simp] theorem exec_point (st : RunState κ α σ) :
    exec (point : Run κ α σ ε (Assignment κ α)) st = (.ok st.point, st) := rfl

@[simp] theorem exec_emit (e : Event κ α) (st : RunState κ α σ) :
    exec (emit e : Run κ α σ ε Unit) st = (.ok (), { st with events := st.events ++ [e] }) := rfl

@[simp] theorem exec_report (r : Report κ α) (st : RunState κ α σ) :
    exec (report r : Run κ α σ ε Unit) st =
      (.ok (), { st with events := st.events ++ [.report r] }) := rfl

@[simp] theorem exec_quietly (r : Result ε β) (st : RunState κ α σ) :
    exec (quietly r : Run κ α σ ε β) st = (r, st) := by
  cases r <;> rfl

theorem quietly_ok {r : Result ε β} {b : β} (h : exec (quietly r) st = (.ok b, st')) :
    r = .ok b ∧ st' = st := by
  rw [exec_quietly] at h
  exact ⟨congrArg Prod.fst h, (congrArg Prod.snd h).symm⟩

theorem exec_mapCause (f : ε → ε') (m : Run κ α σ ε β) (st : RunState κ α σ) :
    exec (mapCause f m) st = ((exec m st).1.mapCause f, (exec m st).2) := rfl

/-- The two states have the same working set, the same point and the same notifications. -/
def Alike (st st' : RunState κ α σ) : Prop :=
  st'.workingSet = st.workingSet ∧ st'.point = st.point ∧ st'.notices = st.notices

theorem alike_refl (st : RunState κ α σ) : Alike st st := ⟨rfl, rfl, rfl⟩

theorem Alike.trans (h : Alike st st') (h' : Alike st' st'') : Alike st st'' :=
  ⟨h'.1.trans h.1, h'.2.1.trans h.2.1, h'.2.2.trans h.2.2⟩

theorem alike_report (r : Report κ α) (st : RunState κ α σ) :
    Alike st { st with events := st.events ++ [.report r] } :=
  ⟨rfl, rfl, by simp [RunState.notices, Event.isReport]⟩

theorem exec_announcing (r : Result (SolverError α) β) (st : RunState κ α σ) :
    ∃ st', exec (announcing r : Run κ α σ (SolverError α) β) st = (r, st') ∧ Alike st st' := by
  rcases r with (e | _) | b
  · exact ⟨_, rfl, alike_report (.failure e.origin) st⟩
  · exact ⟨st, rfl, alike_refl st⟩
  · exact ⟨st, rfl, alike_refl st⟩

/-- Takes over the reports of a reply, and then its answer. -/
def heed {κ' : Type} [Key κ'] (reply : Reply κ' α) :
    Run κ α σ (SolverError α) (Assignment κ' α) := do
  reply.reports.forM fun e => report (.failure e)
  quietly (reply.result.mapCause .linear)

theorem exec_ask_eq {κ' : Type} [Key κ'] (answer : σ → Reply κ' α × σ) (st : RunState κ α σ) :
    exec (ask answer) st =
      exec (heed (answer st.eliminator).1) { st with eliminator := (answer st.eliminator).2 } := rfl

theorem exec_heed {κ' : Type} [Key κ'] (reply : Reply κ' α) (st : RunState κ α σ) :
    exec (heed reply) st = (reply.result.mapCause .linear,
      { st with events := st.events ++ reply.reports.map fun e => .report (.failure e) }) := by
  have hreports (l : List (Error α)) (t : RunState κ α σ) :
      exec (l.forM fun e => (report (.failure e) : Run κ α σ (SolverError α) Unit)) t =
        (.ok (), { t with events := t.events ++ l.map fun e => .report (.failure e) }) := by
    induction l generalizing t with
    | nil =>
      rw [List.map_nil, List.append_nil]
      rfl
    | cons e l ih =>
      have hrest := ih { t with events := t.events ++ [.report (.failure e)] }
      rw [List.append_assoc] at hrest
      exact hrest
  rw [heed, exec_bind_of_ok (hreports _ _)]
  exact exec_quietly _ _

/-- An eliminator that is asked gives its answer; what it reports is not for observers. -/
theorem exec_ask {κ' : Type} [Key κ'] (answer : σ → Reply κ' α × σ) (st : RunState κ α σ) :
    ∃ st', exec (ask answer) st =
      ((answer st.eliminator).1.result.mapCause .linear, st') ∧ Alike st st' := by
  rw [exec_ask_eq, exec_heed]
  refine ⟨_, rfl, rfl, rfl, ?_⟩
  simp [RunState.notices, Event.isReport]

theorem announcing_ok {r : Result (SolverError α) β} {b : β}
    (h : exec (announcing r) st = (.ok b, st')) : r = .ok b ∧ Alike st st' := by
  obtain ⟨t, hexec, hlike⟩ := exec_announcing r st
  obtain ⟨hr, rfl⟩ := Prod.mk.inj (hexec.symm.trans h)
  exact ⟨hr, hlike⟩

theorem ask_ok {κ' : Type} [Key κ'] {answer : σ → Reply κ' α × σ} {x : Assignment κ' α}
    (h : exec (ask answer) st = (.ok x, st')) :
    (answer st.eliminator).1.result = .ok x ∧ Alike st st' := by
  obtain ⟨t, hexec, hlike⟩ := exec_ask answer st
  obtain ⟨hr, rfl⟩ := Prod.mk.inj (hexec.symm.trans h)
  exact ⟨Result.mapCause_eq_ok.1 hr, hlike⟩

theorem announcing_eq_ok {r : Result (SolverError α) β} {b : β} :
    exec (announcing r) st = (.ok b, st') ↔ r = .ok b ∧ st = st' := by
  constructor
  · intro h
    obtain ⟨rfl, -⟩ := announcing_ok h
    exact ⟨rfl, congrArg Prod.snd h⟩
  · rintro ⟨rfl, rfl⟩
    rfl

theorem eliminator_of_ask {κ' : Type} [Key κ'] {answer : σ → Reply κ' α × σ}
    {x : Assignment κ' α} (h : exec (ask answer) st = (.ok x, st')) :
    st'.eliminator = (answer st.eliminator).2 := by
  rw [exec_ask_eq, exec_heed] at h
  obtain ⟨-, rfl⟩ := Prod.mk.inj h
  rfl

@[simp] theorem result_announcing (r : Result (SolverError α) β) (st : RunState κ α σ) :
    (exec (announcing r) st).1 = r := by
  obtain ⟨st', hexec, -⟩ := exec_announcing r st
  rw [hexec]

@[simp] theorem result_ask {κ' : Type} [Key κ'] (answer : σ → Reply κ' α × σ)
    (st : RunState κ α σ) :
    (exec (ask answer) st).1 = (answer st.eliminator).1.result.mapCause .linear := by
  obtain ⟨st', hexec, -⟩ := exec_ask answer st
  rw [hexec]

/-- From this state on nobody is notified, and there is no failure of this kind. -/
def InnerAt (P : SolverError α → Prop) (m : Run κ α σ (SolverError α) β)
    (st : RunState κ α σ) : Prop :=
  (exec m st).2.notices = st.notices ∧ (exec m st).1.Avoids P

/-- A part of an iteration: from no state on anybody is notified, or is there a failure of
this kind. -/
def Inner (P : SolverError α → Prop) (m : Run κ α σ (SolverError α) β) : Prop :=
  ∀ st, InnerAt P m st

variable {P : SolverError α → Prop}

theorem innerAt_bind {m : Run κ α σ (SolverError α) β} {f : β → Run κ α σ (SolverError α) γ}
    (hm : InnerAt P m st)
    (hf : ∀ b st', exec m st = (.ok b, st') → InnerAt P (f b) st') : InnerAt P (m >>= f) st := by
  obtain ⟨hn, hp⟩ := hm
  rw [InnerAt, exec_bind]
  rcases hexec : exec m st with ⟨e | b, st'⟩
  · rw [hexec] at hn hp
    exact ⟨hn, fun e' he => hp e' (by cases he; rfl)⟩
  · rw [hexec] at hn
    obtain ⟨hn', hp'⟩ := hf b st' hexec
    exact ⟨hn'.trans hn, hp'⟩

theorem inner_bind {m : Run κ α σ (SolverError α) β} {f : β → Run κ α σ (SolverError α) γ}
    (hm : Inner P m) (hf : ∀ b, Inner P (f b)) : Inner P (m >>= f) :=
  fun st => innerAt_bind (hm st) fun b st' _ => hf b st'

theorem inner_pure (b : β) : Inner P (pure b : Run κ α σ (SolverError α) β) :=
  fun _ => ⟨rfl, Result.avoids_ok b⟩

theorem inner_workingSet : Inner P (workingSet : Run κ α σ (SolverError α) WorkingSet) :=
  fun st => ⟨rfl, Result.avoids_ok st.workingSet⟩

theorem inner_point : Inner P (point : Run κ α σ (SolverError α) (Assignment κ α)) :=
  fun st => ⟨rfl, Result.avoids_ok st.point⟩

theorem inner_setWorkingSet (w : WorkingSet) :
    Inner P (setWorkingSet w : Run κ α σ (SolverError α) Unit) :=
  fun _ => ⟨rfl, Result.avoids_ok ()⟩

theorem inner_setPoint (x : Assignment κ α) :
    Inner P (setPoint x : Run κ α σ (SolverError α) Unit) :=
  fun _ => ⟨rfl, Result.avoids_ok ()⟩

theorem inner_report (r : Report κ α) : Inner P (report r : Run κ α σ (SolverError α) Unit) :=
  fun st => ⟨(alike_report r st).2.2, Result.avoids_ok ()⟩

theorem inner_quietly {r : Result (SolverError α) β} (hr : r.Avoids P) :
    Inner P (quietly r : Run κ α σ (SolverError α) β) := by
  intro st
  rw [InnerAt, exec_quietly]
  exact ⟨rfl, hr⟩

theorem inner_announcing {r : Result (SolverError α) β} (hr : r.Avoids P) :
    Inner P (announcing r : Run κ α σ (SolverError α) β) := by
  intro st
  obtain ⟨st', hexec, -, -, hn⟩ := exec_announcing r st
  rw [InnerAt, hexec]
  exact ⟨hn, hr⟩

theorem inner_ask {κ' : Type} [Key κ'] (hP : SolverError.IsOwn P)
    (answer : σ → Reply κ' α × σ) :
    Inner P (ask answer : Run κ α σ (SolverError α) (Assignment κ' α)) := by
  intro st
  obtain ⟨st', hexec, -, -, hn⟩ := exec_ask answer st
  rw [InnerAt, hexec]
  exact ⟨hn, Result.avoids_linear hP _⟩

end Run

end GaussianProgram
