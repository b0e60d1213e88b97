import Mathlib
import GaussianProgram.Failure

/-! Operations that may fail, one after the other along a list. A sequence succeeds
when every member does. -/
namespace GaussianProgram.Result
variable {α β ε : Type}

theorem pure_eq_ok {b c : β} : (pure b : Except ε β) = .ok c ↔ b = c := by
  simp [pure, Except.pure]

theorem mapCause_ok {ε' : Type} (f : ε → ε') (b : β) : mapCause f (.ok b) = .ok b := rfl

theorem mapCause_map {ε' γ : Type} (f : ε → ε') (v : β → γ) (r : Result ε β) :
    mapCause f (r.map v) = (mapCause f r).map v := by
  rcases r with (_ | _) | _ <;> rfl

/-- A sequence of two steps fails where one of them does. -/
theorem bind_eq_error {x : Except ε α} {f : α → Except ε β} {e : ε} :
    (x >>= f) = .error e ↔ x = .error e ∨ ∃ a, x = .ok a ∧ f a = .error e := by
  cases x with
  | error _ => simp [bind, Except.bind]
  | ok _ => simp [bind, Except.bind]

/-- What a sequence gives does not matter for its failures. -/
theorem bind_pure_eq_error {x : Except ε α} {f : α → β} {e : ε} :
    (x >>= fun a => pure (f a)) = .error e ↔ x = .error e := by
  cases x <;> simp [bind, Except.bind, pure, Except.pure]

theorem map_eq_error {r : Except ε α} {f : α → β} {e : ε} :
    r.map f = .error e ↔ r = .error e := by
  cases r <;> simp [Except.map]

/-- A second step matters for what the first one gives only. -/
theorem bind_congr_of_ok {x : Except ε α} {f g : α → Except ε β}
    (h : ∀ a, x = .ok a → f a = g a) : (x >>= f) = (x >>= g) := by
  cases x with
  | error _ => rfl
  | ok a => exact h a rfl

theorem mapM_eq_ok {f : α → Except ε β} {l : List α} {bs : List β} :
    l.mapM f = .ok bs ↔ List.Forall₂ (fun a b => f a = .ok b) l bs := by
  induction l generalizing bs with
  | nil => simp [pure, Except.pure, eq_comm]
  | cons a l ih =>
    simp only [List.mapM_cons, bind_eq_ok, pure_eq_ok, List.forall₂_cons_left_iff, ih]
    constructor
    · rintro ⟨b, hb, rest, hrest, rfl⟩
      exact ⟨b, rest, hb, hrest, rfl⟩
    · rintro ⟨b, rest, hb, hrest, rfl⟩
      exact ⟨b, hb, rest, hrest, rfl⟩

theorem exists_of_mem_mapM {f : α → Except ε β} {l : List α} {bs : List β} (h : l.mapM f = .ok bs)
    {b : β} (hb : b ∈ bs) : ∃ a ∈ l, f a = .ok b := by
  rw [mapM_eq_ok] at h
  induction h with
  | nil => simp at hb
  | cons hab _ ih =>
    rcases List.mem_cons.1 hb with rfl | hb
    · exact ⟨_, List.mem_cons_self, hab⟩
    · obtain ⟨a, ha, hf⟩ := ih hb
      exact ⟨a, List.mem_cons_of_mem _ ha, hf⟩

theorem exists_mem_of_mapM {f : α → Except ε β} {l : List α} {bs : List β} (h : l.mapM f = .ok bs)
    {a : α} (ha : a ∈ l) : ∃ b ∈ bs, f a = .ok b := by
  rw [mapM_eq_ok] at h
  induction h with
  | nil => simp at ha
  | cons hab _ ih =>
    rcases List.mem_cons.1 ha with rfl | ha
    · exact ⟨_, List.mem_cons_self, hab⟩
    · obtain ⟨b, hb, hf⟩ := ih ha
      exact ⟨b, List.mem_cons_of_mem _ hb, hf⟩

/-- What is left of a sequence of options is what some member gives. -/
theorem mem_filterMap_of_mapM {f : α → Except ε (Option β)} {l : List α} {os : List (Option β)}
    (h : l.mapM f = .ok os) {b : β} : b ∈ os.filterMap id ↔ ∃ a ∈ l, f a = .ok (some b) := by
  constructor
  · intro hb
    obtain ⟨o, ho, rfl : o = some b⟩ := List.mem_filterMap.1 hb
    exact exists_of_mem_mapM h ho
  · rintro ⟨a, ha, hf⟩
    obtain ⟨o, ho, hok⟩ := exists_mem_of_mapM h ha
    obtain rfl : o = some b := Except.ok.inj (hok.symm.trans hf)
    exact List.mem_filterMap.2 ⟨_, ho, rfl⟩

/-- What every member gives is related to it, if it succeeds. -/
theorem forall₂_of_mapM {f : α → Except ε β} {l : List α} {bs : List β} (h : l.mapM f = .ok bs)
    {R : α → β → Prop} (hR : ∀ a ∈ l, ∀ b, f a = .ok b → R a b) : List.Forall₂ R l bs := by
  rw [mapM_eq_ok] at h
  induction h with
  | nil => exact .nil
  | cons hab _ ih =>
    exact .cons (hR _ List.mem_cons_self _ hab) (ih fun a ha => hR a (List.mem_cons_of_mem _ ha))

theorem forM_eq_ok {f : α → Except ε Unit} {l : List α} :
    l.forM f = .ok () ↔ ∀ a ∈ l, f a = .ok () := by
  induction l with
  | nil => simp [pure, Except.pure]
  | cons a l ih =>
    rw [List.forall_mem_cons, ← ih]
    exact bind_eq_ok.trans ⟨fun ⟨_, ha, hl⟩ => ⟨ha, hl⟩, fun ⟨ha, hl⟩ => ⟨(), ha, hl⟩⟩

/-- What every successful step keeps, a successful fold keeps. -/
theorem foldlM_keeps {f : β → α → Except ε β} {l : List α} {b c : β} (P : β → Prop)
    (hstep : ∀ b c, ∀ a ∈ l, P b → f b a = .ok c → P c) (hb : P b) (h : l.foldlM f b = .ok c) :
    P c := by
  induction l generalizing b with
  | nil => exact pure_eq_ok.1 h ▸ hb
  | cons a l ih =>
    rw [List.foldlM_cons, bind_eq_ok] at h
    obtain ⟨b', hb', h⟩ := h
    exact ih (fun b c a ha => hstep b c a (List.mem_cons_of_mem _ ha))
      (hstep b b' a List.mem_cons_self hb hb') h

/-- What every successful step adds to a quantity, a successful fold adds up. -/
theorem foldlM_sum {M : Type} [AddMonoid M] {f : β → α → Except ε β} {l : List α} {b c : β}
    (μ : β → M) {φ : α → M} (hstep : ∀ b c, ∀ a ∈ l, f b a = .ok c → μ c = μ b + φ a)
    (h : l.foldlM f b = .ok c) : μ c = μ b + (l.map φ).sum := by
  induction l generalizing b with
  | nil => simp [pure_eq_ok.1 h]
  | cons a l ih =>
    rw [List.foldlM_cons, bind_eq_ok] at h
    obtain ⟨b', hb', h⟩ := h
    rw [ih (fun b c a ha => hstep b c a (List.mem_cons_of_mem _ ha)) h,
      hstep b b' a List.mem_cons_self hb', List.map_cons, List.sum_cons, add_assoc]

/-- What holds after a successful fold held before or was brought about by a member. -/
theorem foldlM_iff {f : β → α → Except ε β} {l : List α} {b c : β} {P : β → Prop} {A : α → Prop}
    (hstep : ∀ b c, ∀ a ∈ l, f b a = .ok c → (P c ↔ P b ∨ A a)) (h : l.foldlM f b = .ok c) :
    P c ↔ P b ∨ ∃ a ∈ l, A a := by
  induction l generalizing b with
  | nil => simp [pure_eq_ok.1 h]
  | cons a l ih =>
    rw [List.foldlM_cons, bind_eq_ok] at h
    obtain ⟨b', hb', h⟩ := h
    rw [ih (fun b c a ha => hstep b c a (List.mem_cons_of_mem _ ha)) h,
      hstep b b' a List.mem_cons_self hb', or_assoc, List.exists_mem_cons_iff]

/-- A sequence succeeds if every member does. -/
theorem exists_mapM {f : α → Except ε β} {l : List α} (h : ∀ a ∈ l, ∃ b, f a = .ok b) :
    ∃ bs, l.mapM f = .ok bs := by
  induction l with
  | nil => exact ⟨[], rfl⟩
  | cons a l ih =>
    obtain ⟨⟨b, hb⟩, hl⟩ := List.forall_mem_cons.1 h
    obtain ⟨bs, hbs⟩ := ih hl
    exact ⟨b :: bs, by rw [mapM_eq_ok] at hbs ⊢; exact .cons hb hbs⟩

theorem mapM_eq_map {f : α → Except ε β} {φ : α → β} {l : List α} (h : ∀ a ∈ l, f a = .ok (φ a)) :
    l.mapM f = .ok (l.map φ) :=
  mapM_eq_ok.2 (List.forall₂_map_right_iff.2 (List.forall₂_same.2 h))

/-- A sequence whose members give what they are to be related to gives related values. -/
theorem exists_forall₂_mapM {f : α → Except ε β} {R : α → β → Prop} {l : List α}
    (h : ∀ a ∈ l, ∃ b, f a = .ok b ∧ R a b) : ∃ bs, l.mapM f = .ok bs ∧ List.Forall₂ R l bs := by
  obtain ⟨bs, hbs⟩ := exists_mapM fun a ha => (h a ha).imp fun _ => And.left
  refine ⟨bs, hbs, forall₂_of_mapM hbs fun a ha b hb => ?_⟩
  obtain ⟨b', hb', hR⟩ := h a ha
  cases hb.symm.trans hb'
  exact hR

/-- A fold succeeds if every step from what the steps keep does. -/
theorem exists_foldlM {f : β → α → Except ε β} {l : List α} {b : β} (P : β → Prop)
    (hstep : ∀ b, ∀ a ∈ l, P b → ∃ c, f b a = .ok c ∧ P c) (hb : P b) :
    ∃ c, l.foldlM f b = .ok c := by
  induction l generalizing b with
  | nil => exact ⟨b, rfl⟩
  | cons a l ih =>
    obtain ⟨b', hb', hP⟩ := hstep b a List.mem_cons_self hb
    rw [List.foldlM_cons, hb']
    exact ih (fun b a ha => hstep b a (List.mem_cons_of_mem _ ha)) hP

/-- Where one fold succeeds another one does, if its steps succeed along with those of the first. -/
theorem exists_foldlM_of_foldlM {f g : β → α → Except ε β} {l : List α} {b b' c : β}
    (R : β → β → Prop)
    (hstep : ∀ b b' c, ∀ a ∈ l, R b b' → f b a = .ok c → ∃ c', g b' a = .ok c' ∧ R c c')
    (hb : R b b') (h : l.foldlM f b = .ok c) : ∃ c', l.foldlM g b' = .ok c' ∧ R c c' := by
  induction l generalizing b b' with
  | nil => exact ⟨b', rfl, pure_eq_ok.1 h ▸ hb⟩
  | cons a l ih =>
    rw [List.foldlM_cons, bind_eq_ok] at h
    obtain ⟨d, hd, h⟩ := h
    obtain ⟨d', hd', hR⟩ := hstep b b' d a List.mem_cons_self hb hd
    obtain ⟨c', hc', hR⟩ := ih (fun b b' c a ha => hstep b b' c a (List.mem_cons_of_mem _ ha)) hR h
    exact ⟨c', by rw [List.foldlM_cons, bind_eq_ok]; exact ⟨d', hd', hc'⟩, hR⟩

/-- A fold depends on its steps at the members only. -/
theorem foldlM_congr {f g : β → α → Except ε β} {l : List α} (h : ∀ b, ∀ a ∈ l, f b a = g b a)
    (b : β) : l.foldlM f b = l.foldlM g b := by
  induction l generalizing b with
  | nil => rfl
  | cons a l ih =>
    rw [List.foldlM_cons, List.foldlM_cons, h b a List.mem_cons_self]
    exact bind_congr fun b => ih (fun b a ha => h b a (List.mem_cons_of_mem _ ha)) b

/-- A fold over what the members give takes them all first and folds them then. -/
theorem foldlM_eq_mapM {γ : Type} (f : α → Except ε γ) (op : β → γ → β) (l : List α) (b : β) :
    (l.foldlM (fun b a => do return op b (← f a)) b) = do return (← l.mapM f).foldl op b := by
  induction l generalizing b with
  | nil => rfl
  | cons a l ih =>
    rw [List.foldlM_cons, List.mapM_cons]
    cases f a with
    | error e => rfl
    | ok c =>
      refine (ih (op b c)).trans ?_
      cases l.mapM f <;> rfl

/-- A fold that succeeds does so at every member. -/
theorem exists_of_foldlM {f : β → α → Except ε β} {l : List α} {b c : β}
    (h : l.foldlM f b = .ok c) {a : α} (ha : a ∈ l) : ∃ b' c', f b' a = .ok c' := by
  induction l generalizing b with
  | nil => simp at ha
  | cons a' l ih =>
    rw [List.foldlM_cons, bind_eq_ok] at h
    obtain ⟨b', hb', h⟩ := h
    rcases List.mem_cons.1 ha with rfl | ha
    · exact ⟨b, b', hb'⟩
    · exact ih h ha

section OutOfRange
variable {ε' : Type}

def isOutOfRange : Result ε β → Bool
  | .error .outOfRange => true
  | _ => false

theorem isOutOfRange_iff {r : Result ε β} : r.isOutOfRange = true ↔ r = .error .outOfRange := by
  rcases r with (_ | _) | _ <;> simp [isOutOfRange]

@[simp] theorem mapCause_eq_outOfRange {f : ε → ε'} {r : Result ε β} :
    mapCause f r = .error .outOfRange ↔ r = .error .outOfRange := by
  rcases r with (_ | _) | _ <;> simp [mapCause, fail]

@[simp] theorem ofExcept_ne_outOfRange (x : Except ε β) : ofExcept x ≠ .error .outOfRange := by
  cases x <;> simp [ofExcept, fail]

@[simp] theorem inRange_eq_outOfRange {o : Option β} :
    (inRange o : Result ε β) = .error .outOfRange ↔ o = none := by
  cases o <;> simp

end OutOfRange

section First
variable {R : α → α → Prop}

/-- A sequence that fails does so at its first member that fails. -/
theorem exists_first_of_mapM_eq_error {f : α → Except ε β} {l : List α} {e : ε}
    (hl : l.Pairwise R) (h : l.mapM f = .error e) :
    ∃ a ∈ l, f a = .error e ∧ ∀ b ∈ l, (∀ c, f b ≠ .ok c) → b = a ∨ R a b := by
  induction l with
  | nil => cases h
  | cons a l ih =>
    obtain ⟨hfirst, hl⟩ := List.pairwise_cons.1 hl
    rw [List.mapM_cons, bind_eq_error] at h
    rcases h with ha | ⟨c, ha, h⟩
    · exact ⟨a, List.mem_cons_self, ha, fun b hb _ => (List.mem_cons.1 hb).imp_right (hfirst b)⟩
    · rcases bind_eq_error.1 h with hrest | ⟨_, -, hpure⟩
      · obtain ⟨a', ha', hfail, hbefore⟩ := ih hl hrest
        exact ⟨a', List.mem_cons_of_mem _ ha', hfail,
          List.forall_mem_cons.2 ⟨fun hnone => absurd ha (hnone c), hbefore⟩⟩
      · cases hpure

/-- Checks along a list that fail do so at its first member that fails. -/
theorem exists_first_of_forM_eq_error {f : α → Except ε Unit} {l : List α} {e : ε}
    (hl : l.Pairwise R) (h : l.forM f = .error e) :
    ∃ a ∈ l, f a = .error e ∧ ∀ b ∈ l, f b ≠ .ok () → b = a ∨ R a b := by
  induction l with
  | nil => cases h
  | cons a l ih =>
    obtain ⟨hfirst, hl⟩ := List.pairwise_cons.1 hl
    rcases bind_eq_error.1 h with ha | ⟨_, ha, h⟩
    · exact ⟨a, List.mem_cons_self, ha, fun b hb _ => (List.mem_cons.1 hb).imp_right (hfirst b)⟩
    · obtain ⟨a', ha', hfail, hbefore⟩ := ih hl h
      exact ⟨a', List.mem_cons_of_mem _ ha', hfail,
        List.forall_mem_cons.2 ⟨fun hne => absurd ha hne, hbefore⟩⟩

end First

/-- A fold that fails does so at a member, from what the members before it have given. -/
theorem exists_split_of_foldlM_eq_error {f : β → α → Except ε β} {l : List α} {b : β} {e : ε}
    (h : l.foldlM f b = .error e) : ∃ before a after b',
      l = before ++ a :: after ∧ before.foldlM f b = .ok b' ∧ f b' a = .error e := by
  induction l generalizing b with
  | nil => cases h
  | cons a l ih =>
    rw [List.foldlM_cons, bind_eq_error] at h
    rcases h with ha | ⟨c, hc, h⟩
    · exact ⟨[], a, l, b, rfl, rfl, ha⟩
    · obtain ⟨before, a', after, b', rfl, hbefore, hfail⟩ := ih h
      refine ⟨a :: before, a', after, b', rfl, ?_, hfail⟩
      rw [List.foldlM_cons, hc]
      exact hbefore

/-- A sequence that fails does so at a member. -/
theorem exists_of_mapM_eq_error {f : α → Except ε β} {l : List α} {e : ε}
    (h : l.mapM f = .error e) : ∃ a ∈ l, f a = .error e := by
  obtain ⟨a, ha, hfail, -⟩ :=
    exists_first_of_mapM_eq_error (List.pairwise_of_forall fun _ _ => trivial) h
  exact ⟨a, ha, hfail⟩

/-- A fold that fails does so at a member. -/
theorem exists_of_foldlM_eq_error {f : β → α → Except ε β} {l : List α} {b : β} {e : ε}
    (h : l.foldlM f b = .error e) : ∃ a ∈ l, ∃ b', f b' a = .error e := by
  obtain ⟨before, a, after, b', rfl, -, hfail⟩ := exists_split_of_foldlM_eq_error h
  exact ⟨a, List.mem_append_right before List.mem_cons_self, b', hfail⟩

/-- Checks along a list that fail do so at a member. -/
theorem exists_of_forM_eq_error {f : α → Except ε Unit} {l : List α} {e : ε}
    (h : l.forM f = .error e) : ∃ a ∈ l, f a = .error e := by
  obtain ⟨a, ha, hfail, -⟩ :=
    exists_first_of_forM_eq_error (List.pairwise_of_forall fun _ _ => trivial) h
  exact ⟨a, ha, hfail⟩

end GaussianProgram.Result
