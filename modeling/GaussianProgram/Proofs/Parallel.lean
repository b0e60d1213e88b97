import GaussianProgram.Proofs.Sequence

/-! Two computations side by side. One mirrors the other if both succeed with related values or both
fail, for causes of their own. Steps that mirror each other make sequences that do. -/
namespace GaussianProgram.Result
variable {α α' β γ δ δ' ε ε' : Type} {R : β → γ → Prop}

/-- Both computations succeed, with related values, or both fail. -/
inductive Mirrors (R : β → γ → Prop) : Except ε β → Except ε' γ → Prop
  | ok {b : β} {c : γ} (h : R b c) : Mirrors R (.ok b) (.ok c)
  | error (e : ε) (e' : ε') : Mirrors R (.error e) (.error e')

theorem mirrors_self (r : Except ε β) : Mirrors Eq r r := by
  cases r with
  | error e => exact .error e e
  | ok b => exact .ok rfl

/-- Where one of two computations that mirror each other succeeds the other one does. -/
theorem Mirrors.exists_left {r : Except ε β} {r' : Except ε' γ} (h : Mirrors R r r') {c : γ}
    (hc : r' = .ok c) : ∃ b, r = .ok b ∧ R b c := by
  cases h with
  | ok h =>
    cases hc
    exact ⟨_, rfl, h⟩
  | error _ _ => cases hc

theorem Mirrors.exists_right {r : Except ε β} {r' : Except ε' γ} (h : Mirrors R r r') {b : β}
    (hb : r = .ok b) : ∃ c, r' = .ok c ∧ R b c := by
  cases h with
  | ok h =>
    cases hb
    exact ⟨_, rfl, h⟩
  | error _ _ => cases hb

theorem Mirrors.eq_ok_iff {r : Except ε β} {r' : Except ε' β} (h : Mirrors Eq r r') {b : β} :
    r' = .ok b ↔ r = .ok b := by
  constructor
  · intro hb
    obtain ⟨_, hr, rfl⟩ := h.exists_left hb
    exact hr
  · intro hb
    obtain ⟨_, hr, rfl⟩ := h.exists_right hb
    exact hr

/-- Computations mirror each other if each value of one has a related value of the other. -/
theorem mirrors_of_forall {r : Except ε β} {r' : Except ε' γ}
    (h : ∀ b, r = .ok b → ∃ c, r' = .ok c ∧ R b c) (h' : ∀ c, r' = .ok c → ∃ b, r = .ok b) :
    Mirrors R r r' := by
  rcases r with e | b
  · rcases r' with e' | c
    · exact .error e e'
    · obtain ⟨_, hb⟩ := h' c rfl
      cases hb
  · obtain ⟨c, rfl, hR⟩ := h b rfl
    exact .ok hR

theorem Mirrors.imp {S : β → γ → Prop} {r : Except ε β} {r' : Except ε' γ} (h : Mirrors R r r')
    (hRS : ∀ b c, r = .ok b → R b c → S b c) : Mirrors S r r' := by
  cases h with
  | ok h => exact .ok (hRS _ _ rfl h)
  | error e e' => exact .error e e'

theorem Mirrors.trans {ε'' : Type} {S : γ → δ → Prop} {r : Except ε β} {r' : Except ε' γ}
    {r'' : Except ε'' δ} (h : Mirrors R r r') (h' : Mirrors S r' r'') :
    Mirrors (Relation.Comp R S) r r'' := by
  cases h with
  | ok h =>
    cases h' with
    | ok h' => exact .ok ⟨_, h, h'⟩
  | error e _ =>
    cases h' with
    | error _ e'' => exact .error e e''

theorem Mirrors.bind {S : δ → δ' → Prop} {r : Except ε β} {r' : Except ε' γ}
    {f : β → Except ε δ} {f' : γ → Except ε' δ'} (h : Mirrors R r r')
    (hf : ∀ b c, R b c → Mirrors S (f b) (f' c)) : Mirrors S (r >>= f) (r' >>= f') := by
  cases h with
  | ok h => exact hf _ _ h
  | error e e' => exact .error e e'

theorem Mirrors.ofExcept {r : Except ε β} {r' : Except ε' γ} (h : Mirrors R r r') :
    Mirrors R (ofExcept r) (ofExcept r') := by
  cases h with
  | ok h => exact .ok h
  | error e e' => exact .error _ _

theorem Mirrors.mapCause {r : Result ε β} {r' : Result ε' γ} (h : Mirrors R r r')
    (f : ε → δ) (f' : ε' → δ') : Mirrors R (r.mapCause f) (r'.mapCause f') := by
  cases h with
  | ok h => exact .ok h
  | error e e' => cases e <;> cases e' <;> exact .error _ _

theorem mirrors_inRange {o : Option β} {o' : Option γ} (h : Option.Rel R o o') :
    Mirrors R (inRange o : Result ε β) (inRange o' : Result ε' γ) := by
  cases h with
  | some h => exact .ok h
  | none => exact .error _ _

theorem Mirrors.mapM {f : α → Except ε β} {f' : α' → Except ε' γ} {l : List α} {l' : List α'}
    (h : List.Forall₂ (fun a a' => Mirrors R (f a) (f' a')) l l') :
    Mirrors (List.Forall₂ R) (l.mapM f) (l'.mapM f') := by
  induction h with
  | nil => exact .ok .nil
  | cons h _ ih =>
    rw [List.mapM_cons, List.mapM_cons]
    exact h.bind fun b c hbc => ih.bind fun bs cs hcs => .ok (.cons hbc hcs)

theorem Mirrors.foldlM {f : β → α → Except ε β} {f' : γ → α' → Except ε' γ} {l : List α}
    {l' : List α'} {b : β} {c : γ}
    (h : List.Forall₂ (fun a a' => ∀ b c, R b c → Mirrors R (f b a) (f' c a')) l l') (hb : R b c) :
    Mirrors R (l.foldlM f b) (l'.foldlM f' c) := by
  induction h generalizing b c with
  | nil => exact .ok hb
  | cons h _ ih =>
    rw [List.foldlM_cons, List.foldlM_cons]
    exact (h b c hb).bind fun b c hbc => ih hbc

section Map
variable {φ : α → α'} {l : List α}

theorem mirrors_mapM_map {ψ : β → γ} {f : α → Except ε β} {f' : α' → Except ε' γ}
    (h : ∀ a ∈ l, Mirrors (fun b c => c = ψ b) (f a) (f' (φ a))) :
    Mirrors (fun bs cs => cs = bs.map ψ) (l.mapM f) ((l.map φ).mapM f') := by
  refine (Mirrors.mapM (List.forall₂_map_right_iff.2 (List.forall₂_same.2 h))).imp ?_
  intro bs cs _ hcs
  rw [← List.forall₂_eq_eq_eq, List.forall₂_map_right_iff]
  exact hcs.flip

theorem mirrors_foldlM_map {f : β → α → Except ε β} {f' : γ → α' → Except ε' γ} {b : β} {c : γ}
    (h : ∀ a ∈ l, ∀ b c, R b c → Mirrors R (f b a) (f' c (φ a))) (hb : R b c) :
    Mirrors R (l.foldlM f b) ((l.map φ).foldlM f' c) :=
  Mirrors.foldlM (List.forall₂_map_right_iff.2 (List.forall₂_same.2 h)) hb

end Map

/-- The members of a list succeed in every order in which they do in one. -/
theorem mirrors_mapM_perm {f : α → Except ε β} {l l' : List α} (h : l.Perm l') :
    Mirrors List.Perm (l.mapM f) (l'.mapM f) := by
  have hmove {l l' : List α} (h : l.Perm l') {bs : List β} (hbs : l.mapM f = .ok bs) :
      ∃ cs, l'.mapM f = .ok cs ∧ bs.Perm cs := by
    rw [mapM_eq_ok] at hbs
    obtain ⟨cs, hcs, hperm⟩ := List.perm_comp_forall₂ h.symm hbs
    exact ⟨cs, mapM_eq_ok.2 hcs, hperm.symm⟩
  refine mirrors_of_forall (fun bs hbs => hmove h hbs) fun cs hcs => ?_
  obtain ⟨bs, hbs, -⟩ := hmove h.symm hcs
  exact ⟨bs, hbs⟩

end GaussianProgram.Result
