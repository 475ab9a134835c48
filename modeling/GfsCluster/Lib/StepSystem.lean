import Mathlib.Order.Basic

/-! Runs of a partial step function. A system is a function that takes a state and
an action and returns the next state, or nothing where the action is not enabled.
`Steps step ok s t` says that some sequence of actions leads from `s` to `t`, where
every action met the condition `ok` in the state it was taken in. Safety is proved
once per step and carried over runs by `Steps.invariant`. -/

namespace StepSystem

variable {σ τ α : Type*}

/-- Runs from `s` to `t` whose actions all meet `ok` in the state they are taken in. -/
inductive Steps (step : σ → α → Option σ) (ok : σ → α → Prop) (s : σ) : σ → Prop
  | refl : Steps step ok s s
  | tail {t u : σ} {a : α} : Steps step ok s t → ok t a → step t a = some u → Steps step ok s u

/-- The condition that every action meets. -/
def anyStep (_ : σ) (_ : α) : Prop := True

variable {step : σ → α → Option σ} {ok ok' : σ → α → Prop} {s t u : σ}

namespace Steps

theorem single {a : α} (ha : ok s a) (h : step s a = some t) : Steps step ok s t :=
  .tail .refl ha h

theorem trans (h₁ : Steps step ok s t) (h₂ : Steps step ok t u) : Steps step ok s u := by
  induction h₂ with
  | refl => exact h₁
  | tail _ ha h ih => exact .tail ih ha h

theorem mono (h : Steps step ok s t) (himp : ∀ s a, ok s a → ok' s a) : Steps step ok' s t := by
  induction h with
  | refl => exact .refl
  | tail _ ha h ih => exact .tail ih (himp _ _ ha) h

theorem unguarded (h : Steps step ok s t) : Steps step anyStep s t :=
  h.mono fun _ _ _ => trivial

/-- What holds at the start and is kept by every step holds at the end. The step may
use that its source state is itself reached by the run. -/
theorem invariant {P : σ → Prop} (h : Steps step ok s t) (h₀ : P s)
    (hstep : ∀ t a u, Steps step ok s t → P t → ok t a → step t a = some u → P u) : P t := by
  induction h with
  | refl => exact h₀
  | tail hs ha h ih => exact hstep _ _ _ hs ih ha h

/-- A projection that sends every step to a run of the second system sends runs to runs. -/
theorem project {β : Type*} {step' : τ → β → Option τ} {okτ : τ → β → Prop} (f : σ → τ)
    (h : Steps step ok s t)
    (hstep : ∀ t a u, ok t a → step t a = some u → Steps step' okτ (f t) (f u)) :
    Steps step' okτ (f s) (f t) := by
  induction h with
  | refl => exact .refl
  | tail _ ha h ih => exact ih.trans (hstep _ _ _ ha h)

/-- Where the second system can follow every step of the first so that the states stay related, it
can follow a run. -/
theorem simulate {β : Type*} {step' : τ → β → Option τ} {okτ : τ → β → Prop} {R : σ → τ → Prop}
    {x : τ} (h : Steps step ok s t) (h₀ : R s x)
    (hstep : ∀ t a u y, R t y → ok t a → step t a = some u → ∃ z, Steps step' okτ y z ∧ R u z) :
    ∃ y, Steps step' okτ x y ∧ R t y := by
  induction h with
  | refl => exact ⟨x, .refl, h₀⟩
  | tail _ ha h ih =>
    obtain ⟨y, hy, hr⟩ := ih
    obtain ⟨z, hz, hr'⟩ := hstep _ _ _ y hr ha h
    exact ⟨z, hy.trans hz, hr'⟩

/-- A run to where `Q` holds from where it does not crosses over by one of its steps. -/
theorem exists_crossing {Q : σ → Prop} (h : Steps step ok s t) (hs : ¬ Q s) (ht : Q t) :
    ∃ u v a, Steps step ok s u ∧ ¬ Q u ∧ ok u a ∧ step u a = some v ∧ Q v ∧ Steps step ok v t := by
  induction h with
  | refl => exact absurd ht hs
  | @tail t' u a hr ha hstep ih =>
    by_cases hq : Q t'
    · obtain ⟨x, v, b, hx, hnot, hb, hv, hqv, hrest⟩ := ih hq
      exact ⟨x, v, b, hx, hnot, hb, hv, hqv, .tail hrest ha hstep⟩
    · exact ⟨t', u, a, hr, hq, ha, hstep, ht, .refl⟩

/-- From where a step is always possible that keeps `P` and takes a measure down, a run leads to
where the work is done. -/
theorem exists_of_measure {P Q : σ → Prop} (μ : σ → ℕ) (hs : P s)
    (hstep : ∀ t, P t → ¬ Q t → ∃ a u, ok t a ∧ step t a = some u ∧ P u ∧ μ u < μ t) :
    ∃ t, Steps step ok s t ∧ Q t := by
  induction hn : μ s using Nat.strongRecOn generalizing s with
  | ind n ih =>
    by_cases hq : Q s
    · exact ⟨s, .refl, hq⟩
    · obtain ⟨a, u, ha, hu, hpu, hlt⟩ := hstep s hs hq
      obtain ⟨t, ht, hqt⟩ := ih (μ u) (hn ▸ hlt) hpu rfl
      exact ⟨t, (single ha hu).trans ht, hqt⟩

end Steps

/-- Take the listed actions one after the other. -/
def run (step : σ → α → Option σ) : σ → List α → Option σ
  | s, [] => some s
  | s, a :: as => (step s a).bind fun t => run step t as

theorem steps_of_run {as : List α} (h : run step s as = some t) : Steps step anyStep s t := by
  induction as generalizing s with
  | nil =>
    cases h
    exact .refl
  | cons a as ih =>
    simp only [run, Option.bind_eq_some_iff] at h
    obtain ⟨v, hv, h⟩ := h
    exact (Steps.single trivial hv).trans (ih h)

/-- Take a step only where the condition holds. -/
def guarded (step : σ → α → Option σ) (ok : σ → α → Prop) [∀ s a, Decidable (ok s a)]
    (s : σ) (a : α) : Option σ :=
  if ok s a then step s a else none

theorem steps_of_guarded_run [∀ s a, Decidable (ok s a)] {as : List α}
    (h : run (guarded step ok) s as = some t) : Steps step ok s t := by
  induction as generalizing s with
  | nil =>
    simp only [run, Option.some.injEq] at h
    subst h
    exact .refl
  | cons a as ih =>
    simp only [run, Option.bind_eq_some_iff] at h
    obtain ⟨v, hv, h⟩ := h
    rw [guarded] at hv
    split_ifs at hv with ha
    exact (Steps.single ha hv).trans (ih h)

instance (s : σ) (a : α) : Decidable (anyStep s a) := .isTrue trivial

/-- A run whose last state passes a test, as a reachable state with the property tested. -/
theorem exists_of_run [∀ s a, Decidable (ok s a)] {p : σ → Bool} {as : List α}
    (h : (run (guarded step ok) s as).any p = true) : ∃ t, Steps step ok s t ∧ p t = true := by
  cases hr : run (guarded step ok) s as with
  | none => simp [hr] at h
  | some t => exact ⟨t, steps_of_guarded_run hr, by simpa [hr] using h⟩

/-! ### Operations -/

section Operations

variable {ο : Type*} {starts : ο → σ → Prop} {part : ο → σ → α → Prop} {finished : ο → σ → Prop}
  [∀ o s, Decidable (starts o s)] [∀ o s, Decidable (finished o s)] [∀ o s a, Decidable (part o s a)]

variable (step starts part finished) in
/-- Take an operation from its first listed step to its last. -/
def perform (s : σ) (x : ο × List α) : Option σ :=
  if starts x.1 s then
    (run (guarded step (part x.1)) s x.2).bind fun t => if finished x.1 t then some t else none
  else none

/-- What every whole operation keeps holds after any number of them. -/
theorem invariant_of_performed {P : σ → Prop} {xs : List (ο × List α)} (hs : P s)
    (h : run (perform step starts part finished) s xs = some t)
    (hP : ∀ o s t, P s → starts o s → Steps step (part o) s t → finished o t → P t) : P t := by
  induction xs generalizing s with
  | nil =>
    simp only [run, Option.some.injEq] at h
    exact h ▸ hs
  | cons x xs ih =>
    simp only [run, Option.bind_eq_some_iff] at h
    obtain ⟨u, hu, h⟩ := h
    unfold perform at hu
    split_ifs at hu with hstart
    simp only [Option.bind_eq_some_iff] at hu
    obtain ⟨v, hv, hu⟩ := hu
    split_ifs at hu with hfin
    cases hu
    exact ih (hP x.1 s u hs hstart (steps_of_guarded_run hv) hfin) h

end Operations

end StepSystem
