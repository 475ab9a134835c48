import Mathlib.Data.List.Nodup

/-! Grouping by key. `group entries` is the dictionary that a loop over the entries
builds by appending each value to the list of its key: one list for each key, the keys
in the order of their first entries. -/

namespace Grouping

variable {κ α : Type*} [DecidableEq κ]

def push (k : κ) (a : α) : List (κ × List α) → List (κ × List α)
  | [] => [(k, [a])]
  | g :: gs => if g.1 = k then (g.1, g.2 ++ [a]) :: gs else g :: push k a gs

def group (entries : List (κ × α)) : List (κ × List α) :=
  entries.foldl (fun gs e => push e.1 e.2 gs) []

theorem push_ne_nil (k : κ) (a : α) (gs : List (κ × List α)) : push k a gs ≠ [] := by
  cases gs with
  | nil => simp [push]
  | cons g gs =>
    simp only [push]
    split_ifs <;> simp

theorem keys_push (k : κ) (a : α) (gs : List (κ × List α)) :
    (push k a gs).map Prod.fst =
      if k ∈ gs.map Prod.fst then gs.map Prod.fst else gs.map Prod.fst ++ [k] := by
  induction gs with
  | nil => simp [push]
  | cons g gs ih =>
    simp only [push]
    by_cases hg : g.1 = k
    · simp [hg]
    · have hne : k ≠ g.1 := Ne.symm hg
      simp only [if_neg hg, List.map_cons, ih, List.mem_cons, hne, false_or]
      split_ifs <;> simp

/-- A value of a group after a push was there before or is the new one. -/
theorem mem_push {k : κ} {a : α} {gs : List (κ × List α)} {k' : κ} {b : α} :
    (∃ as, (k', as) ∈ push k a gs ∧ b ∈ as) ↔
      (∃ as, (k', as) ∈ gs ∧ b ∈ as) ∨ k' = k ∧ b = a := by
  induction gs with
  | nil => simp [push]
  | cons g gs ih =>
    obtain ⟨k₀, as₀⟩ := g
    simp only [push]
    by_cases hg : k₀ = k
    · subst hg
      simp only [if_true, List.mem_cons, Prod.mk.injEq]
      constructor
      · rintro ⟨as, ⟨rfl, rfl⟩ | has, hb⟩
        · rcases List.mem_append.mp hb with hb | hb
          · exact .inl ⟨as₀, .inl ⟨rfl, rfl⟩, hb⟩
          · exact .inr ⟨rfl, List.mem_singleton.mp hb⟩
        · exact .inl ⟨as, .inr has, hb⟩
      · rintro (⟨as, ⟨rfl, rfl⟩ | has, hb⟩ | ⟨rfl, rfl⟩)
        · exact ⟨_, .inl ⟨rfl, rfl⟩, List.mem_append_left _ hb⟩
        · exact ⟨as, .inr has, hb⟩
        · exact ⟨_, .inl ⟨rfl, rfl⟩, by simp⟩
    · simp only [if_neg hg, List.mem_cons, Prod.mk.injEq, or_and_right, exists_or, ih, or_assoc]

/-- A push adds one entry. -/
theorem entries_push {β : Type*} (f : κ → α → β) (k : κ) (a : α) (gs : List (κ × List α)) :
    ((push k a gs).flatMap fun g => g.2.map (f g.1)).Perm
      (f k a :: gs.flatMap fun g => g.2.map (f g.1)) := by
  induction gs with
  | nil => simp [push]
  | cons g gs ih =>
    simp only [push]
    split_ifs with hg
    · subst hg
      simp
    · rw [List.flatMap_cons, List.flatMap_cons]
      exact (ih.append_left _).trans List.perm_middle

theorem flatMap_push (k : κ) (a : α) (gs : List (κ × List α)) :
    ((push k a gs).flatMap Prod.snd).Perm (a :: gs.flatMap Prod.snd) := by
  simpa using entries_push (fun _ a => a) k a gs

/-- The groups list the entries, each as often as it came. -/
theorem entries_group (entries : List (κ × α)) :
    ((group entries).flatMap fun g => g.2.map (Prod.mk g.1)).Perm entries := by
  have h : ∀ (entries : List (κ × α)) (gs : List (κ × List α)),
      ((entries.foldl (fun gs e => push e.1 e.2 gs) gs).flatMap fun g => g.2.map (Prod.mk g.1)).Perm
        ((gs.flatMap fun g => g.2.map (Prod.mk g.1)) ++ entries) := by
    intro entries
    induction entries with
    | nil => simp
    | cons e entries ih =>
      intro gs
      refine (ih _).trans (((entries_push Prod.mk e.1 e.2 gs).append_right _).trans ?_)
      exact List.perm_middle.symm
  simpa [group] using h entries []

/-- The groups hold exactly the entries. -/
theorem mem_group {entries : List (κ × α)} {k : κ} {a : α} :
    (∃ as, (k, as) ∈ group entries ∧ a ∈ as) ↔ (k, a) ∈ entries := by
  have h : ∀ (entries : List (κ × α)) (gs : List (κ × List α)),
      (∃ as, (k, as) ∈ entries.foldl (fun gs e => push e.1 e.2 gs) gs ∧ a ∈ as) ↔
        (∃ as, (k, as) ∈ gs ∧ a ∈ as) ∨ (k, a) ∈ entries := by
    intro entries
    induction entries with
    | nil => simp
    | cons e entries ih =>
      intro gs
      obtain ⟨k', a'⟩ := e
      rw [List.foldl_cons, ih, mem_push, List.mem_cons, Prod.mk.injEq, or_assoc]
  rw [group, h]
  simp

theorem group_keys_nodup (entries : List (κ × α)) : ((group entries).map Prod.fst).Nodup := by
  have h : ∀ (entries : List (κ × α)) (gs : List (κ × List α)), (gs.map Prod.fst).Nodup →
      ((entries.foldl (fun gs e => push e.1 e.2 gs) gs).map Prod.fst).Nodup := by
    intro entries
    induction entries with
    | nil => exact fun _ => id
    | cons e entries ih =>
      intro gs hgs
      apply ih
      rw [keys_push]
      split_ifs with hk
      · exact hgs
      · exact hgs.append (by simp) (by simpa using hk)
  exact h entries [] List.nodup_nil

end Grouping
