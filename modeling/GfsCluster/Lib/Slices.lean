import Mathlib.Data.List.Basic
import Mathlib.Data.Nat.ModEq
import Mathlib.Tactic.Ring

/-! Consecutive slices of a list: `slices n xs` is the list of `xs[i : i + n]` for
`i = 0, n, 2 n, …` below the length of `xs`. -/

namespace Slices

variable {α : Type*}

/-- The slices of length `n` (the last one may be shorter), in order. -/
def slices (n : ℕ) (xs : List α) : List (List α) :=
  (List.range ((xs.length + n - 1) / n)).map fun i => (xs.drop (i * n)).take n

@[simp] theorem slices_nil {n : ℕ} (hn : 0 < n) : slices n ([] : List α) = [] := by
  simp [slices, Nat.div_eq_of_lt (Nat.sub_one_lt_of_lt hn)]

theorem length_slices (n : ℕ) (xs : List α) :
    (slices n xs).length = (xs.length + n - 1) / n := by
  simp [slices]

theorem slices_of_ne_nil {n : ℕ} (hn : 0 < n) {xs : List α} (h : xs ≠ []) :
    slices n xs = xs.take n :: slices n (xs.drop n) := by
  have hpos : 0 < xs.length := List.length_pos_iff.mpr h
  have hcount : (xs.length + n - 1) / n = (xs.length - n + n - 1) / n + 1 := by
    rcases Nat.lt_or_ge xs.length n with hlt | hge
    · have h₁ : (xs.length - n + n - 1) / n = 0 := Nat.div_eq_of_lt (by omega)
      have h₂ : xs.length + n - 1 = (xs.length - 1) + n := by omega
      rw [h₁, h₂, Nat.add_div_right _ hn, Nat.div_eq_of_lt (by omega)]
    · have h₂ : xs.length + n - 1 = (xs.length - n + n - 1) + n := by omega
      rw [h₂, Nat.add_div_right _ hn]
  simp only [slices, hcount, List.length_drop]
  rw [List.range_succ_eq_map, List.map_cons, List.map_map, zero_mul, List.drop_zero]
  congr 1
  apply List.map_congr_left
  intro i _
  simp only [Function.comp_apply, Nat.succ_eq_add_one, List.drop_drop]
  congr 2
  ring

/-- Every item is in exactly one slice, in its place. -/
theorem flatten_slices {n : ℕ} (hn : 0 < n) (xs : List α) : (slices n xs).flatten = xs := by
  induction h : xs.length using Nat.strong_induction_on generalizing xs with
  | h len ih =>
    by_cases hx : xs = []
    · simp [hx, slices_nil hn]
    · have hpos : 0 < xs.length := List.length_pos_iff.mpr hx
      rw [slices_of_ne_nil hn hx, List.flatten_cons,
        ih (xs.drop n).length (by simp [List.length_drop]; omega) _ rfl, List.take_append_drop]

theorem mem_of_mem_slices {n : ℕ} {xs ys : List α} {x : α} (h : ys ∈ slices n xs)
    (hx : x ∈ ys) : x ∈ xs := by
  obtain ⟨i, _, rfl⟩ := List.mem_map.mp h
  exact List.mem_of_mem_drop (List.mem_of_mem_take hx)

theorem length_le_of_mem_slices {n : ℕ} {xs ys : List α} (h : ys ∈ slices n xs) :
    ys.length ≤ n := by
  obtain ⟨i, _, rfl⟩ := List.mem_map.mp h
  exact List.length_take_le _ _

theorem exists_slice_of_mem {n : ℕ} (hn : 0 < n) {xs : List α} {x : α} (hx : x ∈ xs) :
    ∃ ys ∈ slices n xs, x ∈ ys := by
  rw [← flatten_slices hn xs] at hx
  exact List.mem_flatten.mp hx

end Slices
