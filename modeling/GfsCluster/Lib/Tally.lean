import Mathlib.Data.List.AList

/-! Totals over a finite map. Every entry has a weight; the total follows an insertion or
a removal by the weight of the one entry that comes or goes. -/

namespace Tally

variable {κ β : Type*} (w : κ → β → ℕ)

def sum : List (Sigma fun _ : κ => β) → ℕ
  | [] => 0
  | e :: es => w e.1 e.2 + sum es

variable [DecidableEq κ]

def total (m : AList fun _ : κ => β) : ℕ := sum w m.entries

theorem sum_kerase {es : List (Sigma fun _ : κ => β)} {k : κ} {b : β} (h : es.dlookup k = some b) :
    w k b + sum w (es.kerase k) = sum w es := by
  induction es with
  | nil => cases h
  | cons e es ih =>
    by_cases hk : k = e.1
    · subst hk
      rw [List.dlookup_cons_eq, Option.some.injEq] at h
      rw [← h, List.kerase_cons_eq rfl, sum]
    · rw [List.dlookup_cons_ne es e hk] at h
      rw [List.kerase_cons_ne hk, sum, sum, ← ih h]
      omega

variable {m : AList fun _ : κ => β} {k : κ} {b : β}

theorem total_erase (h : m.lookup k = some b) : w k b + total w (m.erase k) = total w m :=
  sum_kerase w h

theorem total_erase_of_none (h : m.lookup k = none) : total w (m.erase k) = total w m := by
  rw [AList.lookup_eq_none, AList.mem_keys] at h
  exact congrArg (sum w) (List.kerase_of_notMem_keys h)

theorem total_insert : total w (m.insert k b) = w k b + total w (m.erase k) := rfl

/-- An entry without weight does not count. -/
theorem total_erase_of_zero (h : ∀ b, w k b = 0) : total w (m.erase k) = total w m := by
  cases hl : m.lookup k with
  | none => exact total_erase_of_none w hl
  | some b =>
    have := total_erase w hl
    rwa [h, Nat.zero_add] at this

end Tally
