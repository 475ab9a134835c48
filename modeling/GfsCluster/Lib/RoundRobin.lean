import Mathlib.Data.List.Rotate
import Mathlib.Data.Nat.Periodic
import Mathlib.Order.Interval.Finset.Nat

/-! Round-robin turns. A cursor goes on by one from turn to turn, and a turn takes the next `R`
members of a cycle from the cursor on. In as many turns as there are members every member is
taken `R` times, wherever the cursor starts. A number of turns that is no multiple of it leaves
part of a cycle, in which two members differ by no more than `R` and by no more than the number
of members left out of a turn. -/

namespace RoundRobin

/-! ### Counting over periods -/

section Periodic

variable {p : ℕ → Prop} [DecidablePred p] {n : ℕ}

/-- Whole periods, and what is left of one. -/
theorem count_of_periodic (hp : Function.Periodic p n) (m : ℕ) :
    Nat.count p m = Nat.count p n * (m / n) + Nat.count p (m % n) := by
  have hshift : ∀ q r, p (n * q + r) ↔ p r := by
    intro q r
    rw [add_comm, mul_comm]
    exact iff_of_eq (hp.nat_mul q r)
  have hperiods : ∀ q, Nat.count p (n * q) = Nat.count p n * q := by
    intro q
    induction q with
    | zero => rw [mul_zero, mul_zero, Nat.count_zero]
    | succ q ih =>
      rw [Nat.mul_succ, Nat.count_add, ih, Nat.mul_succ]
      simp only [hshift]
  rw [← hperiods, ← Nat.div_add_mod m n, Nat.count_add]
  simp only [hshift, Nat.div_add_mod]

/-- Part of a period has no more hits than there are in the period, and no more misses. -/
theorem count_part {m : ℕ} (hm : m ≤ n) : Nat.count p n + m - n ≤ Nat.count p m ∧
    Nat.count p m ≤ min m (Nat.count p n) := by
  have hsplit := Nat.count_add p m (n - m)
  have hrest := Nat.count_le (p := fun j => p (m + j)) (n := n - m)
  have hpart := Nat.count_le (p := p) (n := m)
  rw [Nat.add_sub_cancel' hm] at hsplit
  omega

end Periodic

/-! ### Turns -/

section Turns

variable {α : Type*} {l : List α} {R c j m : ℕ} {x : α}

/-- The next `R` members, with the cursor at `c`. -/
def turn (l : List α) (R c : ℕ) : List α := (l.rotate c).take R

/-- The next `m` turns, with the cursor at `c` before the first one. -/
def turns (l : List α) (R c m : ℕ) : List (List α) := (List.range m).map fun j => turn l R (c + j)

theorem turns_succ : turns l R c (m + 1) = turns l R c m ++ [turn l R (c + m)] := by
  rw [turns, List.range_succ, List.map_append, List.map_singleton]
  rfl

theorem length_turns : (turns l R c m).length = m := by rw [turns, List.length_map, List.length_range]

theorem length_turn (l : List α) (R c : ℕ) : (turn l R c).length = min R l.length := by
  rw [turn, List.length_take, List.length_rotate]

/-- A turn of as many members as there are takes them all. -/
theorem turn_perm (hR : l.length ≤ R) : (turn l R c).Perm l := by
  rw [turn, List.take_of_length_le (by rw [List.length_rotate]; exact hR)]
  exact List.rotate_perm l c

theorem turn_nodup (hl : l.Nodup) : (turn l R c).Nodup :=
  (List.nodup_rotate.mpr hl).sublist (List.take_sublist _ _)

theorem mem_of_mem_turn (h : x ∈ turn l R c) : x ∈ l := List.mem_rotate.mp (List.mem_of_mem_take h)

theorem turn_rotate : turn (l.rotate c) R j = turn l R (c + j) := by
  rw [turn, List.rotate_rotate]
  rfl

/-- The cursor counts modulo the number of members. -/
theorem periodic_turn (l : List α) (R : ℕ) (x : α) : Function.Periodic (x ∈ turn l R ·) l.length := by
  intro c
  show (x ∈ turn l R (c + l.length)) = (x ∈ turn l R c)
  rw [turn, turn, ← List.rotate_mod, Nat.add_mod_right, List.rotate_mod]

/-- A turn takes the member at `i` if the cursor is less than `R` places before it. -/
theorem getElem_mem_turn (hl : l.Nodup) (hR : R ≤ l.length) {i : ℕ} (hi : i < l.length) :
    l[i] ∈ turn l R c ↔ ∃ t < R, (t + c) % l.length = i := by
  rw [turn, List.mem_take_iff_getElem]
  constructor
  · rintro ⟨t, ht, heq⟩
    rw [List.getElem_rotate] at heq
    refine ⟨t, by omega, ?_⟩
    exact (hl.getElem_inj_iff).mp heq
  · rintro ⟨t, ht, heq⟩
    refine ⟨t, by rw [List.length_rotate]; omega, ?_⟩
    rw [List.getElem_rotate]
    simp only [heq]

/-- In a cycle of turns every member is taken `R` times. -/
theorem count_turn [DecidableEq α] (hl : l.Nodup) (hR : R ≤ l.length) (hx : x ∈ l) :
    Nat.count (x ∈ turn l R ·) l.length = R := by
  obtain ⟨i, hi, rfl⟩ := List.mem_iff_getElem.mp hx
  set n := l.length with hn
  -- from behind `l[i]` on, the turns that take it are the last `R`
  rw [← Nat.filter_Ico_card_eq_of_periodic (i + 1) n _ (periodic_turn l R l[i])]
  have hlast : (Finset.Ico (i + 1) (i + 1 + n)).filter (l[i] ∈ turn l R ·) =
      Finset.Ico (i + 1 + n - R) (i + 1 + n) := by
    ext c
    rw [Finset.mem_filter, Finset.mem_Ico, Finset.mem_Ico, getElem_mem_turn hl hR hi]
    constructor
    · rintro ⟨⟨hlow, hhigh⟩, t, ht, heq⟩
      have hround := Nat.div_add_mod (t + c) n
      rw [heq] at hround
      rcases hq : (t + c) / n with _ | _ | q
      · rw [hq, mul_zero] at hround
        omega
      · rw [hq, zero_add, mul_one] at hround
        omega
      · rw [hq, mul_add] at hround
        omega
    · rintro ⟨hlow, hhigh⟩
      refine ⟨⟨by omega, hhigh⟩, i + n - c, by omega, ?_⟩
      rw [show i + n - c + c = i + n by omega, Nat.add_mod_right, Nat.mod_eq_of_lt hi]
  rw [hlast, Nat.card_Ico]
  omega

theorem exists_of_mem_turns {picked : List α} (h : picked ∈ turns l R c m) :
    ∃ j, picked = turn l R (c + j) := by
  obtain ⟨j, _, rfl⟩ := List.mem_map.mp h
  exact ⟨j, rfl⟩

end Turns

/-! ### Loads -/

section Loads

variable {α : Type*} [DecidableEq α] {l : List α} {R c m : ℕ} {x y : α}

/-- How often a member is taken. -/
def load (picks : List (List α)) (x : α) : ℕ := picks.flatten.count x

/-- Every turn takes `R` distinct members, and the loads are as even as whole turns allow. Where
`R` and the turns beyond the last full cycle do not fill a cycle, their difference counts as zero. -/
structure Balanced (R : ℕ) (members : List α) (picks : List (List α)) : Prop where
  distinct : ∀ picked ∈ picks, picked.length = R ∧ picked.Nodup ∧ ∀ x ∈ picked, x ∈ members
  cycles : members.length ∣ picks.length → ∀ x ∈ members,
    load picks x = R * picks.length / members.length
  least : ∀ x ∈ members, R * (picks.length / members.length) +
    (R + picks.length % members.length - members.length) ≤ load picks x
  most : ∀ x ∈ members, load picks x ≤ R * (picks.length / members.length) +
    min (picks.length % members.length) R
  even : ∀ x ∈ members, ∀ y ∈ members, load picks x ≤ load picks y + min R (members.length - R)

theorem load_cons (picked : List α) (picks : List (List α)) :
    load (picked :: picks) x = (picked.filter (· = x)).length + load picks x := by
  rw [load, List.flatten_cons, List.count_append, List.count_eq_length_filter]
  rfl

theorem load_turns (hl : l.Nodup) :
    load (turns l R c m) x = Nat.count (fun j => x ∈ turn l R (c + j)) m := by
  induction m with
  | zero => rfl
  | succ m ih =>
    rw [turns_succ, load, List.flatten_append, List.count_append, Nat.count_succ, ← ih, load,
      List.flatten_singleton, (turn_nodup hl).count]

/-- The load is known up to the turns beyond the last full cycle. -/
theorem load_bounds (hl : l.Nodup) (hR : R ≤ l.length) (hx : x ∈ l) :
    R * (m / l.length) + (R + m % l.length - l.length) ≤ load (turns l R c m) x ∧
      load (turns l R c m) x ≤ R * (m / l.length) + min (m % l.length) R := by
  have hpos : 0 < l.length := List.length_pos_of_mem hx
  -- with the cycle turned to the cursor, the cursor starts at zero
  have hturned : load (turns l R c m) x = Nat.count (x ∈ turn (l.rotate c) R ·) m := by
    rw [load_turns hl]
    simp only [turn_rotate]
  have hperiod := periodic_turn (l.rotate c) R x
  have hcount := count_turn (List.nodup_rotate.mpr hl) (hR.trans_eq (l.length_rotate c).symm)
    (List.mem_rotate.mpr hx)
  rw [List.length_rotate] at hperiod hcount
  have hpart := count_part (p := (x ∈ turn (l.rotate c) R ·)) (Nat.mod_lt m hpos).le
  rw [hturned, count_of_periodic hperiod, hcount]
  rw [hcount] at hpart
  omega

theorem turns_balanced (hl : l.Nodup) (hR : R ≤ l.length) (c m : ℕ) :
    Balanced R l (turns l R c m) where
  distinct picked hpicked := by
    obtain ⟨j, rfl⟩ := exists_of_mem_turns hpicked
    exact ⟨(length_turn _ _ _).trans (Nat.min_eq_left hR), turn_nodup hl, fun x => mem_of_mem_turn⟩
  cycles hdvd x hx := by
    obtain ⟨hleast, hmost⟩ := load_bounds (c := c) (m := m) hl hR hx
    rw [length_turns] at hdvd ⊢
    rw [Nat.mod_eq_zero_of_dvd hdvd] at hleast hmost
    rw [Nat.mul_div_assoc R hdvd]
    omega
  least x hx := by
    rw [length_turns]
    exact (load_bounds hl hR hx).1
  most x hx := by
    rw [length_turns]
    exact (load_bounds hl hR hx).2
  even x hx y hy := by
    have hmod : m % l.length < l.length := Nat.mod_lt m (List.length_pos_of_mem hx)
    have hmost := (load_bounds (c := c) (m := m) hl hR hx).2
    have hleast := (load_bounds (c := c) (m := m) hl hR hy).1
    omega

theorem Balanced.of_perm {members members' : List α} {picks : List (List α)}
    (h : Balanced R members picks) (hp : members.Perm members') : Balanced R members' picks where
  distinct picked hpicked := by
    obtain ⟨hlen, hnodup, hmem⟩ := h.distinct picked hpicked
    exact ⟨hlen, hnodup, fun x hx => hp.mem_iff.mp (hmem x hx)⟩
  cycles hdvd x hx := by
    rw [← hp.length_eq] at hdvd ⊢
    exact h.cycles hdvd x (hp.mem_iff.mpr hx)
  least x hx := hp.length_eq ▸ h.least x (hp.mem_iff.mpr hx)
  most x hx := hp.length_eq ▸ h.most x (hp.mem_iff.mpr hx)
  even x hx y hy := hp.length_eq ▸ h.even x (hp.mem_iff.mpr hx) y (hp.mem_iff.mpr hy)

end Loads

end RoundRobin
