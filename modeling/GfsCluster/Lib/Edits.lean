import GfsCluster.Lib.Lists

/-! Edits of a family of sets. A set is a list without repetitions, found under its
key, and an edit adds a member or removes one. `replace` puts new members in the place
of old ones, one after the other, until it runs out of new members. -/

namespace Edits

variable {κ α β : Type*}

inductive Edit (κ α : Type*)
  | add (k : κ) (a : α)
  | remove (k : κ) (a : α)

def Edit.key : Edit κ α → κ
  | add k _ | remove k _ => k

def Edit.isAdd : Edit κ α → Bool
  | add _ _ => true
  | remove _ _ => false

/-- Each new member, followed by the removal of the next old one as long as there are any. -/
def replace (k : κ) : List α → List α → List (Edit κ α)
  | [], _ => []
  | t :: ts, [] => .add k t :: replace k ts []
  | t :: ts, x :: xs => .add k t :: .remove k x :: replace k ts xs

variable {k : κ} {ts xs : List α}

theorem replace_cons (k : κ) (t : α) (ts xs : List α) :
    replace k (t :: ts) xs = .add k t :: match xs with
      | [] => replace k ts []
      | x :: xs => .remove k x :: replace k ts xs := by
  cases xs <;> rfl

theorem key_of_mem_replace {e : Edit κ α} (h : e ∈ replace k ts xs) : e.key = k := by
  induction ts generalizing xs with
  | nil => cases h
  | cons t ts ih =>
    cases xs with
    | nil =>
      rcases List.mem_cons.mp h with rfl | h
      · rfl
      · exact ih h
    | cons x xs =>
      rcases List.mem_cons.mp h with rfl | h
      · rfl
      · rcases List.mem_cons.mp h with rfl | h
        · rfl
        · exact ih h

theorem mem_of_remove_mem_replace {k' : κ} {a : α} (h : .remove k' a ∈ replace k ts xs) :
    a ∈ xs := by
  induction ts generalizing xs with
  | nil => cases h
  | cons t ts ih =>
    cases xs with
    | nil =>
      simp only [replace, List.mem_cons, reduceCtorEq, false_or] at h
      cases ih h
    | cons x xs =>
      simp only [replace, List.mem_cons, reduceCtorEq, Edit.remove.injEq, false_or] at h
      rcases h with ⟨_, rfl⟩ | h
      · exact List.mem_cons_self
      · exact List.mem_cons_of_mem _ (ih h)

theorem countP_isAdd_replace : (replace k ts xs).countP Edit.isAdd = ts.length := by
  induction ts generalizing xs with
  | nil => rfl
  | cons t ts ih =>
    cases xs with
    | nil => rw [replace, List.countP_cons_of_pos rfl, ih, List.length_cons]
    | cons x xs =>
      rw [replace, List.countP_cons_of_pos rfl, List.countP_cons_of_neg (by simp [Edit.isAdd]), ih,
        List.length_cons]

/-! ### What edits do -/

variable [DecidableEq κ] [DecidableEq α]

/-- The members under `k` after one edit. -/
def after (k : κ) (as : List α) : Edit κ α → List α
  | .add k' a => if k' = k ∧ a ∉ as then as ++ [a] else as
  | .remove k' a => if k' = k then as.filter (· ≠ a) else as

def afterAll (k : κ) (as : List α) (es : List (Edit κ α)) : List α := es.foldl (after k) as

theorem after_of_ne {e : Edit κ α} (h : e.key ≠ k) (as : List α) : after k as e = as := by
  cases e with
  | add k' a => exact if_neg fun hk => h hk.1
  | remove k' a => exact if_neg h

theorem afterAll_append (as : List α) (es fs : List (Edit κ α)) :
    afterAll k as (es ++ fs) = afterAll k (afterAll k as es) fs := by
  rw [afterAll, afterAll, afterAll, List.foldl_append]

theorem afterAll_of_ne {es : List (Edit κ α)} (h : ∀ e ∈ es, e.key ≠ k) (as : List α) :
    afterAll k as es = as := by
  induction es with
  | nil => rfl
  | cons e es ih =>
    have he := h e List.mem_cons_self
    rw [afterAll, List.foldl_cons, after_of_ne he]
    exact ih fun e' he' => h e' (List.mem_cons_of_mem _ he')

/-- Only the edits of its own key change a set. -/
theorem afterAll_filter (as : List α) (es : List (Edit κ α)) :
    afterAll k as (es.filter (·.key = k)) = afterAll k as es := by
  induction es generalizing as with
  | nil => rfl
  | cons e es ih =>
    by_cases he : e.key = k
    · rw [List.filter_cons_of_pos (by simpa using he)]
      exact ih _
    · rw [List.filter_cons_of_neg (by simpa using he), ih]
      simp only [afterAll, List.foldl_cons, after_of_ne he]

/-- What is not removed stays. -/
theorem mem_afterAll {as : List α} {es : List (Edit κ α)} {a : α} (ha : a ∈ as)
    (h : .remove k a ∉ es) : a ∈ afterAll k as es := by
  induction es generalizing as with
  | nil => exact ha
  | cons e es ih =>
    rw [List.mem_cons, not_or] at h
    refine ih ?_ h.2
    cases e with
    | add k' b =>
      simp only [after]
      split_ifs
      · exact List.mem_append_left _ ha
      · exact ha
    | remove k' b =>
      simp only [after]
      split_ifs with hk
      · subst hk
        exact List.mem_filter.mpr ⟨ha, by simpa using fun he : a = b => h.1 (by rw [he])⟩
      · exact ha

/-- New members, and as many old ones gone. -/
theorem afterAll_replace {as : List α} (hts : ts.Nodup) (hnew : ∀ t ∈ ts, t ∉ as)
    (hapart : ∀ t ∈ ts, t ∉ xs) :
    afterAll k as (replace k ts xs) = as.filter (· ∉ xs.take ts.length) ++ ts := by
  induction ts generalizing as xs with
  | nil => simp [replace, afterAll]
  | cons t ts ih =>
    rw [List.nodup_cons] at hts
    have ht : t ∉ as := hnew t List.mem_cons_self
    cases xs with
    | nil =>
      have hnew' : ∀ t' ∈ ts, t' ∉ as ++ [t] := by
        intro t' ht'
        rw [List.mem_append, List.mem_singleton, not_or]
        refine ⟨hnew t' (List.mem_cons_of_mem _ ht'), ?_⟩
        rintro rfl
        exact hts.1 ht'
      have hstep : afterAll k as (replace k (t :: ts) []) =
          afterAll k (as ++ [t]) (replace k ts []) := by
        simp only [replace, afterAll, List.foldl_cons, after]
        simp [ht]
      rw [hstep, ih hts.2 hnew' (by simp)]
      simp
    | cons x xs =>
      have htx : t ≠ x := fun he => hapart t List.mem_cons_self (he ▸ List.mem_cons_self)
      have hstep : afterAll k as (replace k (t :: ts) (x :: xs)) =
          afterAll k (as.filter (· ≠ x) ++ [t]) (replace k ts xs) := by
        simp only [replace, afterAll, List.foldl_cons, after]
        simp [ht, htx, List.filter_append]
      have hnew' : ∀ t' ∈ ts, t' ∉ as.filter (· ≠ x) ++ [t] := by
        intro t' ht'
        rw [List.mem_append, List.mem_singleton, not_or]
        refine ⟨fun hm => hnew t' (List.mem_cons_of_mem _ ht') (List.mem_filter.mp hm).1, ?_⟩
        rintro rfl
        exact hts.1 ht'
      have hapart' : ∀ t' ∈ ts, t' ∉ xs := fun t' ht' hx =>
        hapart t' (List.mem_cons_of_mem _ ht') (List.mem_cons_of_mem _ hx)
      have htake : t ∉ xs.take ts.length := fun hm =>
        hapart t List.mem_cons_self (List.mem_cons_of_mem _ (List.mem_of_mem_take hm))
      rw [hstep, ih hts.2 hnew' hapart', List.filter_append, List.filter_filter]
      simp only [List.filter_cons, htake, not_false_eq_true, decide_true, if_true, List.filter_nil,
        List.append_assoc, List.singleton_append, List.length_cons, List.take_succ_cons,
        List.mem_cons, not_or]
      congr 1
      apply List.filter_congr
      intro a _
      simp [Bool.and_comm]

end Edits
