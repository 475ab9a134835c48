import Mathlib.Algebra.BigOperators.Group.List.Basic
import Mathlib.Algebra.GroupWithZero.Nat
import Mathlib.Data.List.Nodup
import Mathlib.Data.Nat.Init

/-! Facts about lists: the entries of a list extended at its end, the members tried until
enough of them succeed, and the removal of duplicates that keeps first occurrences. -/

namespace Lists

theorem getElem?_concat_eq_some {α : Type*} {l : List α} {a b : α} {i : ℕ} :
    (l ++ [a])[i]? = some b ↔ l[i]? = some b ∨ i = l.length ∧ a = b := by
  rw [List.getElem?_append]
  split_ifs with h
  · exact ⟨.inl, fun hb => hb.resolve_right fun he => by omega⟩
  · rw [List.getElem?_eq_none (by omega : l.length ≤ i)]
    constructor
    · intro hb
      have hi : i - l.length = 0 := by
        by_contra hne
        rw [List.getElem?_eq_none (by simp; omega)] at hb
        cases hb
      rw [hi] at hb
      exact .inr ⟨by omega, by simpa using hb⟩
    · rintro (hb | ⟨rfl, rfl⟩)
      · cases hb
      · simp

/-- No piece of a split holds the separator. -/
theorem not_mem_of_mem_splitOn {α : Type*} [BEq α] [LawfulBEq α] {a : α} {xs ys : List α}
    (h : ys ∈ xs.splitOn a) : a ∉ ys := by
  induction xs generalizing ys with
  | nil => simp_all
  | cons x xs ih =>
    rw [List.splitOn_cons_eq_if_modifyHead] at h
    split_ifs at h with hx
    · rcases List.mem_cons.mp h with rfl | h
      · exact List.not_mem_nil
      · exact ih h
    · cases hsplit : xs.splitOn a with
      | nil => exact absurd hsplit (List.splitOn_ne_nil a xs)
      | cons y yss =>
        rw [hsplit, List.modifyHead_cons, List.mem_cons] at h
        rcases h with rfl | h
        · have hy : a ∉ y := ih (by simp [hsplit])
          have hne : a ≠ x := fun he => hx (by simp [he])
          simp [hne, hy]
        · exact ih (by simp [hsplit, h])

/-- A list up to the last `a` in it, and what comes after. -/
theorem exists_last_of_mem {α : Type*} {a : α} {l : List α} (h : a ∈ l) :
    ∃ xs ys, l = xs ++ a :: ys ∧ a ∉ ys := by
  obtain ⟨xs, ys, hl, hnot⟩ := List.eq_append_cons_of_mem (List.mem_reverse.mpr h)
  refine ⟨ys.reverse, xs.reverse, ?_, fun hmem => hnot (List.mem_reverse.mp hmem)⟩
  rw [← List.reverse_reverse l, hl]
  simp

theorem forall_mem_concat {α : Type*} {p : α → Prop} {l : List α} {b : α} (h : ∀ a ∈ l, p a)
    (hb : p b) : ∀ a ∈ l ++ [b], p a :=
  List.forall_mem_append.mpr ⟨h, List.forall_mem_singleton.mpr hb⟩

theorem forall_mem_set {α : Type*} {p : α → Prop} {l : List α} {b : α} {k : ℕ} (h : ∀ a ∈ l, p a)
    (hb : p b) : ∀ a ∈ l.set k b, p a := by
  intro a ha
  rcases List.mem_or_eq_of_mem_set ha with ha | rfl
  · exact h a ha
  · exact hb

/-- What is in a list once it has another entry at one place. -/
theorem getElem?_of_mem_set {α : Type*} {l : List α} {a b : α} {k : ℕ} (h : a ∈ l.set k b) :
    b = a ∨ ∃ j, k ≠ j ∧ l[j]? = some a := by
  obtain ⟨j, hj⟩ := List.getElem?_of_mem h
  rw [List.getElem?_set] at hj
  split_ifs at hj with hkj
  · exact .inl (Option.some.inj hj)
  · exact .inr ⟨j, hkj, hj⟩

/-- A list around one of its places. -/
theorem exists_split {α : Type*} {l : List α} {a : α} {i : ℕ} (h : l[i]? = some a) :
    ∃ l₁ l₂, l = l₁ ++ a :: l₂ ∧ l.eraseIdx i = l₁ ++ l₂ ∧ ∀ b, l.set i b = l₁ ++ b :: l₂ := by
  obtain ⟨hlt, rfl⟩ := List.getElem?_eq_some_iff.mp h
  refine ⟨l.take i, l.drop (i + 1), ?_, List.eraseIdx_eq_take_drop_succ .., fun b => ?_⟩
  · rw [List.getElem_cons_drop, List.take_append_drop]
  · rw [List.set_eq_take_append_cons_drop, if_pos hlt]

theorem sum_map_set {α M : Type*} [AddCommGroup M] {l : List α} {a b : α} {k : ℕ} (f : α → M)
    (hk : l[k]? = some a) : ((l.set k b).map f).sum = (l.map f).sum - f a + f b := by
  obtain ⟨hlt, rfl⟩ := List.getElem?_eq_some_iff.mp hk
  rw [List.map_set, List.sum_set', dif_pos (by simpa using hlt), List.getElem_map, sub_eq_add_neg,
    add_assoc]

theorem sum_map_set_lt {α : Type*} {l : List α} {a b : α} {k : ℕ} (f : α → ℕ) (hk : l[k]? = some a)
    (h : f b < f a) : ((l.set k b).map f).sum < (l.map f).sum := by
  induction l generalizing k with
  | nil => cases hk
  | cons x xs ih =>
    cases k with
    | zero =>
      cases hk
      rw [List.set_cons_zero, List.map_cons, List.map_cons, List.sum_cons, List.sum_cons]
      exact Nat.add_lt_add_right h _
    | succ k =>
      rw [List.set_cons_succ, List.map_cons, List.map_cons, List.sum_cons, List.sum_cons]
      exact Nat.add_lt_add_left (ih hk) _

/-- What comes next in a list, appended to what comes before it. -/
theorem append_take_prefix {α : Type*} {l m : List α} (h : l <+: m) (n : ℕ) :
    l ++ (m.drop l.length).take n <+: m := by
  obtain ⟨more, rfl⟩ := h
  rw [List.drop_left, List.prefix_append_right_inj]
  exact List.take_prefix n more

/-- At most one position of the list has the property. -/
def AtMostOne {α : Type*} (p : α → Prop) (l : List α) : Prop :=
  ∀ (j k : ℕ) (a b : α), l[j]? = some a → l[k]? = some b → p a → p b → j = k

namespace AtMostOne

variable {α : Type*} {p : α → Prop} {l : List α} {a b g : α} {k : ℕ}

/-- Another element in the place of `a`. -/
theorem set (h : AtMostOne p l) (hk : l[k]? = some a) (hb : p b → p a) : AtMostOne p (l.set k b) := by
  have hold : ∀ (j : ℕ) (g : α), (l.set k b)[j]? = some g → p g → ∃ g', l[j]? = some g' ∧ p g' := by
    intro j g hj hg
    rw [List.getElem?_set] at hj
    split_ifs at hj with hjk
    · cases hj
      exact ⟨a, hjk ▸ hk, hb hg⟩
    · exact ⟨g, hj, hg⟩
  intro j m g g' hj hm hg hg'
  obtain ⟨f, hf, hpf⟩ := hold j g hj hg
  obtain ⟨f', hf', hpf'⟩ := hold m g' hm hg'
  exact h j m f f' hf hf' hpf hpf'

theorem set_of_not (h : AtMostOne p l) (hb : ¬ p b) : AtMostOne p (l.set k b) := by
  cases hk : l[k]? with
  | none =>
    rw [List.set_eq_of_length_le (List.getElem?_eq_none_iff.mp hk)]
    exact h
  | some a => exact h.set hk fun hpb => absurd hpb hb

/-- Nobody had the property before. -/
theorem set_of_forall (hnone : ∀ a ∈ l, ¬ p a) : AtMostOne p (l.set k b) := by
  have honly : ∀ (j : ℕ) (g : α), (l.set k b)[j]? = some g → p g → j = k := by
    intro j g hj hg
    rw [List.getElem?_set] at hj
    split_ifs at hj with hjk
    · exact hjk.symm
    · exact absurd hg (hnone g (List.mem_of_getElem? hj))
  exact fun j m g g' hj hm hg hg' => (honly j g hj hg).trans (honly m g' hm hg').symm

/-- Whoever has the property once another element is in the place of the one that had it. -/
theorem eq_of_mem_set (h : AtMostOne p l) (hk : l[k]? = some a) (ha : p a) (hg : g ∈ l.set k b)
    (hpg : p g) : b = g := by
  rcases getElem?_of_mem_set hg with hb | ⟨j, hkj, hj⟩
  · exact hb
  · exact absurd (h k j a g hk hj ha hpg) hkj

theorem concat (h : AtMostOne p l) (hb : ¬ p b) : AtMostOne p (l ++ [b]) := by
  have hold : ∀ (j : ℕ) (g : α), (l ++ [b])[j]? = some g → p g → l[j]? = some g := by
    intro j g hj hg
    rcases getElem?_concat_eq_some.mp hj with hj | ⟨_, rfl⟩
    · exact hj
    · exact absurd hg hb
  exact fun j m g g' hj hm hg hg' => h j m g g' (hold j g hj hg) (hold m g' hm hg') hg hg'

end AtMostOne

/-- An entry survives the replacement of another one. -/
theorem eq_or_mem_set {α : Type*} {l : List α} {a b : α} {j : ℕ} (v : α) (ha : a ∈ l)
    (hj : l[j]? = some b) : a = b ∨ a ∈ l.set j v := by
  obtain ⟨i, hi⟩ := List.getElem?_of_mem ha
  by_cases hij : j = i
  · subst hij
    exact .inl (Option.some.inj (hi.symm.trans hj))
  · exact .inr (List.mem_of_getElem? ((List.getElem?_set_ne hij).trans hi))

/-- What is in a list is the entry taken out or stays. -/
theorem mem_iff_eraseIdx {α : Type*} {l : List α} {a b : α} {i : ℕ} (hi : l[i]? = some b) :
    a ∈ l ↔ a = b ∨ a ∈ l.eraseIdx i := by
  rw [List.mem_eraseIdx_iff_getElem?, List.mem_iff_getElem?]
  constructor
  · rintro ⟨j, hj⟩
    by_cases hij : j = i
    · subst hij
      exact .inl (Option.some.inj (hj.symm.trans hi))
    · exact .inr ⟨j, hij, hj⟩
  · rintro (rfl | ⟨j, _, hj⟩)
    · exact ⟨i, hi⟩
    · exact ⟨j, hj⟩

theorem length_filter_eraseIdx {α : Type*} {q : α → Bool} {l : List α} {b : α} {i : ℕ}
    (hi : l[i]? = some b) (hb : q b = true) :
    ((l.eraseIdx i).filter q).length < (l.filter q).length := by
  obtain ⟨hlt, rfl⟩ := List.getElem?_eq_some_iff.mp hi
  have hsplit : l = l.take i ++ l[i] :: l.drop (i + 1) := by simp
  have hlen := congrArg (fun l => (l.filter q).length) hsplit
  simp only [List.filter_append, List.filter_cons_of_pos hb, List.length_append,
    List.length_cons] at hlen
  rw [List.eraseIdx_eq_take_drop_succ, List.filter_append, List.length_append]
  omega

/-- The members of `l` that have `q` in front, in their order in `l'`. -/
def front {α : Type*} (q : α → Bool) (l' l : List α) : List α :=
  l'.filter q ++ l.filter fun a => !q a

theorem front_perm {α : Type*} {q : α → Bool} {l' l : List α} (h : (l'.filter q).Perm (l.filter q)) :
    (front q l' l).Perm l :=
  (h.append_right _).trans (List.filter_append_perm q l)

theorem filter_front {α : Type*} (q : α → Bool) (l' l : List α) :
    (front q l' l).filter q = l'.filter q := by
  rw [front, List.filter_append, List.filter_filter, List.filter_filter]
  simp

theorem mapM_ok {α β ε : Type*} {f : α → Except ε β} {g : α → β} {l : List α}
    (h : ∀ a ∈ l, f a = .ok (g a)) : l.mapM f = .ok (l.map g) := by
  induction l with
  | nil => rfl
  | cons a l ih =>
    rw [List.mapM_cons, h a (by simp), ih fun b hb => h b (by simp [hb])]
    rfl

theorem flatMap_sublist {α : Type*} {g : α → List α} {l : List α} (h : ∀ a ∈ l, (g a).Sublist [a]) :
    (l.flatMap g).Sublist l := by
  induction l with
  | nil => simp
  | cons a l ih =>
    rw [List.flatMap_cons]
    exact (h a (by simp)).append (ih fun b hb => h b (by simp [hb]))

/-- Of blocks with different keys, the members tagged with the key of one block are that block. -/
theorem filter_flatMap_key {β γ κ : Type*} [DecidableEq κ] {bs : List β} {key : β → κ}
    {g : β → List γ} {tag : γ → κ} (hkey : (bs.map key).Nodup) (hg : ∀ b, ∀ e ∈ g b, tag e = key b)
    {b : β} (hb : b ∈ bs) : (bs.flatMap g).filter (tag · = key b) = g b := by
  have hself : ∀ b, (g b).filter (tag · = key b) = g b := fun b =>
    List.filter_eq_self.mpr fun e he => decide_eq_true (hg b e he)
  have hother : ∀ b b', key b' ≠ key b → (g b').filter (tag · = key b) = [] := fun b b' hne =>
    List.filter_eq_nil_iff.mpr fun e he => by simpa [hg b' e he] using hne
  induction bs with
  | nil => cases hb
  | cons b' bs ih =>
    rw [List.map_cons, List.nodup_cons] at hkey
    rw [List.flatMap_cons, List.filter_append]
    rcases List.mem_cons.mp hb with rfl | hb'
    · have hrest : (bs.flatMap g).filter (tag · = key b) = [] := by
        rw [List.filter_flatMap, List.flatMap_eq_nil_iff]
        intro b' hb'
        exact hother b b' fun he => hkey.1 (he ▸ List.mem_map_of_mem hb')
      rw [hself, hrest, List.append_nil]
    · rw [hother b b' fun he => hkey.1 (he ▸ List.mem_map_of_mem hb'), ih hkey.2 hb', List.nil_append]

/-- Only what fails `p` is taken out, and only what passes it is put in. -/
theorem filter_replaced {α : Type*} [BEq α] [LawfulBEq α] {p : α → Bool} {as old new : List α}
    (hold : ∀ a ∈ old, p a = false) (hnew : ∀ a ∈ new, p a = true) :
    (as.filter (· ∉ old) ++ new).filter p = as.filter p ++ new := by
  rw [List.filter_append, List.filter_filter, List.filter_eq_self.mpr hnew]
  congr 1
  refine List.filter_congr fun a _ => ?_
  by_cases ha : a ∈ old
  · simp [ha, hold a ha]
  · simp [ha]

/-- Taking out some of the members of a set. -/
theorem length_filter_not_mem {α : Type*} [BEq α] [LawfulBEq α] {l xs : List α} (hl : l.Nodup)
    (hxs : xs.Nodup) (hsub : ∀ x ∈ xs, x ∈ l) : (l.filter (· ∉ xs)).length + xs.length = l.length := by
  have hperm : (l.filter (· ∈ xs)).Perm xs := by
    refine (List.perm_ext_iff_of_nodup (hl.filter _) hxs).mpr fun x => ?_
    simp only [List.mem_filter, decide_eq_true_eq]
    exact ⟨And.right, fun hx => ⟨hsub x hx, hx⟩⟩
  have hsplit := List.length_eq_length_filter_add (l := l) (· ∈ xs)
  rw [hperm.length_eq] at hsplit
  simp only [← decide_not] at hsplit
  omega

/-- Removing the one occurrence of `x`. -/
theorem filter_ne_perm {α : Type*} [DecidableEq α] {l as bs : List α} {x : α} (hl : l.Nodup)
    (h : l.Perm (as ++ x :: bs)) : (l.filter (· ≠ x)).Perm (as ++ bs) := by
  have hnd := h.nodup_iff.mp hl
  rw [List.nodup_middle, List.nodup_cons, List.mem_append, not_or] at hnd
  have hkeep : ∀ {l : List α}, x ∉ l → l.filter (· ≠ x) = l := by
    intro l hx
    refine List.filter_eq_self.mpr fun a ha => ?_
    rw [decide_eq_true_eq]
    rintro rfl
    exact hx ha
  have hf := h.filter (· ≠ x)
  rwa [List.filter_append, List.filter_cons_of_neg (by simp), hkeep hnd.1.1, hkeep hnd.1.2] at hf

/-- The first member that is not among the first `i` is the one after them. -/
theorem find?_not_mem_take {α : Type*} [DecidableEq α] {l : List α} (h : l.Nodup) (i : ℕ) :
    l.find? (· ∉ l.take i) = l[i]? := by
  have hsplit := List.take_append_drop i l
  have hnone : (l.take i).find? (· ∉ l.take i) = none := by
    rw [List.find?_eq_none]
    intro a ha
    simpa using ha
  have hdisjoint : ∀ a ∈ l.drop i, a ∉ l.take i := by
    rw [← hsplit, List.nodup_append] at h
    exact fun a hd ht => h.2.2 a ht a hd rfl
  calc l.find? (· ∉ l.take i) = (l.take i ++ l.drop i).find? (· ∉ l.take i) := by rw [hsplit]
    _ = (l.drop i).find? (· ∉ l.take i) := by rw [List.find?_append, hnone, Option.none_or]
    _ = (l.drop i).head? := by
        cases hdrop : l.drop i with
        | nil => rfl
        | cons a as =>
          have ha := hdisjoint a (by rw [hdrop]; exact List.mem_cons_self)
          rw [List.find?_cons_of_pos (by simpa using ha), List.head?_cons]
    _ = l[i]? := List.head?_drop

/-- With distinct keys, one member has a given key. -/
theorem filter_key {α κ : Type*} [DecidableEq κ] {f : α → κ} {l : List α} {a : α}
    (h : (l.map f).Nodup) (ha : a ∈ l) : l.filter (f · = f a) = [a] := by
  induction l with
  | nil => cases ha
  | cons b l ih =>
    rw [List.map_cons, List.nodup_cons] at h
    rcases List.mem_cons.mp ha with rfl | ha
    · rw [List.filter_cons_of_pos (by simp), List.filter_eq_nil_iff.mpr]
      intro c hc
      rw [decide_eq_true_eq]
      exact fun he => h.1 (he ▸ List.mem_map_of_mem hc)
    · rw [List.filter_cons_of_neg, ih h.2 ha]
      rw [decide_eq_true_eq]
      exact fun he => h.1 (he ▸ List.mem_map_of_mem ha)

/-- What a key is mapped to by a table made from the keys. -/
theorem lookup_map_pair {κ β : Type*} [DecidableEq κ] {f : κ → β} {l : List κ} {k : κ} :
    (l.map fun k => (k, f k)).lookup k = if k ∈ l then some (f k) else none := by
  induction l with
  | nil => rfl
  | cons j l ih =>
    rw [List.map_cons, List.lookup_cons]
    by_cases hkj : k = j
    · subst hkj
      simp
    · simp only [beq_false_of_ne hkj, ih, List.mem_cons, hkj, false_or]

/-- Members counted by the number that each has. -/
theorem length_filter_exists {α : Type*} {f : α → ℕ} {l : List α} {n : ℕ} {p : α → Bool}
    (h : (l.map f).Perm (List.range n)) :
    ((List.range n).filter fun i => ∃ a ∈ l, f a = i ∧ p a).length = (l.filter p).length := by
  have hnd : (l.map f).Nodup := h.nodup_iff.mpr List.nodup_range
  have hperm : ((List.range n).filter fun i => ∃ a ∈ l, f a = i ∧ p a).Perm ((l.filter p).map f) := by
    refine (List.perm_ext_iff_of_nodup (List.nodup_range.filter _)
      (hnd.sublist (List.filter_sublist.map f))).mpr fun i => ?_
    simp only [List.mem_filter, decide_eq_true_eq, List.mem_map]
    constructor
    · rintro ⟨_, a, ha, rfl, hp⟩
      exact ⟨a, ⟨ha, hp⟩, rfl⟩
    · rintro ⟨a, ⟨ha, hp⟩, rfl⟩
      exact ⟨h.mem_iff.mp (List.mem_map_of_mem ha), a, ha, rfl, hp⟩
  rw [hperm.length_eq, List.length_map]

/-! ### Trying one after the other -/

section Tried

variable {α : Type*} (ok : α → Bool)

/-- The members that are tried, in order, until `q` of them have succeeded. -/
def tried : ℕ → List α → List α
  | 0, _ => []
  | _ + 1, [] => []
  | q + 1, a :: as => a :: tried (if ok a then q else q + 1) as

@[simp] theorem tried_zero (as : List α) : tried ok 0 as = [] := by cases as <;> rfl

@[simp] theorem tried_nil (q : ℕ) : tried ok q [] = [] := by cases q <;> rfl

theorem tried_prefix (q : ℕ) (as : List α) : tried ok q as <+: as := by
  induction as generalizing q with
  | nil => simp
  | cons a as ih =>
    cases q with
    | zero => simp
    | succ q => simpa [tried] using ih _

theorem filter_tried (q : ℕ) (as : List α) : (tried ok q as).filter ok = (as.filter ok).take q := by
  induction as generalizing q with
  | nil => simp
  | cons a as ih =>
    cases q with
    | zero => simp
    | succ q =>
      by_cases ha : ok a = true
      · simp [tried, ha, ih]
      · rw [tried, if_neg ha, List.filter_cons_of_neg ha, List.filter_cons_of_neg ha, ih]

end Tried

variable {α : Type*} [BEq α] [LawfulBEq α]

theorem eraseDups_of_nodup {l : List α} (h : l.Nodup) : l.eraseDups = l := by
  induction l with
  | nil => simp
  | cons a as ih =>
    rw [List.nodup_cons] at h
    rw [List.eraseDups_cons, List.filter_eq_self.mpr, ih h.2]
    intro b hb
    simp only [Bool.not_eq_true', beq_eq_false_iff_ne]
    exact fun he => h.1 (he ▸ hb)

end Lists
