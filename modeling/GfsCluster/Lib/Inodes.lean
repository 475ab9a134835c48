import Mathlib.Algebra.BigOperators.Group.Finset.Basic
import Mathlib.Data.List.AList
import Mathlib.Logic.Function.Basic
import Mathlib.Tactic.Abel

/-! A directory and the inodes its names stand for. An inode keeps its contents when its name
goes, so that whoever has it open reads and writes it still; opening a name for writing empties
the inode that has the name, or makes one. -/

namespace Inodes

/-- No inode has two names. -/
structure Volume (ν β : Type*) [DecidableEq ν] where
  names : AList fun _ : ν => ℕ
  contents : ℕ → List β
  /-- No inode from here on was used yet. -/
  fresh : ℕ
  lt_fresh : ∀ f i, names.lookup f = some i → i < fresh
  inj : ∀ f g i, names.lookup f = some i → names.lookup g = some i → f = g

/-- What a write at an offset leaves; a hole before it is filled with default bytes. -/
def overwrite {β : Type*} [Inhabited β] (xs : List β) (offset : ℕ) (piece : List β) : List β :=
  xs.take offset ++ List.replicate (offset - xs.length) default ++ piece ++
    xs.drop (offset + piece.length)

theorem overwrite_end {β : Type*} [Inhabited β] (xs piece : List β) :
    overwrite xs xs.length piece = xs ++ piece := by
  simp [overwrite]

namespace Volume

variable {ν β : Type*} [DecidableEq ν] (d : Volume ν β) {d' : Volume ν β} {f g src dst : ν} {i : ℕ}

/-- No files. -/
def empty : Volume ν β := ⟨∅, fun _ => [], 0, by simp, by simp⟩

def content (f : ν) : Option (List β) := (d.names.lookup f).map d.contents

/-- The inode of the name, emptied. -/
def truncate (i : ℕ) : Volume ν β := { d with contents := Function.update d.contents i [] }

/-- An empty inode under the name. -/
def link (f : ν) : Volume ν β where
  names := d.names.insert f d.fresh
  contents := Function.update d.contents d.fresh []
  fresh := d.fresh + 1
  lt_fresh g i h := by
    by_cases hg : g = f
    · subst hg
      rw [AList.lookup_insert, Option.some.injEq] at h
      omega
    · rw [AList.lookup_insert_ne hg] at h
      exact Nat.lt_succ_of_lt (d.lt_fresh g i h)
  inj g g' i h h' := by
    by_cases hg : g = f
    · by_cases hg' : g' = f
      · exact hg.trans hg'.symm
      · rw [hg, AList.lookup_insert, Option.some.injEq] at h
        rw [AList.lookup_insert_ne hg'] at h'
        exact absurd (d.lt_fresh g' i h') (by omega)
    · rw [AList.lookup_insert_ne hg] at h
      by_cases hg' : g' = f
      · rw [hg', AList.lookup_insert, Option.some.injEq] at h'
        exact absurd (d.lt_fresh g i h) (by omega)
      · rw [AList.lookup_insert_ne hg'] at h'
        exact d.inj g g' i h h'

/-- `open` for writing, with O_CREAT and O_TRUNC: the inode that is open, and the disk. -/
def creat (f : ν) : ℕ × Volume ν β :=
  match d.names.lookup f with
  | some i => (i, d.truncate i)
  | none => (d.fresh, d.link f)

def writeAt [Inhabited β] (i offset : ℕ) (piece : List β) : Volume ν β :=
  { d with contents := Function.update d.contents i (overwrite (d.contents i) offset piece) }

/-- Give the inode another name. -/
def move (src dst : ν) (i : ℕ) (h : d.names.lookup src = some i) : Volume ν β where
  names := (d.names.erase src).insert dst i
  contents := d.contents
  fresh := d.fresh
  lt_fresh g j hg := by
    by_cases hgd : g = dst
    · subst hgd
      rw [AList.lookup_insert, Option.some.injEq] at hg
      exact hg ▸ d.lt_fresh src i h
    · rw [AList.lookup_insert_ne hgd] at hg
      by_cases hgs : g = src
      · rw [hgs, AList.lookup_erase] at hg
        cases hg
      · rw [AList.lookup_erase_ne hgs] at hg
        exact d.lt_fresh g j hg
  inj g g' j hg hg' := by
    have hother : ∀ f, f ≠ dst → ((d.names.erase src).insert dst i).lookup f = some j →
        j ≠ i ∧ d.names.lookup f = some j := by
      intro f hf hl
      rw [AList.lookup_insert_ne hf] at hl
      have hfs : f ≠ src := by
        rintro rfl
        rw [AList.lookup_erase] at hl
        cases hl
      rw [AList.lookup_erase_ne hfs] at hl
      exact ⟨fun he => hfs (d.inj f src i (he ▸ hl) h), hl⟩
    have hself : ∀ f, f = dst → ((d.names.erase src).insert dst i).lookup f = some j → j = i := by
      rintro f rfl hl
      rw [AList.lookup_insert, Option.some.injEq] at hl
      exact hl.symm
    by_cases hgd : g = dst <;> by_cases hgd' : g' = dst
    · exact hgd.trans hgd'.symm
    · exact absurd (hself g hgd hg) (hother g' hgd' hg').1
    · exact absurd (hself g' hgd' hg') (hother g hgd hg).1
    · exact d.inj g g' j (hother g hgd hg).2 (hother g' hgd' hg').2

/-- `rename`, which fails when there is nothing to rename. -/
def rename (src dst : ν) : Option (Volume ν β) :=
  match h : d.names.lookup src with
  | none => none
  | some i => some (d.move src dst i h)

def unlink (f : ν) : Volume ν β where
  names := d.names.erase f
  contents := d.contents
  fresh := d.fresh
  lt_fresh g i h := by
    by_cases hg : g = f
    · rw [hg, AList.lookup_erase] at h
      cases h
    · rw [AList.lookup_erase_ne hg] at h
      exact d.lt_fresh g i h
  inj g g' i h h' := by
    have hother : ∀ f', (d.names.erase f).lookup f' = some i → d.names.lookup f' = some i := by
      intro f' hl
      have hne : f' ≠ f := by
        rintro rfl
        rw [AList.lookup_erase] at hl
        cases hl
      rwa [AList.lookup_erase_ne hne] at hl
    exact d.inj g g' i (hother g h) (hother g' h')

/-- `remove`, which fails when there is no such name. -/
def remove (f : ν) : Option (Volume ν β) := if f ∈ d.names then some (d.unlink f) else none

/-! ### What the operations leave -/

variable {d}

theorem lookup_creat_self : (d.creat f).2.names.lookup f = some (d.creat f).1 := by
  unfold creat
  split
  · assumption
  · exact AList.lookup_insert _

theorem lookup_creat_ne (h : g ≠ f) : (d.creat f).2.names.lookup g = d.names.lookup g := by
  unfold creat
  split
  · rfl
  · exact AList.lookup_insert_ne h

theorem contents_creat_self : (d.creat f).2.contents (d.creat f).1 = [] := by
  unfold creat
  split <;> exact Function.update_self _ _ _

theorem contents_creat_ne (h : i ≠ (d.creat f).1) : (d.creat f).2.contents i = d.contents i := by
  unfold creat at h ⊢
  split at h <;> exact Function.update_of_ne h _ _

/-- The inode opened had the name, or is new. -/
theorem creat_inode : d.names.lookup f = some (d.creat f).1 ∨
    d.names.lookup f = none ∧ (d.creat f).1 = d.fresh := by
  unfold creat
  split
  · exact .inl (by assumption)
  · exact .inr ⟨by assumption, rfl⟩

/-- The inode opened is none of another name's. -/
theorem ne_creat_of_lookup_ne (hi : i < d.fresh) (hne : d.names.lookup f ≠ some i) : i ≠ (d.creat f).1 := by
  rintro rfl
  rcases creat_inode (d := d) (f := f) with hl | ⟨_, hnew⟩
  · exact hne hl
  · omega

theorem fresh_creat : d.fresh ≤ (d.creat f).2.fresh := by
  unfold creat
  split
  · exact le_rfl
  · exact Nat.le_succ _

theorem contents_writeAt_self [Inhabited β] (piece : List β) :
    (d.writeAt i (d.contents i).length piece).contents i = d.contents i ++ piece := by
  show Function.update d.contents i _ i = _
  rw [Function.update_self, overwrite_end]

theorem contents_writeAt_ne [Inhabited β] {j offset : ℕ} {piece : List β} (h : j ≠ i) :
    (d.writeAt i offset piece).contents j = d.contents j :=
  Function.update_of_ne h _ _

theorem rename_eq_some : d.rename src dst = some d' ↔
    ∃ i, ∃ h : d.names.lookup src = some i, d' = d.move src dst i h := by
  unfold rename
  split
  · rename_i hnone
    simp [hnone]
  · rename_i j hj
    constructor
    · intro h
      exact ⟨j, hj, (Option.some.inj h).symm⟩
    · rintro ⟨i, hi, rfl⟩
      obtain rfl : j = i := Option.some.inj (hj.symm.trans hi)
      rfl

theorem rename_eq_none : d.rename src dst = none ↔ d.names.lookup src = none := by
  unfold rename
  split <;> simp_all

section Move

variable {h : d.names.lookup src = some i}

theorem lookup_move_dst : (d.move src dst i h).names.lookup dst = some i := AList.lookup_insert _

theorem lookup_move_src (hne : src ≠ dst) : (d.move src dst i h).names.lookup src = none := by
  rw [move, AList.lookup_insert_ne hne]
  exact AList.lookup_erase _ _

theorem lookup_move_ne (hsrc : g ≠ src) (hdst : g ≠ dst) :
    (d.move src dst i h).names.lookup g = d.names.lookup g := by
  rw [move, AList.lookup_insert_ne hdst]
  exact AList.lookup_erase_ne hsrc

end Move

theorem lookup_unlink_self : (d.unlink f).names.lookup f = none := AList.lookup_erase _ _

theorem lookup_unlink_ne (h : g ≠ f) : (d.unlink f).names.lookup g = d.names.lookup g :=
  AList.lookup_erase_ne h

theorem lookup_of_unlink (h : (d.unlink f).names.lookup g = some i) : d.names.lookup g = some i := by
  by_cases hg : g = f
  · rw [hg, lookup_unlink_self] at h
    cases h
  · rwa [lookup_unlink_ne hg] at h

theorem remove_eq_some : d.remove f = some d' ↔ f ∈ d.names ∧ d' = d.unlink f := by
  unfold remove
  split_ifs with h
  · simp [h, eq_comm]
  · simp [h]

theorem remove_eq_none : d.remove f = none ↔ f ∉ d.names := by
  unfold remove
  split_ifs with h <;> simp [h]

/-! ### Files by name -/

theorem content_eq_none : d.content f = none ↔ f ∉ d.names := by
  rw [content, Option.map_eq_none_iff, AList.lookup_eq_none]

theorem content_creat_ne (h : g ≠ f) : (d.creat f).2.content g = d.content g := by
  rw [content, content, lookup_creat_ne h]
  refine Option.map_congr fun i hi => contents_creat_ne ?_
  rintro rfl
  exact h ((d.creat f).2.inj g f _ ((lookup_creat_ne h).trans hi) lookup_creat_self)

theorem content_writeAt_ne [Inhabited β] {offset : ℕ} {piece : List β}
    (hi : d.names.lookup f = some i) (h : g ≠ f) : (d.writeAt i offset piece).content g = d.content g := by
  refine Option.map_congr fun j hj => contents_writeAt_ne ?_
  rintro rfl
  exact h (d.inj g f _ hj hi)

theorem content_move_dst {h : d.names.lookup src = some i} :
    (d.move src dst i h).content dst = some (d.contents i) := by
  rw [content, lookup_move_dst]
  rfl

theorem content_move_ne {h : d.names.lookup src = some i} (hsrc : g ≠ src) (hdst : g ≠ dst) :
    (d.move src dst i h).content g = d.content g := by
  rw [content, content, lookup_move_ne hsrc hdst]
  rfl

theorem content_unlink_self : (d.unlink f).content f = none := by
  rw [content, lookup_unlink_self]
  rfl

theorem content_unlink_ne (h : g ≠ f) : (d.unlink f).content g = d.content g := by
  rw [content, content, lookup_unlink_ne h]
  rfl

/-! ### Totals over the files -/

section Totals

variable {M : Type*} [AddCommGroup M] (w : ν → List β → M)

def weight (d : Volume ν β) (f : ν) : M := (d.content f).elim 0 (w f)

def total (d : Volume ν β) : M := (d.names.keys.map (d.weight w)).sum

/-- Names without a file do not weigh anything. -/
theorem total_eq_sum {S : Finset ν} (hS : ∀ f ∈ d.names, f ∈ S) :
    d.total w = ∑ f ∈ S, d.weight w f := by
  rw [total, ← List.sum_toFinset _ d.names.keys_nodup]
  refine Finset.sum_subset (fun f hf => hS f (List.mem_toFinset.mp hf)) fun f _ hf => ?_
  have hnone : d.content f = none := content_eq_none.mpr fun hin => hf (List.mem_toFinset.mpr hin)
  rw [weight, hnone]
  rfl

/-- The total follows the one file that changes its weight. -/
theorem total_eq_add (h : ∀ g, g ≠ f → d'.weight w g = d.weight w g) :
    d'.total w = d.total w - d.weight w f + d'.weight w f := by
  let S := insert f (d.names.keys.toFinset ∪ d'.names.keys.toFinset)
  have hf : f ∈ S := Finset.mem_insert_self _ _
  have hd : d.total w = ∑ g ∈ S, d.weight w g := total_eq_sum w fun g hg => by
    simp [S, AList.mem_keys.mp hg]
  have hd' : d'.total w = ∑ g ∈ S, d'.weight w g := total_eq_sum w fun g hg => by
    simp [S, AList.mem_keys.mp hg]
  have hrest : ∑ g ∈ S.erase f, d'.weight w g = ∑ g ∈ S.erase f, d.weight w g :=
    Finset.sum_congr rfl fun g hg => h g (Finset.ne_of_mem_erase hg)
  rw [hd, hd', ← Finset.add_sum_erase S _ hf, ← Finset.add_sum_erase S (d.weight w) hf, hrest]
  abel

end Totals

end Volume

end Inodes
