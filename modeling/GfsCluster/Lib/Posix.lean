import Mathlib.Data.List.Basic

/-! Path names. A path is a string of names between slashes; it is resolved name by name, each in
the directory that the names before it lead to, from the root or from the directory that the
process is in. -/

namespace Posix

/-- The names from the root down. -/
abbrev Location := List (List Char)

/-- The directories of a file system without links, and the one that the process is in. -/
structure FileTree where
  isDir : Location → Bool
  cwd : Location

/-- `os.path.join`. -/
def join (a b : List Char) : List Char :=
  if b.head? = some '/' then b
  else if a = [] ∨ a.getLast? = some '/' then a ++ b
  else a ++ '/' :: b

namespace FileTree

variable (t : FileTree)

def walk : Location → List (List Char) → Option Location
  | loc, [] => some loc
  | loc, name :: names =>
    if t.isDir loc = false then none
    else if name = [] ∨ name = ['.'] then walk loc names
    else if name = ['.', '.'] then walk loc.dropLast names
    else walk (loc ++ [name]) names

def start (p : List Char) : Location := if p.head? = some '/' then [] else t.cwd

/-- What the path stands for. No call takes an empty path or one with a zero character. -/
def resolve (p : List Char) : Option Location :=
  if p = [] ∨ '\x00' ∈ p then none else t.walk (t.start p) (p.splitOn '/')

variable {t} {a b p name : List Char} {loc home : Location}

/-- A name of its own, neither empty nor one of the two that stand for a directory. -/
def Proper (name : List Char) : Prop :=
  '/' ∉ name ∧ name ≠ [] ∧ name ≠ ['.'] ∧ name ≠ ['.', '.']

theorem proper_of_length (h : '/' ∉ name) (hlen : 2 < name.length) : Proper name := by
  refine ⟨h, ?_, ?_, ?_⟩ <;>
    · rintro rfl
      simp at hlen

theorem walk_append (loc : Location) (xs ys : List (List Char)) :
    t.walk loc (xs ++ ys) = (t.walk loc xs).bind fun loc' => t.walk loc' ys := by
  induction xs generalizing loc with
  | nil => rfl
  | cons x xs ih =>
    simp only [List.cons_append, walk]
    split_ifs
    · rfl
    · exact ih loc
    · exact ih loc.dropLast
    · exact ih (loc ++ [x])

theorem walk_proper (h : Proper name) (loc : Location) :
    t.walk loc [name] = if t.isDir loc then some (loc ++ [name]) else none := by
  obtain ⟨_, hempty, hdot, hdots⟩ := h
  cases hdir : t.isDir loc <;> simp [walk, hdir, hempty, hdot, hdots]

/-- A path that ends in a name of its own stands for that name in some directory. -/
theorem walk_splitOn_proper (h : Proper name) (loc : Location) (q : List Char) :
    t.walk loc ((q ++ '/' :: name).splitOn '/') =
      (t.walk loc (q.splitOn '/')).bind fun loc' => if t.isDir loc' then some (loc' ++ [name]) else none := by
  rw [List.splitOn_append_cons_self, List.splitOn_eq_singleton h.1, walk_append]
  exact congrArg _ (funext fun loc' => walk_proper h loc')

/-- The directory that a path leads to up to a slash. -/
def above (t : FileTree) (q : List Char) : Option Location :=
  if '\x00' ∈ q then none
  else (t.walk (t.start (q ++ ['/'])) (q.splitOn '/')).bind fun loc =>
    if t.isDir loc then some loc else none

theorem start_slash (q name : List Char) : t.start (q ++ '/' :: name) = t.start (q ++ ['/']) := by
  cases q <;> rfl

theorem resolve_slash (h : Proper name) (hzero : '\x00' ∉ name) (q : List Char) :
    t.resolve (q ++ '/' :: name) = (t.above q).map fun loc => loc ++ [name] := by
  have hne : q ++ '/' :: name ≠ [] := by simp
  by_cases hq : '\x00' ∈ q
  · simp [resolve, above, hq]
  · have hmem : '\x00' ∉ q ++ '/' :: name := by simp [hq, hzero]
    rw [resolve, if_neg (by simp [hne, hmem]), walk_splitOn_proper h, start_slash, above, if_neg hq,
      Option.map_bind]
    refine congrArg _ (funext fun loc => ?_)
    cases hdir : t.isDir loc <;> simp [hdir]

theorem resolve_of_zero (h : '\x00' ∈ p) : t.resolve p = none := if_pos (.inr h)

/-- A directory leads where it leads with a slash after it. -/
theorem above_of_resolve (h : t.resolve a = some home) (hdir : t.isDir home = true) :
    t.above a = some home := by
  rw [resolve] at h
  split_ifs at h with hbad
  obtain ⟨hne, hzero⟩ := not_or.mp hbad
  have hstart : t.start (a ++ ['/']) = t.start a := by
    cases a with
    | nil => exact absurd rfl hne
    | cons x xs => rfl
  rw [above, if_neg hzero, hstart, h, Option.bind_some, if_pos hdir]

theorem above_of_resolve_slash {q : List Char} (h : t.resolve (q ++ ['/']) = some home) :
    t.above q = some home := by
  rw [resolve] at h
  split_ifs at h with hbad
  have hzero : '\x00' ∉ q := fun hq => hbad (.inr (List.mem_append_left _ hq))
  rw [List.splitOn_append_cons_self, List.splitOn_nil, walk_append] at h
  rw [above, if_neg hzero, ← h]
  refine congrArg _ (funext fun loc => ?_)
  cases hdir : t.isDir loc <;> simp [walk, hdir]

end FileTree

/-! ### Joined paths -/

variable {t : FileTree} {a b s p name : List Char} {home : Location}

theorem mem_join {x : Char} (h : x ∈ b) : x ∈ join a b := by
  unfold join
  split_ifs
  · exact h
  · exact List.mem_append_right _ h
  · exact List.mem_append_right _ (List.mem_cons_of_mem _ h)

theorem join_append (hb : b ≠ []) (s : List Char) : join a (b ++ s) = join a b ++ s := by
  cases b with
  | nil => exact absurd rfl hb
  | cons x xs =>
    unfold join
    split_ifs <;> simp_all

/-- A name joined to a directory is in it. -/
theorem resolve_join (ha : t.resolve a = some home) (hdir : t.isDir home = true)
    (h : FileTree.Proper name) (hzero : '\x00' ∉ name) : t.resolve (join a name) = some (home ++ [name]) := by
  have hname : name.head? ≠ some '/' := fun he => h.1 (List.mem_of_head? he)
  have hne : a ≠ [] := by
    rintro rfl
    cases ha
  unfold join
  rw [if_neg hname]
  split_ifs with hend
  · obtain ⟨q, rfl⟩ := List.getLast?_eq_some_iff.mp (hend.resolve_left hne)
    rw [List.append_assoc, List.singleton_append, FileTree.resolve_slash h hzero,
      FileTree.above_of_resolve_slash ha]
    rfl
  · rw [FileTree.resolve_slash h hzero, FileTree.above_of_resolve ha hdir]
    rfl

/-- What comes before the last slash of a joined path does not depend on the name after it. -/
theorem exists_join_slash (a q : List Char) :
    ∃ q', ∀ name, join a (q ++ '/' :: name) = q' ++ '/' :: name := by
  by_cases hq : q = []
  · subst hq
    exact ⟨[], fun name => rfl⟩
  · exact ⟨join a q, fun name => join_append hq _⟩

end Posix
