import GfsCluster.Lib.Lists
import GfsCluster.Lib.Posix
import GfsCluster.Storage.Writers

/-! The files that requests name. A chunk id goes into a path as it comes. An id with a slash
stands for a file elsewhere, or for that of another id; one without stands for a file of its own
in the data directory. -/

namespace GfsCluster

open Posix

/-- The file system that a server runs in, with its data directory, which the server makes. -/
structure DataRoot extends FileTree where
  dataDir : Str
  home : Location
  resolves : toFileTree.resolve dataDir = some home
  isDir_home : isDir home = true

namespace DataRoot

variable (t : DataRoot)

/-- `_path`. -/
def file (c : ChunkId) : Str := join t.dataDir (path c)

def tmp (c : ChunkId) : Str := t.file c ++ tmpSuffix

end DataRoot

namespace Request

/-- The paths that the handler of a request opens, renames or removes. -/
def paths (t : DataRoot) : Request → List Str
  | .storeChunk c _ | .replicateChunk c (some _) => [t.file c, t.tmp c]
  | .storeChunks items => items.flatMap fun x => [t.file x.1, t.tmp x.1]
  | .replicateChunk _ none => []
  | .deleteChunk c | .getChunk c => [t.file c]
  | .getChunks ids => ids.map t.file

theorem exists_id_of_mem_paths {t : DataRoot} {r : Request} {p : Str} (hp : p ∈ r.paths t) :
    ∃ c ∈ r.ids, p = t.file c ∨ p = t.tmp c := by
  cases r with
  | storeChunk c data => exact ⟨c, List.mem_singleton_self c, by simpa [paths] using hp⟩
  | storeChunks items =>
    obtain ⟨x, hx, hp⟩ := List.mem_flatMap.mp hp
    exact ⟨x.1, List.mem_map_of_mem hx, by simpa using hp⟩
  | replicateChunk c source =>
    cases source with
    | none => cases hp
    | some data => exact ⟨c, List.mem_singleton_self c, by simpa [paths] using hp⟩
  | deleteChunk c | getChunk c =>
    exact ⟨c, List.mem_singleton_self c, .inl (List.mem_singleton.mp hp)⟩
  | getChunks ids =>
    obtain ⟨c, hc, rfl⟩ := List.mem_map.mp hp
    exact ⟨c, hc, .inl rfl⟩

end Request

namespace DataRoot

variable {t : DataRoot} {c c' last q : ChunkId} {loc : Location}

/-- Requests for these ids reach only files that lie in the data directory, different ones for
different ids, and no temp file is the file of a chunk. -/
structure Contained (t : DataRoot) (ids : Set ChunkId) : Prop where
  inside : ∀ r : Request, (∀ c ∈ r.ids, c ∈ ids) → ∀ p ∈ r.paths t, ∀ loc, t.resolve p = some loc →
    ∃ name, loc = t.home ++ [name]
  apart : ∀ c ∈ ids, ∀ c' ∈ ids, ∀ loc, t.resolve (t.file c) = some loc →
    t.resolve (t.file c') = some loc → c = c'
  temps : ∀ c ∈ ids, ∀ c' ∈ ids, ∀ loc, t.resolve (t.tmp c) = some loc →
    t.resolve (t.file c') ≠ some loc

/-- The ids that are names of files. -/
def plain : Set ChunkId := {c | '/' ∉ c}

theorem tmp_eq (t : DataRoot) (c : ChunkId) : t.tmp c = join t.dataDir (temp c) :=
  (join_append (by simp [path, chunkSuffix]) tmpSuffix).symm

theorem proper_path (h : '/' ∉ c) : FileTree.Proper (path c) :=
  FileTree.proper_of_length (by simp [path, chunkSuffix, h]) (by simp [path, chunkSuffix])

theorem proper_temp (h : '/' ∉ c) : FileTree.Proper (temp c) :=
  FileTree.proper_of_length (by simp [temp, path, chunkSuffix, tmpSuffix, h])
    (by simp [temp, path, chunkSuffix, tmpSuffix])

theorem zero_path : '\x00' ∈ path c ↔ '\x00' ∈ c := by
  simp [path, chunkSuffix]

theorem zero_temp : '\x00' ∈ temp c ↔ '\x00' ∈ c := by
  simp [temp, path, chunkSuffix, tmpSuffix]

/-- The file of a plain id is in the data directory, under its own name. -/
theorem resolve_file (h : '/' ∉ c) (hzero : '\x00' ∉ c) :
    t.resolve (t.file c) = some (t.home ++ [path c]) :=
  resolve_join t.resolves t.isDir_home (proper_path h) (mt zero_path.mp hzero)

theorem resolve_tmp (h : '/' ∉ c) (hzero : '\x00' ∉ c) :
    t.resolve (t.tmp c) = some (t.home ++ [temp c]) := by
  rw [tmp_eq]
  exact resolve_join t.resolves t.isDir_home (proper_temp h) (mt zero_temp.mp hzero)

/-- The files of a request with plain ids are those that the server's own directory has under
`path` and `temp`. -/
theorem resolve_paths (t : DataRoot) (r : ChunkRequest) {p : Str} (hp : p ∈ r.request.paths t) :
    ∃ c ∈ r.request.ids, (p = t.file c ∧ t.resolve p = some (t.home ++ [path c])) ∨
      (p = t.tmp c ∧ t.resolve p = some (t.home ++ [temp c])) := by
  obtain ⟨c, hc, hp⟩ := Request.exists_id_of_mem_paths hp
  obtain ⟨hslash, hzero⟩ := r.plain c hc
  rcases hp with rfl | rfl
  · exact ⟨c, hc, .inl ⟨rfl, resolve_file hslash hzero⟩⟩
  · exact ⟨c, hc, .inr ⟨rfl, resolve_tmp hslash hzero⟩⟩

theorem not_zero_of_resolve_file (h : t.resolve (t.file c) = some loc) : '\x00' ∉ c := by
  intro hzero
  rw [file, FileTree.resolve_of_zero (mem_join (zero_path.mpr hzero))] at h
  cases h

theorem not_zero_of_resolve_tmp (h : t.resolve (t.tmp c) = some loc) : '\x00' ∉ c := by
  intro hzero
  rw [tmp_eq, FileTree.resolve_of_zero (mem_join (zero_temp.mpr hzero))] at h
  cases h

/-- The files of an id with a slash lie in the directory that the id leads to. -/
theorem exists_above (t : DataRoot) (q : ChunkId) :
    ∃ dir : Option Location, ∀ last, '/' ∉ last → '\x00' ∉ last →
    t.resolve (t.file (q ++ '/' :: last)) = dir.map (· ++ [path last]) ∧
    t.resolve (t.tmp (q ++ '/' :: last)) = dir.map (· ++ [temp last]) := by
  obtain ⟨q', hq'⟩ := exists_join_slash t.dataDir q
  refine ⟨t.above q', fun last hlast hzero => ⟨?_, ?_⟩⟩
  · have hpath : path (q ++ '/' :: last) = q ++ '/' :: path last := by simp [path]
    rw [file, hpath, hq']
    exact FileTree.resolve_slash (proper_path hlast) (mt zero_path.mp hzero) q'
  · have htemp : temp (q ++ '/' :: last) = q ++ '/' :: temp last := by simp [temp, path]
    rw [tmp_eq, htemp, hq']
    exact FileTree.resolve_slash (proper_temp hlast) (mt zero_temp.mp hzero) q'

/-- Where the file of an id has no place, its temp file has none. -/
theorem resolve_tmp_eq_none (h : t.resolve (t.file c) = none) : t.resolve (t.tmp c) = none := by
  by_cases hzero : '\x00' ∈ c
  · rw [tmp_eq]
    exact FileTree.resolve_of_zero (mem_join (zero_temp.mpr hzero))
  by_cases hslash : '/' ∈ c
  · obtain ⟨q, last, rfl, hlast⟩ := Lists.exists_last_of_mem hslash
    obtain ⟨dir, hdir⟩ := exists_above t q
    have hlast0 : '\x00' ∉ last := fun hm => hzero (by simp [hm])
    obtain ⟨hfile, htmp⟩ := hdir last hlast hlast0
    rw [htmp, Option.map_eq_none_iff]
    exact Option.map_eq_none_iff.mp (hfile.symm.trans h)
  · rw [resolve_file hslash hzero] at h
    cases h

/-- An id with a slash whose file lies in the data directory stands for the file of another id. -/
theorem exists_alias (hslash : '/' ∈ c) {name : Str} (h : t.resolve (t.file c) = some (t.home ++ [name])) :
    ∃ last, '/' ∉ last ∧ t.resolve (t.file last) = some (t.home ++ [name]) := by
  have hzero := not_zero_of_resolve_file h
  obtain ⟨q, last, rfl, hlast⟩ := Lists.exists_last_of_mem hslash
  have hlast0 : '\x00' ∉ last := fun hm => hzero (by simp [hm])
  obtain ⟨dir, hdir⟩ := exists_above t q
  rw [(hdir last hlast hlast0).1, Option.map_eq_some_iff] at h
  obtain ⟨loc, _, hloc⟩ := h
  obtain ⟨_, hname⟩ := List.append_inj' hloc rfl
  exact ⟨last, hlast, hname ▸ resolve_file hlast hlast0⟩

/-- Requests are contained as long as no id that has a slash leads to a directory. -/
theorem contained_iff (t : DataRoot) (ids : Set ChunkId) :
    t.Contained (plain ∪ ids) ↔ ∀ c ∈ ids, '/' ∉ c ∨ t.resolve (t.file c) = none := by
  constructor
  · intro h c hc
    by_contra hbad
    obtain ⟨hslash, hsome⟩ := not_or.mp hbad
    obtain ⟨loc, hloc⟩ := Option.ne_none_iff_exists'.mp hsome
    obtain ⟨name, rfl⟩ := h.inside (.getChunk c) (by simp [Request.ids, hc]) (t.file c)
      (by simp [Request.paths]) loc hloc
    obtain ⟨last, hlast, hsame⟩ := exists_alias (not_not.mp hslash) hloc
    obtain rfl := h.apart c (.inr hc) last (.inl hlast) _ hloc hsame
    exact hslash hlast
  · intro h
    have hfile : ∀ c ∈ plain ∪ ids, ∀ loc, t.resolve (t.file c) = some loc →
        loc = t.home ++ [path c] := by
      intro c hc loc hloc
      have hplain : '/' ∉ c := hc.elim id fun hc => (h c hc).resolve_right (by simp [hloc])
      rw [resolve_file hplain (not_zero_of_resolve_file hloc), Option.some.injEq] at hloc
      exact hloc.symm
    have htmp : ∀ c ∈ plain ∪ ids, ∀ loc, t.resolve (t.tmp c) = some loc →
        loc = t.home ++ [temp c] := by
      intro c hc loc hloc
      have hplain : '/' ∉ c := hc.elim id fun hc => (h c hc).resolve_right fun hnone => by
        rw [resolve_tmp_eq_none hnone] at hloc
        cases hloc
      rw [resolve_tmp hplain (not_zero_of_resolve_tmp hloc), Option.some.injEq] at hloc
      exact hloc.symm
    refine ⟨fun r hr p hp loc hloc => ?_, fun c hc c' hc' loc hloc hloc' => ?_,
      fun c hc c' hc' loc hloc hloc' => ?_⟩
    · obtain ⟨c, hc, rfl | rfl⟩ := Request.exists_id_of_mem_paths hp
      · exact ⟨_, hfile c (hr c hc) loc hloc⟩
      · exact ⟨_, htmp c (hr c hc) loc hloc⟩
    · have hname := (hfile c hc loc hloc).symm.trans (hfile c' hc' loc hloc')
      simp only [List.append_cancel_left_eq, List.cons.injEq, and_true] at hname
      exact path_injective hname
    · have hname := (hfile c' hc' loc hloc').symm.trans (htmp c hc loc hloc)
      simp only [List.append_cancel_left_eq, List.cons.injEq, and_true] at hname
      exact path_ne_temp c' c hname

/-- A server started in `/srv` with the data directory `data`. -/
def srvData : DataRoot where
  isDir loc := loc = [] ∨ loc = [['s', 'r', 'v']] ∨ loc = [['s', 'r', 'v'], ['d', 'a', 't', 'a']]
  cwd := [['s', 'r', 'v']]
  dataDir := ['d', 'a', 't', 'a']
  home := [['s', 'r', 'v'], ['d', 'a', 't', 'a']]
  resolves := by decide
  isDir_home := by decide

/-- A write of `../x` goes to the directory above. -/
theorem not_contained_dotdot : ¬ srvData.Contained {['.', '.', '/', 'x']} := by
  intro h
  have hloc : srvData.resolve (srvData.file ['.', '.', '/', 'x']) =
      some [['s', 'r', 'v'], path ['x']] := by decide
  obtain ⟨name, hname⟩ := h.inside (.storeChunk ['.', '.', '/', 'x'] [1]) (by simp [Request.ids]) _
    List.mem_cons_self _ hloc
  have hlen := congrArg List.length hname
  simp [srvData] at hlen

end DataRoot

end GfsCluster
