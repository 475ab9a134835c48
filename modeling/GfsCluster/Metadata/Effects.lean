import GfsCluster.Metadata.Queries

/-! What a write other than a reservation does to the file and chunk rows: rows go
away, a status may turn to `committed`, and nothing new appears. -/

namespace GfsCluster

structure Db.Shrinks (db db' : Db) : Prop where
  files : ∀ F' ∈ db'.files, ∃ F ∈ db.files, F.filename = F'.filename ∧ F.size = F'.size ∧
    F.numChunks = F'.numChunks ∧ F.createdAt = F'.createdAt ∧
    (F'.status = .pending → F.status = .pending)
  chunks : ∀ c, c ∈ db'.chunks ↔ c ∈ db.chunks ∧ ∃ F' ∈ db'.files, F'.filename = c.filename

namespace Db

variable {db : Db}

theorem Shrinks.refl (db : Db) : db.Shrinks db where
  files F hF := ⟨F, hF, rfl, rfl, rfl, rfl, id⟩
  chunks _ := ⟨fun hc => ⟨hc, db.exists_file hc⟩, And.left⟩

theorem shrinks_deleteFile (f : Filename) : db.Shrinks (db.deleteFile f) where
  files F hF := ⟨F, (List.mem_filter.mp hF).1, rfl, rfl, rfl, rfl, id⟩
  chunks c := by
    constructor
    · intro hc
      exact ⟨(List.mem_filter.mp hc).1, (db.deleteFile f).exists_file hc⟩
    · rintro ⟨hc, F, hF, hname⟩
      simp only [deleteFile, List.mem_filter, decide_eq_true_eq] at hF ⊢
      exact ⟨hc, hname ▸ hF.2⟩

theorem mem_markCommitted {f : Filename} {F' : FileRow} : F' ∈ (db.markCommitted f).files ↔
    ∃ F ∈ db.files, F' = if F.filename = f then { F with status := .committed } else F := by
  simp only [markCommitted, List.mem_map, eq_comm]

theorem shrinks_markCommitted (f : Filename) : db.Shrinks (db.markCommitted f) where
  files F' hF' := by
    obtain ⟨F, hF, rfl⟩ := mem_markCommitted.mp hF'
    refine ⟨F, hF, ?_⟩
    split_ifs
    · simp
    · exact ⟨rfl, rfl, rfl, rfl, id⟩
  chunks c := ⟨fun hc => ⟨hc, (db.markCommitted f).exists_file hc⟩, And.left⟩

theorem shrinks_deleteReplica (c : ChunkId) (addr : Addr) : db.Shrinks (db.deleteReplica c addr) where
  files F hF := ⟨F, hF, rfl, rfl, rfl, rfl, id⟩
  chunks _ := ⟨fun hc => ⟨hc, db.exists_file hc⟩, And.left⟩

theorem insertReplica_ok {row : ReplicaRow} {db' : Db} (h : db.insertReplica row = .ok db') :
    db'.files = db.files ∧ db'.chunks = db.chunks ∧ db'.replicas = db.replicas ++ [row] := by
  unfold insertReplica at h
  split_ifs at h
  cases h
  exact ⟨rfl, rfl, rfl⟩

theorem shrinks_of_eq {db' : Db} (hf : db'.files = db.files) (hc : db'.chunks = db.chunks) :
    db.Shrinks db' where
  files F hF := ⟨F, hf ▸ hF, rfl, rfl, rfl, rfl, id⟩
  chunks c := by
    rw [hc, hf]
    exact ⟨fun hc => ⟨hc, db.exists_file hc⟩, And.left⟩

theorem mem_deleteFile_files {f : Filename} {F : FileRow} :
    F ∈ (db.deleteFile f).files ↔ F ∈ db.files ∧ F.filename ≠ f := by
  simp [deleteFile]

theorem mem_deleteFile_chunks {f : Filename} {c : ChunkRow} :
    c ∈ (db.deleteFile f).chunks ↔ c ∈ db.chunks ∧ c.filename ≠ f := by
  simp [deleteFile]

/-- A replica row goes exactly when the chunk row it refers to goes. -/
theorem mem_deleteFile_replicas {f : Filename} {r : ReplicaRow} :
    r ∈ (db.deleteFile f).replicas ↔ r ∈ db.replicas ∧
      ∀ c ∈ db.chunks, c.chunkId = r.chunkId → c.filename ≠ f := by
  simp only [deleteFile, List.mem_filter, decide_eq_true_eq, List.mem_map, not_exists, not_and]
  constructor
  · rintro ⟨hr, h⟩
    exact ⟨hr, fun c hc hid hf => h c ⟨hc, hf⟩ hid⟩
  · rintro ⟨hr, h⟩
    exact ⟨hr, fun c hc hid => h c hc.1 hid hc.2⟩

/-! ### The addresses of one chunk -/

theorem locations_append {db' : Db} {rows : List ReplicaRow}
    (h : db'.replicas = db.replicas ++ rows) (c : ChunkId) :
    db'.locations c = db.locations c ++ (rows.filter (·.chunkId = c)).map ReplicaRow.address := by
  simp [locations, h, List.filter_append]

theorem locations_deleteFile {f : Filename} {r : ChunkRow} (hr : r ∈ db.chunks)
    (hf : r.filename ≠ f) : (db.deleteFile f).locations r.chunkId = db.locations r.chunkId := by
  unfold locations
  congr 1
  simp only [deleteFile, List.filter_filter]
  refine List.filter_congr fun x _ => ?_
  by_cases hx : x.chunkId = r.chunkId
  · simp only [hx, decide_true, Bool.true_and, decide_eq_true_eq]
    intro hmem
    obtain ⟨r', hr', hid⟩ := List.mem_map.mp hmem
    rw [List.mem_filter, decide_eq_true_eq] at hr'
    exact hf (db.chunk_unique hr'.1 hr hid ▸ hr'.2)
  · simp [hx]

theorem locations_deleteReplica (c : ChunkId) (addr : Addr) :
    (db.deleteReplica c addr).locations c = (db.locations c).filter (· ≠ addr) := by
  simp only [locations, deleteReplica, List.filter_filter, List.filter_map]
  congr 1
  refine List.filter_congr fun x _ => ?_
  obtain ⟨c', addr'⟩ := x
  by_cases hc : c' = c <;> simp [hc]

theorem locations_deleteReplica_of_ne {c c' : ChunkId} (h : c' ≠ c) (addr : Addr) :
    (db.deleteReplica c addr).locations c' = db.locations c' := by
  simp only [locations, deleteReplica, List.filter_filter]
  congr 1
  refine List.filter_congr fun x _ => ?_
  by_cases hc : x.chunkId = c'
  · simp only [hc, decide_true, Bool.true_and, decide_eq_true_eq]
    rintro rfl
    exact h hc.symm
  · simp [hc]

/-- The rows of a plan with distinct ids record each of its chunks at its own addresses. -/
theorem locations_of_plan {chunks : List ChunkMeta} (hids : (chunks.map ChunkMeta.chunkId).Nodup)
    {m : ChunkMeta} (hm : m ∈ chunks) :
    ((chunks.flatMap ChunkMeta.replicaRows).filter (·.chunkId = m.chunkId)).map ReplicaRow.address =
      m.locations := by
  have hself : ∀ m : ChunkMeta, (m.replicaRows.filter (·.chunkId = m.chunkId)).map
      ReplicaRow.address = m.locations := by
    intro m
    simp [ChunkMeta.replicaRows, List.filter_map, Function.comp_def]
  have hother : ∀ m m' : ChunkMeta, m'.chunkId ≠ m.chunkId →
      m'.replicaRows.filter (·.chunkId = m.chunkId) = [] := by
    intro m m' hne
    rw [List.filter_eq_nil_iff]
    intro r hr
    rw [(ChunkMeta.mem_replicaRows.mp hr).1]
    simpa using hne
  induction chunks with
  | nil => cases hm
  | cons m' chunks ih =>
    rw [List.map_cons, List.nodup_cons] at hids
    rw [List.flatMap_cons, List.filter_append, List.map_append]
    rcases List.mem_cons.mp hm with rfl | hm
    · have hrest : (chunks.flatMap ChunkMeta.replicaRows).filter (·.chunkId = m.chunkId) = [] := by
        rw [List.filter_flatMap, List.flatMap_eq_nil_iff]
        intro m' hm'
        exact hother m m' fun he => hids.1 (he ▸ List.mem_map_of_mem hm')
      rw [hrest, hself, List.map_nil, List.append_nil]
    · rw [hother m m' fun he => hids.1 (he ▸ List.mem_map_of_mem hm), ih hids.2 hm]
      rfl

end Db

namespace MetadataStore

variable {m : MetadataStore}

/-- On a clean store, recording a replica either fails on a missing chunk and changes
nothing, finds it recorded, or adds exactly that row. -/
theorem addReplica_cases (h : m.Clean) (c : ChunkId) (addr : Addr) :
    (m.addReplica c addr).2.Clean ∧
      ((∃ e, (m.addReplica c addr).1 = .error e ∧ (m.addReplica c addr).2 = m ∧
          c ∉ m.committed.chunks.map ChunkRow.chunkId) ∨
        ((m.addReplica c addr).1 = .ok false ∧ (m.addReplica c addr).2 = m ∧
          ⟨c, addr⟩ ∈ m.committed.replicas) ∨
        ((m.addReplica c addr).1 = .ok true ∧ ⟨c, addr⟩ ∉ m.committed.replicas ∧
          (m.addReplica c addr).2.committed.files = m.committed.files ∧
          (m.addReplica c addr).2.committed.chunks = m.committed.chunks ∧
          (m.addReplica c addr).2.committed.replicas = m.committed.replicas ++ [⟨c, addr⟩])) := by
  obtain ⟨db, w⟩ := m
  obtain rfl : w = db := h
  by_cases hin : (⟨c, addr⟩ : ReplicaRow) ∈ w.replicas
  · simp [addReplica, hin, Clean]
  · cases hins : w.insertReplica ⟨c, addr⟩ with
    | error e =>
      have hno : c ∉ w.chunks.map ChunkRow.chunkId := by
        intro hc
        rw [Db.insertReplica, dif_neg hin, dif_pos hc] at hins
        cases hins
      refine ⟨by simp [addReplica, hin, hins, Clean], .inl ⟨e, ?_⟩⟩
      simpa [addReplica, hin, hins] using hno
    | ok db' =>
      obtain ⟨hf, hc, hr⟩ := Db.insertReplica_ok hins
      refine ⟨by simp [addReplica, hin, hins, Clean], .inr (.inr ?_)⟩
      simpa [addReplica, hin, hins] using ⟨hf, hc, hr⟩

end MetadataStore

end GfsCluster
