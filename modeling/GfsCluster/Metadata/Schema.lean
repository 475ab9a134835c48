import Mathlib.Data.List.Nodup
import GfsCluster.Basic

/-! The three tables of `_SCHEMA` and the statements that write them. A `Db` carries
the declared keys as fields, so a value that breaks a primary or a foreign key
cannot be built; a statement that would break one fails and leaves its input alone. -/

namespace GfsCluster

inductive Status
  | pending
  | committed
  deriving DecidableEq, Repr

structure FileRow where
  filename : Filename
  size : ℤ
  numChunks : ℤ
  status : Status
  createdAt : Seconds
  deriving DecidableEq

structure ChunkRow where
  chunkId : ChunkId
  filename : Filename
  idx : ℕ
  deriving DecidableEq

structure ReplicaRow where
  chunkId : ChunkId
  address : Addr
  deriving DecidableEq

@[ext] structure Db where
  files : List FileRow
  chunks : List ChunkRow
  replicas : List ReplicaRow
  files_key : (files.map FileRow.filename).Nodup
  chunks_key : (chunks.map ChunkRow.chunkId).Nodup
  replicas_key : replicas.Nodup
  chunks_fk : ∀ c ∈ chunks, c.filename ∈ files.map FileRow.filename
  replicas_fk : ∀ r ∈ replicas, r.chunkId ∈ chunks.map ChunkRow.chunkId

/-- The constraint violations that SQLite raises as `IntegrityError`. -/
inductive SqlError
  | unique
  | foreignKey
  deriving DecidableEq, Repr

namespace Db

def empty : Db := ⟨[], [], [], .nil, .nil, .nil, by simp, by simp⟩

variable (db : Db)

/-! ### Rows by key -/

theorem file_unique {F G : FileRow} (hF : F ∈ db.files) (hG : G ∈ db.files)
    (h : F.filename = G.filename) : F = G :=
  List.inj_on_of_nodup_map db.files_key hF hG h

theorem chunk_unique {c d : ChunkRow} (hc : c ∈ db.chunks) (hd : d ∈ db.chunks)
    (h : c.chunkId = d.chunkId) : c = d :=
  List.inj_on_of_nodup_map db.chunks_key hc hd h

theorem exists_file {c : ChunkRow} (hc : c ∈ db.chunks) :
    ∃ F ∈ db.files, F.filename = c.filename :=
  List.mem_map.mp (db.chunks_fk c hc)

theorem exists_chunk {r : ReplicaRow} (hr : r ∈ db.replicas) :
    ∃ c ∈ db.chunks, c.chunkId = r.chunkId :=
  List.mem_map.mp (db.replicas_fk r hr)

/-- The addresses recorded for a chunk. -/
def locations (c : ChunkId) : List Addr :=
  (db.replicas.filter (·.chunkId = c)).map ReplicaRow.address

@[simp] theorem mem_locations {c : ChunkId} {addr : Addr} :
    addr ∈ db.locations c ↔ ⟨c, addr⟩ ∈ db.replicas := by
  simp only [locations, List.mem_map, List.mem_filter, decide_eq_true_eq]
  constructor
  · rintro ⟨⟨_, _⟩, ⟨hr, rfl⟩, rfl⟩
    exact hr
  · intro hr
    exact ⟨_, ⟨hr, rfl⟩, rfl⟩

theorem locations_nodup (c : ChunkId) : (db.locations c).Nodup := by
  apply (db.replicas_key.filter _).map_on
  rintro ⟨_, _⟩ hx ⟨_, _⟩ hy hxy
  simp only [List.mem_filter, decide_eq_true_eq] at hx hy
  simp only [ReplicaRow.mk.injEq]
  exact ⟨hx.2.trans hy.2.symm, hxy⟩

/-- The chunk belongs to a file whose status is `committed`. -/
def CommittedChunk (c : ChunkId) : Prop :=
  ∃ row ∈ db.chunks, row.chunkId = c ∧ ∃ F ∈ db.files, F.filename = row.filename ∧
    F.status = .committed

/-! ### Statements -/

/-- `DELETE FROM files WHERE filename = ?` with the cascades of both foreign keys. -/
def deleteFile (f : Filename) : Db where
  files := db.files.filter (·.filename ≠ f)
  chunks := db.chunks.filter (·.filename ≠ f)
  replicas := db.replicas.filter fun r =>
    r.chunkId ∉ (db.chunks.filter (·.filename = f)).map ChunkRow.chunkId
  files_key := db.files_key.sublist (List.filter_sublist.map _)
  chunks_key := db.chunks_key.sublist (List.filter_sublist.map _)
  replicas_key := db.replicas_key.filter _
  chunks_fk := by
    intro c hc
    simp only [List.mem_filter, decide_eq_true_eq] at hc
    obtain ⟨F, hF, hname⟩ := db.exists_file hc.1
    exact List.mem_map.mpr ⟨F, by simp [hF, hname, hc.2], hname⟩
  replicas_fk := by
    intro r hr
    simp only [List.mem_filter, decide_eq_true_eq] at hr
    obtain ⟨c, hc, hid⟩ := db.exists_chunk hr.1
    refine List.mem_map.mpr ⟨c, ?_, hid⟩
    simp only [List.mem_filter, decide_eq_true_eq]
    exact ⟨hc, fun hf => hr.2 (List.mem_map.mpr ⟨c, by simp [hc, hf], hid⟩)⟩

/-- `INSERT INTO files`. -/
def insertFile (row : FileRow) : Except SqlError Db :=
  if h : row.filename ∈ db.files.map FileRow.filename then .error .unique
  else .ok { db with
    files := db.files ++ [row]
    files_key := by
      rw [List.map_append]
      exact db.files_key.append (by simp) (by simpa using h)
    chunks_fk := fun c hc => by
      rw [List.map_append]
      exact List.mem_append_left _ (db.chunks_fk c hc) }

/-- `INSERT INTO chunks`. -/
def insertChunk (row : ChunkRow) : Except SqlError Db :=
  if h : row.chunkId ∈ db.chunks.map ChunkRow.chunkId then .error .unique
  else if hf : row.filename ∈ db.files.map FileRow.filename then .ok { db with
    chunks := db.chunks ++ [row]
    chunks_key := by
      rw [List.map_append]
      exact db.chunks_key.append (by simp) (by simpa using h)
    chunks_fk := by
      intro c hc
      rcases List.mem_append.mp hc with hc | hc
      · exact db.chunks_fk c hc
      · rwa [List.mem_singleton.mp hc]
    replicas_fk := fun r hr => by
      rw [List.map_append]
      exact List.mem_append_left _ (db.replicas_fk r hr) }
  else .error .foreignKey

/-- `INSERT INTO replicas`. -/
def insertReplica (row : ReplicaRow) : Except SqlError Db :=
  if h : row ∈ db.replicas then .error .unique
  else if hc : row.chunkId ∈ db.chunks.map ChunkRow.chunkId then .ok { db with
    replicas := db.replicas ++ [row]
    replicas_key := db.replicas_key.append (by simp) (by simpa using h)
    replicas_fk := by
      intro r hr
      rcases List.mem_append.mp hr with hr | hr
      · exact db.replicas_fk r hr
      · rwa [List.mem_singleton.mp hr] }
  else .error .foreignKey

/-- `UPDATE files SET status = 'committed' WHERE filename = ?`. -/
def markCommitted (f : Filename) : Db where
  files := db.files.map fun F => if F.filename = f then { F with status := .committed } else F
  chunks := db.chunks
  replicas := db.replicas
  files_key := by
    have h : ∀ F : FileRow,
        (if F.filename = f then { F with status := .committed } else F).filename = F.filename := by
      intro F; split_ifs <;> rfl
    simpa [List.map_map, Function.comp_def, h] using db.files_key
  chunks_key := db.chunks_key
  replicas_key := db.replicas_key
  chunks_fk := by
    intro c hc
    obtain ⟨F, hF, hname⟩ := db.exists_file hc
    refine List.mem_map.mpr ⟨_, List.mem_map_of_mem hF, ?_⟩
    split_ifs <;> exact hname
  replicas_fk := db.replicas_fk

/-- `DELETE FROM replicas WHERE chunk_id = ? AND address = ?`. -/
def deleteReplica (c : ChunkId) (addr : Addr) : Db where
  files := db.files
  chunks := db.chunks
  replicas := db.replicas.filter (· ≠ ⟨c, addr⟩)
  files_key := db.files_key
  chunks_key := db.chunks_key
  replicas_key := db.replicas_key.filter _
  chunks_fk := db.chunks_fk
  replicas_fk := fun r hr => db.replicas_fk r (List.mem_filter.mp hr).1

end Db

end GfsCluster
