import Mathlib.Algebra.GroupWithZero.Nat
import Mathlib.Data.List.Sort
import Mathlib.Data.List.Dedup
import GfsCluster.Metadata.Store

/-! The read methods of `MetadataStore`. A query is a function of the tables; the
order in which SQLite walks rows that a query leaves unordered is a `RowOrder`, which
every SELECT of the system picks anew. `get_file` is two SELECTs and may see two
database states. -/

namespace GfsCluster

/-- A walk over the tables: the same rows in some order. -/
structure RowOrder where
  view : Db → Db
  files_perm : ∀ db, (view db).files.Perm db.files
  chunks_perm : ∀ db, (view db).chunks.Perm db.chunks
  replicas_perm : ∀ db, (view db).replicas.Perm db.replicas

namespace RowOrder

/-- The rows in the order in which the tables hold them. -/
def table : RowOrder := ⟨id, fun _ => .refl _, fun _ => .refl _, fun _ => .refl _⟩

variable (o : RowOrder) (db : Db)

@[simp] theorem mem_files {F : FileRow} : F ∈ (o.view db).files ↔ F ∈ db.files :=
  (o.files_perm db).mem_iff

@[simp] theorem mem_chunks {c : ChunkRow} : c ∈ (o.view db).chunks ↔ c ∈ db.chunks :=
  (o.chunks_perm db).mem_iff

@[simp] theorem mem_replicas {r : ReplicaRow} : r ∈ (o.view db).replicas ↔ r ∈ db.replicas :=
  (o.replicas_perm db).mem_iff

theorem locations_perm (c : ChunkId) : ((o.view db).locations c).Perm (db.locations c) :=
  ((o.replicas_perm db).filter _).map _

@[simp] theorem committedChunk {c : ChunkId} :
    (o.view db).CommittedChunk c ↔ db.CommittedChunk c := by
  simp [Db.CommittedChunk]

end RowOrder

/-! ### get_file -/

/-- A row of `chunks LEFT JOIN replicas`: the address is NULL where no replica matches. -/
structure JoinRow where
  chunkId : ChunkId
  idx : ℕ
  address : Option Addr
  deriving DecidableEq

/-- The rows that a chunk contributes to `LEFT JOIN replicas r ON r.chunk_id = c.chunk_id`. -/
def leftJoinReplicas (db : Db) (c : ChunkRow) : List JoinRow :=
  match db.locations c.chunkId with
  | [] => [⟨c.chunkId, c.idx, none⟩]
  | addrs => addrs.map fun addr => ⟨c.chunkId, c.idx, some addr⟩

/-- First SELECT of `get_file`. -/
def selectFile (db : Db) (f : Filename) : Option FileRow := db.files.find? (·.filename = f)

/-- The chunk rows of a file in index order. -/
def chunkRowsOf (db : Db) (f : Filename) : List ChunkRow :=
  (db.chunks.filter (·.filename = f)).insertionSort (·.idx ≤ ·.idx)

/-- Second SELECT of `get_file`: the chunks of the file, joined and in index order. -/
def selectChunks (db : Db) (f : Filename) : List JoinRow :=
  (chunkRowsOf db f).flatMap (leftJoinReplicas db)

/-- One turn of the loop that rebuilds the chunks from the joined rows. -/
def addJoinRow (chunks : List ChunkMeta) (row : JoinRow) : List ChunkMeta :=
  let chunks := if chunks.any (·.chunkId = row.chunkId) then chunks
    else chunks ++ [⟨row.chunkId, row.idx, []⟩]
  match row.address with
  | none => chunks
  | some addr => chunks.map fun m =>
    if m.chunkId = row.chunkId then { m with locations := m.locations ++ [addr] } else m

def collectChunks (rows : List JoinRow) : List ChunkMeta := rows.foldl addJoinRow []

def FileMeta.ofRow (row : FileRow) (chunks : List ChunkMeta) : FileMeta :=
  ⟨row.filename, row.size, row.numChunks, row.status, chunks⟩

/-- `get_file`, whose SELECTs see the databases `db₁` and `db₂`. -/
def getFile (db₁ db₂ : Db) (f : Filename) : Option FileMeta :=
  (selectFile db₁ f).map fun row => .ofRow row (collectChunks (selectChunks db₂ f))

/-! ### The other queries -/

/-- `list_files`: the rows of `files` by name, without their chunks. -/
def listFiles (db : Db) : List FileMeta :=
  (db.files.insertionSort (·.filename ≤ ·.filename)).map (FileMeta.ofRow · [])

/-- Chunk ids that metadata says should be stored at `addr`. -/
def listChunkIdsFor (db : Db) (addr : Addr) : List ChunkId :=
  (db.replicas.filter (·.address = addr)).map ReplicaRow.chunkId

/-- The integers of SQLite have 64 bits. -/
def InRange (x : ℤ) : Prop := -2 ^ 63 ≤ x ∧ x < 2 ^ 63

instance (x : ℤ) : Decidable (InRange x) := inferInstanceAs (Decidable (_ ∧ _))

/-- `SUM` adds row by row, and raises "integer overflow" where a sum leaves the range. -/
def sumFrom (total : ℤ) : List ℤ → Option ℤ
  | [] => some total
  | x :: xs => if InRange (total + x) then sumFrom (total + x) xs else none

def committedSizes (files : List FileRow) : List ℤ :=
  (files.filter (·.status = .committed)).map FileRow.size

/-- `SELECT COALESCE(SUM(size), 0) FROM files WHERE status = 'committed'`: nothing where it raises. -/
def committedBytes (db : Db) : Option ℤ := sumFrom 0 (committedSizes db.files)

/-- The names that `list_stale_pending` selects. -/
def stalePendingNames (db : Db) (cutoff : Seconds) : List Filename :=
  (db.files.filter fun F => F.status = .pending ∧ F.createdAt < cutoff).map FileRow.filename

/-- `JOIN files f ON f.filename = c.filename WHERE f.status = 'committed'` for one chunk row. -/
def committedFilesOf (db : Db) (c : ChunkRow) : List FileRow :=
  db.files.filter fun F => F.filename = c.filename ∧ F.status = .committed

/-- All distinct storage addresses referenced by committed chunks. -/
def knownReplicaAddresses (db : Db) : List Addr :=
  (db.replicas.flatMap fun r =>
    (db.chunks.filter (·.chunkId = r.chunkId)).flatMap fun c =>
      (committedFilesOf db c).map fun _ => r.address).dedup

/-- The joined rows of all committed chunks. -/
def committedJoin (db : Db) : List JoinRow :=
  db.chunks.flatMap fun c => (committedFilesOf db c).flatMap fun _ => leftJoinReplicas db c

/-- `ORDER BY c.filename, c.idx`. -/
def ChunkRow.Before (c d : ChunkRow) : Prop :=
  c.filename < d.filename ∨ c.filename = d.filename ∧ c.idx ≤ d.idx

instance : DecidableRel ChunkRow.Before := fun _ _ => inferInstanceAs (Decidable (_ ∨ _ ∧ _))

/-- The chunk rows of the committed files, by name and index. -/
def committedChunkRows (db : Db) : List ChunkRow :=
  (db.chunks.flatMap fun c => (committedFilesOf db c).map fun _ => c).insertionSort
    ChunkRow.Before

/-- `list_committed_chunks`: its loop collects the joined rows as that of `get_file` does. -/
def listCommittedChunks (db : Db) : List ChunkMeta :=
  collectChunks ((committedChunkRows db).flatMap (leftJoinReplicas db))

/-- The groups of `GROUP BY c.chunk_id, c.idx`. -/
def groupByChunk (rows : List JoinRow) : List (ChunkId × ℕ × List JoinRow) :=
  (rows.map fun r => (r.chunkId, r.idx)).dedup.map fun key =>
    (key.1, key.2, rows.filter fun r => (r.chunkId, r.idx) = key)

/-- `SUM(CASE WHEN r.address IN (…) THEN 1 ELSE 0 END)`, or the literal 0 for no live server. -/
def liveCount (live : List Addr) (rows : List JoinRow) : ℕ :=
  if live = [] then 0
  else (rows.map fun r => match r.address with
    | some addr => if addr ∈ live then 1 else 0
    | none => 0).sum

/-- `GROUP_CONCAT(r.address)`: NULL where no row has an address. -/
def groupConcat (rows : List JoinRow) : Option Str :=
  match rows.filterMap JoinRow.address with
  | [] => none
  | addrs => some ([','].intercalate addrs)

/-- `addrs.split(",") if addrs else []`. -/
def splitAddrs : Option Str → List Addr
  | none => []
  | some [] => []
  | some addrs => addrs.splitOn ','

/-- The committed chunks with fewer than `replication` live replicas, each with all its
known addresses. -/
def underReplicatedChunks (db : Db) (live : List Addr) (replication : ℕ) : List ChunkMeta :=
  ((groupByChunk (committedJoin db)).filter fun g => liveCount live g.2.2 < replication).map
    fun g => ⟨g.1, g.2.1, splitAddrs (groupConcat g.2.2)⟩

end GfsCluster
