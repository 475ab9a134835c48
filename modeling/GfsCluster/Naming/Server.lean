import GfsCluster.Metadata.QueryFacts
import GfsCluster.Naming.Registry

/-! The naming server as a machine. Request handlers, the cleanup loop, the healer and
the background deletion threads run side by side; an action is one step of one of them
up to its next statement on the database, its next look at the registry or its next
RPC. The state also keeps three histories that nothing reads: the chunk ids handed out,
and the chunks removed together with the file row they were removed under. -/

namespace GfsCluster

/-! ### Messages -/

structure CreateFileRequest where
  filename : Filename
  size : ℤ
  numChunks : ℤ

structure ChunkPlacement where
  index : ℕ
  chunkId : ChunkId
  locations : List Addr
  deriving DecidableEq

structure CreateFileResponse where
  ok : Bool
  message : String
  placements : List ChunkPlacement

structure GetFileResponse where
  ok : Bool
  message : String
  size : ℤ
  placements : List ChunkPlacement

structure GetFileSizeResponse where
  ok : Bool
  message : String
  size : ℤ
  numChunks : ℤ

structure DeleteFileResponse where
  ok : Bool
  message : String

/-- What the naming server asks of storage servers. The ticket tells the healer's
requests apart. -/
inductive StorageRpc
  | deleteChunk (addr : Addr) (chunkId : ChunkId)
  | replicateChunk (ticket : ℕ) (target : Addr) (chunkId : ChunkId) (source : Addr)
  deriving DecidableEq

def ChunkMeta.placement (m : ChunkMeta) : ChunkPlacement := ⟨m.index, m.chunkId, m.locations⟩

/-- The (address, chunk) pairs of a file, as the deleting operations collect them. -/
def FileMeta.pairs (fm : FileMeta) : List (Addr × ChunkId) :=
  fm.chunks.flatMap fun m => m.locations.map (·, m.chunkId)

def liveFirst (locations live : List Addr) : List Addr :=
  locations.filter (· ∈ live) ++ locations.filter (· ∉ live)

/-- The answer of `GetFile` once the file has been read. -/
def getFileResponse (fm : Option FileMeta) (live : List Addr) : GetFileResponse :=
  match fm with
  | none => ⟨false, "file not found", 0, []⟩
  | some fm =>
    if fm.status = .committed then
      ⟨true, "ok", fm.size, fm.chunks.map fun c => ⟨c.index, c.chunkId, liveFirst c.locations live⟩⟩
    else ⟨false, "file not found", 0, []⟩

/-- The answer of `GetFileSize`. -/
def getFileSizeResponse (fm : Option FileMeta) : GetFileSizeResponse :=
  match fm with
  | none => ⟨false, "file not found", 0, 0⟩
  | some fm =>
    if fm.status = .committed then ⟨true, "ok", fm.size, fm.numChunks⟩
    else ⟨false, "file not found", 0, 0⟩

/-! ### Handlers and threads -/

inductive CreatePhase
  | idle
  | received
  | checked
  | oldRow (row : FileRow)
  | placing (chunks : List ChunkMeta)
  | replied (resp : CreateFileResponse)
  | failed

/-- One CreateFile request. -/
structure CreateHandler where
  req : CreateFileRequest
  phase : CreatePhase

inductive DeletePhase
  | idle
  | received
  | row (row : FileRow)
  | loaded (fm : FileMeta)
  | sending (pending : List (Addr × ChunkId)) (failures : ℕ)
  | replied (resp : DeleteFileResponse)
  | failed

/-- One DeleteFile request. -/
structure DeleteHandler where
  filename : Filename
  phase : DeletePhase

inductive GetPhase
  | idle
  | received
  | row (row : FileRow)
  | loaded (fm : FileMeta)
  | replied (resp : GetFileResponse)
  | failed

/-- One GetFile request. -/
structure GetHandler where
  filename : Filename
  phase : GetPhase

/-- `_cleanup_loop`: the first two phases are inside `list_stale_pending`. -/
inductive CleanupPhase
  | idle
  | listing (cutoff : Seconds) (names : List Filename) (stale : List FileMeta)
  | listingRow (cutoff : Seconds) (row : FileRow) (names : List Filename) (stale : List FileMeta)
  | removing (cutoff : Seconds) (stale : List FileMeta)
  | sending (cutoff : Seconds) (pending : List (Addr × ChunkId)) (stale : List FileMeta)

/-- The local variables of the repair of one chunk. -/
structure Repair where
  chunkId : ChunkId
  live : List Addr
  stale : List Addr
  candidates : List Addr

/-- `heal_once`. `live` and `rest` are the rotated live list and the chunks still to visit;
`refreshing` is its `finally`, with what it is about to return unless it is about to raise. -/
inductive HealPhase
  | idle
  | counted (count : ℕ)
  | picked (live : List Addr)
  | known (live : List Addr)
  | scanning (live : List Addr) (rest : List ChunkMeta) (repaired : ℕ)
  | repairing (live : List Addr) (rest : List ChunkMeta) (repaired : ℕ) (w : Repair)
  | copying (live : List Addr) (rest : List ChunkMeta) (repaired : ℕ) (w : Repair)
      (target : Addr) (ticket : ℕ)
  | copied (live : List Addr) (rest : List ChunkMeta) (repaired : ℕ) (w : Repair) (target : Addr)
  | dropping (live : List Addr) (rest : List ChunkMeta) (repaired : ℕ) (w : Repair) (stale : Addr)
  | refreshing (result : Option ℕ)

/-- A chunk id handed out by `uuid4` for a chunk of a CreateFile request. -/
structure Issue where
  chunkId : ChunkId
  call : ℕ
  index : ℕ
  deriving DecidableEq

structure NamingServer where
  store : MetadataStore
  registry : StorageRegistry
  now : Seconds
  creates : ℕ → CreateHandler
  deletes : ℕ → DeleteHandler
  gets : ℕ → GetHandler
  purges : List (ℕ × Addr × ChunkId)
  cleanup : CleanupPhase
  heal : HealPhase
  ticket : ℕ
  issued : List Issue
  graves : List (ChunkId × FileRow)

namespace NamingServer

def init : NamingServer where
  store := .init
  registry := .init
  now := 0
  creates _ := ⟨⟨[], 0, 0⟩, .idle⟩
  deletes _ := ⟨[], .idle⟩
  gets _ := ⟨[], .idle⟩
  purges := []
  cleanup := .idle
  heal := .idle
  ticket := 0
  issued := []
  graves := []

/-- The committed database, which every reader sees. -/
abbrev db (n : NamingServer) : Db := n.store.committed

end NamingServer

/-- The chunks that go with the row of a file, each with that row. -/
def Db.chunksWithRow (db : Db) (f : Filename) : List (ChunkId × FileRow) :=
  (db.files.filter (·.filename = f)).flatMap fun F =>
    (db.chunks.filter (·.filename = f)).map (·.chunkId, F)

/-! ### Actions -/

inductive CreateStep
  | receive (req : CreateFileRequest)
  | checkLive
  | selectFile (o : RowOrder)
  | selectChunks (o : RowOrder)
  | place (id : ChunkId)
  | reserve (now : Seconds)

inductive DeleteStep
  | receive (f : Filename)
  | selectFile (o : RowOrder)
  | selectChunks (o : RowOrder)
  | remove
  | send (i : ℕ) (ok : Bool)
  | reply

inductive GetStep
  | receive (f : Filename)
  | selectFile (o : RowOrder)
  | selectChunks (o : RowOrder)
  | reply

inductive CleanupStep
  | listNames (now : Seconds) (o : RowOrder)
  | selectFile (o : RowOrder)
  | selectChunks (o : RowOrder)
  | remove
  | send

inductive HealStep
  | count
  | pick
  | known (o : RowOrder)
  | scan (o : RowOrder)
  | next
  | copy
  | answer (ok : Bool)
  | record
  | drop
  | refresh (o : RowOrder)

inductive NamingAction
  | registerStorage (addr : Addr)
  | heartbeat (addr : Addr)
  | tick (d : Seconds)
  | create (k : ℕ) (a : CreateStep)
  | commit (f : Filename)
  | delete (k : ℕ) (a : DeleteStep)
  | get (k : ℕ) (a : GetStep)
  | purge (i : ℕ)
  | cleanup (a : CleanupStep)
  | heal (a : HealStep)
  | crash

end GfsCluster
