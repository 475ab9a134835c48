import GfsCluster.Basic
import GfsCluster.Lib.Tally

/-! A storage server on its own: its data directory and the two counters that the metrics
publish. A chunk is the file `<id>.chunk`; it is written as `<id>.chunk.tmp` and renamed.
Opening, writing and renaming the temp file may each fail with an `OSError`, and what was
written until then stays. Requests come one after the other. -/

namespace GfsCluster

/-- File names and contents. -/
abbrev Directory := AList fun _ : Str => Bytes

def chunkSuffix : Str := ['.', 'c', 'h', 'u', 'n', 'k']

def tmpSuffix : Str := ['.', 't', 'm', 'p']

/-- The name in the data directory that `_path` gives a chunk. A chunk id is a uuid hex string, safe as
a filename. -/
def path (c : ChunkId) : Str := c ++ chunkSuffix

/-- What the file system does with one `open(tmp)`, write, `os.replace(tmp, path)`: it goes
through, or one of the three raises, with the text of the exception. A write that fails
has written some of the bytes. -/
inductive WriteOutcome
  | done
  | openFails (exc : String)
  | writeFails (written : ℕ) (exc : String)
  | renameFails (exc : String)

/-! ### Messages -/

structure StoreChunkResponse where
  ok : Bool
  message : String
  deriving DecidableEq

structure StoreChunksResponse where
  ok : Bool
  message : String
  stored : ℕ
  deriving DecidableEq

structure GetChunkResponse where
  ok : Bool
  message : String
  data : Bytes
  deriving DecidableEq

structure GetChunksResponse where
  ok : Bool
  message : String
  chunks : List (ChunkId × Bytes)
  missing : List ChunkId
  deriving DecidableEq

structure DeleteChunkResponse where
  ok : Bool
  message : String
  deriving DecidableEq

structure ReplicateChunkResponse where
  ok : Bool
  message : String
  deriving DecidableEq

/-- One item of a write request, and what the file system does when it is its turn. -/
structure WriteItem where
  chunkId : ChunkId
  data : Bytes
  outcome : WriteOutcome

/-! ### The server -/

structure StorageServer where
  dir : Directory
  chunkCount : ℤ
  totalBytes : ℤ

namespace Directory

variable (d : Directory)

/-- `os.replace`. -/
def replace (src dst : Str) : Directory :=
  match d.lookup src with
  | some data => (d.erase src).insert dst data
  | none => d

/-- The write through a temp file: the exception, if one was raised, and the directory. -/
def writeChunk (file : Str) (data : Bytes) : WriteOutcome → Option String × Directory
  | .done => (none, replace (d.insert (file ++ tmpSuffix) data) (file ++ tmpSuffix) file)
  | .openFails exc => (some exc, d)
  | .writeFails written exc => (some exc, d.insert (file ++ tmpSuffix) (data.take written))
  | .renameFails exc => (some exc, d.insert (file ++ tmpSuffix) data)

/-- `os.path.getsize`, or -1 for a new chunk. -/
def oldSize (file : Str) : ℤ :=
  match d.lookup file with
  | some data => data.length
  | none => -1

/-- `held_chunk_ids`. -/
def heldChunkIds : List ChunkId :=
  (d.keys.filter (chunkSuffix <:+ ·)).map fun f => f.take (f.length - 6)

end Directory

namespace StorageServer

/-- `_sync_counters_from_disk`, with which the server starts. -/
def start (d : Directory) : StorageServer where
  dir := d
  chunkCount := d.heldChunkIds.length
  totalBytes := d.heldChunkIds.foldl (fun total c => match d.lookup (path c) with
    | some data => total + data.length
    | none => total) 0

variable (s : StorageServer)

def storeChunk (it : WriteItem) : StoreChunkResponse × StorageServer :=
  let oldSize := s.dir.oldSize (path it.chunkId)
  match s.dir.writeChunk (path it.chunkId) it.data it.outcome with
  | (some exc, d) => (⟨false, exc⟩, { s with dir := d })
  | (none, d) =>
    if oldSize = -1 then
      (⟨true, "stored"⟩, ⟨d, s.chunkCount + 1, s.totalBytes + it.data.length⟩)
    else (⟨true, "stored"⟩, ⟨d, s.chunkCount, s.totalBytes + (it.data.length - oldSize)⟩)

/-- The loop of `StoreChunks` after `stored` items. -/
def storeLoop (stored : ℕ) : StorageServer → List WriteItem → StoreChunksResponse × StorageServer
  | s, [] => (⟨true, "stored " ++ toString stored, stored⟩, s)
  | s, it :: items =>
    let oldSize := s.dir.oldSize (path it.chunkId)
    match s.dir.writeChunk (path it.chunkId) it.data it.outcome with
    | (some exc, d) =>
      (⟨false, "chunk " ++ String.ofList (it.chunkId.take 8) ++ "…: " ++ exc, stored⟩,
        { s with dir := d })
    | (none, d) => storeLoop (stored + 1) ⟨d,
        if oldSize = -1 then s.chunkCount + 1 else s.chunkCount,
        s.totalBytes + (it.data.length - max oldSize 0)⟩ items

def storeChunks (items : List WriteItem) : StoreChunksResponse × StorageServer := storeLoop 0 s items

def getChunk (c : ChunkId) : GetChunkResponse :=
  match s.dir.lookup (path c) with
  | some data => ⟨true, "ok", data⟩
  | none => ⟨false, "chunk not found", []⟩

/-- The loop of `GetChunks`: the chunks found and the ids that are missing. -/
def getLoop : List (ChunkId × Bytes) × List ChunkId → List ChunkId →
    List (ChunkId × Bytes) × List ChunkId
  | acc, [] => acc
  | (chunks, missing), c :: ids => match s.dir.lookup (path c) with
    | some data => getLoop (chunks ++ [(c, data)], missing) ids
    | none => getLoop (chunks, missing ++ [c]) ids

def getChunks (ids : List ChunkId) : GetChunksResponse :=
  let (chunks, missing) := s.getLoop ([], []) ids
  if missing = [] then ⟨true, "ok", chunks, missing⟩
  else ⟨false, toString missing.length ++ " chunks missing", chunks, missing⟩

/-- Deleting a chunk that is gone already is no failure. -/
def deleteChunk (c : ChunkId) : DeleteChunkResponse × StorageServer :=
  (⟨true, "deleted"⟩, match s.dir.lookup (path c) with
    | some data => ⟨s.dir.erase (path c), s.chunkCount - 1, s.totalBytes - data.length⟩
    | none => s)

end StorageServer

/-- `_get_chunk_from`: nothing where the source cannot be reached or has no such chunk. -/
def getChunkFrom : Option GetChunkResponse → Option Bytes
  | none => none
  | some resp => if resp.ok then some resp.data else none

namespace StorageServer

/-- `source` is what the source answers to GetChunk, or nothing. -/
def replicateChunk (s : StorageServer) (c : ChunkId) (source : Option GetChunkResponse)
    (outcome : WriteOutcome) : ReplicateChunkResponse × StorageServer :=
  match getChunkFrom source with
  | none => (⟨false, "source chunk unavailable"⟩, s)
  | some data =>
    (⟨(s.storeChunk ⟨c, data, outcome⟩).1.ok, (s.storeChunk ⟨c, data, outcome⟩).1.message⟩,
      (s.storeChunk ⟨c, data, outcome⟩).2)

end StorageServer

/-! ### Requests -/

inductive StorageRequest
  | storeChunk (it : WriteItem)
  | storeChunks (items : List WriteItem)
  | getChunk (c : ChunkId)
  | getChunks (ids : List ChunkId)
  | deleteChunk (c : ChunkId)
  | replicateChunk (c : ChunkId) (source : Option GetChunkResponse) (outcome : WriteOutcome)

inductive StorageResponse
  | storeChunk (resp : StoreChunkResponse)
  | storeChunks (resp : StoreChunksResponse)
  | getChunk (resp : GetChunkResponse)
  | getChunks (resp : GetChunksResponse)
  | deleteChunk (resp : DeleteChunkResponse)
  | replicateChunk (resp : ReplicateChunkResponse)
  deriving DecidableEq

def StorageServer.handle (s : StorageServer) : StorageRequest → StorageResponse × StorageServer
  | .storeChunk it => (.storeChunk (s.storeChunk it).1, (s.storeChunk it).2)
  | .storeChunks items => (.storeChunks (s.storeChunks items).1, (s.storeChunks items).2)
  | .getChunk c => (.getChunk (s.getChunk c), s)
  | .getChunks ids => (.getChunks (s.getChunks ids), s)
  | .deleteChunk c => (.deleteChunk (s.deleteChunk c).1, (s.deleteChunk c).2)
  | .replicateChunk c source outcome =>
    (.replicateChunk (s.replicateChunk c source outcome).1, (s.replicateChunk c source outcome).2)

end GfsCluster
