import GfsCluster.Client.Upload
import GfsCluster.Naming.Server

/-! The whole cluster: the naming server, the disks of the storage servers, clients in
the middle of a `create`, and the requests under way to storage servers. A request that
its sender has given up on stays under way until it is dropped. Reads are not part of
the state, since they change nothing. Two histories are kept that nothing reads: what
storage servers acknowledged to clients, and what a startup scrub removed. -/

namespace GfsCluster

/-! ### Clients -/

inductive UploadState
  | ready
  | waiting
  | failed
  deriving DecidableEq

/-- One `_upload` thread of a `create`: the batches not yet acknowledged. -/
structure Upload where
  addr : Addr
  todo : List (List (ChunkId × Bytes))
  state : UploadState

inductive CallPhase
  | idle
  | requested
  | uploading (uploads : List Upload)
  | committing
  | returned
  | raised

/-- The CommitFile request of a `create`. -/
inductive CommitCall
  | unsent
  | sent
  | answered (ok : Bool)
  | lost
  deriving DecidableEq

/-- One call of `GFSClient.create`. -/
structure CreateCall where
  filename : Filename
  data : Bytes
  phase : CallPhase
  commit : CommitCall

/-- What `create` does with the answer of CreateFile. -/
def afterCreateFile (data : Bytes) (resp : CreateFileResponse) : CallPhase :=
  if resp.ok then
    match uploadPlan (splitChunks data) resp.placements with
    | some plan => .uploading (plan.map fun w => ⟨w.1, uploadBatches w.2, .ready⟩)
    | none => .raised
  else .raised

/-! ### Storage servers -/

/-- The chunk files of a storage server. -/
abbrev Disk := AList fun _ : ChunkId => Bytes

/-- `_cleanup_orphans_once`. -/
inductive ScrubPhase
  | idle
  | queried (expected : List ChunkId)
  | removing (orphans : List ChunkId)

/-- A request under way to a storage server. `stored` counts the items of StoreChunks
that are written; ReplicateChunk becomes `replicateData` once its target has fetched
the chunk from the source. -/
inductive Message
  | storeChunks (call : ℕ) (addr : Addr) (chunks : List (ChunkId × Bytes)) (stored : ℕ)
  | deleteChunk (addr : Addr) (chunkId : ChunkId)
  | replicateChunk (ticket : ℕ) (addr : Addr) (chunkId : ChunkId) (source : Addr)
  | replicateData (ticket : ℕ) (addr : Addr) (chunkId : ChunkId) (data : Bytes)

def StorageRpc.message : StorageRpc → Message
  | .deleteChunk addr c => .deleteChunk addr c
  | .replicateChunk ticket target c source => .replicateChunk ticket target c source

/-! ### The cluster -/

structure Cluster where
  naming : NamingServer
  calls : ℕ → CreateCall
  disks : Addr → Disk
  scrubs : Addr → ScrubPhase
  net : List Message
  copies : List ℕ
  acked : List (ChunkId × Addr × Bytes)
  scrubbed : List (Addr × ChunkId)

namespace Cluster

def init : Cluster where
  naming := .init
  calls _ := ⟨[], [], .idle, .unsent⟩
  disks _ := ∅
  scrubs _ := .idle
  net := []
  copies := []
  acked := []
  scrubbed := []

/-- The chunk file, if the server has one. -/
def file (s : Cluster) (addr : Addr) (c : ChunkId) : Option Bytes := (s.disks addr).lookup c

end Cluster

inductive ClusterAction
  | naming (a : NamingAction)
  | createCall (k : ℕ) (f : Filename) (data : Bytes)
  | createReply (k : ℕ)
  | sendBatch (k j : ℕ)
  | storeItem (i : ℕ)
  | storeReply (k j i : ℕ)
  | uploadFail (k j : ℕ)
  | commitSend (k : ℕ)
  | commitExec (k : ℕ)
  | commitLost (k : ℕ)
  | commitReply (k : ℕ)
  | clientStop (k : ℕ)
  | deleteExec (i : ℕ)
  | copyFetch (i : ℕ)
  | copyStore (i : ℕ)
  | drop (i : ℕ)
  | scrubQuery (addr : Addr) (o : RowOrder)
  | scrubList (addr : Addr)
  | scrubRemove (addr : Addr) (c : ChunkId)
  | scrubStop (addr : Addr)

end GfsCluster
