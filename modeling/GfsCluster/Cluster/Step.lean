import GfsCluster.Cluster.State
import GfsCluster.Naming.Step

/-! The steps of the cluster. A step of the naming server that answers a client's call
is taken together with that call; all its other steps are `naming` steps, and the
requests they send go under way. Time, crashes and lost messages are steps like others:
whoever waits may stop waiting at any point. -/

namespace GfsCluster

namespace Cluster

variable (cfg : Settings) (s : Cluster)

def setPhase (k : ℕ) (phase : CallPhase) : Cluster :=
  { s with calls := Function.update s.calls k { s.calls k with phase := phase } }

def setCommit (k : ℕ) (commit : CommitCall) : Cluster :=
  { s with calls := Function.update s.calls k { s.calls k with commit := commit } }

/-- `open(tmp)`, write, `os.replace`. -/
def write (addr : Addr) (c : ChunkId) (data : Bytes) : Cluster :=
  { s with
    disks := Function.update s.disks addr ((s.disks addr).insert c data)
    scrubbed := s.scrubbed.filter (· ≠ (addr, c)) }

/-- `os.remove`, which passes over a file that is not there. -/
def remove (addr : Addr) (c : ChunkId) : Cluster :=
  { s with disks := Function.update s.disks addr ((s.disks addr).erase c) }

def setScrub (addr : Addr) (phase : ScrubPhase) : Cluster :=
  { s with scrubs := Function.update s.scrubs addr phase }

/-- The steps of the naming server that wait for nobody: requests of clients come in by
their calls, and ReplicateChunk answers ok only once the copy is stored. -/
def Free : NamingAction → Prop
  | .create _ (.receive _) | .commit _ => False
  | .heal (.answer true) =>
    match s.naming.heal with
    | .copying _ _ _ _ _ ticket => ticket ∈ s.copies
    | _ => False
  | _ => True

instance (a : NamingAction) : Decidable (s.Free a) :=
  match a with
  | .create _ (.receive _) | .commit _ => .isFalse id
  | .heal (.answer true) => by
    unfold Free
    cases s.naming.heal <;> infer_instance
  | .create _ .checkLive | .create _ (.selectFile _) | .create _ (.selectChunks _)
  | .create _ (.place _) | .create _ (.reserve _) | .registerStorage _ | .heartbeat _ | .tick _
  | .delete _ _ | .get _ _ | .purge _ | .cleanup _ | .crash | .heal (.answer false)
  | .heal .count | .heal .pick | .heal (.known _) | .heal (.scan _) | .heal .next | .heal .copy
  | .heal .record | .heal .drop | .heal (.refresh _) => .isTrue trivial

def step : ClusterAction → Option Cluster
  | .naming a =>
    if s.Free a then
      (s.naming.step cfg a).map fun p =>
        { s with naming := p.1, net := s.net ++ p.2.map StorageRpc.message }
    else none
  -- GFSClient.create
  | .createCall k f data =>
    match (s.calls k).phase with
    | .idle => (s.naming.step cfg (.create k (.receive (createRequest f data)))).map fun p =>
        { s with naming := p.1, calls := Function.update s.calls k ⟨f, data, .requested, .unsent⟩ }
    | _ => none
  | .createReply k =>
    match (s.calls k).phase, (s.naming.creates k).phase with
    | .requested, .replied resp => some (s.setPhase k (afterCreateFile (s.calls k).data resp))
    | _, _ => none
  | .sendBatch k j =>
    match (s.calls k).phase with
    | .uploading us =>
      match us[j]? with
      | some ⟨addr, batch :: rest, .ready⟩ =>
        some { s.setPhase k (.uploading (us.set j ⟨addr, batch :: rest, .waiting⟩)) with
          net := s.net ++ [.storeChunks k addr batch 0] }
      | _ => none
    | _ => none
  | .storeReply k j i =>
    match (s.calls k).phase, s.net[i]? with
    | .uploading us, some (.storeChunks k' addr chunks stored) =>
      match us[j]? with
      | some ⟨addr', batch :: rest, .waiting⟩ =>
        if k' = k ∧ addr' = addr ∧ chunks = batch ∧ stored = chunks.length then
          some { s.setPhase k (.uploading (us.set j ⟨addr, rest, .ready⟩)) with
            net := s.net.eraseIdx i
            acked := s.acked ++ chunks.map fun x => (x.1, addr, x.2) }
        else none
      | _ => none
    | _, _ => none
  | .uploadFail k j =>
    match (s.calls k).phase with
    | .uploading us =>
      match us[j]? with
      | some ⟨addr, todo, .waiting⟩ =>
        some (s.setPhase k (.uploading (us.set j ⟨addr, todo, .failed⟩)))
      | _ => none
    | _ => none
  | .commitSend k =>
    match (s.calls k).phase with
    | .uploading us =>
      if ∀ u ∈ us, u.todo = [] ∧ u.state = .ready then
        some ((s.setPhase k .committing).setCommit k .sent)
      else none
    | _ => none
  | .commitExec k =>
    match (s.calls k).commit with
    | .sent => (s.naming.step cfg (.commit (s.calls k).filename)).map fun p =>
        { s.setCommit k (.answered (s.naming.store.commitFile (s.calls k).filename).1) with
          naming := p.1 }
    | _ => none
  | .commitLost k =>
    match (s.calls k).commit with
    | .sent => some (s.setCommit k .lost)
    | _ => none
  | .commitReply k =>
    match (s.calls k).phase, (s.calls k).commit with
    | .committing, .answered ok => some (s.setPhase k (if ok then .returned else .raised))
    | _, _ => none
  | .clientStop k =>
    match (s.calls k).phase with
    | .requested | .uploading _ | .committing => some (s.setPhase k .raised)
    | _ => none
  -- storage servers
  | .storeItem i =>
    match s.net[i]? with
    | some (.storeChunks k addr chunks stored) =>
      match chunks[stored]? with
      | some (c, data) =>
        some { s.write addr c data with net := s.net.set i (.storeChunks k addr chunks (stored + 1)) }
      | none => none
    | _ => none
  | .deleteExec i =>
    match s.net[i]? with
    | some (.deleteChunk addr c) => some { s.remove addr c with net := s.net.eraseIdx i }
    | _ => none
  | .copyFetch i =>
    match s.net[i]? with
    | some (.replicateChunk ticket addr c source) =>
      match s.file source c with
      | some data => some { s with net := s.net.set i (.replicateData ticket addr c data) }
      | none => some { s with net := s.net.eraseIdx i }
    | _ => none
  | .copyStore i =>
    match s.net[i]? with
    | some (.replicateData ticket addr c data) =>
      some { s.write addr c data with net := s.net.eraseIdx i, copies := ticket :: s.copies }
    | _ => none
  | .drop i => if i < s.net.length then some { s with net := s.net.eraseIdx i } else none
  -- the startup scrub
  | .scrubQuery addr o =>
    match s.scrubs addr with
    | .idle => some (s.setScrub addr (.queried (listChunkIdsFor (o.view s.naming.db) addr)))
    | _ => none
  | .scrubList addr =>
    match s.scrubs addr with
    | .queried expected =>
      some (s.setScrub addr (.removing ((s.disks addr).keys.filter (· ∉ expected))))
    | _ => none
  | .scrubRemove addr c =>
    match s.scrubs addr with
    | .removing orphans =>
      if c ∈ orphans then
        some { (s.remove addr c).setScrub addr (.removing (orphans.erase c)) with
          scrubbed := s.scrubbed ++ [(addr, c)] }
      else none
    | _ => none
  | .scrubStop addr => some (s.setScrub addr .idle)

end Cluster

end GfsCluster
