import Mathlib.Logic.Function.Basic
import GfsCluster.Naming.Server

/-! The steps of the naming server's handlers and threads, in the order of the source.
A step that is not enabled in the current phase is `none`. -/

namespace GfsCluster

def CreateHandler.crash (h : CreateHandler) : CreateHandler :=
  match h.phase with
  | .idle | .replied _ => h
  | _ => ⟨h.req, .failed⟩

def DeleteHandler.crash (h : DeleteHandler) : DeleteHandler :=
  match h.phase with
  | .idle | .replied _ => h
  | _ => ⟨h.filename, .failed⟩

def GetHandler.crash (h : GetHandler) : GetHandler :=
  match h.phase with
  | .idle | .replied _ => h
  | _ => ⟨h.filename, .failed⟩

namespace NamingServer

variable (cfg : Settings) (n : NamingServer)

def setCreate (k : ℕ) (phase : CreatePhase) : NamingServer :=
  { n with creates := Function.update n.creates k ⟨(n.creates k).req, phase⟩ }

def setDelete (k : ℕ) (phase : DeletePhase) : NamingServer :=
  { n with deletes := Function.update n.deletes k ⟨(n.deletes k).filename, phase⟩ }

def setGet (k : ℕ) (phase : GetPhase) : NamingServer :=
  { n with gets := Function.update n.gets k ⟨(n.gets k).filename, phase⟩ }

/-- `delete_file`, remembering what it removed. -/
def removeFile (f : Filename) : NamingServer :=
  { n with
    store := (n.store.deleteFile f).2
    graves := n.graves ++ n.db.chunksWithRow f }

/-! ### CreateFile -/

def createStep (k : ℕ) : CreateStep → Option NamingServer
  | .receive req =>
    match (n.creates k).phase with
    | .idle => some { n with creates := Function.update n.creates k ⟨req, .received⟩ }
    | _ => none
  | .checkLive =>
    match (n.creates k).phase with
    | .received =>
      let live := (n.registry.liveServers n.now).length
      let replication := cfg.replication
      if live < replication then
        some (n.setCreate k (.replied ⟨false,
          s!"need {replication} storage servers for replication, " ++ s!"only {live} are live", []⟩))
      else some (n.setCreate k .checked)
    | _ => none
  | .selectFile o =>
    match (n.creates k).phase with
    | .checked =>
      match selectFile (o.view n.db) (n.creates k).req.filename with
      | none => some (n.setCreate k (.placing []))
      | some row => some (n.setCreate k (.oldRow row))
    | _ => none
  | .selectChunks o =>
    match (n.creates k).phase with
    | .oldRow row =>
      -- the deletion thread starts here, before anything is placed or reserved
      let old := FileMeta.ofRow row
        (collectChunks (selectChunks (o.view n.db) (n.creates k).req.filename))
      some { n.setCreate k (.placing []) with purges := n.purges ++ old.pairs.map (k, ·) }
    | _ => none
  | .place id =>
    match (n.creates k).phase with
    | .placing chunks =>
      if chunks.length < (n.creates k).req.numChunks.toNat then
        let picked := n.registry.pick n.now cfg.replication
        if picked.1.length < cfg.replication then
          some { n.setCreate k (.replied ⟨false, "not enough live storage servers", []⟩) with
            registry := picked.2 }
        else if id ∈ n.issued.map Issue.chunkId then none
        else
          some { n.setCreate k (.placing (chunks ++ [⟨id, chunks.length, picked.1⟩])) with
            registry := picked.2
            issued := n.issued ++ [⟨id, k, chunks.length⟩] }
      else none
    | _ => none
  | .reserve now =>
    match (n.creates k).phase with
    | .placing chunks =>
      if chunks.length < (n.creates k).req.numChunks.toNat then none
      else
        let req := (n.creates k).req
        match n.store.createPending req.filename req.size req.numChunks chunks now with
        | (.ok (), store) =>
          some { n.setCreate k (.replied ⟨true, "reserved", chunks.map ChunkMeta.placement⟩) with
            store := store
            graves := n.graves ++ n.db.chunksWithRow req.filename }
        | (.error _, store) => some { n.setCreate k .failed with store := store }
    | _ => none

/-! ### DeleteFile -/

def deleteMessage (failures : ℕ) : String :=
  if failures = 0 then "deleted"
  else s!"metadata deleted; {failures} replica deletes failed (orphaned)"

def deleteStep (k : ℕ) : DeleteStep → Option (NamingServer × List StorageRpc)
  | .receive f =>
    match (n.deletes k).phase with
    | .idle => some ({ n with deletes := Function.update n.deletes k ⟨f, .received⟩ }, [])
    | _ => none
  | .selectFile o =>
    match (n.deletes k).phase with
    | .received =>
      match selectFile (o.view n.db) (n.deletes k).filename with
      | none => some (n.setDelete k (.replied ⟨false, "file not found"⟩), [])
      | some row => some (n.setDelete k (.row row), [])
    | _ => none
  | .selectChunks o =>
    match (n.deletes k).phase with
    | .row row =>
      some (n.setDelete k (.loaded (.ofRow row
        (collectChunks (selectChunks (o.view n.db) (n.deletes k).filename)))), [])
    | _ => none
  | .remove =>
    match (n.deletes k).phase with
    | .loaded fm =>
      some ((n.removeFile (n.deletes k).filename).setDelete k (.sending fm.pairs 0), [])
    | _ => none
  | .send i ok =>
    match (n.deletes k).phase with
    | .sending pending failures =>
      match pending[i]? with
      | some (addr, c) =>
        some (n.setDelete k (.sending (pending.eraseIdx i) (if ok then failures else failures + 1)),
          [.deleteChunk addr c])
      | none => none
    | _ => none
  | .reply =>
    match (n.deletes k).phase with
    | .sending [] failures => some (n.setDelete k (.replied ⟨true, deleteMessage failures⟩), [])
    | _ => none

/-! ### GetFile -/

def getStep (k : ℕ) : GetStep → Option NamingServer
  | .receive f =>
    match (n.gets k).phase with
    | .idle => some { n with gets := Function.update n.gets k ⟨f, .received⟩ }
    | _ => none
  | .selectFile o =>
    match (n.gets k).phase with
    | .received =>
      match selectFile (o.view n.db) (n.gets k).filename with
      | none => some (n.setGet k (.replied (getFileResponse none [])))
      | some row => some (n.setGet k (.row row))
    | _ => none
  | .selectChunks o =>
    match (n.gets k).phase with
    | .row row =>
      some (n.setGet k (.loaded (.ofRow row
        (collectChunks (selectChunks (o.view n.db) (n.gets k).filename)))))
    | _ => none
  | .reply =>
    match (n.gets k).phase with
    | .loaded fm =>
      some (n.setGet k (.replied (getFileResponse (some fm) (n.registry.liveServers n.now))))
    | _ => none

/-! ### The cleanup loop -/

def cleanupStep : CleanupStep → Option (NamingServer × List StorageRpc)
  | .listNames now o =>
    match n.cleanup with
    | .idle =>
      let cutoff := now - cfg.cleanupMaxAge
      some ({ n with cleanup := .listing cutoff (stalePendingNames (o.view n.db) cutoff) [] }, [])
    | _ => none
  | .selectFile o =>
    match n.cleanup with
    | .listing cutoff [] stale => some ({ n with cleanup := .removing cutoff stale }, [])
    | .listing cutoff (f :: names) stale =>
      match selectFile (o.view n.db) f with
      | none => some ({ n with cleanup := .listing cutoff names stale }, [])
      | some row => some ({ n with cleanup := .listingRow cutoff row names stale }, [])
    | _ => none
  | .selectChunks o =>
    match n.cleanup with
    | .listingRow cutoff row names stale =>
      let fm := FileMeta.ofRow row (collectChunks (selectChunks (o.view n.db) row.filename))
      some ({ n with cleanup := .listing cutoff names (stale ++ [fm]) }, [])
    | _ => none
  | .remove =>
    match n.cleanup with
    | .removing _ [] => some ({ n with cleanup := .idle }, [])
    | .removing cutoff (fm :: stale) =>
      some ({ n.removeFile fm.filename with cleanup := .sending cutoff fm.pairs stale }, [])
    | _ => none
  | .send =>
    match n.cleanup with
    | .sending cutoff [] stale => some ({ n with cleanup := .removing cutoff stale }, [])
    | .sending cutoff ((addr, c) :: pending) stale =>
      some ({ n with cleanup := .sending cutoff pending stale }, [.deleteChunk addr c])
    | _ => none

/-! ### heal_once -/

/-- The local variables at the start of the repair of a chunk; nothing is done for a chunk
at target or without a live location. -/
def startRepair (live : List Addr) (m : ChunkMeta) : Option Repair :=
  let known := m.locations.eraseDups
  let liveLocations := known.filter (· ∈ live)
  if cfg.replication ≤ liveLocations.length then none
  else if liveLocations = [] then none
  else some ⟨m.chunkId, liveLocations, known.filter (· ∉ live), live.filter (· ∉ known)⟩

def healStep : HealStep → Option (NamingServer × List StorageRpc)
  | .count =>
    match n.heal with
    | .idle => some ({ n with heal := .counted (n.registry.liveServers n.now).length }, [])
    | _ => none
  | .pick =>
    match n.heal with
    | .counted count =>
      let picked := n.registry.pick n.now count
      some ({ n with
        registry := picked.2
        heal := if picked.1.length < cfg.replication then .refreshing (some 0)
          else .picked picked.1 }, [])
    | _ => none
  | .known o =>
    match n.heal with
    | .picked live =>
      some ({ n with
        heal := if ∀ addr ∈ knownReplicaAddresses (o.view n.db), addr ∈ live then .refreshing (some 0)
          else .known live }, [])
    | _ => none
  | .scan o =>
    match n.heal with
    | .known live =>
      some ({ n with
        heal := .scanning live (underReplicatedChunks (o.view n.db) live cfg.replication) 0 }, [])
    | _ => none
  | .next =>
    match n.heal with
    | .scanning _ [] repaired => some ({ n with heal := .refreshing (some repaired) }, [])
    | .scanning live (m :: rest) repaired =>
      match startRepair cfg live m with
      | none => some ({ n with heal := .scanning live rest repaired }, [])
      | some w => some ({ n with heal := .repairing live rest repaired w }, [])
    | _ => none
  | .copy =>
    match n.heal with
    | .repairing live rest repaired w =>
      match w.candidates, w.live with
      | target :: candidates, source :: _ =>
        if w.live.length < cfg.replication then
          some ({ n with
            ticket := n.ticket + 1
            heal := .copying live rest repaired { w with candidates := candidates } target n.ticket },
            [.replicateChunk n.ticket target w.chunkId source])
        else some ({ n with heal := .scanning live rest repaired }, [])
      | _, _ => some ({ n with heal := .scanning live rest repaired }, [])
    | _ => none
  | .answer ok =>
    match n.heal with
    | .copying live rest repaired w target _ =>
      some ({ n with
        heal := if ok then .copied live rest repaired w target
          else .repairing live rest repaired w }, [])
    | _ => none
  | .record =>
    match n.heal with
    | .copied live rest repaired w target =>
      match n.store.addReplica w.chunkId target with
      | (.error _, store) => some ({ n with store := store, heal := .refreshing none }, [])
      | (.ok _, store) =>
        let w' := { w with live := w.live ++ [target] }
        match w.stale with
        | [] => some ({ n with store := store, heal := .repairing live rest (repaired + 1) w' }, [])
        | x :: stale =>
          some ({ n with
            store := store
            heal := .dropping live rest (repaired + 1) { w' with stale := stale } x }, [])
    | _ => none
  | .drop =>
    match n.heal with
    | .dropping live rest repaired w x =>
      some ({ n with
        store := (n.store.removeReplica w.chunkId x).2
        heal := .repairing live rest repaired w }, [])
    | _ => none
  -- `_refresh_cluster_metrics` changes gauges only, but may raise: see `healResult`
  | .refresh _ =>
    match n.heal with
    | .refreshing _ => some ({ n with heal := .idle }, [])
    | _ => none

/-- What `heal_once` returns when its `finally` ends: nothing where the `SUM` of
`_refresh_cluster_metrics` raises, or an exception was on its way already. -/
def healResult (o : RowOrder) : Option ℕ :=
  match n.heal with
  | .refreshing result => (committedBytes (o.view n.db)).bind fun _ => result
  | _ => none

/-! ### The whole machine -/

/-- The process dies and starts again on the same database file: threads, handlers, the
registry and an open transaction are lost. -/
def crash : NamingServer :=
  { n with
    store := ⟨n.store.committed, n.store.committed⟩
    registry := .init
    creates := fun k => (n.creates k).crash
    deletes := fun k => (n.deletes k).crash
    gets := fun k => (n.gets k).crash
    purges := []
    cleanup := .idle
    heal := .idle }

def step : NamingAction → Option (NamingServer × List StorageRpc)
  | .registerStorage addr => some ({ n with registry := n.registry.markAlive n.now addr }, [])
  | .heartbeat addr => some ({ n with registry := n.registry.markAlive n.now addr }, [])
  | .tick d => if 0 ≤ d then some ({ n with now := n.now + d }, []) else none
  | .create k a => (n.createStep cfg k a).map (·, [])
  | .commit f => some ({ n with store := (n.store.commitFile f).2 }, [])
  | .delete k a => n.deleteStep k a
  | .get k a => (n.getStep k a).map (·, [])
  | .purge i =>
    match n.purges[i]? with
    | some (_, addr, c) => some ({ n with purges := n.purges.eraseIdx i }, [.deleteChunk addr c])
    | none => none
  | .cleanup a => n.cleanupStep cfg a
  | .heal a => n.healStep cfg a
  | .crash => some (n.crash, [])

/-- The next state, without the requests sent. -/
def next (a : NamingAction) : Option NamingServer := (n.step cfg a).map Prod.fst

end NamingServer

end GfsCluster
