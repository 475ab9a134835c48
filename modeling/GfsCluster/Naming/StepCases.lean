import GfsCluster.Naming.Step

/-! The ways through the step functions, each with all that it does. A proof about a step goes
through them one by one, and never has to look at a step function itself. -/

namespace GfsCluster

namespace NamingServer

variable {cfg : Settings} {n n' : NamingServer} {k : ℕ} {out : List StorageRpc}

/-! ### CreateFile -/

inductive CreateCase (cfg : Settings) (n : NamingServer) (k : ℕ) : CreateStep → NamingServer → Prop
  | receive (req : CreateFileRequest) (hp : (n.creates k).phase = .idle) :
    CreateCase cfg n k (.receive req)
      { n with creates := Function.update n.creates k ⟨req, .received⟩ }
  | tooFew (hp : (n.creates k).phase = .received)
      (hlt : (n.registry.liveServers n.now).length < cfg.replication) :
    CreateCase cfg n k .checkLive (n.setCreate k (.replied ⟨false,
      s!"need {cfg.replication} storage servers for replication, " ++
        s!"only {(n.registry.liveServers n.now).length} are live", []⟩))
  | checkLive (hp : (n.creates k).phase = .received)
      (hlive : cfg.replication ≤ (n.registry.liveServers n.now).length) :
    CreateCase cfg n k .checkLive (n.setCreate k .checked)
  | newName (o : RowOrder) (hp : (n.creates k).phase = .checked)
      (hrow : selectFile (o.view n.db) (n.creates k).req.filename = none) :
    CreateCase cfg n k (.selectFile o) (n.setCreate k (.placing []))
  | oldName (o : RowOrder) (row : FileRow) (hp : (n.creates k).phase = .checked)
      (hrow : selectFile (o.view n.db) (n.creates k).req.filename = some row) :
    CreateCase cfg n k (.selectFile o) (n.setCreate k (.oldRow row))
  | selectChunks (o : RowOrder) (row : FileRow) (hp : (n.creates k).phase = .oldRow row) :
    CreateCase cfg n k (.selectChunks o) { n.setCreate k (.placing []) with
      purges := n.purges ++ (FileMeta.ofRow row
        (collectChunks (selectChunks (o.view n.db) (n.creates k).req.filename))).pairs.map (k, ·) }
  | fallShort (id : ChunkId) (chunks : List ChunkMeta) (hp : (n.creates k).phase = .placing chunks)
      (hlt : chunks.length < (n.creates k).req.numChunks.toNat)
      (hshort : (n.registry.pick n.now cfg.replication).1.length < cfg.replication) :
    CreateCase cfg n k (.place id)
      { n.setCreate k (.replied ⟨false, "not enough live storage servers", []⟩) with
        registry := (n.registry.pick n.now cfg.replication).2 }
  | place (id : ChunkId) (chunks : List ChunkMeta) (hp : (n.creates k).phase = .placing chunks)
      (hlt : chunks.length < (n.creates k).req.numChunks.toNat)
      (hlen : (n.registry.pick n.now cfg.replication).1.length = cfg.replication)
      (hfresh : id ∉ n.issued.map Issue.chunkId) :
    CreateCase cfg n k (.place id)
      { n.setCreate k (.placing (chunks ++
          [⟨id, chunks.length, (n.registry.pick n.now cfg.replication).1⟩])) with
        registry := (n.registry.pick n.now cfg.replication).2
        issued := n.issued ++ [⟨id, k, chunks.length⟩] }
  | reserve (now : Seconds) (chunks : List ChunkMeta) (store : MetadataStore)
      (hp : (n.creates k).phase = .placing chunks)
      (hall : (n.creates k).req.numChunks.toNat ≤ chunks.length)
      (hpend : n.store.createPending (n.creates k).req.filename (n.creates k).req.size
        (n.creates k).req.numChunks chunks now = (.ok (), store)) :
    CreateCase cfg n k (.reserve now)
      { n.setCreate k (.replied ⟨true, "reserved", chunks.map ChunkMeta.placement⟩) with
        store := store
        graves := n.graves ++ n.db.chunksWithRow (n.creates k).req.filename }
  | raise (now : Seconds) (chunks : List ChunkMeta) (e : SqlError) (store : MetadataStore)
      (hp : (n.creates k).phase = .placing chunks)
      (hall : (n.creates k).req.numChunks.toNat ≤ chunks.length)
      (hpend : n.store.createPending (n.creates k).req.filename (n.creates k).req.size
        (n.creates k).req.numChunks chunks now = (.error e, store)) :
    CreateCase cfg n k (.reserve now) { n.setCreate k .failed with store := store }

theorem case_of_createStep {a : CreateStep} (h : n.createStep cfg k a = some n') :
    CreateCase cfg n k a n' := by
  cases a with
  | receive req =>
    simp only [createStep] at h
    split at h <;> cases h
    exact .receive req ‹_›
  | checkLive =>
    simp only [createStep] at h
    split at h
    · rename_i hp
      split_ifs at h with hlt <;> cases h
      · exact .tooFew hp hlt
      · exact .checkLive hp (not_lt.mp hlt)
    · cases h
  | selectFile o =>
    simp only [createStep] at h
    split at h
    · split at h <;> cases h
      · exact .newName o ‹_› ‹_›
      · exact .oldName o _ ‹_› ‹_›
    · cases h
  | selectChunks o =>
    simp only [createStep] at h
    split at h <;> cases h
    exact .selectChunks o _ ‹_›
  | place id =>
    simp only [createStep] at h
    split at h
    · rename_i chunks hp
      split_ifs at h with hlt hshort hfresh <;> cases h
      · exact .fallShort id chunks hp hlt hshort
      · have hlen := n.registry.length_pick n.now cfg.replication
        exact .place id chunks hp hlt (by omega) hfresh
    · cases h
  | reserve now =>
    simp only [createStep] at h
    split at h
    · rename_i chunks hp
      split_ifs at h with hlt
      split at h <;> cases h
      · exact .reserve now chunks _ hp (not_lt.mp hlt) ‹_›
      · exact .raise now chunks _ _ hp (not_lt.mp hlt) ‹_›
    · cases h

/-! ### DeleteFile -/

inductive DeleteCase (n : NamingServer) (k : ℕ) : DeleteStep → NamingServer × List StorageRpc → Prop
  | receive (f : Filename) (hp : (n.deletes k).phase = .idle) :
    DeleteCase n k (.receive f)
      ({ n with deletes := Function.update n.deletes k ⟨f, .received⟩ }, [])
  | notFound (o : RowOrder) (hp : (n.deletes k).phase = .received)
      (hrow : selectFile (o.view n.db) (n.deletes k).filename = none) :
    DeleteCase n k (.selectFile o) (n.setDelete k (.replied ⟨false, "file not found"⟩), [])
  | selectFile (o : RowOrder) (row : FileRow) (hp : (n.deletes k).phase = .received)
      (hrow : GfsCluster.selectFile (o.view n.db) (n.deletes k).filename = some row) :
    DeleteCase n k (.selectFile o) (n.setDelete k (.row row), [])
  | selectChunks (o : RowOrder) (row : FileRow) (hp : (n.deletes k).phase = .row row) :
    DeleteCase n k (.selectChunks o) (n.setDelete k (.loaded (.ofRow row
      (collectChunks (GfsCluster.selectChunks (o.view n.db) (n.deletes k).filename)))), [])
  | remove (fm : FileMeta) (hp : (n.deletes k).phase = .loaded fm) :
    DeleteCase n k .remove
      ((n.removeFile (n.deletes k).filename).setDelete k (.sending fm.pairs 0), [])
  | send (i : ℕ) (ok : Bool) (pending : List (Addr × ChunkId)) (failures : ℕ) (addr : Addr)
      (c : ChunkId) (hp : (n.deletes k).phase = .sending pending failures)
      (hi : pending[i]? = some (addr, c)) :
    DeleteCase n k (.send i ok)
      (n.setDelete k (.sending (pending.eraseIdx i) (if ok then failures else failures + 1)),
        [.deleteChunk addr c])
  | reply (failures : ℕ) (hp : (n.deletes k).phase = .sending [] failures) :
    DeleteCase n k .reply (n.setDelete k (.replied ⟨true, deleteMessage failures⟩), [])

theorem case_of_deleteStep {a : DeleteStep} (h : n.deleteStep k a = some (n', out)) :
    DeleteCase n k a (n', out) := by
  cases a with
  | receive f =>
    simp only [deleteStep] at h
    split at h <;> cases h
    exact .receive f ‹_›
  | selectFile o =>
    simp only [deleteStep] at h
    split at h
    · split at h <;> cases h
      · exact .notFound o ‹_› ‹_›
      · exact .selectFile o _ ‹_› ‹_›
    · cases h
  | selectChunks o =>
    simp only [deleteStep] at h
    split at h <;> cases h
    exact .selectChunks o _ ‹_›
  | remove =>
    simp only [deleteStep] at h
    split at h <;> cases h
    exact .remove _ ‹_›
  | send i ok =>
    simp only [deleteStep] at h
    split at h
    · split at h <;> cases h
      exact .send i ok _ _ _ _ ‹_› ‹_›
    · cases h
  | reply =>
    simp only [deleteStep] at h
    split at h <;> cases h
    exact .reply _ ‹_›

theorem deleteCase_of_step {a : DeleteStep} (h : n.step cfg (.delete k a) = some (n', out)) :
    DeleteCase n k a (n', out) :=
  case_of_deleteStep h

/-! ### GetFile -/

inductive GetCase (n : NamingServer) (k : ℕ) : GetStep → NamingServer → Prop
  | receive (f : Filename) (hp : (n.gets k).phase = .idle) :
    GetCase n k (.receive f) { n with gets := Function.update n.gets k ⟨f, .received⟩ }
  | notFound (o : RowOrder) (hp : (n.gets k).phase = .received)
      (hrow : selectFile (o.view n.db) (n.gets k).filename = none) :
    GetCase n k (.selectFile o) (n.setGet k (.replied (getFileResponse none [])))
  | selectFile (o : RowOrder) (row : FileRow) (hp : (n.gets k).phase = .received)
      (hrow : GfsCluster.selectFile (o.view n.db) (n.gets k).filename = some row) :
    GetCase n k (.selectFile o) (n.setGet k (.row row))
  | selectChunks (o : RowOrder) (row : FileRow) (hp : (n.gets k).phase = .row row) :
    GetCase n k (.selectChunks o) (n.setGet k (.loaded (.ofRow row
      (collectChunks (GfsCluster.selectChunks (o.view n.db) (n.gets k).filename)))))
  | reply (fm : FileMeta) (hp : (n.gets k).phase = .loaded fm) :
    GetCase n k .reply
      (n.setGet k (.replied (getFileResponse (some fm) (n.registry.liveServers n.now))))

theorem case_of_getStep {a : GetStep} (h : n.getStep k a = some n') : GetCase n k a n' := by
  cases a with
  | receive f =>
    simp only [getStep] at h
    split at h <;> cases h
    exact .receive f ‹_›
  | selectFile o =>
    simp only [getStep] at h
    split at h
    · split at h <;> cases h
      · exact .notFound o ‹_› ‹_›
      · exact .selectFile o _ ‹_› ‹_›
    · cases h
  | selectChunks o =>
    simp only [getStep] at h
    split at h <;> cases h
    exact .selectChunks o _ ‹_›
  | reply =>
    simp only [getStep] at h
    split at h <;> cases h
    exact .reply _ ‹_›

/-! ### The cleanup loop -/

inductive CleanupCase (cfg : Settings) (n : NamingServer) :
    CleanupStep → NamingServer × List StorageRpc → Prop
  | listNames (now : Seconds) (o : RowOrder) (hp : n.cleanup = .idle) :
    CleanupCase cfg n (.listNames now o) ({ n with
      cleanup := .listing (now - cfg.cleanupMaxAge)
        (stalePendingNames (o.view n.db) (now - cfg.cleanupMaxAge)) [] }, [])
  | listed (o : RowOrder) (cutoff : Seconds) (stale : List FileMeta)
      (hp : n.cleanup = .listing cutoff [] stale) :
    CleanupCase cfg n (.selectFile o) ({ n with cleanup := .removing cutoff stale }, [])
  | gone (o : RowOrder) (cutoff : Seconds) (f : Filename) (names : List Filename)
      (stale : List FileMeta) (hp : n.cleanup = .listing cutoff (f :: names) stale)
      (hrow : selectFile (o.view n.db) f = none) :
    CleanupCase cfg n (.selectFile o) ({ n with cleanup := .listing cutoff names stale }, [])
  | selectFile (o : RowOrder) (cutoff : Seconds) (f : Filename) (row : FileRow)
      (names : List Filename) (stale : List FileMeta)
      (hp : n.cleanup = .listing cutoff (f :: names) stale)
      (hrow : GfsCluster.selectFile (o.view n.db) f = some row) :
    CleanupCase cfg n (.selectFile o) ({ n with cleanup := .listingRow cutoff row names stale }, [])
  | selectChunks (o : RowOrder) (cutoff : Seconds) (row : FileRow) (names : List Filename)
      (stale : List FileMeta) (hp : n.cleanup = .listingRow cutoff row names stale) :
    CleanupCase cfg n (.selectChunks o) ({ n with
      cleanup := .listing cutoff names (stale ++ [FileMeta.ofRow row
        (collectChunks (GfsCluster.selectChunks (o.view n.db) row.filename))]) }, [])
  | finish (cutoff : Seconds) (hp : n.cleanup = .removing cutoff []) :
    CleanupCase cfg n .remove ({ n with cleanup := .idle }, [])
  | remove (cutoff : Seconds) (fm : FileMeta) (stale : List FileMeta)
      (hp : n.cleanup = .removing cutoff (fm :: stale)) :
    CleanupCase cfg n .remove
      ({ n.removeFile fm.filename with cleanup := .sending cutoff fm.pairs stale }, [])
  | sent (cutoff : Seconds) (stale : List FileMeta) (hp : n.cleanup = .sending cutoff [] stale) :
    CleanupCase cfg n .send ({ n with cleanup := .removing cutoff stale }, [])
  | send (cutoff : Seconds) (addr : Addr) (c : ChunkId) (pending : List (Addr × ChunkId))
      (stale : List FileMeta) (hp : n.cleanup = .sending cutoff ((addr, c) :: pending) stale) :
    CleanupCase cfg n .send
      ({ n with cleanup := .sending cutoff pending stale }, [.deleteChunk addr c])

theorem case_of_cleanupStep {a : CleanupStep} (h : n.cleanupStep cfg a = some (n', out)) :
    CleanupCase cfg n a (n', out) := by
  cases a with
  | listNames now o =>
    simp only [cleanupStep] at h
    split at h <;> cases h
    exact .listNames now o ‹_›
  | selectFile o =>
    simp only [cleanupStep] at h
    split at h
    · cases h
      exact .listed o _ _ ‹_›
    · split at h <;> cases h
      · exact .gone o _ _ _ _ ‹_› ‹_›
      · exact .selectFile o _ _ _ _ _ ‹_› ‹_›
    · cases h
  | selectChunks o =>
    simp only [cleanupStep] at h
    split at h <;> cases h
    exact .selectChunks o _ _ _ _ ‹_›
  | remove =>
    simp only [cleanupStep] at h
    split at h <;> cases h
    · exact .finish _ ‹_›
    · exact .remove _ _ _ ‹_›
  | send =>
    simp only [cleanupStep] at h
    split at h <;> cases h
    · exact .sent _ _ ‹_›
    · exact .send _ _ _ _ _ ‹_›

theorem cleanupCase_of_step {a : CleanupStep} (h : n.step cfg (.cleanup a) = some (n', out)) :
    CleanupCase cfg n a (n', out) :=
  case_of_cleanupStep h

/-! ### heal_once -/

inductive HealCase (cfg : Settings) (n : NamingServer) :
    HealStep → NamingServer × List StorageRpc → Prop
  | count (hp : n.heal = .idle) :
    HealCase cfg n .count ({ n with heal := .counted (n.registry.liveServers n.now).length }, [])
  | tooFew (count : ℕ) (hp : n.heal = .counted count)
      (hlt : (n.registry.pick n.now count).1.length < cfg.replication) :
    HealCase cfg n .pick ({ n with
      registry := (n.registry.pick n.now count).2
      heal := .refreshing (some 0) }, [])
  | pick (count : ℕ) (hp : n.heal = .counted count)
      (hlen : cfg.replication ≤ (n.registry.pick n.now count).1.length) :
    HealCase cfg n .pick ({ n with
      registry := (n.registry.pick n.now count).2
      heal := .picked (n.registry.pick n.now count).1 }, [])
  | allLive (o : RowOrder) (live : List Addr) (hp : n.heal = .picked live)
      (hall : ∀ addr ∈ knownReplicaAddresses (o.view n.db), addr ∈ live) :
    HealCase cfg n (.known o) ({ n with heal := .refreshing (some 0) }, [])
  | known (o : RowOrder) (live : List Addr) (hp : n.heal = .picked live)
      (hall : ¬ ∀ addr ∈ knownReplicaAddresses (o.view n.db), addr ∈ live) :
    HealCase cfg n (.known o) ({ n with heal := .known live }, [])
  | scan (o : RowOrder) (live : List Addr) (hp : n.heal = .known live) :
    HealCase cfg n (.scan o) ({ n with
      heal := .scanning live (underReplicatedChunks (o.view n.db) live cfg.replication) 0 }, [])
  | finish (live : List Addr) (repaired : ℕ) (hp : n.heal = .scanning live [] repaired) :
    HealCase cfg n .next ({ n with heal := .refreshing (some repaired) }, [])
  | skip (live : List Addr) (m : ChunkMeta) (rest : List ChunkMeta) (repaired : ℕ)
      (hp : n.heal = .scanning live (m :: rest) repaired) (hw : startRepair cfg live m = none) :
    HealCase cfg n .next ({ n with heal := .scanning live rest repaired }, [])
  | start (live : List Addr) (m : ChunkMeta) (rest : List ChunkMeta) (repaired : ℕ) (w : Repair)
      (hp : n.heal = .scanning live (m :: rest) repaired) (hw : startRepair cfg live m = some w) :
    HealCase cfg n .next ({ n with heal := .repairing live rest repaired w }, [])
  | copy (live : List Addr) (rest : List ChunkMeta) (repaired : ℕ) (w : Repair) (target source : Addr)
      (candidates sources : List Addr) (hp : n.heal = .repairing live rest repaired w)
      (hcand : w.candidates = target :: candidates) (hlive : w.live = source :: sources)
      (hlt : w.live.length < cfg.replication) :
    HealCase cfg n .copy ({ n with
      ticket := n.ticket + 1
      heal := .copying live rest repaired { w with candidates := candidates } target n.ticket },
      [.replicateChunk n.ticket target w.chunkId source])
  | leave (live : List Addr) (rest : List ChunkMeta) (repaired : ℕ) (w : Repair)
      (hp : n.heal = .repairing live rest repaired w)
      (hdone : w.candidates = [] ∨ w.live = [] ∨ cfg.replication ≤ w.live.length) :
    HealCase cfg n .copy ({ n with heal := .scanning live rest repaired }, [])
  | copied (live : List Addr) (rest : List ChunkMeta) (repaired : ℕ) (w : Repair) (target : Addr)
      (ticket : ℕ) (hp : n.heal = .copying live rest repaired w target ticket) :
    HealCase cfg n (.answer true) ({ n with heal := .copied live rest repaired w target }, [])
  | refused (live : List Addr) (rest : List ChunkMeta) (repaired : ℕ) (w : Repair) (target : Addr)
      (ticket : ℕ) (hp : n.heal = .copying live rest repaired w target ticket) :
    HealCase cfg n (.answer false) ({ n with heal := .repairing live rest repaired w }, [])
  | raise (live : List Addr) (rest : List ChunkMeta) (repaired : ℕ) (w : Repair) (target : Addr)
      (e : SqlError) (store : MetadataStore) (hp : n.heal = .copied live rest repaired w target)
      (hadd : n.store.addReplica w.chunkId target = (.error e, store)) :
    HealCase cfg n .record ({ n with store := store, heal := .refreshing none }, [])
  | record (live : List Addr) (rest : List ChunkMeta) (repaired : ℕ) (w : Repair) (target : Addr)
      (added : Bool) (store : MetadataStore) (hp : n.heal = .copied live rest repaired w target)
      (hadd : n.store.addReplica w.chunkId target = (.ok added, store)) (hstale : w.stale = []) :
    HealCase cfg n .record ({ n with
      store := store
      heal := .repairing live rest (repaired + 1) { w with live := w.live ++ [target] } }, [])
  | replace (live : List Addr) (rest : List ChunkMeta) (repaired : ℕ) (w : Repair) (target x : Addr)
      (stale : List Addr) (added : Bool) (store : MetadataStore)
      (hp : n.heal = .copied live rest repaired w target)
      (hadd : n.store.addReplica w.chunkId target = (.ok added, store))
      (hstale : w.stale = x :: stale) :
    HealCase cfg n .record ({ n with
      store := store
      heal := .dropping live rest (repaired + 1)
        { w with live := w.live ++ [target], stale := stale } x }, [])
  | drop (live : List Addr) (rest : List ChunkMeta) (repaired : ℕ) (w : Repair) (x : Addr)
      (hp : n.heal = .dropping live rest repaired w x) :
    HealCase cfg n .drop ({ n with
      store := (n.store.removeReplica w.chunkId x).2
      heal := .repairing live rest repaired w }, [])
  | refresh (o : RowOrder) (result : Option ℕ) (hp : n.heal = .refreshing result) :
    HealCase cfg n (.refresh o) ({ n with heal := .idle }, [])

theorem case_of_healStep {a : HealStep} (h : n.healStep cfg a = some (n', out)) :
    HealCase cfg n a (n', out) := by
  cases a with
  | count =>
    simp only [healStep] at h
    split at h <;> cases h
    exact .count ‹_›
  | pick =>
    simp only [healStep] at h
    split at h <;> cases h
    rename_i count hp
    split_ifs with hlt
    · exact .tooFew count hp hlt
    · exact .pick count hp (not_lt.mp hlt)
  | known o =>
    simp only [healStep] at h
    split at h <;> cases h
    rename_i live hp
    split_ifs with hall
    · exact .allLive o live hp hall
    · exact .known o live hp hall
  | scan o =>
    simp only [healStep] at h
    split at h <;> cases h
    exact .scan o _ ‹_›
  | next =>
    simp only [healStep] at h
    split at h
    · cases h
      exact .finish _ _ ‹_›
    · split at h <;> cases h
      · exact .skip _ _ _ _ ‹_› ‹_›
      · exact .start _ _ _ _ _ ‹_› ‹_›
    · cases h
  | copy =>
    simp only [healStep] at h
    split at h
    · rename_i live rest repaired w hp
      split at h
      · rename_i target candidates source sources hcand hlive
        split_ifs at h with hlt <;> cases h
        · exact .copy _ _ _ _ _ _ _ _ hp hcand hlive hlt
        · exact .leave _ _ _ _ hp (.inr (.inr (not_lt.mp hlt)))
      · rename_i hnone
        cases h
        refine .leave _ _ _ _ hp ?_
        cases hcand : w.candidates with
        | nil => exact .inl rfl
        | cons target candidates =>
          cases hlive : w.live with
          | nil => exact .inr (.inl rfl)
          | cons source sources => exact absurd hlive (hnone target candidates source sources hcand)
    · cases h
  | answer ok =>
    simp only [healStep] at h
    split at h <;> cases h
    cases ok with
    | false => exact .refused _ _ _ _ _ _ ‹_›
    | true => exact .copied _ _ _ _ _ _ ‹_›
  | record =>
    simp only [healStep] at h
    split at h
    · split at h
      · cases h
        exact .raise _ _ _ _ _ _ _ ‹_› ‹_›
      · split at h <;> cases h
        · exact .record _ _ _ _ _ _ _ ‹_› ‹_› ‹_›
        · exact .replace _ _ _ _ _ _ _ _ _ ‹_› ‹_› ‹_›
    · cases h
  | drop =>
    simp only [healStep] at h
    split at h <;> cases h
    exact .drop _ _ _ _ _ ‹_›
  | refresh o =>
    simp only [healStep] at h
    split at h <;> cases h
    exact .refresh o _ ‹_›

theorem healCase_of_step {a : HealStep} (h : n.step cfg (.heal a) = some (n', out)) :
    HealCase cfg n a (n', out) :=
  case_of_healStep h

/-! ### All of them -/

inductive NamingCase (cfg : Settings) (n : NamingServer) :
    NamingAction → NamingServer × List StorageRpc → Prop
  | registerStorage (addr : Addr) :
    NamingCase cfg n (.registerStorage addr) ({ n with registry := n.registry.markAlive n.now addr }, [])
  | heartbeat (addr : Addr) :
    NamingCase cfg n (.heartbeat addr) ({ n with registry := n.registry.markAlive n.now addr }, [])
  | tick (d : Seconds) (hd : 0 ≤ d) : NamingCase cfg n (.tick d) ({ n with now := n.now + d }, [])
  | create (k : ℕ) (b : CreateStep) (n' : NamingServer) (h : CreateCase cfg n k b n') :
    NamingCase cfg n (.create k b) (n', [])
  | commit (f : Filename) :
    NamingCase cfg n (.commit f) ({ n with store := (n.store.commitFile f).2 }, [])
  | delete (k : ℕ) (b : DeleteStep) (r : NamingServer × List StorageRpc) (h : DeleteCase n k b r) :
    NamingCase cfg n (.delete k b) r
  | get (k : ℕ) (b : GetStep) (n' : NamingServer) (h : GetCase n k b n') :
    NamingCase cfg n (.get k b) (n', [])
  | purge (i k : ℕ) (addr : Addr) (c : ChunkId) (hi : n.purges[i]? = some (k, addr, c)) :
    NamingCase cfg n (.purge i) ({ n with purges := n.purges.eraseIdx i }, [.deleteChunk addr c])
  | cleanup (b : CleanupStep) (r : NamingServer × List StorageRpc) (h : CleanupCase cfg n b r) :
    NamingCase cfg n (.cleanup b) r
  | heal (b : HealStep) (r : NamingServer × List StorageRpc) (h : HealCase cfg n b r) :
    NamingCase cfg n (.heal b) r
  | crash : NamingCase cfg n .crash (n.crash, [])

theorem case_of_step {a : NamingAction} (h : n.step cfg a = some (n', out)) :
    NamingCase cfg n a (n', out) := by
  cases a with
  | registerStorage addr =>
    cases h
    exact .registerStorage addr
  | heartbeat addr =>
    cases h
    exact .heartbeat addr
  | tick d =>
    simp only [step] at h
    split_ifs at h with hd
    cases h
    exact .tick d hd
  | create k b =>
    simp only [step, Option.map_eq_some_iff, Prod.mk.injEq] at h
    obtain ⟨m, hm, rfl, rfl⟩ := h
    exact .create k b m (case_of_createStep hm)
  | commit f =>
    cases h
    exact .commit f
  | delete k b => exact .delete k b _ (case_of_deleteStep h)
  | get k b =>
    simp only [step, Option.map_eq_some_iff, Prod.mk.injEq] at h
    obtain ⟨m, hm, rfl, rfl⟩ := h
    exact .get k b m (case_of_getStep hm)
  | purge i =>
    simp only [step] at h
    split at h <;> cases h
    exact .purge i _ _ _ ‹_›
  | cleanup b => exact .cleanup b _ (case_of_cleanupStep h)
  | heal b => exact .heal b _ (case_of_healStep h)
  | crash =>
    cases h
    exact .crash

end NamingServer

end GfsCluster
