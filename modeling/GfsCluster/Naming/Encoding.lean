import GfsCluster.Metadata.Aggregates
import GfsCluster.Naming.Healer

/-! What the healer's query makes of the addresses of a chunk. They come as one string, joined
by commas, and are split again; RegisterStorage and Heartbeat take any string as an address. -/

namespace GfsCluster

open StepSystem

/-- The addresses that their encoding gives back. -/
def Restorable (addrs : List Addr) : Prop := (∀ addr ∈ addrs, CommaFree addr) ∧ addrs ≠ [[]]

/-- The chunk comes with the addresses recorded for it. -/
def CarriesRecorded (db : Db) (m : ChunkMeta) : Prop :=
  ∀ addr, addr ∈ m.locations ↔ ⟨m.chunkId, addr⟩ ∈ db.replicas

section Encoding

variable {db : Db} {o : RowOrder} {live : List Addr} {replication : ℕ} {m : ChunkMeta} {addr : Addr}

theorem commaFree_of_mem_splitAddrs {x : Option Str} (h : addr ∈ splitAddrs x) : CommaFree addr := by
  match x, h with
  | some (c :: cs), h => exact Lists.not_mem_of_mem_splitOn h

/-- The set of addresses survives the encoding exactly when no address has a comma and the
empty address is not alone. -/
theorem mem_splitAddrs_iff {row : ChunkRow} :
    (∀ addr, addr ∈ splitAddrs (groupConcat (leftJoinReplicas db row)) ↔
      addr ∈ db.locations row.chunkId) ↔ Restorable (db.locations row.chunkId) := by
  constructor
  · intro h
    refine ⟨fun addr haddr => commaFree_of_mem_splitAddrs ((h addr).mpr haddr), fun hone => ?_⟩
    have hnil := (h []).mpr (by simp [hone])
    have hjoin : groupConcat (leftJoinReplicas db row) = some [] := by
      rw [groupConcat, filterMap_address_leftJoin, hone]
      rfl
    rw [hjoin] at hnil
    cases hnil
  · rintro ⟨hcomma, hne⟩ addr
    rw [splitAddrs_groupConcat_of_ne hcomma hne]

theorem restorable_view {c : ChunkId} :
    Restorable ((o.view db).locations c) ↔ Restorable (db.locations c) := by
  have hperm := o.locations_perm db c
  have hone : (o.view db).locations c = [[]] ↔ db.locations c = [[]] := by
    constructor
    · exact fun h => List.perm_singleton.mp (h ▸ hperm.symm)
    · exact fun h => List.perm_singleton.mp (h ▸ hperm)
  simp only [Restorable, hperm.mem_iff, ne_eq, hone]

/-- `get_file` and `list_committed_chunks` read one address a row. -/
theorem carriesRecorded_meta (o : RowOrder) (db : Db) (row : ChunkRow) :
    CarriesRecorded db (row.meta (o.view db)) := by
  intro addr
  show addr ∈ (o.view db).locations row.chunkId ↔ _
  rw [Db.mem_locations, o.mem_replicas]
  rfl

theorem carriesRecorded_listCommittedChunks (h : m ∈ listCommittedChunks (o.view db)) :
    CarriesRecorded db m := by
  rw [listCommittedChunks_eq] at h
  obtain ⟨row, _, rfl⟩ := List.mem_map.mp h
  exact carriesRecorded_meta o db row

theorem carriesRecorded_getFile {o₁ o₂ : RowOrder} {f : Filename} {fm : FileMeta}
    (h : getFile (o₁.view db) (o₂.view db) f = some fm) (hm : m ∈ fm.chunks) : CarriesRecorded db m := by
  obtain ⟨row, _, rfl⟩ := Option.map_eq_some_iff.mp h
  rw [FileMeta.ofRow, collectChunks_selectChunks] at hm
  obtain ⟨row, _, rfl⟩ := List.mem_map.mp hm
  exact carriesRecorded_meta o₂ db row

end Encoding

/-- What the query for one live set and target lists: every chunk with the addresses recorded
for it, the same as in the other reads, and the healer takes them for its replicas. -/
structure LocationsSurvive (db : Db) (live : List Addr) (replication : ℕ) : Prop where
  recorded : ∀ o : RowOrder, ∀ m ∈ underReplicatedChunks (o.view db) live replication,
    CarriesRecorded db m
  file : ∀ o o₁ o₂ : RowOrder, ∀ m ∈ underReplicatedChunks (o.view db) live replication,
    ∀ f fm, getFile (o₁.view db) (o₂.view db) f = some fm → ∀ m' ∈ fm.chunks,
      m'.chunkId = m.chunkId → ∀ addr, addr ∈ m.locations ↔ addr ∈ m'.locations
  scan : ∀ o o' : RowOrder, ∀ m ∈ underReplicatedChunks (o.view db) live replication,
    ∀ m' ∈ listCommittedChunks (o'.view db), m'.chunkId = m.chunkId →
      ∀ addr, addr ∈ m.locations ↔ addr ∈ m'.locations
  healer : ∀ (cfg : Settings) (o : RowOrder), cfg.replication = replication →
    ∀ m ∈ underReplicatedChunks (o.view db) live replication, ∀ w,
      NamingServer.startRepair cfg live m = some w →
      ∀ addr, addr ∈ w.live ∨ addr ∈ w.stale ↔ ⟨m.chunkId, addr⟩ ∈ db.replicas

section Survive

variable {db : Db} {live : List Addr} {replication : ℕ}

theorem survive_of_recorded (h : ∀ o : RowOrder,
    ∀ m ∈ underReplicatedChunks (o.view db) live replication, CarriesRecorded db m) :
    LocationsSurvive db live replication := by
  refine ⟨h, fun o o₁ o₂ m hm f fm hfm m' hm' hid addr => ?_, fun o o' m hm m' hm' hid addr => ?_,
    fun cfg o _ m hm w hw addr => ?_⟩
  · rw [h o m hm addr, carriesRecorded_getFile hfm hm' addr, hid]
  · rw [h o m hm addr, carriesRecorded_listCommittedChunks hm' addr, hid]
  · obtain ⟨_, hlive, _, hstale, _⟩ := NamingServer.startRepair_eq_some hw
    rw [hlive, hstale, ← h o m hm addr]
    simp only [List.mem_filter, List.mem_eraseDups, decide_eq_true_eq]
    tauto

/-- What is listed comes with its addresses when they are restorable. -/
theorem survive_of_restorable
    (h : ∀ c, db.UnderReplicated live replication c → Restorable (db.locations c)) :
    LocationsSurvive db live replication := by
  refine survive_of_recorded fun o m hm addr => ?_
  have hsep := h m.chunkId (underReplicated_view o |>.mp
    (mem_ids_underReplicatedChunks.mp (List.mem_map_of_mem hm)))
  obtain ⟨row, _, _, _, rfl⟩ := mem_underReplicatedChunks.mp hm
  rw [← o.mem_replicas, ← Db.mem_locations]
  exact mem_splitAddrs_iff.mpr (restorable_view.mpr hsep) addr

theorem restorable_of_survive (h : LocationsSurvive db live replication) {c : ChunkId}
    (hc : db.UnderReplicated live replication c) : Restorable (db.locations c) := by
  have hin := mem_ids_underReplicatedChunks.mpr ((underReplicated_view RowOrder.table).mpr hc)
  obtain ⟨m, hm, rfl⟩ := List.mem_map.mp hin
  have hcarries := h.recorded _ m hm
  obtain ⟨row, _, _, _, rfl⟩ := mem_underReplicatedChunks.mp hm
  refine mem_splitAddrs_iff.mp fun addr => ?_
  rw [Db.mem_locations]
  exact hcarries addr

end Survive

/-- The query gives every chunk it lists the addresses recorded for it if and only if, for each
of these chunks, no address has a comma and the empty address is not its only one. -/
theorem locationsSurvive_iff (db : Db) (live : List Addr) (replication : ℕ) :
    LocationsSurvive db live replication ↔
      ∀ c, db.UnderReplicated live replication c → Restorable (db.locations c) :=
  ⟨fun h _ hc => restorable_of_survive h hc, survive_of_restorable⟩

namespace NamingServer

/-- An address of the form `host:port`. -/
def Plain (addr : Addr) : Prop := CommaFree addr ∧ addr ≠ []

/-- Storage servers that register plain addresses are never mistaken. -/
theorem survive_of_run {cfg : Settings} {n : NamingServer}
    (h : Steps (NamingServer.next cfg) (fun _ a => Registers Plain a) NamingServer.init n)
    (live : List Addr) (replication : ℕ) : LocationsSurvive n.db live replication := by
  have haddrs : AddrsIn Plain n := by
    refine Steps.invariant (P := AddrsIn Plain) h AddrsIn.init ?_
    intro m a m' hr ha hok hnext
    obtain ⟨out, hs⟩ := exists_step_of_next hnext
    exact ha.of_step (Reachable.consistent hr) hok hs
  refine survive_of_restorable fun c _ => ⟨fun addr haddr => ?_, fun hone => ?_⟩
  · exact (haddrs.recorded _ ((Db.mem_locations n.db).mp haddr)).1
  · have hin : ⟨c, []⟩ ∈ n.db.replicas := (Db.mem_locations n.db).mp (by simp [hone])
    exact (haddrs.recorded _ hin).2 rfl

/-- Whatever addresses are registered, no chunk is listed with other addresses than its own. -/
def AlwaysSurvive (cfg : Settings) : Prop :=
  ∀ n, Steps (NamingServer.next cfg) anyStep NamingServer.init n →
    ∀ live replication, LocationsSurvive n.db live replication

/-- One file of one chunk is committed on the servers `x,y` and `s`. -/
def commaCopies : List NamingAction :=
  [.registerStorage ['x', ',', 'y'], .registerStorage ['s'], .create 0 (.receive ⟨['f'], 1, 1⟩),
    .create 0 .checkLive, .create 0 (.selectFile .table), .create 0 (.place ['c']),
    .create 0 (.reserve 0), .commit ['f']]

/-- When `s` is gone and `t` has come, the healer asks about `x`, `y` and `s`: the chunk has
no live replica then. -/
theorem not_alwaysSurvive : ¬ AlwaysSurvive ⟨2, 60⟩ := by
  intro h
  have hrun : (run (guarded (NamingServer.next ⟨2, 60⟩) anyStep) NamingServer.init commaCopies).any
      (fun n => n.db.chunks == [⟨['c'], ['f'], 0⟩] && n.db.files == [⟨['f'], 1, 1, .committed, 0⟩] &&
        n.db.locations ['c'] == [['s'], ['x', ',', 'y']]) = true := by
    decide +kernel
  obtain ⟨n, hn, hstate⟩ := exists_of_run hrun
  simp only [Bool.and_eq_true, beq_iff_eq] at hstate
  obtain ⟨⟨hchunks, hfiles⟩, hlocs⟩ := hstate
  have hunder : n.db.UnderReplicated [['x', ',', 'y'], ['t']] 2 ['c'] := by
    refine ⟨⟨⟨['c'], ['f'], 0⟩, by simp [hchunks], rfl, ⟨['f'], 1, 1, .committed, 0⟩,
      by simp [hfiles], rfl, rfl⟩, ?_⟩
    rw [hlocs]
    decide
  have hsep := restorable_of_survive (h n hn _ _) hunder
  rw [hlocs] at hsep
  exact absurd (hsep.1 ['x', ',', 'y'] (by simp)) (by decide)

end NamingServer

end GfsCluster
