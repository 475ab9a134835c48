import GfsCluster.Metadata.FileMap

/-! The aggregate reads that replaced a scan of every committed chunk: the healer's list of
under-replicated chunks, and the two counts that the metrics publish. -/

namespace GfsCluster

/-- The groups of `GROUP BY c.chunk_id`. -/
def groupById (rows : List JoinRow) : List (ChunkId × List JoinRow) :=
  (rows.map JoinRow.chunkId).dedup.map fun c => (c, rows.filter (·.chunkId = c))

/-- `count_under_replicated`. -/
def countUnderReplicated (db : Db) (live : List Addr) (replication : ℕ) : ℕ :=
  ((groupById (committedJoin db)).filter fun g => liveCount live g.2 < replication).length

/-- `count_committed_chunks`. -/
def countCommittedChunks (db : Db) : ℕ := (db.chunks.flatMap (committedFilesOf db)).length

/-- What needs repair: a chunk of a committed file with too few of its locations live. -/
def Db.UnderReplicated (db : Db) (live : List Addr) (replication : ℕ) (c : ChunkId) : Prop :=
  db.CommittedChunk c ∧ ((db.locations c).filter (· ∈ live)).length < replication

section Aggregates

variable {db : Db} {live : List Addr} {replication : ℕ} {c : ChunkId}

@[simp] theorem underReplicated_view (o : RowOrder) :
    (o.view db).UnderReplicated live replication c ↔ db.UnderReplicated live replication c := by
  simp only [Db.UnderReplicated, RowOrder.committedChunk,
    ((o.locations_perm db c).filter _).length_eq]

/-- The chunks that the query with both columns in its GROUP BY selects. -/
theorem mem_ids_underReplicatedChunks :
    c ∈ (underReplicatedChunks db live replication).map ChunkMeta.chunkId ↔
      db.UnderReplicated live replication c := by
  simp only [List.mem_map, mem_underReplicatedChunks, liveCount_leftJoin]
  constructor
  · rintro ⟨_, ⟨row, hrow, hcom, hlt, rfl⟩, rfl⟩
    exact ⟨hcom, hlt⟩
  · rintro ⟨hcom, hlt⟩
    obtain ⟨row, hrow, rfl, _⟩ := id hcom
    exact ⟨_, ⟨row, hrow, hcom, hlt, rfl⟩, rfl⟩

/-- A chunk id has one index, so that the groups of the two queries are the same. -/
theorem filter_chunkId_committedJoin {row : ChunkRow} (hrow : row ∈ db.chunks)
    (hcom : db.CommittedChunk row.chunkId) :
    (committedJoin db).filter (·.chunkId = row.chunkId) = leftJoinReplicas db row := by
  rw [← filter_committedJoin hrow hcom]
  refine List.filter_congr fun r hr => ?_
  obtain ⟨d, hd, _, hr⟩ := mem_committedJoin.mp hr
  obtain ⟨hid, hidx⟩ := chunkId_of_mem_leftJoin hr
  rw [decide_eq_decide, Prod.mk.injEq]
  constructor
  · intro h
    rw [hidx, db.chunk_unique hd hrow (hid.symm.trans h)]
    exact ⟨h, rfl⟩
  · exact And.left

theorem mem_groupById {g : ChunkId × List JoinRow} :
    g ∈ groupById (committedJoin db) ↔ ∃ row ∈ db.chunks, db.CommittedChunk row.chunkId ∧
      g = (row.chunkId, leftJoinReplicas db row) := by
  simp only [groupById, List.mem_map, List.mem_dedup]
  constructor
  · rintro ⟨c, ⟨r, hr, rfl⟩, rfl⟩
    obtain ⟨row, hrow, hcom, hr⟩ := mem_committedJoin.mp hr
    refine ⟨row, hrow, hcom, ?_⟩
    rw [(chunkId_of_mem_leftJoin hr).1, filter_chunkId_committedJoin hrow hcom]
  · rintro ⟨row, hrow, hcom, rfl⟩
    obtain ⟨r, hr⟩ := List.exists_mem_of_ne_nil _ (leftJoin_ne_nil db row)
    have hid := (chunkId_of_mem_leftJoin hr).1
    refine ⟨row.chunkId, ⟨r, mem_committedJoin.mpr ⟨row, hrow, hcom, hr⟩, hid⟩, ?_⟩
    rw [filter_chunkId_committedJoin hrow hcom]

theorem groupById_keys_nodup (rows : List JoinRow) : ((groupById rows).map Prod.fst).Nodup := by
  rw [groupById, List.map_map]
  simpa [Function.comp_def] using List.nodup_dedup (rows.map JoinRow.chunkId)

/-- The chunks that the counting query selects. -/
theorem mem_keys_groupById : c ∈ ((groupById (committedJoin db)).filter
      fun g => liveCount live g.2 < replication).map Prod.fst ↔
    db.UnderReplicated live replication c := by
  simp only [List.mem_map, List.mem_filter, decide_eq_true_eq, mem_groupById]
  constructor
  · rintro ⟨_, ⟨⟨row, hrow, hcom, rfl⟩, hlt⟩, rfl⟩
    exact ⟨hcom, liveCount_leftJoin db live row ▸ hlt⟩
  · rintro ⟨hcom, hlt⟩
    obtain ⟨row, hrow, rfl, _⟩ := id hcom
    exact ⟨_, ⟨⟨row, hrow, hcom, rfl⟩, (liveCount_leftJoin db live row).symm ▸ hlt⟩, rfl⟩

theorem countUnderReplicated_eq :
    countUnderReplicated db live replication = (underReplicatedChunks db live replication).length := by
  have hkeys : (((groupById (committedJoin db)).filter
      fun g => liveCount live g.2 < replication).map Prod.fst).Nodup :=
    (groupById_keys_nodup _).sublist (List.filter_sublist.map _)
  have hperm := (List.perm_ext_iff_of_nodup hkeys
    (underReplicatedChunks_nodup db live replication)).mpr fun c =>
      mem_keys_groupById.trans mem_ids_underReplicatedChunks.symm
  simpa [countUnderReplicated] using hperm.length_eq

/-- The chunks that the plain scan finds to have too few live locations. -/
theorem exists_listCommittedChunks : (∃ m ∈ listCommittedChunks db,
      m.chunkId = c ∧ (m.locations.filter (· ∈ live)).length < replication) ↔
    db.UnderReplicated live replication c := by
  simp only [listCommittedChunks_eq, List.mem_map, mem_committedChunkRows]
  constructor
  · rintro ⟨_, ⟨row, ⟨_, hcom⟩, rfl⟩, rfl, hlt⟩
    exact ⟨hcom, hlt⟩
  · rintro ⟨hcom, hlt⟩
    obtain ⟨row, hrow, rfl, _⟩ := id hcom
    exact ⟨_, ⟨row, ⟨hrow, hcom⟩, rfl⟩, rfl, hlt⟩

theorem countCommittedChunks_eq : countCommittedChunks db = (listCommittedChunks db).length := by
  rw [listCommittedChunks_eq, List.length_map, committedChunkRows, List.length_insertionSort,
    countCommittedChunks, List.length_flatMap, List.length_flatMap]
  simp

/-- The order of the rows does not matter to the number of chunks selected. -/
theorem length_underReplicatedChunks_view (o : RowOrder) :
    (underReplicatedChunks (o.view db) live replication).length =
      (underReplicatedChunks db live replication).length := by
  have hperm := (List.perm_ext_iff_of_nodup (underReplicatedChunks_nodup (o.view db) live replication)
    (underReplicatedChunks_nodup db live replication)).mpr fun c => by
      rw [mem_ids_underReplicatedChunks, mem_ids_underReplicatedChunks, underReplicated_view]
  simpa using hperm.length_eq

theorem length_listCommittedChunks_view (o : RowOrder) :
    (listCommittedChunks (o.view db)).length = (listCommittedChunks db).length := by
  have hperm := (List.perm_ext_iff_of_nodup (committedChunkRows_ids_nodup (o.view db)).of_map
    (committedChunkRows_ids_nodup db).of_map).mpr fun row => by
      rw [mem_committedChunkRows, mem_committedChunkRows, o.mem_chunks, o.committedChunk]
  rw [listCommittedChunks_eq, listCommittedChunks_eq, List.length_map, List.length_map,
    hperm.length_eq]

end Aggregates

/-- The aggregates agree with the plain scan, in whatever order each query walks the rows. -/
theorem aggregates_agree (db : Db) (o₁ o₂ o₃ o₄ : RowOrder) (live : List Addr) (replication : ℕ) :
    ((underReplicatedChunks (o₁.view db) live replication).map ChunkMeta.chunkId).Nodup ∧
    (∀ c, c ∈ (underReplicatedChunks (o₁.view db) live replication).map ChunkMeta.chunkId ↔
      ∃ m ∈ listCommittedChunks (o₂.view db),
        m.chunkId = c ∧ (m.locations.filter (· ∈ live)).length < replication) ∧
    countUnderReplicated (o₃.view db) live replication =
      (underReplicatedChunks (o₁.view db) live replication).length ∧
    countCommittedChunks (o₄.view db) = (listCommittedChunks (o₂.view db)).length := by
  refine ⟨underReplicatedChunks_nodup _ _ _, fun c => ?_, ?_, ?_⟩
  · rw [mem_ids_underReplicatedChunks, exists_listCommittedChunks, underReplicated_view,
      underReplicated_view]
  · rw [countUnderReplicated_eq, length_underReplicatedChunks_view, length_underReplicatedChunks_view]
  · rw [countCommittedChunks_eq, length_listCommittedChunks_view, length_listCommittedChunks_view]

end GfsCluster
