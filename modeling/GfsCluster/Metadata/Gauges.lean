import GfsCluster.Metadata.Aggregates

/-! The gauges of the metrics loop. They come from aggregates over the joined tables, and are shown to
be counts and sums over what `list_files` lists and over the chunk rows of committed files. -/

namespace GfsCluster

/-- `count_files_by_status`: a row for each status that occurs. -/
def countFilesByStatus (db : Db) : List (Status × ℕ) :=
  (db.files.map FileRow.status).dedup.map fun st =>
    (st, (db.files.filter (·.status = st)).length)

/-- What `/metrics` shows of the cluster. The gauge of the files has one label for each status. -/
structure ClusterGauges where
  liveStorage : ℕ
  files : Status → ℕ
  filesBytes : ℤ
  committedChunks : ℕ
  underReplicatedChunks : ℕ

/-- The gauges of a server that has just started. -/
def ClusterGauges.init : ClusterGauges := ⟨0, fun _ => 0, 0, 0, 0⟩

/-- `_refresh_cluster_metrics`, whose four SELECTs see the databases `db₁` to `db₄`. Where the second
one raises, the gauges not yet set stay as they were. -/
def refreshClusterMetrics (old : ClusterGauges) (liveServers : List Addr) (replication : ℕ)
    (db₁ db₂ db₃ db₄ : Db) : ClusterGauges :=
  let live := liveServers.dedup
  let files := fun st => ((countFilesByStatus db₁).lookup st).getD 0
  match committedBytes db₂ with
  | none => { old with liveStorage := live.length, files := files }
  | some total =>
    { liveStorage := live.length
      files := files
      filesBytes := total
      committedChunks := countCommittedChunks db₃
      underReplicatedChunks := countUnderReplicated db₄ live replication }

section Listing

variable {db : Db} {live : List Addr} {replication : ℕ}

theorem listFiles_perm (db : Db) : (listFiles db).Perm (db.files.map (FileMeta.ofRow · [])) :=
  (List.perm_insertionSort _ _).map _

/-- The order of the rows does not matter to the listing. -/
theorem listFiles_view (o : RowOrder) : listFiles (o.view db) = listFiles db := by
  have hperm : (listFiles (o.view db)).Perm (listFiles db) :=
    ((listFiles_perm _).trans ((o.files_perm db).map _)).trans (listFiles_perm db).symm
  exact hperm.eq_of_pairwise (fun F G _ _ hlt hgt => absurd hgt hlt.asymm)
    (listFiles_sorted _) (listFiles_sorted db)

theorem length_filter_listFiles (p : FileMeta → Bool) :
    ((listFiles db).filter p).length = (db.files.filter fun F => p (.ofRow F [])).length := by
  rw [((listFiles_perm db).filter p).length_eq, List.filter_map, List.length_map]
  rfl

theorem sum_map_listFiles {M : Type*} [AddCommMonoid M] (g : FileMeta → M) :
    (((listFiles db).filter (·.status = .committed)).map g).sum =
      ((db.files.filter (·.status = .committed)).map fun F => g (.ofRow F [])).sum := by
  rw [(((listFiles_perm db).filter _).map g).sum_eq, List.filter_map, List.map_map]
  rfl

theorem countFilesByStatus_eq (st : Status) :
    ((countFilesByStatus db).lookup st).getD 0 =
      ((listFiles db).filter (·.status = st)).length := by
  rw [length_filter_listFiles, countFilesByStatus, Lists.lookup_map_pair]
  split_ifs with hst
  · rfl
  · -- no file has the status
    have hnone : db.files.filter (·.status = st) = [] :=
      List.filter_eq_nil_iff.mpr fun F hF hstF => hst (List.mem_dedup.mpr
        (of_decide_eq_true hstF ▸ List.mem_map_of_mem hF))
    exact (congrArg List.length hnone).symm

/-- The total of the listing, up to what an integer of SQLite can hold. -/
theorem committedBytes_eq (hsizes : ∀ F ∈ db.files, 0 ≤ F.size) {total : ℤ}
    (htotal : (((listFiles db).filter (·.status = .committed)).map FileMeta.size).sum = total) :
    committedBytes db = if total < 2 ^ 63 then some total else none := by
  have hsum : (committedSizes db.files).sum = total := by
    rw [← htotal, sum_map_listFiles FileMeta.size]
    rfl
  rw [committedBytes, sumFrom_of_nonneg le_rfl (by omega), zero_add, hsum]
  intro x hx
  obtain ⟨F, hF, rfl⟩ := List.mem_map.mp hx
  exact hsizes F (List.mem_filter.mp hF).1

end Listing

/-! ### The chunk rows of committed files -/

section Rows

variable {db : Db} {live : List Addr} {replication : ℕ} {p : ChunkRow → Bool}

/-- The chunk rows with `p` of the committed files, file by file. -/
def rowsByFile (db : Db) (p : ChunkRow → Bool) : List ChunkRow :=
  (db.files.filter (·.status = .committed)).flatMap fun F =>
    (db.chunks.filter (·.filename = F.filename)).filter p

theorem mem_rowsByFile {r : ChunkRow} : r ∈ rowsByFile db p ↔
    r ∈ db.chunks ∧ db.CommittedChunk r.chunkId ∧ p r = true := by
  simp only [rowsByFile, List.mem_flatMap, List.mem_filter, decide_eq_true_eq]
  constructor
  · rintro ⟨F, ⟨hF, hst⟩, ⟨hr, hname⟩, hp⟩
    exact ⟨hr, ⟨r, hr, rfl, F, hF, hname.symm, hst⟩, hp⟩
  · rintro ⟨hr, ⟨row, hrow, hid, F, hF, hname, hst⟩, hp⟩
    obtain rfl := db.chunk_unique hrow hr hid
    exact ⟨F, ⟨hF, hst⟩, ⟨hr, hname.symm⟩, hp⟩

theorem rowsByFile_ids_nodup (db : Db) (p : ChunkRow → Bool) :
    ((rowsByFile db p).map ChunkRow.chunkId).Nodup := by
  have hnd : (rowsByFile db p).Nodup := by
    refine List.nodup_flatMap.mpr ⟨fun F _ => (db.chunks_key.of_map.filter _).filter _, ?_⟩
    refine (List.pairwise_map.mp (db.files_key.sublist (List.filter_sublist.map _))).imp ?_
    intro F G hne r hF hG
    simp only [List.mem_filter, decide_eq_true_eq] at hF hG
    exact hne (hF.1.2.symm.trans hG.1.2)
  refine hnd.map_on fun r hr r' hr' he => ?_
  exact db.chunk_unique (mem_rowsByFile.mp hr).1 (mem_rowsByFile.mp hr').1 he

theorem length_rowsByFile : (rowsByFile db p).length =
    ((db.files.filter (·.status = .committed)).map fun F =>
      ((db.chunks.filter (·.filename = F.filename)).filter p).length).sum :=
  List.length_flatMap

theorem countCommittedChunks_eq_rows :
    countCommittedChunks db = (rowsByFile db fun _ => true).length := by
  have hperm := (List.perm_ext_iff_of_nodup (committedChunkRows_ids_nodup db).of_map
    (rowsByFile_ids_nodup db fun _ => true).of_map).mpr fun r => by
      rw [mem_committedChunkRows, mem_rowsByFile, and_iff_left rfl]
  rw [countCommittedChunks_eq, listCommittedChunks_eq, List.length_map, hperm.length_eq]

/-- Fewer than `replication` of the recorded servers are live. -/
def Db.Thin (db : Db) (live : List Addr) (replication : ℕ) (c : ChunkId) : Prop :=
  ((db.locations c).filter (· ∈ live)).length < replication

instance (db : Db) (live : List Addr) (replication : ℕ) (c : ChunkId) :
    Decidable (db.Thin live replication c) :=
  inferInstanceAs (Decidable (_ < _))

theorem countUnderReplicated_eq_rows : countUnderReplicated db live replication =
    (rowsByFile db fun r => db.Thin live replication r.chunkId).length := by
  have hperm := (List.perm_ext_iff_of_nodup (underReplicatedChunks_nodup db live replication)
    (rowsByFile_ids_nodup db fun r => db.Thin live replication r.chunkId)).mpr fun c => by
      rw [mem_ids_underReplicatedChunks, List.mem_map]
      simp only [mem_rowsByFile, decide_eq_true_eq]
      constructor
      · rintro ⟨hcom, hthin⟩
        obtain ⟨r, hr, rfl, _⟩ := id hcom
        exact ⟨r, ⟨hr, hcom, hthin⟩, rfl⟩
      · rintro ⟨r, ⟨_, hcom, hthin⟩, rfl⟩
        exact ⟨hcom, hthin⟩
  rw [countUnderReplicated_eq]
  simpa using hperm.length_eq

theorem countUnderReplicated_eq_zero : countUnderReplicated db live replication = 0 ↔
    ∀ c, ¬ db.UnderReplicated live replication c := by
  rw [countUnderReplicated_eq, ← List.length_map ChunkMeta.chunkId, List.length_eq_zero_iff,
    List.eq_nil_iff_forall_not_mem]
  simp only [mem_ids_underReplicatedChunks]

/-- Neither a repeated address nor the order of the rows makes a difference. -/
theorem countUnderReplicated_view (o : RowOrder) :
    countUnderReplicated (o.view db) live.dedup replication =
      countUnderReplicated db live replication := by
  rw [countUnderReplicated_eq, countUnderReplicated_eq, length_underReplicatedChunks_view]
  have hperm := (List.perm_ext_iff_of_nodup (underReplicatedChunks_nodup db live.dedup replication)
    (underReplicatedChunks_nodup db live replication)).mpr fun c => by
      simp only [mem_ids_underReplicatedChunks, Db.UnderReplicated, List.mem_dedup]
  simpa using hperm.length_eq

theorem countCommittedChunks_view (o : RowOrder) :
    countCommittedChunks (o.view db) = countCommittedChunks db := by
  rw [countCommittedChunks_eq, countCommittedChunks_eq, length_listCommittedChunks_view]

/-- Chunk `i` of the file has fewer than `replication` live locations. -/
def Db.ThinAt (db : Db) (live : List Addr) (replication : ℕ) (f : Filename) (i : ℕ) : Prop :=
  ∃ r ∈ db.chunks, r.filename = f ∧ r.idx = i ∧ db.Thin live replication r.chunkId

instance (db : Db) (live : List Addr) (replication : ℕ) (f : Filename) (i : ℕ) :
    Decidable (db.ThinAt live replication f i) :=
  inferInstanceAs (Decidable (∃ r ∈ db.chunks, _))

def Db.thinIndices (db : Db) (live : List Addr) (replication : ℕ) (fm : FileMeta) : List ℕ :=
  (List.range fm.numChunks.toNat).filter (db.ThinAt live replication fm.filename ·)

end Rows

end GfsCluster
