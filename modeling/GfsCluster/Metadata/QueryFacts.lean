import Mathlib.Algebra.Order.BigOperators.Group.List
import GfsCluster.Metadata.Queries

/-! What the queries return, in terms of the rows of the tables. The grouping loop of
`get_file` rebuilds exactly the rows, and the heal query lists each committed chunk
below target once, with its addresses as they are recorded. -/

namespace GfsCluster

/-- The entry of `get_file` for a chunk row. -/
def ChunkRow.meta (db : Db) (c : ChunkRow) : ChunkMeta := ⟨c.chunkId, c.idx, db.locations c.chunkId⟩

/-! ### get_file rebuilds the rows -/

theorem map_locations_append {chunks : List ChunkMeta} {c : ChunkId} {i : ℕ} {locs : List Addr}
    {addr : Addr} (h : c ∉ chunks.map ChunkMeta.chunkId) :
    ((chunks ++ [(⟨c, i, locs⟩ : ChunkMeta)]).map fun m => if m.chunkId = c then
      { m with locations := m.locations ++ [addr] } else m) =
      chunks ++ [⟨c, i, locs ++ [addr]⟩] := by
  rw [List.map_append, List.map_singleton, if_pos rfl]
  congr 1
  refine (List.map_congr_left fun m hm => if_neg fun he => ?_).trans (List.map_id _)
  exact h (he ▸ List.mem_map_of_mem hm)

/-- The rows of one chunk extend its entry, whatever was collected before. -/
theorem foldl_addJoinRow_addresses (c : ChunkId) (i : ℕ) (addrs : List Addr)
    (chunks : List ChunkMeta) (locs : List Addr) (h : c ∉ chunks.map ChunkMeta.chunkId) :
    (addrs.map fun addr => JoinRow.mk c i (some addr)).foldl addJoinRow
      (chunks ++ [⟨c, i, locs⟩]) = chunks ++ [⟨c, i, locs ++ addrs⟩] := by
  induction addrs generalizing locs with
  | nil => simp
  | cons addr addrs ih =>
    have hstep : addJoinRow (chunks ++ [⟨c, i, locs⟩]) ⟨c, i, some addr⟩ =
        chunks ++ [⟨c, i, locs ++ [addr]⟩] := by
      simp only [addJoinRow]
      rw [if_pos (by simp)]
      exact map_locations_append h
    rw [List.map_cons, List.foldl_cons, hstep, ih]
    simp

theorem foldl_addJoinRow_leftJoin (db : Db) (c : ChunkRow) (chunks : List ChunkMeta)
    (h : c.chunkId ∉ chunks.map ChunkMeta.chunkId) :
    (leftJoinReplicas db c).foldl addJoinRow chunks = chunks ++ [c.meta db] := by
  have hany : (chunks.any fun m => decide (m.chunkId = c.chunkId)) = false := by
    simp only [List.any_eq_false, decide_eq_true_eq]
    exact fun m hm he => h (he ▸ List.mem_map_of_mem hm)
  unfold leftJoinReplicas ChunkRow.meta
  cases hl : db.locations c.chunkId with
  | nil => simp [addJoinRow, hany]
  | cons addr addrs =>
    have hfirst : addJoinRow chunks ⟨c.chunkId, c.idx, some addr⟩ =
        chunks ++ [⟨c.chunkId, c.idx, [addr]⟩] := by
      simp only [addJoinRow, hany]
      exact map_locations_append h
    show (JoinRow.mk c.chunkId c.idx (some addr) :: addrs.map _).foldl addJoinRow chunks = _
    rw [List.foldl_cons, hfirst, foldl_addJoinRow_addresses _ _ _ _ _ h]
    simp

theorem foldl_addJoinRow_rows (db : Db) (rows : List ChunkRow) (chunks : List ChunkMeta)
    (hnd : (rows.map ChunkRow.chunkId).Nodup)
    (h : ∀ c ∈ rows, c.chunkId ∉ chunks.map ChunkMeta.chunkId) :
    (rows.flatMap (leftJoinReplicas db)).foldl addJoinRow chunks =
      chunks ++ rows.map (ChunkRow.meta db) := by
  induction rows generalizing chunks with
  | nil => simp
  | cons c rows ih =>
    rw [List.map_cons, List.nodup_cons] at hnd
    rw [List.flatMap_cons, List.foldl_append, foldl_addJoinRow_leftJoin db c chunks (h c (by simp)),
      ih _ hnd.2]
    · simp
    · intro d hd
      rw [List.map_append, List.mem_append, not_or]
      refine ⟨h d (by simp [hd]), ?_⟩
      simp only [List.map_cons, List.map_nil, List.mem_singleton, ChunkRow.meta]
      exact fun he => hnd.1 (he ▸ List.mem_map_of_mem hd)

theorem chunkRowsOf_perm (db : Db) (f : Filename) :
    (chunkRowsOf db f).Perm (db.chunks.filter (·.filename = f)) :=
  List.perm_insertionSort _ _

@[simp] theorem mem_chunkRowsOf {db : Db} {f : Filename} {c : ChunkRow} :
    c ∈ chunkRowsOf db f ↔ c ∈ db.chunks ∧ c.filename = f := by
  rw [(chunkRowsOf_perm db f).mem_iff, List.mem_filter, decide_eq_true_eq]

theorem chunkRowsOf_ids_nodup (db : Db) (f : Filename) :
    ((chunkRowsOf db f).map ChunkRow.chunkId).Nodup :=
  ((chunkRowsOf_perm db f).map _).nodup_iff.mpr (db.chunks_key.sublist (List.filter_sublist.map _))

/-- The second SELECT yields every chunk row of the file once, in index order, with
the addresses recorded for it. -/
theorem collectChunks_selectChunks (db : Db) (f : Filename) :
    collectChunks (selectChunks db f) = (chunkRowsOf db f).map (ChunkRow.meta db) := by
  rw [collectChunks, selectChunks, foldl_addJoinRow_rows db _ _ (chunkRowsOf_ids_nodup db f)]
  · simp
  · simp

theorem selectFile_eq_some {db : Db} {f : Filename} {F : FileRow} :
    selectFile db f = some F ↔ F ∈ db.files ∧ F.filename = f := by
  constructor
  · intro h
    exact ⟨List.mem_of_find?_eq_some h, by simpa using List.find?_some h⟩
  · rintro ⟨hF, rfl⟩
    cases h : selectFile db F.filename with
    | none => simpa using List.find?_eq_none.mp h F hF
    | some G =>
      have hG : G.filename = F.filename := by simpa using List.find?_some h
      rw [db.file_unique (List.mem_of_find?_eq_some h) hF hG]

theorem selectFile_eq_none {db : Db} {f : Filename} :
    selectFile db f = none ↔ ∀ F ∈ db.files, F.filename ≠ f := by
  simp [selectFile, List.find?_eq_none]

/-- The first SELECT does not depend on the order of the rows. -/
@[simp] theorem selectFile_view (o : RowOrder) (db : Db) (f : Filename) :
    selectFile (o.view db) f = selectFile db f := by
  cases h : selectFile db f with
  | none => rw [selectFile_eq_none] at h ⊢; simpa using h
  | some F => rw [selectFile_eq_some] at h ⊢; simpa using h

/-! ### list_chunk_ids_for -/

theorem mem_listChunkIdsFor {db : Db} {addr : Addr} {c : ChunkId} :
    c ∈ listChunkIdsFor db addr ↔ ⟨c, addr⟩ ∈ db.replicas := by
  unfold listChunkIdsFor
  constructor
  · intro h
    obtain ⟨⟨c', addr'⟩, hr, rfl⟩ := List.mem_map.mp h
    simp only [List.mem_filter, decide_eq_true_eq] at hr
    obtain ⟨hr, rfl⟩ := hr
    exact hr
  · intro h
    exact List.mem_map.mpr ⟨_, List.mem_filter.mpr ⟨h, by simp⟩, rfl⟩

/-! ### committed_bytes -/

/-- A sum of sizes overflows on the way only if it does in the end. -/
theorem sumFrom_of_nonneg {total : ℤ} {sizes : List ℤ} (htotal : 0 ≤ total) (hlt : total < 2 ^ 63)
    (hsizes : ∀ x ∈ sizes, 0 ≤ x) :
    sumFrom total sizes = if total + sizes.sum < 2 ^ 63 then some (total + sizes.sum) else none := by
  induction sizes generalizing total with
  | nil =>
    rw [sumFrom, List.sum_nil, add_zero, if_pos hlt]
  | cons x xs ih =>
    have hx : 0 ≤ x := hsizes x List.mem_cons_self
    have hxs : ∀ y ∈ xs, 0 ≤ y := fun y hy => hsizes y (List.mem_cons_of_mem _ hy)
    have hrest : 0 ≤ xs.sum := List.sum_nonneg hxs
    rw [sumFrom, List.sum_cons, ← add_assoc]
    by_cases hin : InRange (total + x)
    · rw [if_pos hin, ih (by omega) hin.2 hxs]
    · rw [if_neg hin, if_neg]
      intro hsum
      exact hin ⟨by omega, by omega⟩

/-- The walk of the `SUM` raises in no order of the rows. -/
def Db.Summable (db : Db) : Prop :=
  ∀ rows : List FileRow, rows.Perm db.files → (sumFrom 0 (committedSizes rows)).isSome

theorem Db.summable_of_nonneg {db : Db} (hsizes : ∀ F ∈ db.files, 0 ≤ F.size)
    (hsum : (committedSizes db.files).sum < 2 ^ 63) : db.Summable := by
  intro rows hperm
  have hsame : (committedSizes rows).sum = (committedSizes db.files).sum :=
    ((hperm.filter _).map _).sum_eq
  rw [sumFrom_of_nonneg le_rfl (by omega), zero_add, hsame, if_pos hsum]
  · rfl
  · intro x hx
    obtain ⟨F, hF, rfl⟩ := List.mem_map.mp hx
    exact hsizes F (hperm.mem_iff.mp (List.mem_filter.mp hF).1)

theorem Db.Summable.view {db : Db} (h : db.Summable) (o : RowOrder) :
    (committedBytes (o.view db)).isSome :=
  h _ (o.files_perm db)

theorem Db.Summable.of_files {db db' : Db} (h : db.Summable) (hfiles : db'.files = db.files) :
    db'.Summable :=
  fun rows hperm => h rows (hfiles ▸ hperm)

/-- The tables with their rows in another order. -/
def Db.reorder (db : Db) (files : List FileRow) (chunks : List ChunkRow) (replicas : List ReplicaRow)
    (hfiles : files.Perm db.files) (hchunks : chunks.Perm db.chunks)
    (hreplicas : replicas.Perm db.replicas) : Db where
  files := files
  chunks := chunks
  replicas := replicas
  files_key := (hfiles.map _).nodup_iff.mpr db.files_key
  chunks_key := (hchunks.map _).nodup_iff.mpr db.chunks_key
  replicas_key := hreplicas.nodup_iff.mpr db.replicas_key
  chunks_fk c hc := (hfiles.map _).mem_iff.mpr (db.chunks_fk c (hchunks.mem_iff.mp hc))
  replicas_fk r hr := (hchunks.map _).mem_iff.mpr (db.replicas_fk r (hreplicas.mem_iff.mp hr))

/-- Some walk comes to the files in the order of `rows` wherever these are the files. -/
theorem exists_walk (rows : List FileRow) :
    ∃ o : RowOrder, ∀ db : Db, rows.Perm db.files → (o.view db).files = rows := by
  classical
  refine ⟨⟨fun db => if h : rows.Perm db.files then
      db.reorder rows db.chunks db.replicas h (.refl _) (.refl _) else db, fun db => ?_, fun db => ?_,
    fun db => ?_⟩, fun db h => ?_⟩
  · split_ifs with h
    · exact h
    · exact .refl _
  · split_ifs <;> exact .refl _
  · split_ifs <;> exact .refl _
  · simp only [dif_pos h, Db.reorder]

/-! ### The heal query -/

theorem filter_leftJoin_self (db : Db) (c : ChunkRow) :
    (leftJoinReplicas db c).filter (fun r => (r.chunkId, r.idx) = (c.chunkId, c.idx)) =
      leftJoinReplicas db c := by
  rw [List.filter_eq_self]
  intro r hr
  unfold leftJoinReplicas at hr
  split at hr
  · simp_all
  · obtain ⟨addr, _, rfl⟩ := List.mem_map.mp hr
    simp

theorem chunkId_of_mem_leftJoin {db : Db} {c : ChunkRow} {r : JoinRow}
    (h : r ∈ leftJoinReplicas db c) : r.chunkId = c.chunkId ∧ r.idx = c.idx := by
  unfold leftJoinReplicas at h
  split at h
  · simp_all
  · obtain ⟨addr, _, rfl⟩ := List.mem_map.mp h
    simp

theorem leftJoin_ne_nil (db : Db) (c : ChunkRow) : leftJoinReplicas db c ≠ [] := by
  unfold leftJoinReplicas
  split <;> simp_all

theorem filterMap_address_leftJoin (db : Db) (c : ChunkRow) :
    (leftJoinReplicas db c).filterMap JoinRow.address = db.locations c.chunkId := by
  unfold leftJoinReplicas
  cases h : db.locations c.chunkId with
  | nil => simp
  | cons addr addrs => simp [List.filterMap_map]

/-- A committed chunk row joins with exactly its own file row. -/
theorem committedFilesOf_eq {db : Db} {c : ChunkRow} {F : FileRow} (hF : F ∈ db.files)
    (hname : F.filename = c.filename) (hst : F.status = .committed) :
    committedFilesOf db c = [F] := by
  have hmem : ∀ G ∈ committedFilesOf db c, G = F := by
    intro G hG
    simp only [committedFilesOf, List.mem_filter, decide_eq_true_eq] at hG
    exact db.file_unique hG.1 hF (hG.2.1.trans hname.symm)
  have hnd : (committedFilesOf db c).Nodup := db.files_key.of_map.filter _
  have hin : F ∈ committedFilesOf db c := by simp [committedFilesOf, hF, hname, hst]
  exact List.perm_singleton.mp ((List.perm_ext_iff_of_nodup hnd (List.nodup_singleton F)).mpr
    fun G => ⟨fun hG => by simp [hmem G hG], fun hG => by rwa [List.mem_singleton.mp hG]⟩)

theorem mem_committedJoin {db : Db} {r : JoinRow} :
    r ∈ committedJoin db ↔ ∃ c ∈ db.chunks, db.CommittedChunk c.chunkId ∧
      r ∈ leftJoinReplicas db c := by
  simp only [committedJoin, List.mem_flatMap]
  constructor
  · rintro ⟨c, hc, F, hF, hr⟩
    simp only [committedFilesOf, List.mem_filter, decide_eq_true_eq] at hF
    exact ⟨c, hc, ⟨c, hc, rfl, F, hF.1, hF.2.1, hF.2.2⟩, hr⟩
  · rintro ⟨c, hc, ⟨row, hrow, hid, F, hF, hname, hst⟩, hr⟩
    obtain rfl := db.chunk_unique hrow hc hid
    exact ⟨row, hc, F, by simp [committedFilesOf, hF, hname, hst], hr⟩

/-- The group of a committed chunk is what the chunk itself joins to. -/
theorem filter_committedJoin {db : Db} {c : ChunkRow} (hc : c ∈ db.chunks)
    (hcom : db.CommittedChunk c.chunkId) :
    (committedJoin db).filter (fun r => (r.chunkId, r.idx) = (c.chunkId, c.idx)) =
      leftJoinReplicas db c := by
  obtain ⟨row, hrow, hid, F, hF, hname, hst⟩ := hcom
  obtain rfl := db.chunk_unique hrow hc hid
  rw [committedJoin, List.filter_flatMap]
  obtain ⟨l₁, l₂, hsplit⟩ := List.append_of_mem hc
  have hnd := db.chunks_key
  rw [hsplit, List.map_append, List.map_cons, List.nodup_middle, List.nodup_cons] at hnd
  -- every other chunk row has another id, so its joined rows are filtered out
  have hother : ∀ d ∈ l₁ ++ l₂, ((committedFilesOf db d).flatMap fun _ =>
      leftJoinReplicas db d).filter (fun r => (r.chunkId, r.idx) = (row.chunkId, row.idx)) = [] := by
    intro d hd
    rw [List.filter_eq_nil_iff]
    intro r hr
    obtain ⟨_, _, hr⟩ := List.mem_flatMap.mp hr
    have hne : d.chunkId ≠ row.chunkId := fun he =>
      hnd.1 (by rw [← List.map_append, ← he]; exact List.mem_map_of_mem hd)
    simp [(chunkId_of_mem_leftJoin hr).1, hne]
  rw [hsplit, List.flatMap_append, List.flatMap_cons,
    List.flatMap_eq_nil_iff.mpr fun d hd => hother d (by simp [hd]),
    List.flatMap_eq_nil_iff.mpr fun d hd => hother d (by simp [hd]),
    committedFilesOf_eq hF hname hst]
  simpa using filter_leftJoin_self db row

/-- Every group comes from one committed chunk and holds exactly its joined rows. -/
theorem mem_groupByChunk {db : Db} {g : ChunkId × ℕ × List JoinRow} :
    g ∈ groupByChunk (committedJoin db) ↔ ∃ c ∈ db.chunks, db.CommittedChunk c.chunkId ∧
      g = (c.chunkId, c.idx, leftJoinReplicas db c) := by
  simp only [groupByChunk, List.mem_map, List.mem_dedup]
  constructor
  · rintro ⟨key, ⟨r, hr, rfl⟩, rfl⟩
    obtain ⟨c, hc, hcom, hr⟩ := mem_committedJoin.mp hr
    obtain ⟨hid, hidx⟩ := chunkId_of_mem_leftJoin hr
    refine ⟨c, hc, hcom, ?_⟩
    simp only [hid, hidx]
    rw [filter_committedJoin hc hcom]
  · rintro ⟨c, hc, hcom, rfl⟩
    obtain ⟨r, hr⟩ := List.exists_mem_of_ne_nil _ (leftJoin_ne_nil db c)
    obtain ⟨hid, hidx⟩ := chunkId_of_mem_leftJoin hr
    refine ⟨(c.chunkId, c.idx), ⟨r, mem_committedJoin.mpr ⟨c, hc, hcom, hr⟩, by rw [hid, hidx]⟩, ?_⟩
    simp only
    rw [filter_committedJoin hc hcom]

/-- The addresses come back out of `GROUP_CONCAT` as they went in when none has a comma;
the one exception is a chunk whose only address is the empty string. -/
theorem splitAddrs_groupConcat {db : Db} {c : ChunkRow}
    (hcomma : ∀ addr ∈ db.locations c.chunkId, CommaFree addr) :
    splitAddrs (groupConcat (leftJoinReplicas db c)) = db.locations c.chunkId ∨
      splitAddrs (groupConcat (leftJoinReplicas db c)) = [] := by
  unfold groupConcat
  rw [filterMap_address_leftJoin]
  cases h : db.locations c.chunkId with
  | nil => exact .inl rfl
  | cons addr addrs =>
    have hsplit : ([','].intercalate (addr :: addrs)).splitOn ',' = addr :: addrs :=
      List.splitOn_intercalate ',' (fun l hl => by rw [h] at hcomma; exact hcomma l hl) (by simp)
    simp only
    cases hcat : [','].intercalate (addr :: addrs) with
    | nil => exact .inr rfl
    | cons x xs => exact .inl (by simp only [splitAddrs]; rw [← hcat, hsplit])

/-- Otherwise there is no exception. -/
theorem splitAddrs_groupConcat_of_ne {db : Db} {c : ChunkRow}
    (hcomma : ∀ addr ∈ db.locations c.chunkId, CommaFree addr) (hne : db.locations c.chunkId ≠ [[]]) :
    splitAddrs (groupConcat (leftJoinReplicas db c)) = db.locations c.chunkId := by
  unfold groupConcat
  rw [filterMap_address_leftJoin]
  cases h : db.locations c.chunkId with
  | nil => rfl
  | cons addr addrs =>
    rw [h] at hcomma hne
    have hsplit : ([','].intercalate (addr :: addrs)).splitOn ',' = addr :: addrs :=
      List.splitOn_intercalate ',' hcomma (by simp)
    simp only
    cases hcat : [','].intercalate (addr :: addrs) with
    | nil =>
      -- the joined string is empty only for a single empty address
      cases addrs with
      | nil => simp_all [List.intercalate]
      | cons addr' addrs => simp [List.intercalate, List.intersperse] at hcat
    | cons x xs =>
      simp only [splitAddrs]
      rw [← hcat, hsplit]

/-- The sum of the query counts the addresses that are live. -/
theorem liveCount_leftJoin (db : Db) (live : List Addr) (c : ChunkRow) :
    liveCount live (leftJoinReplicas db c) = ((db.locations c.chunkId).filter (· ∈ live)).length := by
  by_cases hlive : live = []
  · simp [liveCount, hlive]
  have hsum : ∀ addrs : List Addr,
      liveCount live (addrs.map fun addr => JoinRow.mk c.chunkId c.idx (some addr)) =
        (addrs.filter (· ∈ live)).length := by
    intro addrs
    induction addrs with
    | nil => simp [liveCount]
    | cons addr addrs ih =>
      simp only [liveCount, if_neg hlive, List.map_cons, List.sum_cons, List.filter_cons] at ih ⊢
      rw [ih]
      by_cases ha : addr ∈ live
      · simp [ha, Nat.add_comm]
      · simp [ha]
  unfold leftJoinReplicas
  cases h : db.locations c.chunkId with
  | nil => simp [liveCount, hlive]
  | cons addr addrs => exact hsum (addr :: addrs)

theorem mem_knownReplicaAddresses {db : Db} {addr : Addr} :
    addr ∈ knownReplicaAddresses db ↔
      ∃ c ∈ db.chunks, db.CommittedChunk c.chunkId ∧ addr ∈ db.locations c.chunkId := by
  simp only [knownReplicaAddresses, List.mem_dedup, List.mem_flatMap, List.mem_filter,
    decide_eq_true_eq, List.mem_map, Db.mem_locations]
  constructor
  · rintro ⟨r, hr, c, ⟨hc, hid⟩, F, hF, rfl⟩
    simp only [committedFilesOf, List.mem_filter, decide_eq_true_eq] at hF
    exact ⟨c, hc, ⟨c, hc, rfl, F, hF.1, hF.2.1, hF.2.2⟩, hid ▸ hr⟩
  · rintro ⟨c, hc, ⟨row, hrow, hid, F, hF, hname, hst⟩, hr⟩
    obtain rfl := db.chunk_unique hrow hc hid
    exact ⟨_, hr, row, ⟨hc, rfl⟩, F, by simp [committedFilesOf, hF, hname, hst], rfl⟩

theorem mem_underReplicatedChunks {db : Db} {live : List Addr} {replication : ℕ} {m : ChunkMeta} :
    m ∈ underReplicatedChunks db live replication ↔
      ∃ c ∈ db.chunks, db.CommittedChunk c.chunkId ∧
        liveCount live (leftJoinReplicas db c) < replication ∧
        m = ⟨c.chunkId, c.idx, splitAddrs (groupConcat (leftJoinReplicas db c))⟩ := by
  simp only [underReplicatedChunks, List.mem_map, List.mem_filter, decide_eq_true_eq]
  constructor
  · rintro ⟨g, ⟨hg, hlt⟩, rfl⟩
    obtain ⟨c, hc, hcom, rfl⟩ := mem_groupByChunk.mp hg
    exact ⟨c, hc, hcom, hlt, rfl⟩
  · rintro ⟨c, hc, hcom, hlt, rfl⟩
    exact ⟨_, ⟨mem_groupByChunk.mpr ⟨c, hc, hcom, rfl⟩, hlt⟩, rfl⟩

/-- No chunk is listed twice. -/
theorem underReplicatedChunks_nodup (db : Db) (live : List Addr) (replication : ℕ) :
    ((underReplicatedChunks db live replication).map ChunkMeta.chunkId).Nodup := by
  have hkeys : ((groupByChunk (committedJoin db)).map fun g => (g.1, g.2.1)).Nodup := by
    rw [groupByChunk, List.map_map]
    simpa [Function.comp_def] using
      List.nodup_dedup ((committedJoin db).map fun r => (r.chunkId, r.idx))
  rw [underReplicatedChunks, List.map_map]
  refine List.Nodup.sublist (List.filter_sublist.map _) ?_
  refine (hkeys.of_map).map_on ?_
  intro g hg g' hg' he
  obtain ⟨c, hc, _, rfl⟩ := mem_groupByChunk.mp hg
  obtain ⟨c', hc', _, rfl⟩ := mem_groupByChunk.mp hg'
  simp only [Function.comp_apply] at he
  rw [db.chunk_unique hc hc' he]

end GfsCluster
