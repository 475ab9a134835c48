import GfsCluster.Lib.Catalog
import GfsCluster.Lib.Lists
import GfsCluster.Metadata.Effects
import GfsCluster.Metadata.QueryFacts

/-! The tables read as a nested map: for each filename its size, number of chunks and
status, and for each of its chunks the index and the set of addresses. Each statement is
the obvious operation on that map, and the queries return what the map holds. -/

namespace GfsCluster

/-- What the map says of a file besides its chunks. -/
structure FileInfo where
  size : ℤ
  numChunks : ℤ
  status : Status
  deriving DecidableEq

abbrev FileMap := Catalog Filename FileInfo ChunkId Addr

def FileRow.info (F : FileRow) : FileInfo := ⟨F.size, F.numChunks, F.status⟩

namespace Db

variable (db : Db)

/-- What the tables hold under the key `c` of the file `f`. -/
def itemOf (f : Filename) (c : ChunkId) : Option (Catalog.Item Addr) :=
  (db.chunks.find? fun row => row.chunkId = c ∧ row.filename = f).map fun row =>
    ⟨row.idx, {addr | addr ∈ db.locations c}⟩

/-- The tables, read as a map. -/
def catalog : FileMap := fun f => (selectFile db f).map fun F => ⟨F.info, db.itemOf f⟩

variable {db} {f : Filename} {c : ChunkId}

theorem itemOf_eq_some {it : Catalog.Item Addr} : db.itemOf f c = some it ↔
    (⟨c, f, it.index⟩ : ChunkRow) ∈ db.chunks ∧ it.places = {addr | ⟨c, addr⟩ ∈ db.replicas} := by
  obtain ⟨i, places⟩ := it
  have hfind : ∀ row, db.chunks.find? (fun row => row.chunkId = c ∧ row.filename = f) = some row ↔
      row ∈ db.chunks ∧ row.chunkId = c ∧ row.filename = f := by
    intro row
    constructor
    · intro h
      exact ⟨List.mem_of_find?_eq_some h, by simpa using List.find?_some h⟩
    · rintro ⟨hrow, rfl, rfl⟩
      cases h : db.chunks.find? fun r => r.chunkId = row.chunkId ∧ r.filename = row.filename with
      | none => simpa using List.find?_eq_none.mp h row hrow
      | some d =>
        have hd : d.chunkId = row.chunkId ∧ d.filename = row.filename := by
          simpa using List.find?_some h
        rw [db.chunk_unique (List.mem_of_find?_eq_some h) hrow hd.1]
  simp only [itemOf, Option.map_eq_some_iff, hfind, mem_locations, Catalog.Item.mk.injEq]
  constructor
  · rintro ⟨⟨_, _, _⟩, ⟨hrow, rfl, rfl⟩, rfl, rfl⟩
    exact ⟨hrow, rfl⟩
  · rintro ⟨hrow, rfl⟩
    exact ⟨_, ⟨hrow, rfl, rfl⟩, rfl, rfl⟩

theorem catalog_eq_some {e : Catalog.Entry FileInfo ChunkId Addr} : db.catalog f = some e ↔
    ∃ F ∈ db.files, F.filename = f ∧ e = ⟨F.info, db.itemOf f⟩ := by
  simp only [catalog, Option.map_eq_some_iff, selectFile_eq_some, and_assoc, eq_comm (b := e)]

theorem catalog_eq_none : db.catalog f = none ↔ ∀ F ∈ db.files, F.filename ≠ f := by
  rw [catalog, Option.map_eq_none_iff, selectFile_eq_none]

/-- The map holds exactly the chunk rows, each with the addresses recorded for it. -/
theorem catalog_holds {it : Catalog.Item Addr} : db.catalog.Holds f c it ↔
    (⟨c, f, it.index⟩ : ChunkRow) ∈ db.chunks ∧ it.places = {addr | ⟨c, addr⟩ ∈ db.replicas} := by
  constructor
  · rintro ⟨e, he, hit⟩
    obtain ⟨F, _, _, rfl⟩ := catalog_eq_some.mp he
    exact itemOf_eq_some.mp hit
  · intro h
    obtain ⟨F, hF, hname⟩ := db.exists_file h.1
    exact ⟨_, catalog_eq_some.mpr ⟨F, hF, hname, rfl⟩, itemOf_eq_some.mpr h⟩

theorem exists_holds {row : ChunkRow} (h : row ∈ db.chunks) :
    db.catalog.Holds row.filename row.chunkId
      ⟨row.idx, {addr | ⟨row.chunkId, addr⟩ ∈ db.replicas}⟩ :=
  catalog_holds.mpr ⟨h, rfl⟩

/-- The item of a chunk depends on its own row and on its own replica rows. -/
theorem itemOf_congr {db' : Db}
    (hrow : ∀ i, (⟨c, f, i⟩ : ChunkRow) ∈ db'.chunks ↔ (⟨c, f, i⟩ : ChunkRow) ∈ db.chunks)
    (hreps : (∃ i, (⟨c, f, i⟩ : ChunkRow) ∈ db.chunks) →
      ∀ addr, (⟨c, addr⟩ : ReplicaRow) ∈ db'.replicas ↔ (⟨c, addr⟩ : ReplicaRow) ∈ db.replicas) :
    db'.itemOf f c = db.itemOf f c := by
  refine Option.ext fun it => ?_
  rw [itemOf_eq_some, itemOf_eq_some, hrow]
  refine and_congr_right fun h => ?_
  simp only [hreps ⟨_, h⟩]

/-- The map does not depend on the order of the rows. -/
@[simp] theorem catalog_view (o : RowOrder) (db : Db) : (o.view db).catalog = db.catalog := by
  funext f
  have hitems : (o.view db).itemOf f = db.itemOf f := by
    funext c
    exact itemOf_congr (fun i => o.mem_chunks db) fun _ addr => o.mem_replicas db
  rw [catalog, catalog, selectFile_view, hitems]

/-! ### The statements as operations on the map -/

theorem catalog_empty : Db.empty.catalog = Catalog.empty := rfl

theorem catalog_deleteFile (f : Filename) : (db.deleteFile f).catalog = db.catalog.drop f := by
  funext n
  by_cases hn : n = f
  · subst hn
    rw [Catalog.drop, Function.update_self, catalog_eq_none]
    intro F hF
    exact of_decide_eq_true (List.mem_filter.mp hF).2
  · have hsel : selectFile (db.deleteFile f) n = selectFile db n := by
      refine Option.ext fun F => ?_
      simp only [selectFile_eq_some, deleteFile, List.mem_filter, decide_eq_true_eq]
      constructor
      · rintro ⟨⟨hF, _⟩, hname⟩
        exact ⟨hF, hname⟩
      · rintro ⟨hF, hname⟩
        exact ⟨⟨hF, hname ▸ hn⟩, hname⟩
    have hitems : (db.deleteFile f).itemOf n = db.itemOf n := by
      funext c
      apply itemOf_congr
      · intro i
        simp [deleteFile, hn]
      · rintro ⟨i, hrow⟩ addr
        rw [mem_deleteFile_replicas, and_iff_left_iff_imp]
        -- the id of a chunk of `n` is the id of no chunk of `f`
        intro _ d hd hid
        obtain rfl := db.chunk_unique hd hrow hid
        exact hn
    rw [Catalog.drop, Function.update_of_ne hn, catalog, catalog, hsel, hitems]

theorem catalog_markCommitted (f : Filename) : (db.markCommitted f).catalog =
    db.catalog.mark f fun info => { info with status := .committed } := by
  have hsel : ∀ n, selectFile (db.markCommitted f) n = (selectFile db n).map fun F =>
      if F.filename = f then { F with status := .committed } else F := by
    intro n
    simp only [selectFile, markCommitted, List.find?_map]
    congr 2
    funext F
    simp only [Function.comp_apply]
    split_ifs <;> rfl
  funext n
  by_cases hn : n = f
  · subst hn
    simp only [Catalog.mark, Function.update_self, catalog, hsel, Option.map_map]
    refine Option.map_congr fun F hF => ?_
    have hname := (selectFile_eq_some.mp hF).2
    simp only [Function.comp_apply, if_pos hname, FileRow.info]
    rfl
  · simp only [Catalog.mark, Function.update_of_ne hn, catalog, hsel, Option.map_map]
    refine Option.map_congr fun F hF => ?_
    have hname := (selectFile_eq_some.mp hF).2
    simp only [Function.comp_apply, if_neg (hname ▸ hn)]
    rfl

/-- Statements that keep files and chunks, and change the replica rows of one chunk. -/
theorem catalog_move {db' : Db} {g : Set Addr → Set Addr} (hf : db'.files = db.files)
    (hc : db'.chunks = db.chunks)
    (hself : {addr | (⟨c, addr⟩ : ReplicaRow) ∈ db'.replicas} =
      g {addr | (⟨c, addr⟩ : ReplicaRow) ∈ db.replicas})
    (hother : ∀ d, d ≠ c → ∀ addr,
      (⟨d, addr⟩ : ReplicaRow) ∈ db'.replicas ↔ (⟨d, addr⟩ : ReplicaRow) ∈ db.replicas) :
    db'.catalog = db.catalog.move c g := by
  funext n
  have hitems : db'.itemOf n = Function.update (db.itemOf n) c
      ((db.itemOf n c).map fun it => ⟨it.index, g it.places⟩) := by
    funext d
    by_cases hd : d = c
    · subst hd
      refine Option.ext fun ⟨i, places⟩ => ?_
      simp only [Function.update_self, Option.map_eq_some_iff, itemOf_eq_some, hc, hself,
        Catalog.Item.mk.injEq]
      constructor
      · rintro ⟨hrow, rfl⟩
        exact ⟨⟨i, _⟩, ⟨hrow, rfl⟩, rfl, rfl⟩
      · rintro ⟨it, ⟨hrow, hit⟩, rfl, rfl⟩
        exact ⟨hrow, by rw [hit]⟩
    · rw [Function.update_of_ne hd]
      exact itemOf_congr (fun i => by rw [hc]) fun _ => hother d hd
  simp only [Catalog.move, catalog, selectFile, hf, hitems, Option.map_map]
  rfl

theorem catalog_insertReplica {db' : Db} {addr : Addr}
    (h : db.insertReplica ⟨c, addr⟩ = .ok db') : db'.catalog = db.catalog.addPlace c addr := by
  obtain ⟨hf, hc, hr⟩ := insertReplica_ok h
  refine catalog_move hf hc ?_ fun d hd addr' => by simp [hr, hd]
  ext addr'
  simp [hr, or_comm]

theorem catalog_deleteReplica (c : ChunkId) (addr : Addr) :
    (db.deleteReplica c addr).catalog = db.catalog.removePlace c addr := by
  refine catalog_move rfl rfl ?_ fun d hd addr' => by simp [deleteReplica, hd]
  ext addr'
  simp [deleteReplica]

end Db

/-- The entry that `create_pending` makes of its arguments. -/
def pendingEntry (size numChunks : ℤ) (chunks : List ChunkMeta) :
    Catalog.Entry FileInfo ChunkId Addr where
  info := ⟨size, numChunks, .pending⟩
  items c := (chunks.find? (·.chunkId = c)).map fun m => ⟨m.index, {addr | addr ∈ m.locations}⟩

/-- In a plan with distinct ids the item of an id is that of its one chunk. -/
theorem pendingEntry_items {size numChunks : ℤ} {chunks : List ChunkMeta} {c : ChunkId}
    {it : Catalog.Item Addr} (hids : (chunks.map ChunkMeta.chunkId).Nodup) :
    (pendingEntry size numChunks chunks).items c = some it ↔
      ∃ m ∈ chunks, m.chunkId = c ∧ it = ⟨m.index, {addr | addr ∈ m.locations}⟩ := by
  have hfind : ∀ m, chunks.find? (·.chunkId = c) = some m ↔ m ∈ chunks ∧ m.chunkId = c := by
    intro m
    constructor
    · intro h
      exact ⟨List.mem_of_find?_eq_some h, by simpa using List.find?_some h⟩
    · rintro ⟨hm, rfl⟩
      cases h : chunks.find? (·.chunkId = m.chunkId) with
      | none => simpa using List.find?_eq_none.mp h m hm
      | some m' =>
        rw [List.inj_on_of_nodup_map hids (List.mem_of_find?_eq_some h) hm
          (by simpa using List.find?_some h)]
  simp only [pendingEntry, Option.map_eq_some_iff, hfind, and_assoc, eq_comm (b := it)]

/-- The rows of a reservation in place of those of the old version. -/
theorem catalog_createPending {db db' : Db} {f : Filename} {size numChunks : ℤ}
    {chunks : List ChunkMeta} {now : Seconds} (hids : (chunks.map ChunkMeta.chunkId).Nodup)
    (hfresh : ∀ c ∈ chunks, ∀ row ∈ db.chunks, row.filename ≠ f → row.chunkId ≠ c.chunkId)
    (hf : db'.files = (db.deleteFile f).files ++ [⟨f, size, numChunks, .pending, now⟩])
    (hc : db'.chunks = (db.deleteFile f).chunks ++ chunks.map (·.row f))
    (hr : db'.replicas = (db.deleteFile f).replicas ++ chunks.flatMap ChunkMeta.replicaRows) :
    db'.catalog = db.catalog.put f (pendingEntry size numChunks chunks) := by
  have hplan : ∀ c i, (⟨c, f, i⟩ : ChunkRow) ∈ db'.chunks ↔
      ∃ m ∈ chunks, m.chunkId = c ∧ m.index = i := by
    intro c i
    simp only [hc, List.mem_append, Db.mem_deleteFile_chunks, ne_eq, not_true_eq_false, and_false,
      false_or, List.mem_map, ChunkMeta.row, ChunkRow.mk.injEq, true_and]
  have hnew : ∀ m ∈ chunks, ∀ addr,
      (⟨m.chunkId, addr⟩ : ReplicaRow) ∈ db'.replicas ↔ addr ∈ m.locations := by
    intro m hm addr
    rw [hr, List.mem_append, Db.mem_deleteFile_replicas, List.mem_flatMap]
    constructor
    · rintro (⟨hrep, hno⟩ | ⟨m', hm', hrep⟩)
      · obtain ⟨row, hrow, hid⟩ := db.exists_chunk hrep
        exact absurd hid (hfresh m hm row hrow (hno row hrow hid))
      · obtain ⟨hid, hmem⟩ := ChunkMeta.mem_replicaRows.mp hrep
        rwa [List.inj_on_of_nodup_map hids hm hm' hid]
    · exact fun haddr => .inr ⟨m, hm, ChunkMeta.mem_replicaRows.mpr ⟨rfl, haddr⟩⟩
  funext n
  by_cases hn : n = f
  · subst hn
    rw [Catalog.put, Function.update_self, Db.catalog_eq_some]
    refine ⟨⟨n, size, numChunks, .pending, now⟩, by simp [hf], rfl, ?_⟩
    rw [pendingEntry, FileRow.info, Catalog.Entry.mk.injEq]
    refine ⟨rfl, funext fun c => Option.ext fun it => ?_⟩
    rw [Db.itemOf_eq_some]
    refine (@pendingEntry_items size numChunks chunks c it hids).trans ?_
    rw [hplan]
    constructor
    · rintro ⟨m, hm, rfl, rfl⟩
      exact ⟨⟨m, hm, rfl, rfl⟩, by simp only [hnew m hm]⟩
    · rintro ⟨⟨m, hm, rfl, hi⟩, hplaces⟩
      refine ⟨m, hm, rfl, ?_⟩
      obtain ⟨i, places⟩ := it
      simp only [hnew m hm] at hi hplaces
      rw [hi, hplaces]
  · have hsel : selectFile db' n = selectFile (db.deleteFile f) n := by
      refine Option.ext fun F => ?_
      rw [selectFile_eq_some, selectFile_eq_some, hf, List.mem_append, List.mem_singleton]
      constructor
      · rintro ⟨hF | rfl, hname⟩
        · exact ⟨hF, hname⟩
        · exact absurd hname.symm hn
      · rintro ⟨hF, hname⟩
        exact ⟨.inl hF, hname⟩
    have hitems : db'.itemOf n = (db.deleteFile f).itemOf n := by
      funext c
      apply Db.itemOf_congr
      · intro i
        simp [hc, ChunkMeta.row, Ne.symm hn]
      · rintro ⟨i, hrow⟩ addr
        obtain ⟨hrow, _⟩ := Db.mem_deleteFile_chunks.mp hrow
        rw [hr, List.mem_append, or_iff_left_iff_imp]
        intro hmem
        obtain ⟨m, hm, hrep⟩ := List.mem_flatMap.mp hmem
        exact absurd (ChunkMeta.mem_replicaRows.mp hrep).1 (hfresh m hm _ hrow hn)
    have hdrop := congrFun (@Db.catalog_deleteFile db f) n
    rw [Catalog.drop, Function.update_of_ne hn] at hdrop
    rw [Catalog.put, Function.update_of_ne hn, ← hdrop, Db.catalog, Db.catalog, hsel, hitems]

/-! ### What the queries return -/

/-- A file as `get_file` returns it, for the entry of the map: every chunk once, in index
order, with its set of locations. -/
structure FileMeta.Describes (fm : FileMeta) (f : Filename)
    (e : Catalog.Entry FileInfo ChunkId Addr) : Prop where
  filename : fm.filename = f
  info : (⟨fm.size, fm.numChunks, fm.status⟩ : FileInfo) = e.info
  once : (fm.chunks.map ChunkMeta.chunkId).Nodup
  sorted : fm.chunks.Pairwise (·.index ≤ ·.index)
  locations : ∀ m ∈ fm.chunks, m.locations.Nodup
  chunks : ∀ c it, e.items c = some it ↔
    ∃ m ∈ fm.chunks, m.chunkId = c ∧ it = ⟨m.index, {addr | addr ∈ m.locations}⟩

theorem chunkRowsOf_sorted (db : Db) (f : Filename) :
    (chunkRowsOf db f).Pairwise (·.idx ≤ ·.idx) := by
  have : Std.Total (α := ChunkRow) (·.idx ≤ ·.idx) := ⟨fun c d => le_total c.idx d.idx⟩
  have : IsTrans ChunkRow (·.idx ≤ ·.idx) := ⟨fun _ _ _ => le_trans⟩
  exact List.pairwise_insertionSort _ _

/-- The two SELECTs may walk the rows in different orders. -/
theorem getFile_describes {db : Db} {f : Filename} {e : Catalog.Entry FileInfo ChunkId Addr}
    (o₁ o₂ : RowOrder) (h : db.catalog f = some e) :
    ∃ fm, getFile (o₁.view db) (o₂.view db) f = some fm ∧ fm.Describes f e := by
  obtain ⟨F, hF, rfl, rfl⟩ := Db.catalog_eq_some.mp h
  have hsel : selectFile (o₁.view db) F.filename = some F := by
    rw [selectFile_view, selectFile_eq_some]
    exact ⟨hF, rfl⟩
  refine ⟨_, by rw [getFile, hsel]; rfl, ?_⟩
  rw [collectChunks_selectChunks]
  refine ⟨rfl, rfl, ?_, ?_, ?_, ?_⟩
  · simp only [FileMeta.ofRow, List.map_map]
    exact chunkRowsOf_ids_nodup (o₂.view db) F.filename
  · exact List.pairwise_map.mpr (chunkRowsOf_sorted (o₂.view db) F.filename)
  · intro m hm
    obtain ⟨c, _, rfl⟩ := List.mem_map.mp hm
    exact (o₂.view db).locations_nodup c.chunkId
  · intro c it
    rw [Db.itemOf_eq_some]
    obtain ⟨i, places⟩ := it
    simp only [FileMeta.ofRow, List.mem_map, mem_chunkRowsOf, RowOrder.mem_chunks]
    constructor
    · rintro ⟨hrow, rfl⟩
      refine ⟨_, ⟨_, ⟨hrow, rfl⟩, rfl⟩, rfl, ?_⟩
      simp [ChunkRow.meta]
    · rintro ⟨_, ⟨⟨_, _, _⟩, ⟨hrow, rfl⟩, rfl⟩, rfl, hit⟩
      simp only [ChunkRow.meta, Db.mem_locations, RowOrder.mem_replicas,
        Catalog.Item.mk.injEq] at hit ⊢
      obtain ⟨rfl, rfl⟩ := hit
      exact ⟨hrow, rfl⟩

theorem getFile_eq_none {db : Db} {f : Filename} (o₁ o₂ : RowOrder) (h : db.catalog f = none) :
    getFile (o₁.view db) (o₂.view db) f = none := by
  rw [getFile, selectFile_view, Option.map_eq_none_iff, selectFile_eq_none]
  exact Db.catalog_eq_none.mp h

theorem mem_listFiles {db : Db} {fm : FileMeta} : fm ∈ listFiles db ↔
    ∃ e, db.catalog fm.filename = some e ∧
      fm = ⟨fm.filename, e.info.size, e.info.numChunks, e.info.status, []⟩ := by
  simp only [listFiles, List.mem_map, List.mem_insertionSort, Db.catalog_eq_some]
  constructor
  · rintro ⟨F, hF, rfl⟩
    exact ⟨_, ⟨F, hF, rfl, rfl⟩, rfl⟩
  · rintro ⟨_, ⟨F, hF, hname, rfl⟩, hfm⟩
    exact ⟨F, hF, by rw [hfm, ← hname]; rfl⟩

/-- No name is listed twice, and the names come in order. -/
theorem listFiles_sorted (db : Db) : (listFiles db).Pairwise (·.filename < ·.filename) := by
  have : Std.Total (α := FileRow) (·.filename ≤ ·.filename) :=
    ⟨fun F G => le_total F.filename G.filename⟩
  have : IsTrans FileRow (·.filename ≤ ·.filename) := ⟨fun _ _ _ => le_trans⟩
  have hle := List.pairwise_insertionSort (r := fun F G : FileRow => F.filename ≤ G.filename) db.files
  have hne := (((List.perm_insertionSort (r := fun F G : FileRow => F.filename ≤ G.filename)
    db.files).map FileRow.filename).nodup_iff).mpr db.files_key
  refine List.pairwise_map.mpr ((hle.and (List.pairwise_map.mp hne)).imp ?_)
  intro F G h
  exact lt_of_le_of_ne h.1 h.2

theorem mem_committedChunkRows {db : Db} {c : ChunkRow} :
    c ∈ committedChunkRows db ↔ c ∈ db.chunks ∧ db.CommittedChunk c.chunkId := by
  simp only [committedChunkRows, List.mem_insertionSort, List.mem_flatMap, List.mem_map,
    committedFilesOf, List.mem_filter, decide_eq_true_eq]
  constructor
  · rintro ⟨d, hd, F, ⟨hF, hname, hst⟩, rfl⟩
    exact ⟨hd, d, hd, rfl, F, hF, hname, hst⟩
  · rintro ⟨hc, row, hrow, hid, F, hF, hname, hst⟩
    obtain rfl := db.chunk_unique hrow hc hid
    exact ⟨row, hc, F, ⟨hF, hname, hst⟩, rfl⟩

/-- The join with `files` repeats no chunk row: its own file row is the only one. -/
theorem committedChunkRows_ids_nodup (db : Db) :
    ((committedChunkRows db).map ChunkRow.chunkId).Nodup := by
  rw [committedChunkRows, ((List.perm_insertionSort _ _).map _).nodup_iff]
  refine db.chunks_key.sublist ((Lists.flatMap_sublist fun c _ => ?_).map _)
  cases h : committedFilesOf db c with
  | nil => simp
  | cons F Fs =>
    have hF : F ∈ committedFilesOf db c := by simp [h]
    simp only [committedFilesOf, List.mem_filter, decide_eq_true_eq] at hF
    rw [committedFilesOf_eq hF.1 hF.2.1 hF.2.2] at h
    cases h
    simp

theorem committedChunkRows_sorted (db : Db) : (committedChunkRows db).Pairwise ChunkRow.Before := by
  have : Std.Total ChunkRow.Before := by
    refine ⟨fun c d => ?_⟩
    rcases lt_trichotomy c.filename d.filename with h | h | h
    · exact .inl (.inl h)
    · rcases le_total c.idx d.idx with hi | hi
      · exact .inl (.inr ⟨h, hi⟩)
      · exact .inr (.inr ⟨h.symm, hi⟩)
    · exact .inr (.inl h)
  have : IsTrans ChunkRow ChunkRow.Before := by
    refine ⟨fun c d e hcd hde => ?_⟩
    rcases hcd with h | ⟨h, hi⟩ <;> rcases hde with h' | ⟨h', hi'⟩
    · exact .inl (h.trans h')
    · exact .inl (h' ▸ h)
    · exact .inl (h ▸ h')
    · exact .inr ⟨h.trans h', hi.trans hi'⟩
  exact List.pairwise_insertionSort _ _

theorem listCommittedChunks_eq (db : Db) :
    listCommittedChunks db = (committedChunkRows db).map (ChunkRow.meta db) := by
  rw [listCommittedChunks, collectChunks, foldl_addJoinRow_rows db _ _
    (committedChunkRows_ids_nodup db)]
  · simp
  · simp

/-- The chunk belongs to a committed file of the map, with the item `it`. -/
def CommittedItem (M : FileMap) (f : Filename) (c : ChunkId) (it : Catalog.Item Addr) : Prop :=
  ∃ e, M f = some e ∧ e.info.status = .committed ∧ e.items c = some it

theorem committedItem_iff {db : Db} {f : Filename} {c : ChunkId} {it : Catalog.Item Addr} :
    CommittedItem db.catalog f c it ↔ (⟨c, f, it.index⟩ : ChunkRow) ∈ committedChunkRows db ∧
      it.places = {addr | ⟨c, addr⟩ ∈ db.replicas} := by
  rw [mem_committedChunkRows]
  constructor
  · rintro ⟨e, he, hst, hit⟩
    obtain ⟨F, hF, hname, rfl⟩ := Db.catalog_eq_some.mp he
    obtain ⟨hrow, hplaces⟩ := Db.itemOf_eq_some.mp hit
    exact ⟨⟨hrow, _, hrow, rfl, F, hF, hname, hst⟩, hplaces⟩
  · rintro ⟨⟨hrow, row, hrow', hid, F, hF, hname, hst⟩, hplaces⟩
    obtain rfl := db.chunk_unique hrow' hrow hid
    exact ⟨_, Db.catalog_eq_some.mpr ⟨F, hF, hname, rfl⟩, hst,
      Db.itemOf_eq_some.mpr ⟨hrow, hplaces⟩⟩

theorem listCommittedChunks_ids_nodup (db : Db) :
    ((listCommittedChunks db).map ChunkMeta.chunkId).Nodup := by
  rw [listCommittedChunks_eq, List.map_map]
  exact committedChunkRows_ids_nodup db

theorem listCommittedChunks_locations_nodup {db : Db} {m : ChunkMeta}
    (h : m ∈ listCommittedChunks db) : m.locations.Nodup := by
  rw [listCommittedChunks_eq] at h
  obtain ⟨c, _, rfl⟩ := List.mem_map.mp h
  exact db.locations_nodup c.chunkId

/-- The chunks come by the name of their file, and by index within a file. -/
theorem listCommittedChunks_sorted (db : Db) : (listCommittedChunks db).Pairwise fun m m' =>
    ∀ f f' it it', db.catalog.Holds f m.chunkId it → db.catalog.Holds f' m'.chunkId it' →
      f < f' ∨ f = f' ∧ m.index ≤ m'.index := by
  rw [listCommittedChunks_eq]
  refine List.pairwise_map.mpr ((committedChunkRows_sorted db).imp_of_mem ?_)
  intro c d hc hd hcd f f' it it' hf hf'
  have hname : ∀ {e : ChunkRow} {g it}, e ∈ committedChunkRows db →
      db.catalog.Holds g e.chunkId it → e.filename = g := by
    intro e g it he hg
    rw [db.chunk_unique (mem_committedChunkRows.mp he).1 (Db.catalog_holds.mp hg).1 rfl]
  rwa [← hname hc hf, ← hname hd hf']

theorem mem_listCommittedChunks {db : Db} {c : ChunkId} {it : Catalog.Item Addr} :
    (∃ f, CommittedItem db.catalog f c it) ↔ ∃ m ∈ listCommittedChunks db,
      m.chunkId = c ∧ it = ⟨m.index, {addr | addr ∈ m.locations}⟩ := by
  obtain ⟨i, places⟩ := it
  simp only [committedItem_iff, listCommittedChunks_eq, List.mem_map]
  constructor
  · rintro ⟨f, hrow, rfl⟩
    exact ⟨_, ⟨_, hrow, rfl⟩, rfl, by simp [ChunkRow.meta]⟩
  · rintro ⟨_, ⟨⟨_, f, _⟩, hrow, rfl⟩, rfl, hit⟩
    simp only [ChunkRow.meta, Db.mem_locations, Catalog.Item.mk.injEq] at hit ⊢
    obtain ⟨rfl, rfl⟩ := hit
    exact ⟨f, hrow, rfl⟩

theorem listChunkIdsFor_holds {db : Db} {c : ChunkId} {addr : Addr} :
    c ∈ listChunkIdsFor db addr ↔ ∃ f it, db.catalog.Holds f c it ∧ addr ∈ it.places := by
  rw [mem_listChunkIdsFor]
  constructor
  · intro hr
    obtain ⟨row, hrow, hid⟩ := db.exists_chunk hr
    exact ⟨row.filename, _, hid ▸ Db.exists_holds hrow, hr⟩
  · rintro ⟨f, it, hit, haddr⟩
    rwa [(Db.catalog_holds.mp hit).2] at haddr

theorem listChunkIdsFor_nodup (db : Db) (addr : Addr) : (listChunkIdsFor db addr).Nodup := by
  refine (db.replicas_key.filter _).map_on ?_
  rintro ⟨_, _⟩ hr ⟨_, _⟩ hr' hid
  simp only [List.mem_filter, decide_eq_true_eq] at hr hr'
  rw [ReplicaRow.mk.injEq]
  exact ⟨hid, hr.2.trans hr'.2.symm⟩

end GfsCluster
