import GfsCluster.Lib.Lists
import GfsCluster.Metadata.Effects
import GfsCluster.Metadata.QueryFacts

/-! The rows of one file. The tables are shared and a delete cascades from one into the next,
but a write under another name leaves these rows alone, and what a query says about a file
depends on them only. -/

namespace GfsCluster

/-- The rows that are about one file, in the order of the tables. -/
structure FileRows where
  files : List FileRow
  chunks : List ChunkRow
  replicas : List ReplicaRow
  deriving DecidableEq

/-- The rows of the chunks with the given rows. -/
def replicasOf (chunks : List ChunkRow) (replicas : List ReplicaRow) : List ReplicaRow :=
  replicas.filter (·.chunkId ∈ chunks.map ChunkRow.chunkId)

namespace Db

def rowsOf (db : Db) (g : Filename) : FileRows where
  files := db.files.filter (·.filename = g)
  chunks := db.chunks.filter (·.filename = g)
  replicas := replicasOf (db.chunks.filter (·.filename = g)) db.replicas

variable {db db' : Db} {f g : Filename}

/-! ### Writes under other names -/

theorem rowsOf_markCommitted (hne : f ≠ g) : (db.markCommitted f).rowsOf g = db.rowsOf g := by
  have hfiles : (db.markCommitted f).files.filter (·.filename = g) =
      db.files.filter (·.filename = g) := by
    have hname : ∀ F : FileRow,
        (if F.filename = f then { F with status := .committed } else F).filename = F.filename := by
      intro F
      split_ifs <;> rfl
    rw [markCommitted, List.filter_map]
    simp only [Function.comp_def, hname]
    refine (List.map_congr_left fun F hF => if_neg ?_).trans (List.map_id _)
    rw [List.mem_filter, decide_eq_true_eq] at hF
    rw [hF.2]
    exact hne.symm
  rw [rowsOf, rowsOf, hfiles]
  rfl

theorem rowsOf_deleteFile (hne : f ≠ g) : (db.deleteFile f).rowsOf g = db.rowsOf g := by
  have hfiles : (db.deleteFile f).files.filter (·.filename = g) =
      db.files.filter (·.filename = g) := by
    rw [deleteFile, List.filter_filter]
    refine List.filter_congr fun F _ => ?_
    simpa using fun h => h ▸ hne.symm
  have hchunks : (db.deleteFile f).chunks.filter (·.filename = g) =
      db.chunks.filter (·.filename = g) := by
    rw [deleteFile, List.filter_filter]
    refine List.filter_congr fun F _ => ?_
    simpa using fun h => h ▸ hne.symm
  have hreplicas : replicasOf (db.chunks.filter (·.filename = g)) (db.deleteFile f).replicas =
      replicasOf (db.chunks.filter (·.filename = g)) db.replicas := by
    rw [replicasOf, replicasOf, deleteFile, List.filter_filter]
    refine List.filter_congr fun r _ => ?_
    rw [Bool.and_eq_left_iff_imp, decide_eq_true_eq, decide_eq_true_eq]
    rintro hg hf
    -- a chunk has one name
    obtain ⟨c, hc, hid⟩ := List.mem_map.mp hg
    obtain ⟨c', hc', hid'⟩ := List.mem_map.mp hf
    rw [List.mem_filter, decide_eq_true_eq] at hc hc'
    rw [db.chunk_unique hc.1 hc'.1 (hid.trans hid'.symm)] at hc
    exact hne (hc'.2.symm.trans hc.2)
  rw [rowsOf, rowsOf, hfiles, hchunks, hreplicas]

/-- What a reservation adds is of its own name. -/
theorem rowsOf_of_append {F : FileRow} {chunks : List ChunkRow} {replicas : List ReplicaRow}
    (hfiles : db'.files = db.files ++ [F]) (hchunks : db'.chunks = db.chunks ++ chunks)
    (hreplicas : db'.replicas = db.replicas ++ replicas) (hF : F.filename ≠ g)
    (hnames : ∀ c ∈ chunks, c.filename ≠ g)
    (hids : ∀ r ∈ replicas, r.chunkId ∈ chunks.map ChunkRow.chunkId) : db'.rowsOf g = db.rowsOf g := by
  have hnone : chunks.filter (·.filename = g) = [] :=
    List.filter_eq_nil_iff.mpr fun c hc => by simpa using hnames c hc
  have hnew : replicasOf (db.chunks.filter (·.filename = g)) replicas = [] := by
    refine List.filter_eq_nil_iff.mpr fun r hr => ?_
    rw [decide_eq_true_eq]
    intro hg
    obtain ⟨c, hc, hid⟩ := List.mem_map.mp hg
    obtain ⟨c', hc', hid'⟩ := List.mem_map.mp (hids r hr)
    rw [List.mem_filter, decide_eq_true_eq] at hc
    have heq : c = c' := db'.chunk_unique (hchunks ▸ List.mem_append_left _ hc.1)
      (hchunks ▸ List.mem_append_right _ hc') (hid.trans hid'.symm)
    exact hnames c' hc' (heq ▸ hc.2)
  rw [rowsOf, rowsOf, hfiles, hchunks, hreplicas, List.filter_append, List.filter_append, hnone,
    List.append_nil, List.filter_cons_of_neg (by simpa using hF), List.filter_nil, List.append_nil]
  congr 1
  rw [replicasOf, List.filter_append]
  exact (congrArg _ hnew).trans (List.append_nil _)

/-- Of a name that was not there, the replica rows are those of the reservation. -/
theorem replicas_of_append {chunks : List ChunkRow} {replicas : List ReplicaRow}
    (hchunks : db'.chunks = db.chunks ++ chunks) (hreplicas : db'.replicas = db.replicas ++ replicas)
    (hold : ∀ c ∈ db.chunks, c.filename ≠ g) (hnames : ∀ c ∈ chunks, c.filename = g)
    (hids : ∀ r ∈ replicas, r.chunkId ∈ chunks.map ChunkRow.chunkId) :
    (db'.rowsOf g).replicas = replicas := by
  have hfilter : db'.chunks.filter (·.filename = g) = chunks := by
    rw [hchunks, List.filter_append, List.filter_eq_nil_iff.mpr (by simpa using hold), List.nil_append,
      List.filter_eq_self.mpr (by simpa using hnames)]
  have hnone : replicasOf chunks db.replicas = [] := by
    refine List.filter_eq_nil_iff.mpr fun r hr => ?_
    rw [decide_eq_true_eq]
    intro hnew
    obtain ⟨c, hc, hid⟩ := List.mem_map.mp hnew
    obtain ⟨c', hc', hid'⟩ := List.mem_map.mp (db.replicas_fk r hr)
    have heq : c = c' := db'.chunk_unique (hchunks ▸ List.mem_append_right _ hc)
      (hchunks ▸ List.mem_append_left _ hc') (hid.trans hid'.symm)
    exact hold c' hc' (heq ▸ hnames c hc)
  have hall : replicasOf chunks replicas = replicas :=
    List.filter_eq_self.mpr fun r hr => decide_eq_true (hids r hr)
  rw [rowsOf, hfilter, hreplicas, replicasOf, List.filter_append]
  exact (congrArg₂ _ hnone hall).trans (List.nil_append _)

/-! ### What is said about the file -/

theorem mem_rowsOf_chunks {c : ChunkRow} :
    c ∈ (db.rowsOf g).chunks ↔ c ∈ db.chunks ∧ c.filename = g := by
  simp [rowsOf]

theorem selectFile_eq_head? (db : Db) (g : Filename) : selectFile db g = (db.rowsOf g).files.head? := by
  rw [selectFile, rowsOf, List.head?_filter]

theorem locations_eq_rowsOf {c : ChunkRow} (hc : c ∈ (db.rowsOf g).chunks) : db.locations c.chunkId =
    ((db.rowsOf g).replicas.filter (·.chunkId = c.chunkId)).map ReplicaRow.address := by
  have hmem := List.mem_map_of_mem (f := ChunkRow.chunkId) hc
  rw [locations, rowsOf, replicasOf, List.filter_filter]
  congr 1
  refine List.filter_congr fun r _ => ?_
  rw [eq_comm, Bool.and_eq_left_iff_imp, decide_eq_true_eq, decide_eq_true_eq]
  intro hid
  rw [hid]
  exact hmem

theorem selectChunks_congr (h : db'.rowsOf g = db.rowsOf g) : selectChunks db' g = selectChunks db g := by
  have hrows : db'.chunks.filter (·.filename = g) = db.chunks.filter (·.filename = g) :=
    congrArg FileRows.chunks h
  rw [selectChunks, selectChunks, chunkRowsOf, chunkRowsOf, hrows]
  refine List.flatMap_congr fun c hc => ?_
  have hmem : c ∈ (db.rowsOf g).chunks := (List.perm_insertionSort _ _).mem_iff.mp hc
  have hlocs : db'.locations c.chunkId = db.locations c.chunkId := by
    rw [locations_eq_rowsOf hmem, locations_eq_rowsOf (h ▸ hmem), h]
  rw [leftJoinReplicas, leftJoinReplicas, hlocs]

/-- `get_file` sees the rows of its file only. -/
theorem getFile_congr {db₁ db₂ db₁' db₂' : Db} (h₁ : db₁'.rowsOf g = db₁.rowsOf g)
    (h₂ : db₂'.rowsOf g = db₂.rowsOf g) : getFile db₁' db₂' g = getFile db₁ db₂ g := by
  rw [getFile, getFile, selectFile_eq_head?, selectFile_eq_head?, h₁, selectChunks_congr h₂]

/-! ### Walks -/

theorem exists_view (db db' : Db) (hfiles : db'.files.Perm db.files) (hchunks : db'.chunks.Perm db.chunks)
    (hreplicas : db'.replicas.Perm db.replicas) : ∃ o : RowOrder, o.view db = db' := by
  classical
  refine ⟨⟨fun d => if d = db then db' else d, fun d => ?_, fun d => ?_, fun d => ?_⟩, if_pos rfl⟩
  all_goals
    split_ifs with h
    · rw [h]
      assumption
    · exact .refl _

/-- The rows of a file may be found in any order in which they are found in other tables that
hold the same rows of it. -/
theorem exists_order (h : db'.rowsOf g = db.rowsOf g) (o : RowOrder) :
    ∃ o' : RowOrder, (o'.view db).rowsOf g = (o.view db').rowsOf g := by
  have hfiles := (o.files_perm db').filter (·.filename = g)
  rw [show db'.files.filter (·.filename = g) = _ from congrArg FileRows.files h] at hfiles
  have hrows : db'.chunks.filter (·.filename = g) = db.chunks.filter (·.filename = g) :=
    congrArg FileRows.chunks h
  have hchunks := (o.chunks_perm db').filter (·.filename = g)
  rw [hrows] at hchunks
  -- the walk over the chunks finds the same ids
  have hof : ∀ l : List ReplicaRow, replicasOf ((o.view db').chunks.filter (·.filename = g)) l =
      replicasOf (db.chunks.filter (·.filename = g)) l := fun l =>
    List.filter_congr fun r _ => by simp only [(hchunks.map ChunkRow.chunkId).mem_iff]
  have hreplicas : replicasOf (db.chunks.filter (·.filename = g)) db'.replicas =
      replicasOf (db.chunks.filter (·.filename = g)) db.replicas := by
    have hreps := congrArg FileRows.replicas h
    simp only [rowsOf] at hreps
    rwa [hrows] at hreps
  have hperm : (replicasOf ((o.view db').chunks.filter (·.filename = g)) (o.view db').replicas).Perm
      (replicasOf ((o.view db').chunks.filter (·.filename = g)) db.replicas) := by
    rw [hof, hof, ← hreplicas]
    exact (o.replicas_perm db').filter _
  obtain ⟨o', ho'⟩ := exists_view db (db.reorder _ _ _ (Lists.front_perm hfiles)
    (Lists.front_perm hchunks) (Lists.front_perm hperm)) (Lists.front_perm hfiles)
    (Lists.front_perm hchunks) (Lists.front_perm hperm)
  refine ⟨o', ?_⟩
  rw [ho', rowsOf, rowsOf, reorder]
  simp only [Lists.filter_front, replicasOf]

end Db

end GfsCluster
