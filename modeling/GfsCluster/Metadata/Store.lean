import GfsCluster.Metadata.Schema

/-! The write methods of `MetadataStore`. All writes share one connection, which
opens a transaction at the first statement and keeps it open until `commit`; an
exception in between leaves the statements that did run in the open transaction.
A store is therefore two databases: what is committed, which every reader sees, and
what the writer's connection sees. -/

namespace GfsCluster

structure ChunkMeta where
  chunkId : ChunkId
  index : ℕ
  locations : List Addr
  deriving DecidableEq

structure FileMeta where
  filename : Filename
  size : ℤ
  numChunks : ℤ
  status : Status
  chunks : List ChunkMeta
  deriving DecidableEq

inductive Statement
  | deleteFile (f : Filename)
  | insertFile (row : FileRow)
  | insertChunk (row : ChunkRow)
  | insertReplica (row : ReplicaRow)

def Statement.exec : Statement → Db → Except SqlError Db
  | .deleteFile f, db => .ok (db.deleteFile f)
  | .insertFile row, db => db.insertFile row
  | .insertChunk row, db => db.insertChunk row
  | .insertReplica row, db => db.insertReplica row

/-- Statements in order. The first that fails raises and keeps what the earlier ones did. -/
def execAll : List Statement → Db → Except SqlError Unit × Db
  | [], db => (.ok (), db)
  | s :: ss, db =>
    match s.exec db with
    | .ok db' => execAll ss db'
    | .error e => (.error e, db)

theorem execAll_append {ss ts : List Statement} {db db' : Db}
    (h : execAll ss db = (.ok (), db')) : execAll (ss ++ ts) db = execAll ts db' := by
  induction ss generalizing db with
  | nil =>
    simp only [execAll, Prod.mk.injEq, true_and] at h
    subst h
    rfl
  | cons s ss ih =>
    simp only [execAll, List.cons_append] at h ⊢
    cases hs : s.exec db with
    | error e => simp [hs] at h
    | ok db₁ =>
      simp only [hs] at h ⊢
      exact ih h

/-- The row of `chunks` for one entry of a placement plan. -/
def ChunkMeta.row (f : Filename) (m : ChunkMeta) : ChunkRow := ⟨m.chunkId, f, m.index⟩

/-- The rows of `replicas` for one entry of a placement plan. -/
def ChunkMeta.replicaRows (m : ChunkMeta) : List ReplicaRow := m.locations.map (⟨m.chunkId, ·⟩)

theorem ChunkMeta.mem_replicaRows {m : ChunkMeta} {r : ReplicaRow} :
    r ∈ m.replicaRows ↔ r.chunkId = m.chunkId ∧ r.address ∈ m.locations := by
  obtain ⟨c, addr⟩ := r
  simp only [ChunkMeta.replicaRows, List.mem_map, ReplicaRow.mk.injEq]
  constructor
  · rintro ⟨_, h, rfl, rfl⟩
    exact ⟨rfl, h⟩
  · rintro ⟨rfl, h⟩
    exact ⟨_, h, rfl, rfl⟩

structure MetadataStore where
  committed : Db
  writer : Db

namespace MetadataStore

def init : MetadataStore := ⟨Db.empty, Db.empty⟩

/-- No statement waits in an open transaction. -/
def Clean (m : MetadataStore) : Prop := m.writer = m.committed

def createPendingStatements (f : Filename) (size numChunks : ℤ) (chunks : List ChunkMeta)
    (now : Seconds) : List Statement :=
  [.deleteFile f, .insertFile ⟨f, size, numChunks, .pending, now⟩] ++
    (chunks.map (·.row f)).map .insertChunk ++
    (chunks.flatMap ChunkMeta.replicaRows).map .insertReplica

def createPending (m : MetadataStore) (f : Filename) (size numChunks : ℤ)
    (chunks : List ChunkMeta) (now : Seconds) : Except SqlError Unit × MetadataStore :=
  match execAll (createPendingStatements f size numChunks chunks now) m.writer with
  | (.ok (), db) => (.ok (), ⟨db, db⟩)
  | (.error e, db) => (.error e, ⟨m.committed, db⟩)

def commitFile (m : MetadataStore) (f : Filename) : Bool × MetadataStore :=
  (m.writer.files.any (·.filename = f), ⟨m.writer.markCommitted f, m.writer.markCommitted f⟩)

def deleteFile (m : MetadataStore) (f : Filename) : Bool × MetadataStore :=
  (m.writer.files.any (·.filename = f), ⟨m.writer.deleteFile f, m.writer.deleteFile f⟩)

/-- `INSERT OR IGNORE` passes over a row that exists and still raises where the chunk
is gone. -/
def addReplica (m : MetadataStore) (c : ChunkId) (addr : Addr) :
    Except SqlError Bool × MetadataStore :=
  if ⟨c, addr⟩ ∈ m.writer.replicas then (.ok false, ⟨m.writer, m.writer⟩)
  else match m.writer.insertReplica ⟨c, addr⟩ with
    | .ok db => (.ok true, ⟨db, db⟩)
    | .error e => (.error e, m)

def removeReplica (m : MetadataStore) (c : ChunkId) (addr : Addr) : Bool × MetadataStore :=
  (decide (⟨c, addr⟩ ∈ m.writer.replicas),
    ⟨m.writer.deleteReplica c addr, m.writer.deleteReplica c addr⟩)

end MetadataStore

/-! ### What the writes do to the tables -/

theorem execAll_insertChunks (rows : List ChunkRow) (db : Db)
    (hnd : (rows.map ChunkRow.chunkId).Nodup)
    (hfresh : ∀ r ∈ rows, r.chunkId ∉ db.chunks.map ChunkRow.chunkId)
    (hfile : ∀ r ∈ rows, r.filename ∈ db.files.map FileRow.filename) :
    ∃ db', execAll (rows.map .insertChunk) db = (.ok (), db') ∧ db'.files = db.files ∧
      db'.chunks = db.chunks ++ rows ∧ db'.replicas = db.replicas := by
  induction rows generalizing db with
  | nil => exact ⟨db, rfl, rfl, by simp, rfl⟩
  | cons row rows ih =>
    rw [List.map_cons, List.nodup_cons] at hnd
    have hex : ∃ db₁, db.insertChunk row = .ok db₁ ∧ db₁.files = db.files ∧
        db₁.chunks = db.chunks ++ [row] ∧ db₁.replicas = db.replicas := by
      rw [Db.insertChunk, dif_neg (hfresh row (by simp)), dif_pos (hfile row (by simp))]
      exact ⟨_, rfl, rfl, rfl, rfl⟩
    obtain ⟨db₁, hins, hf₁, hc₁, hr₁⟩ := hex
    have hfresh₁ : ∀ r ∈ rows, r.chunkId ∉ db₁.chunks.map ChunkRow.chunkId := by
      intro r hr
      rw [hc₁, List.map_append, List.mem_append, not_or]
      refine ⟨hfresh r (by simp [hr]), ?_⟩
      simp only [List.map_cons, List.map_nil, List.mem_singleton]
      exact fun he => hnd.1 (he ▸ List.mem_map_of_mem hr)
    obtain ⟨db', hexec, hf, hc, hr⟩ := ih db₁ hnd.2 hfresh₁
      (fun r hr => hf₁ ▸ hfile r (by simp [hr]))
    refine ⟨db', ?_, hf.trans hf₁, by simp [hc, hc₁], hr.trans hr₁⟩
    simp only [List.map_cons, execAll, Statement.exec, hins]
    exact hexec

theorem execAll_insertReplicas (rows : List ReplicaRow) (db : Db) (hnd : rows.Nodup)
    (hfresh : ∀ r ∈ rows, r ∉ db.replicas)
    (hchunk : ∀ r ∈ rows, r.chunkId ∈ db.chunks.map ChunkRow.chunkId) :
    ∃ db', execAll (rows.map .insertReplica) db = (.ok (), db') ∧ db'.files = db.files ∧
      db'.chunks = db.chunks ∧ db'.replicas = db.replicas ++ rows := by
  induction rows generalizing db with
  | nil => exact ⟨db, rfl, rfl, rfl, by simp⟩
  | cons row rows ih =>
    rw [List.nodup_cons] at hnd
    have hex : ∃ db₁, db.insertReplica row = .ok db₁ ∧ db₁.files = db.files ∧
        db₁.chunks = db.chunks ∧ db₁.replicas = db.replicas ++ [row] := by
      rw [Db.insertReplica, dif_neg (hfresh row (by simp)), dif_pos (hchunk row (by simp))]
      exact ⟨_, rfl, rfl, rfl, rfl⟩
    obtain ⟨db₁, hins, hf₁, hc₁, hr₁⟩ := hex
    have hfresh₁ : ∀ r ∈ rows, r ∉ db₁.replicas := by
      intro r hr
      rw [hr₁, List.mem_append, not_or]
      refine ⟨hfresh r (by simp [hr]), ?_⟩
      rw [List.mem_singleton]
      exact fun he => hnd.1 (he ▸ hr)
    obtain ⟨db', hexec, hf, hc, hr⟩ := ih db₁ hnd.2 hfresh₁
      (fun r hr => hc₁ ▸ hchunk r (by simp [hr]))
    refine ⟨db', ?_, hf.trans hf₁, hc.trans hc₁, by simp [hr, hr₁]⟩
    simp only [List.map_cons, execAll, Statement.exec, hins]
    exact hexec

namespace MetadataStore

variable {m : MetadataStore} {f : Filename} {size numChunks : ℤ} {chunks : List ChunkMeta}
  {now : Seconds}

/-- The replica rows of a plan repeat no pair when its ids and each chunk's addresses
are distinct. -/
theorem replicaRows_nodup (hids : (chunks.map ChunkMeta.chunkId).Nodup)
    (hlocs : ∀ m ∈ chunks, m.locations.Nodup) :
    (chunks.flatMap ChunkMeta.replicaRows).Nodup := by
  rw [List.nodup_flatMap]
  refine ⟨fun m hm => (hlocs m hm).map fun _ _ h => (ReplicaRow.mk.inj h).2, ?_⟩
  refine (List.pairwise_map.mp hids).imp ?_
  intro m m' hne r hr hr'
  exact hne ((ChunkMeta.mem_replicaRows.mp hr).1.symm.trans (ChunkMeta.mem_replicaRows.mp hr').1)

/-- A reservation with ids that no other file uses goes through: the rows of the old
version are gone by cascade and the new ones are in place. -/
theorem createPending_replaces (hids : (chunks.map ChunkMeta.chunkId).Nodup)
    (hfresh : ∀ c ∈ chunks, ∀ row ∈ m.writer.chunks, row.filename ≠ f → row.chunkId ≠ c.chunkId)
    (hlocs : ∀ c ∈ chunks, c.locations.Nodup) :
    ∃ db, m.createPending f size numChunks chunks now = (.ok (), ⟨db, db⟩) ∧
      db.files = (m.writer.deleteFile f).files ++ [⟨f, size, numChunks, .pending, now⟩] ∧
      db.chunks = (m.writer.deleteFile f).chunks ++ chunks.map (·.row f) ∧
      db.replicas = (m.writer.deleteFile f).replicas ++ chunks.flatMap ChunkMeta.replicaRows := by
  set db₀ := m.writer.deleteFile f
  have hex : ∃ db₁, db₀.insertFile ⟨f, size, numChunks, .pending, now⟩ = .ok db₁ ∧
      db₁.files = db₀.files ++ [⟨f, size, numChunks, .pending, now⟩] ∧
      db₁.chunks = db₀.chunks ∧ db₁.replicas = db₀.replicas := by
    rw [Db.insertFile, dif_neg (by simp [db₀, Db.deleteFile])]
    exact ⟨_, rfl, rfl, rfl, rfl⟩
  obtain ⟨db₁, hins, hf₁, hc₁, hr₁⟩ := hex
  have hfresh₁ : ∀ r ∈ chunks.map (·.row f), r.chunkId ∉ db₁.chunks.map ChunkRow.chunkId := by
    intro r hr hmem
    obtain ⟨c, hc, rfl⟩ := List.mem_map.mp hr
    obtain ⟨row, hrow, hid⟩ := List.mem_map.mp hmem
    rw [hc₁] at hrow
    obtain ⟨hrow, hne⟩ := List.mem_filter.mp hrow
    exact hfresh c hc row hrow (of_decide_eq_true hne) hid
  obtain ⟨db₂, hexec₂, hf₂, hc₂, hr₂⟩ := execAll_insertChunks (chunks.map (·.row f)) db₁
    (by simpa [List.map_map, Function.comp_def, ChunkMeta.row] using hids) hfresh₁
    (by
      intro r hr
      obtain ⟨c, _, rfl⟩ := List.mem_map.mp hr
      simp [hf₁, ChunkMeta.row])
  have hnew : ∀ r ∈ chunks.flatMap ChunkMeta.replicaRows,
      ∃ c ∈ chunks, r.chunkId = c.chunkId := by
    intro r hr
    obtain ⟨c, hc, hr⟩ := List.mem_flatMap.mp hr
    exact ⟨c, hc, (ChunkMeta.mem_replicaRows.mp hr).1⟩
  obtain ⟨db₃, hexec₃, hf₃, hc₃, hr₃⟩ := execAll_insertReplicas
    (chunks.flatMap ChunkMeta.replicaRows) db₂ (replicaRows_nodup hids hlocs)
    (by
      intro r hr hmem
      obtain ⟨c, hc, hid⟩ := hnew r hr
      rw [hr₂, hr₁] at hmem
      obtain ⟨row, hrow, hid'⟩ := db₀.exists_chunk hmem
      obtain ⟨hrow, hne⟩ := List.mem_filter.mp hrow
      exact hfresh c hc row hrow (of_decide_eq_true hne) (hid'.trans hid))
    (by
      intro r hr
      obtain ⟨c, hc, hid⟩ := hnew r hr
      rw [hc₂, List.map_append, hid]
      exact List.mem_append_right _ (List.mem_map.mpr ⟨c.row f, List.mem_map_of_mem hc, rfl⟩))
  have hrun : execAll (createPendingStatements f size numChunks chunks now) m.writer =
      (.ok (), db₃) := by
    have hexec₁ : execAll [.deleteFile f, .insertFile ⟨f, size, numChunks, .pending, now⟩]
        m.writer = (.ok (), db₁) := by
      simp only [execAll, Statement.exec]
      rw [hins]
    rw [createPendingStatements, List.append_assoc, execAll_append hexec₁, execAll_append hexec₂]
    exact hexec₃
  refine ⟨db₃, by rw [createPending, hrun], ?_, ?_, ?_⟩
  · rw [hf₃, hf₂, hf₁]
  · rw [hc₃, hc₂, hc₁]
  · rw [hr₃, hr₂, hr₁]

/-- A reservation with ids that no row has at all. -/
theorem createPending_ok (hids : (chunks.map ChunkMeta.chunkId).Nodup)
    (hfresh : ∀ c ∈ chunks, ∀ row ∈ m.writer.chunks, row.chunkId ≠ c.chunkId)
    (hlocs : ∀ c ∈ chunks, c.locations.Nodup) :
    ∃ db, m.createPending f size numChunks chunks now = (.ok (), ⟨db, db⟩) ∧
      db.files = (m.writer.deleteFile f).files ++ [⟨f, size, numChunks, .pending, now⟩] ∧
      db.chunks = (m.writer.deleteFile f).chunks ++ chunks.map (·.row f) ∧
      db.replicas = (m.writer.deleteFile f).replicas ++ chunks.flatMap ChunkMeta.replicaRows :=
  createPending_replaces hids (fun c hc row hrow _ => hfresh c hc row hrow) hlocs

end MetadataStore

end GfsCluster
