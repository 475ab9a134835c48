import Mathlib.Data.Option.Basic
import GfsCluster.Client.Fetch
import GfsCluster.Metadata.Effects
import GfsCluster.Metadata.QueryFacts

/-! When `get_file` is a snapshot. Its two SELECTs run outside of a transaction, so the
writer's connection may commit in between, and the file row and the chunk rows may come
from two database states. The answer is what the file was in one state exactly when the
transactions in between are some that keep the row followed by some that keep the
chunks. -/

namespace GfsCluster

/-- A call of a write method. -/
inductive WriteCall
  | createPending (f : Filename) (size numChunks : ℤ) (chunks : List ChunkMeta) (now : Seconds)
  | commitFile (f : Filename)
  | deleteFile (f : Filename)
  | addReplica (c : ChunkId) (addr : Addr)
  | removeReplica (c : ChunkId) (addr : Addr)

namespace WriteCall

def run : WriteCall → MetadataStore → MetadataStore
  | .createPending f size numChunks chunks now, m => (m.createPending f size numChunks chunks now).2
  | .commitFile f, m => (m.commitFile f).2
  | .deleteFile f, m => (m.deleteFile f).2
  | .addReplica c addr, m => (m.addReplica c addr).2
  | .removeReplica c addr, m => (m.removeReplica c addr).2

/-- The file whose row the call writes. -/
def rowOf : WriteCall → Option Filename
  | .createPending f _ _ _ _ | .commitFile f | .deleteFile f => some f
  | .addReplica _ _ | .removeReplica _ _ => none

end WriteCall

namespace MetadataStore

def runAll (m : MetadataStore) (ws : List WriteCall) : MetadataStore := ws.foldl (fun m w => w.run m) m

/-- The committed states from `m` on, while the calls run. -/
def history : MetadataStore → List WriteCall → List Db
  | m, [] => [m.committed]
  | m, w :: ws => m.committed :: history (w.run m) ws

theorem runAll_append (m : MetadataStore) (ws₁ ws₂ : List WriteCall) :
    m.runAll (ws₁ ++ ws₂) = (m.runAll ws₁).runAll ws₂ := List.foldl_append

theorem mem_history {m : MetadataStore} {ws : List WriteCall} {d : Db} :
    d ∈ m.history ws ↔ ∃ ws₁ ws₂, ws = ws₁ ++ ws₂ ∧ d = (m.runAll ws₁).committed := by
  induction ws generalizing m with
  | nil =>
    rw [history, List.mem_singleton]
    constructor
    · exact fun h => ⟨[], [], rfl, h⟩
    · rintro ⟨ws₁, ws₂, hws, h⟩
      rw [List.nil_eq_append_iff] at hws
      rw [h, hws.1]
      rfl
  | cons w ws ih =>
    rw [history, List.mem_cons, ih]
    constructor
    · rintro (h | ⟨ws₁, ws₂, rfl, h⟩)
      · exact ⟨[], w :: ws, rfl, h⟩
      · exact ⟨w :: ws₁, ws₂, rfl, h⟩
    · rintro ⟨ws₁, ws₂, hws, h⟩
      cases ws₁ with
      | nil => exact .inl h
      | cons w' ws₁ =>
        rw [List.cons_append, List.cons.injEq] at hws
        obtain ⟨rfl, hws⟩ := hws
        exact .inr ⟨ws₁, ws₂, hws, h⟩

end MetadataStore

/-! ### Agreement of two answers -/

/-- The columns that `get_file` selects. -/
def FileRow.columns (F : FileRow) : Filename × ℤ × ℤ × Status :=
  (F.filename, F.size, F.numChunks, F.status)

def FileMeta.columns (fm : FileMeta) : Filename × ℤ × ℤ × Status :=
  (fm.filename, fm.size, fm.numChunks, fm.status)

/-- The same chunk with the same addresses, in any order. -/
def ChunkMeta.Same (m m' : ChunkMeta) : Prop :=
  m'.chunkId = m.chunkId ∧ m'.index = m.index ∧ m'.locations.Perm m.locations

/-- The same content, up to the orders that SQL leaves open. -/
structure FileMeta.Agree (fm fm' : FileMeta) : Prop where
  columns : fm.columns = fm'.columns
  subset : ∀ m ∈ fm.chunks, ∃ m' ∈ fm'.chunks, m.Same m'
  superset : ∀ m' ∈ fm'.chunks, ∃ m ∈ fm.chunks, m.Same m'

/-- The first SELECT for `f` yields the same columns. -/
def SameRow (f : Filename) (d d' : Db) : Prop :=
  (selectFile d f).map FileRow.columns = (selectFile d' f).map FileRow.columns

/-- The second SELECT for `f` yields the same chunks and addresses. -/
structure SameChunks (f : Filename) (d d' : Db) : Prop where
  rows : ∀ r : ChunkRow, r.filename = f → (r ∈ d.chunks ↔ r ∈ d'.chunks)
  locations : ∀ r ∈ d.chunks, r.filename = f →
    (d'.locations r.chunkId).Perm (d.locations r.chunkId)

theorem mem_selected {o : RowOrder} {d : Db} {f : Filename} {m : ChunkMeta} :
    m ∈ collectChunks (selectChunks (o.view d) f) ↔
      ∃ r ∈ d.chunks, r.filename = f ∧ r.meta (o.view d) = m := by
  rw [collectChunks_selectChunks, List.mem_map]
  simp only [mem_chunkRowsOf, o.mem_chunks, and_assoc]

theorem same_meta_iff {o o' : RowOrder} {d d' : Db} {r r' : ChunkRow} (hf : r.filename = r'.filename) :
    (r.meta (o.view d)).Same (r'.meta (o'.view d')) ↔
      r' = r ∧ (d'.locations r.chunkId).Perm (d.locations r.chunkId) := by
  obtain ⟨c, f, i⟩ := r
  obtain ⟨c', f', i'⟩ := r'
  obtain rfl : f = f' := hf
  simp only [ChunkMeta.Same, ChunkRow.meta, ChunkRow.mk.injEq, true_and]
  constructor
  · rintro ⟨rfl, rfl, h⟩
    exact ⟨⟨rfl, rfl⟩, (o'.locations_perm d' _).symm.trans (h.trans (o.locations_perm d _))⟩
  · rintro ⟨⟨rfl, rfl⟩, h⟩
    exact ⟨rfl, rfl, (o'.locations_perm d' _).trans (h.trans (o.locations_perm d _).symm)⟩

theorem agree_ofRow_iff {o o' : RowOrder} {d d' : Db} {f : Filename} {F F' : FileRow} :
    (FileMeta.ofRow F (collectChunks (selectChunks (o.view d) f))).Agree
        (FileMeta.ofRow F' (collectChunks (selectChunks (o'.view d') f))) ↔
      F.columns = F'.columns ∧ SameChunks f d d' := by
  constructor
  · rintro ⟨hcol, hsub, hsup⟩
    refine ⟨hcol, fun r hf => ⟨fun hr => ?_, fun hr => ?_⟩, fun r hr hf => ?_⟩
    · obtain ⟨m', hm', hsame⟩ := hsub _ (mem_selected.mpr ⟨r, hr, hf, rfl⟩)
      obtain ⟨r', hr', hf', rfl⟩ := mem_selected.mp hm'
      rwa [((same_meta_iff (hf.trans hf'.symm)).mp hsame).1] at hr'
    · obtain ⟨m, hm, hsame⟩ := hsup _ (mem_selected.mpr ⟨r, hr, hf, rfl⟩)
      obtain ⟨r', hr', hf', rfl⟩ := mem_selected.mp hm
      rwa [((same_meta_iff (hf'.trans hf.symm)).mp hsame).1]
    · obtain ⟨m', hm', hsame⟩ := hsub _ (mem_selected.mpr ⟨r, hr, hf, rfl⟩)
      obtain ⟨r', _, hf', rfl⟩ := mem_selected.mp hm'
      exact ((same_meta_iff (hf.trans hf'.symm)).mp hsame).2
  · rintro ⟨hcol, hrows, hlocs⟩
    refine ⟨hcol, fun m hm => ?_, fun m' hm' => ?_⟩
    · obtain ⟨r, hr, hf, rfl⟩ := mem_selected.mp hm
      exact ⟨_, mem_selected.mpr ⟨r, (hrows r hf).mp hr, hf, rfl⟩,
        (same_meta_iff rfl).mpr ⟨rfl, hlocs r hr hf⟩⟩
    · obtain ⟨r, hr', hf, rfl⟩ := mem_selected.mp hm'
      have hr := (hrows r hf).mpr hr'
      exact ⟨_, mem_selected.mpr ⟨r, hr, hf, rfl⟩, (same_meta_iff rfl).mpr ⟨rfl, hlocs r hr hf⟩⟩

/-- The two SELECTs in states `d₁` and `d₂` give what the file is in `d` exactly when
the row is as in `d₁` and the chunks, where there is a file, are as in `d₂`. -/
theorem getFile_agree_iff {o₁ o₂ : RowOrder} {d₁ d₂ d : Db} {f : Filename} :
    Option.Rel FileMeta.Agree (getFile (o₁.view d₁) (o₂.view d₂) f) (getFile d d f) ↔
      SameRow f d₁ d ∧ (selectFile d₁ f = none ∨ SameChunks f d₂ d) := by
  have htable : getFile d d f = getFile d (RowOrder.table.view d) f := rfl
  rw [htable]
  unfold getFile SameRow
  rw [selectFile_view]
  cases h₁ : selectFile d₁ f with
  | none => cases h : selectFile d f <;> simp
  | some F =>
    cases h : selectFile d f with
    | none => simp
    | some F' =>
      simp only [Option.map_some, Option.rel_some_some, Option.some.injEq, reduceCtorEq, false_or]
      exact agree_ofRow_iff

/-! ### The transactions between the SELECTs -/

section

variable (f : Filename) (m : MetadataStore) (ws : List WriteCall)

def KeepsRow : Prop := SameRow f m.committed (m.runAll ws).committed

def KeepsChunks : Prop := SameChunks f (m.runAll ws).committed m.committed

/-- There is no file, or the calls are some that keep its row and then some that keep its
chunks. -/
def Separable : Prop :=
  selectFile m.committed f = none ∨
    ∃ ws₁ ws₂, ws = ws₁ ++ ws₂ ∧ KeepsRow f m ws₁ ∧ KeepsChunks f (m.runAll ws₁) ws₂

/-- The answer of GetFile when the calls run between its two SELECTs. -/
def answerAcross (o₁ o₂ : RowOrder) (live : List Addr) : GetFileResponse :=
  getFileResponse (getFile (o₁.view m.committed) (o₂.view (m.runAll ws).committed) f) live

/-- `get_file`, while the calls run between its SELECTs, is a snapshot, and what follows
for the answers of GetFile and for reads. -/
structure SnapshotRead : Prop where
  single : ∀ o₁ o₂ : RowOrder, ∃ d ∈ m.history ws, Option.Rel FileMeta.Agree
    (getFile (o₁.view m.committed) (o₂.view (m.runAll ws).committed) f) (getFile d d f)
  answer : ∀ (o₁ o₂ : RowOrder) (live : List Addr), (answerAcross f m ws o₁ o₂ live).ok = true →
    ∃ d ∈ m.history ws, ∃ F ∈ d.files, F.filename = f ∧ F.status = .committed ∧
      F.size = (answerAcross f m ws o₁ o₂ live).size ∧
      ∀ c i, ⟨c, f, i⟩ ∈ d.chunks ↔
        ∃ p ∈ (answerAcross f m ws o₁ o₂ live).placements, p.chunkId = c ∧ p.index = i
  nonempty : (∀ d ∈ m.history ws, ∀ F ∈ d.files, F.filename = f →
      ∃ r ∈ d.chunks, r.filename = f) →
    ∀ (o₁ o₂ : RowOrder) (live : List Addr) (serve : Serve) (payload : ChunkId → Bytes),
      Sound serve (answerAcross f m ws o₁ o₂ live).placements payload → (∀ c, payload c ≠ []) →
      read (answerAcross f m ws o₁ o₂ live) serve ≠ .ok []

end

variable {f : Filename} {m : MetadataStore} {ws : List WriteCall}

theorem single_iff_separable : (∀ o₁ o₂ : RowOrder, ∃ d ∈ m.history ws, Option.Rel FileMeta.Agree
    (getFile (o₁.view m.committed) (o₂.view (m.runAll ws).committed) f) (getFile d d f)) ↔
    Separable f m ws := by
  simp only [getFile_agree_iff]
  constructor
  · intro h
    obtain ⟨d, hd, hrow, hchunks⟩ := h .table .table
    obtain ⟨ws₁, ws₂, rfl, rfl⟩ := MetadataStore.mem_history.mp hd
    refine hchunks.imp_right fun hchunks => ⟨ws₁, ws₂, rfl, hrow, ?_⟩
    rwa [MetadataStore.runAll_append] at hchunks
  · rintro (hnone | ⟨ws₁, ws₂, rfl, hrow, hchunks⟩) o₁ o₂
    · exact ⟨m.committed, MetadataStore.mem_history.mpr ⟨[], ws, rfl, rfl⟩, rfl, .inl hnone⟩
    · refine ⟨_, MetadataStore.mem_history.mpr ⟨ws₁, ws₂, rfl, rfl⟩, hrow, .inr ?_⟩
      rwa [MetadataStore.runAll_append]

theorem mem_placements {o : RowOrder} {d : Db} {F : FileRow} {live : List Addr} {c : ChunkId} {i : ℕ}
    (hst : F.status = .committed) :
    (∃ p ∈ (getFileResponse (some (.ofRow F (collectChunks (selectChunks (o.view d) f)))) live).placements,
      p.chunkId = c ∧ p.index = i) ↔ ⟨c, f, i⟩ ∈ d.chunks := by
  simp only [getFileResponse, FileMeta.ofRow, hst, if_true, List.mem_map]
  constructor
  · rintro ⟨_, ⟨m, hm, rfl⟩, rfl, rfl⟩
    obtain ⟨r, hr, rfl, rfl⟩ := mem_selected.mp hm
    exact hr
  · intro hr
    exact ⟨_, ⟨_, mem_selected.mpr ⟨_, hr, rfl, rfl⟩, rfl⟩, rfl, rfl⟩

theorem answer_of_separable (h : Separable f m ws) (o₁ o₂ : RowOrder) (live : List Addr)
    (hok : (answerAcross f m ws o₁ o₂ live).ok = true) :
    ∃ d ∈ m.history ws, ∃ F ∈ d.files, F.filename = f ∧ F.status = .committed ∧
      F.size = (answerAcross f m ws o₁ o₂ live).size ∧
      ∀ c i, ⟨c, f, i⟩ ∈ d.chunks ↔
        ∃ p ∈ (answerAcross f m ws o₁ o₂ live).placements, p.chunkId = c ∧ p.index = i := by
  unfold answerAcross getFile at hok ⊢
  rw [selectFile_view] at hok ⊢
  cases hsel : selectFile m.committed f with
  | none =>
    rw [hsel] at hok
    cases hok
  | some F =>
    rw [hsel, Option.map_some] at hok
    have hst : F.status = .committed := by
      by_contra hne
      simp [getFileResponse, FileMeta.ofRow, hne] at hok
    obtain ⟨ws₁, ws₂, rfl, hrow, hchunks⟩ := h.resolve_left (by rw [hsel]; simp)
    have hF' : ∃ F', selectFile (m.runAll ws₁).committed f = some F' ∧ F'.columns = F.columns := by
      unfold KeepsRow SameRow at hrow
      rw [hsel, Option.map_some, eq_comm, Option.map_eq_some_iff] at hrow
      exact hrow
    obtain ⟨F', hsel', hcol⟩ := hF'
    obtain ⟨hF', hname⟩ := selectFile_eq_some.mp hsel'
    simp only [FileRow.columns, Prod.mk.injEq] at hcol
    refine ⟨_, MetadataStore.mem_history.mpr ⟨ws₁, ws₂, rfl, rfl⟩, F', hF', hname,
      hcol.2.2.2.trans hst, ?_, fun c i => ?_⟩
    · simp only [Option.map_some, getFileResponse, FileMeta.ofRow, hst, if_true]
      exact hcol.2.1
    · rw [Option.map_some, mem_placements hst, MetadataStore.runAll_append]
      exact (hchunks.rows ⟨c, f, i⟩ rfl).symm

/-- Reads are snapshots exactly across the transactions that can be separated. -/
theorem snapshotRead_iff_separable (f : Filename) (m : MetadataStore) (ws : List WriteCall) :
    SnapshotRead f m ws ↔ Separable f m ws := by
  constructor
  · exact fun h => single_iff_separable.mp h.single
  · intro h
    have hanswer := answer_of_separable h
    refine ⟨single_iff_separable.mpr h, hanswer, ?_⟩
    intro hversions o₁ o₂ live serve payload hserve hpayload hread
    obtain ⟨hok, hdata⟩ := read_sound hserve hread
    obtain ⟨d, hd, F, hF, hname, _, _, hplaced⟩ := hanswer o₁ o₂ live hok
    -- some version of the file has no chunk, or the first chunk of the answer was empty
    obtain ⟨r, hr, hf⟩ := hversions d hd F hF hname
    obtain ⟨p, hp, _, _⟩ := (hplaced r.chunkId r.idx).mp (by rw [← hf]; exact hr)
    rw [eq_comm, List.flatten_eq_nil_iff] at hdata
    exact hpayload p.chunkId (hdata _ (List.mem_map.mpr ⟨p, mem_sortByIndex.mpr hp, rfl⟩))

/-- A file of one chunk is deleted between the two SELECTs: GetFile answers with the size
of the old version and no chunks, and the read returns nothing. -/
theorem not_snapshotRead : ¬ ∀ f m ws, SnapshotRead f m ws := by
  intro h
  have hread := (h ['f'] (MetadataStore.init.runAll
    [.createPending ['f'] 1 1 [⟨['c'], 0, [['s']]⟩] 0, .commitFile ['f']]) [.deleteFile ['f']]).nonempty
  refine hread ?_ .table .table [] (fun _ _ _ => []) (fun _ => [0]) ?_ (by simp) (by decide +kernel)
  · decide +kernel
  · intro round addr ids x hx
    cases hx

/-! ### Which transactions keep what -/

theorem selectFile_congr {d d' : Db} (h : ∀ F : FileRow, F.filename = f → (F ∈ d.files ↔ F ∈ d'.files)) :
    selectFile d f = selectFile d' f := by
  cases hsel : selectFile d' f with
  | none =>
    rw [selectFile_eq_none] at hsel ⊢
    exact fun F hF hname => hsel F ((h F hname).mp hF) hname
  | some F =>
    rw [selectFile_eq_some] at hsel ⊢
    exact ⟨(h F hsel.2).mpr hsel.1, hsel.2⟩

theorem selectFile_deleteFile {d : Db} {g : Filename} (hne : g ≠ f) :
    selectFile (d.deleteFile g) f = selectFile d f := by
  refine selectFile_congr fun F hF => ?_
  rw [Db.mem_deleteFile_files, hF]
  exact ⟨And.left, fun h => ⟨h, Ne.symm hne⟩⟩

theorem selectFile_markCommitted {d : Db} {g : Filename} (hne : g ≠ f) :
    selectFile (d.markCommitted g) f = selectFile d f := by
  refine selectFile_congr fun F hF => ?_
  rw [Db.mem_markCommitted]
  constructor
  · rintro ⟨G, hG, rfl⟩
    split_ifs at hF with hg
    · exact absurd (hg.symm.trans hF) hne
    · exact (if_neg hg) ▸ hG
  · exact fun h => ⟨F, h, (if_neg fun hg => hne (hg.symm.trans hF)).symm⟩

/-- The file whose row a statement writes. -/
def Statement.rowOf : Statement → Option Filename
  | .deleteFile f => some f
  | .insertFile row => some row.filename
  | .insertChunk _ | .insertReplica _ => none

theorem selectFile_exec {s : Statement} {d d' : Db} (hs : s.rowOf ≠ some f) (h : s.exec d = .ok d') :
    selectFile d' f = selectFile d f := by
  cases s with
  | deleteFile g =>
    cases h
    exact selectFile_deleteFile fun he => hs (congrArg some he)
  | insertFile row =>
    simp only [Statement.exec, Db.insertFile] at h
    split_ifs at h
    cases h
    refine selectFile_congr fun F hF => ?_
    rw [List.mem_append, List.mem_singleton]
    refine ⟨fun hin => hin.resolve_right ?_, .inl⟩
    rintro rfl
    exact hs (congrArg some hF)
  | insertChunk row =>
    simp only [Statement.exec, Db.insertChunk] at h
    split_ifs at h
    cases h
    rfl
  | insertReplica row =>
    simp only [Statement.exec, Db.insertReplica] at h
    split_ifs at h
    cases h
    rfl

theorem selectFile_execAll {ss : List Statement} {d : Db} (hs : ∀ s ∈ ss, s.rowOf ≠ some f) :
    selectFile (execAll ss d).2 f = selectFile d f := by
  induction ss generalizing d with
  | nil => rfl
  | cons s ss ih =>
    rw [execAll]
    cases h : s.exec d with
    | error e => rfl
    | ok d' =>
      have hrest := ih (d := d') fun s hin => hs s (List.mem_cons_of_mem _ hin)
      exact hrest.trans (selectFile_exec (hs s List.mem_cons_self) h)

/-- The committed row is the one that the writer sees. -/
def RowClean (f : Filename) (m : MetadataStore) : Prop :=
  selectFile m.writer f = selectFile m.committed f

theorem row_of_run {w : WriteCall} (hw : w.rowOf ≠ some f) (hm : RowClean f m) :
    selectFile (w.run m).committed f = selectFile m.committed f ∧ RowClean f (w.run m) := by
  cases w with
  | createPending g size numChunks chunks now =>
    have hstatements : ∀ s ∈ MetadataStore.createPendingStatements g size numChunks chunks now,
        s.rowOf ≠ some f := by
      intro s hs
      have hkind : s.rowOf = some g ∨ s.rowOf = none := by
        simp only [MetadataStore.createPendingStatements, List.mem_append, List.mem_cons,
          List.not_mem_nil, or_false, List.mem_map] at hs
        rcases hs with ((rfl | rfl) | ⟨_, _, rfl⟩) | ⟨_, _, rfl⟩
        · exact .inl rfl
        · exact .inl rfl
        · exact .inr rfl
        · exact .inr rfl
      rcases hkind with h | h
      · rw [h]
        exact hw
      · rw [h]
        simp
    have hexec := (selectFile_execAll (d := m.writer) hstatements).trans hm
    simp only [WriteCall.run, MetadataStore.createPending]
    cases h : execAll (MetadataStore.createPendingStatements g size numChunks chunks now) m.writer with
    | mk res d =>
      rw [h] at hexec
      cases res with
      | ok u => exact ⟨hexec, rfl⟩
      | error e => exact ⟨rfl, hexec⟩
  | commitFile g =>
    have hne : g ≠ f := fun he => hw (congrArg some he)
    exact ⟨(selectFile_markCommitted hne).trans hm, rfl⟩
  | deleteFile g =>
    have hne : g ≠ f := fun he => hw (congrArg some he)
    exact ⟨(selectFile_deleteFile hne).trans hm, rfl⟩
  | addReplica c addr =>
    simp only [WriteCall.run, MetadataStore.addReplica]
    split_ifs
    · exact ⟨hm, rfl⟩
    · cases h : m.writer.insertReplica ⟨c, addr⟩ with
      | error e => exact ⟨rfl, hm⟩
      | ok d =>
        have hexec := selectFile_exec (s := .insertReplica ⟨c, addr⟩) (f := f) (by simp [Statement.rowOf]) h
        exact ⟨hexec.trans hm, rfl⟩
  | removeReplica c addr => exact ⟨hm, rfl⟩

/-- A row stays as long as no call writes it. -/
theorem keepsRow_of_others (hm : RowClean f m) (hws : ∀ w ∈ ws, w.rowOf ≠ some f) :
    KeepsRow f m ws := by
  suffices h : selectFile (m.runAll ws).committed f = selectFile m.committed f by
    rw [KeepsRow, SameRow, h]
  induction ws generalizing m with
  | nil => rfl
  | cons w ws ih =>
    obtain ⟨hrow, hclean⟩ := row_of_run (hws w List.mem_cons_self) hm
    exact (ih hclean fun w hin => hws w (List.mem_cons_of_mem _ hin)).trans hrow

/-- A file that nobody reserves, commits or deletes in between is read as a snapshot,
whatever happens to other files and to replicas. -/
theorem separable_of_others (hm : m.Clean) (hws : ∀ w ∈ ws, w.rowOf ≠ some f) : Separable f m ws :=
  .inr ⟨ws, [], by simp, keepsRow_of_others (congrArg (selectFile · f) hm) hws,
    ⟨fun _ _ => .rfl, fun _ _ _ => .refl _⟩⟩

/-- One transaction that changes the row and takes a chunk of the file away cannot be
split in two. -/
theorem not_separable_of_gone {w : WriteCall} {F : FileRow} {r : ChunkRow}
    (hsel : selectFile m.committed f = some F) (hr : r ∈ m.committed.chunks) (hf : r.filename = f)
    (hrow : (selectFile (w.run m).committed f).map FileRow.columns ≠ some F.columns)
    (hgone : r ∉ (w.run m).committed.chunks) : ¬ Separable f m [w] := by
  rintro (hnone | ⟨ws₁, ws₂, hws, hkeeps, hchunks⟩)
  · rw [hsel] at hnone
    cases hnone
  · rcases List.singleton_eq_append_iff.mp hws with ⟨rfl, rfl⟩ | ⟨rfl, rfl⟩
    · exact hgone ((hchunks.rows r hf).mpr hr)
    · rw [KeepsRow, SameRow, hsel] at hkeeps
      exact hrow hkeeps.symm

theorem not_separable_deleteFile {r : ChunkRow} (hm : m.Clean) (hr : r ∈ m.committed.chunks) :
    ¬ Separable r.filename m [.deleteFile r.filename] := by
  obtain ⟨F, hF, hname⟩ := m.committed.exists_file hr
  have hafter : (WriteCall.run (.deleteFile r.filename) m).committed =
      m.committed.deleteFile r.filename := congrArg (Db.deleteFile · _) hm
  refine not_separable_of_gone (selectFile_eq_some.mpr ⟨hF, hname⟩) hr rfl ?_ ?_
  · have hnone : selectFile (m.committed.deleteFile r.filename) r.filename = none :=
      selectFile_eq_none.mpr fun G hG => (Db.mem_deleteFile_files.mp hG).2
    rw [hafter, hnone]
    exact nofun
  · rw [hafter]
    exact fun h => (Db.mem_deleteFile_chunks.mp h).2 rfl

/-- A reservation that goes through, under ids that are new, of a file whose old row says something
else. -/
theorem not_separable_createPending {r : ChunkRow} {F : FileRow} {size numChunks : ℤ}
    {chunks : List ChunkMeta} {now : Seconds} (hm : m.Clean) (hr : r ∈ m.committed.chunks)
    (hF : F ∈ m.committed.files) (hname : F.filename = r.filename)
    (hcolumns : F.columns ≠ (r.filename, size, numChunks, .pending))
    (hids : (chunks.map ChunkMeta.chunkId).Nodup)
    (hfresh : ∀ c ∈ chunks, ∀ row ∈ m.committed.chunks, row.chunkId ≠ c.chunkId)
    (hlocs : ∀ c ∈ chunks, c.locations.Nodup) :
    ¬ Separable r.filename m [.createPending r.filename size numChunks chunks now] := by
  rw [← show m.writer = m.committed from hm] at hfresh
  obtain ⟨db, hrun, hfiles, hchunks, _⟩ :=
    @MetadataStore.createPending_ok m r.filename size numChunks chunks now hids hfresh hlocs
  have hafter : (WriteCall.run (.createPending r.filename size numChunks chunks now) m).committed = db :=
    congrArg (fun x => x.2.committed) hrun
  refine not_separable_of_gone (selectFile_eq_some.mpr ⟨hF, hname⟩) hr rfl ?_ ?_
  · have hnew : selectFile db r.filename = some ⟨r.filename, size, numChunks, .pending, now⟩ := by
      refine selectFile_eq_some.mpr ⟨?_, rfl⟩
      rw [hfiles]
      exact List.mem_append_right _ (List.mem_singleton_self _)
    rw [hafter, hnew]
    exact fun h => hcolumns (Option.some.inj h).symm
  · rw [hafter, hchunks, List.mem_append, Db.mem_deleteFile_chunks, List.mem_map]
    rintro (⟨_, hne⟩ | ⟨c, hc, hrow⟩)
    · exact hne rfl
    · exact hfresh c hc r (hm ▸ hr) (congrArg ChunkRow.chunkId hrow).symm

end GfsCluster
