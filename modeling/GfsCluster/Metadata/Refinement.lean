import GfsCluster.Lib.StepSystem
import GfsCluster.Metadata.FileMap

/-! The store refines the map from names to files. A run of calls is taken on the store
and on the map together: no call raises, the Boolean of each says whether the map
changed or, for `commit_file`, whether the name existed, and after any run the queries
return exactly what the map holds. -/

namespace GfsCluster

open StepSystem

/-- The write methods, with their arguments. -/
inductive Write
  | createPending (f : Filename) (size numChunks : ℤ) (chunks : List ChunkMeta) (now : Seconds)
  | commitFile (f : Filename)
  | deleteFile (f : Filename)
  | addReplica (c : ChunkId) (addr : Addr)
  | removeReplica (c : ChunkId) (addr : Addr)

namespace Write

/-- The call: what it returns or raises, and the store after it. -/
def exec (m : MetadataStore) : Write → Except SqlError (Option Bool) × MetadataStore
  | .createPending f size numChunks chunks now =>
    ((m.createPending f size numChunks chunks now).1.map fun _ => none,
      (m.createPending f size numChunks chunks now).2)
  | .commitFile f => (.ok (some (m.commitFile f).1), (m.commitFile f).2)
  | .deleteFile f => (.ok (some (m.deleteFile f).1), (m.deleteFile f).2)
  | .addReplica c addr => ((m.addReplica c addr).1.map some, (m.addReplica c addr).2)
  | .removeReplica c addr => (.ok (some (m.removeReplica c addr).1), (m.removeReplica c addr).2)

/-- What the call does to the map. -/
def apply (M : FileMap) : Write → FileMap
  | .createPending f size numChunks chunks _ => M.put f (pendingEntry size numChunks chunks)
  | .commitFile f => M.mark f fun info => { info with status := .committed }
  | .deleteFile f => M.drop f
  | .addReplica c addr => M.addPlace c addr
  | .removeReplica c addr => M.removePlace c addr

/-- What the callers see to: a reservation has distinct ids that no other file uses and
distinct addresses for each chunk, and a replica is recorded for a chunk that exists. -/
def Allowed (M : FileMap) : Write → Prop
  | .createPending f _ _ chunks _ => (chunks.map ChunkMeta.chunkId).Nodup ∧
      (∀ c ∈ chunks, ∀ g it, g ≠ f → ¬M.Holds g c.chunkId it) ∧
      ∀ c ∈ chunks, c.locations.Nodup
  | .addReplica c _ => ∃ f it, M.Holds f c it
  | .commitFile _ | .deleteFile _ | .removeReplica _ _ => True

/-- What the call has to answer: nothing for a reservation, whether the name exists for
`commit_file`, and whether the map changes for the others. -/
def Answers (M : FileMap) (w : Write) (answer : Except SqlError (Option Bool)) : Prop :=
  match w with
  | .createPending .. => answer = .ok none
  | .commitFile f => ∃ b, answer = .ok (some b) ∧ (b = true ↔ M f ≠ none)
  | w => ∃ b, answer = .ok (some b) ∧ (b = true ↔ w.apply M ≠ M)

end Write

namespace MetadataStore

variable {m : MetadataStore}

/-- The name has a row exactly when the map has an entry. -/
theorem any_filename {db : Db} {f : Filename} :
    db.files.any (·.filename = f) = true ↔ db.catalog f ≠ none := by
  rw [Ne, Db.catalog_eq_none]
  simp

/-- What one call does: it returns, with the answer that the map gives, and the store it
leaves represents the map after the operation. -/
theorem exec_refines (hclean : m.Clean) {w : Write} (h : w.Allowed m.committed.catalog) :
    (w.exec m).2.Clean ∧ (w.exec m).2.committed.catalog = w.apply m.committed.catalog ∧
      w.Answers m.committed.catalog (w.exec m).1 := by
  obtain ⟨db, wr⟩ := m
  obtain rfl : wr = db := hclean
  cases w with
  | createPending f size numChunks chunks now =>
    obtain ⟨hids, hother, hlocs⟩ := h
    have hfresh : ∀ c ∈ chunks, ∀ row ∈ wr.chunks, row.filename ≠ f → row.chunkId ≠ c.chunkId := by
      intro c hc row hrow hne hid
      exact hother c hc row.filename _ hne (hid ▸ Db.exists_holds hrow)
    obtain ⟨db', hrun, hf, hc, hr⟩ := @createPending_replaces ⟨wr, wr⟩ f size numChunks
      chunks now hids hfresh hlocs
    simp only [Write.exec, hrun]
    exact ⟨rfl, catalog_createPending hids hfresh hf hc hr, rfl⟩
  | commitFile f => exact ⟨rfl, Db.catalog_markCommitted f, _, rfl, any_filename⟩
  | deleteFile f =>
    refine ⟨rfl, Db.catalog_deleteFile f, _, rfl, ?_⟩
    rw [Write.apply, Catalog.drop_ne_self]
    exact any_filename
  | addReplica c addr =>
    obtain ⟨f, it, hit⟩ := h
    have hchunk := (Db.catalog_holds.mp hit).1
    by_cases hin : (⟨c, addr⟩ : ReplicaRow) ∈ wr.replicas
    · have hsame : wr.catalog.addPlace c addr = wr.catalog := by
        rw [Catalog.addPlace_eq_self]
        intro n it' hit'
        rw [(Db.catalog_holds.mp hit').2]
        exact hin
      have hexec : (Write.addReplica c addr).exec ⟨wr, wr⟩ = (.ok (some false), ⟨wr, wr⟩) := by
        simp only [Write.exec, addReplica, if_pos hin, Except.map]
      rw [hexec]
      exact ⟨rfl, hsame.symm, false, rfl, by simp [Write.apply, hsame]⟩
    · have hins : ∃ db', wr.insertReplica ⟨c, addr⟩ = .ok db' := by
        rw [Db.insertReplica, dif_neg hin, dif_pos (List.mem_map_of_mem hchunk)]
        exact ⟨_, rfl⟩
      obtain ⟨db', hins⟩ := hins
      simp only [Write.exec, addReplica, if_neg hin, hins]
      refine ⟨rfl, Db.catalog_insertReplica hins, true, rfl, ?_⟩
      simp only [true_iff, Write.apply, Ne, Catalog.addPlace_eq_self]
      intro hall
      have := hall f it hit
      rw [(Db.catalog_holds.mp hit).2] at this
      exact hin this
  | removeReplica c addr =>
    refine ⟨rfl, Db.catalog_deleteReplica c addr, _, rfl, ?_⟩
    rw [removeReplica, decide_eq_true_eq, Write.apply, Ne, Catalog.removePlace_eq_self]
    constructor
    · intro hin hall
      obtain ⟨row, hrow, hid⟩ := wr.exists_chunk hin
      exact hall row.filename _ (hid ▸ Db.exists_holds hrow) hin
    · intro hex
      by_contra hno
      refine hex fun n it hit => ?_
      rwa [(Db.catalog_holds.mp hit).2]

end MetadataStore

/-! ### Runs -/

/-- The store and the map that it is to represent. -/
structure StoreAndMap where
  store : MetadataStore
  map : FileMap

namespace StoreAndMap

def init : StoreAndMap := ⟨MetadataStore.init, Catalog.empty⟩

def step (s : StoreAndMap) (w : Write) : Option StoreAndMap :=
  some ⟨(w.exec s.store).2, w.apply s.map⟩

def allowed (s : StoreAndMap) (w : Write) : Prop := w.Allowed s.map

/-- The tables represent the map, and every read and every allowed write answers what the
map says. -/
structure Agrees (s : StoreAndMap) : Prop where
  represents : s.store.committed.catalog = s.map
  get_file_none : ∀ (o₁ o₂ : RowOrder) f, s.map f = none →
    getFile (o₁.view s.store.committed) (o₂.view s.store.committed) f = none
  get_file_some : ∀ (o₁ o₂ : RowOrder) f e, s.map f = some e → ∃ fm,
    getFile (o₁.view s.store.committed) (o₂.view s.store.committed) f = some fm ∧ fm.Describes f e
  list_files : ∀ (o : RowOrder) fm, fm ∈ listFiles (o.view s.store.committed) ↔
    ∃ e, s.map fm.filename = some e ∧
      fm = ⟨fm.filename, e.info.size, e.info.numChunks, e.info.status, []⟩
  list_files_sorted : ∀ o : RowOrder,
    (listFiles (o.view s.store.committed)).Pairwise (·.filename < ·.filename)
  list_committed_chunks : ∀ (o : RowOrder) c it, (∃ f, CommittedItem s.map f c it) ↔
    ∃ m ∈ listCommittedChunks (o.view s.store.committed),
      m.chunkId = c ∧ it = ⟨m.index, {addr | addr ∈ m.locations}⟩
  list_committed_once : ∀ o : RowOrder,
    ((listCommittedChunks (o.view s.store.committed)).map ChunkMeta.chunkId).Nodup ∧
      ∀ m ∈ listCommittedChunks (o.view s.store.committed), m.locations.Nodup
  list_committed_sorted : ∀ o : RowOrder,
    (listCommittedChunks (o.view s.store.committed)).Pairwise fun m m' =>
      ∀ f f' it it', s.map.Holds f m.chunkId it → s.map.Holds f' m'.chunkId it' →
        f < f' ∨ f = f' ∧ m.index ≤ m'.index
  list_chunk_ids_for : ∀ (o : RowOrder) addr,
    (listChunkIdsFor (o.view s.store.committed) addr).Nodup ∧
      ∀ c, c ∈ listChunkIdsFor (o.view s.store.committed) addr ↔
        ∃ f it, s.map.Holds f c it ∧ addr ∈ it.places
  answers : ∀ w : Write, w.Allowed s.map → w.Answers s.map (w.exec s.store).1

variable {s t : StoreAndMap}

/-- The invariant: no statement waits in an open transaction, and the tables read as the map. -/
def Represented (s : StoreAndMap) : Prop := s.store.Clean ∧ s.store.committed.catalog = s.map

theorem represented_step {w : Write} (h : s.Represented) (ha : s.allowed w) (hs : s.step w = some t) :
    t.Represented := by
  obtain ⟨store, M⟩ := s
  obtain ⟨hclean, hmap⟩ := h
  obtain rfl : store.committed.catalog = M := hmap
  cases hs
  obtain ⟨hclean', hmap, _⟩ := MetadataStore.exec_refines hclean ha
  exact ⟨hclean', hmap⟩

theorem represented_of_calls (h : Steps step allowed init s) : s.Represented :=
  h.invariant ⟨rfl, Db.catalog_empty⟩ fun _ _ _ _ hrep ha hs => represented_step hrep ha hs

theorem Represented.agrees (h : s.Represented) : s.Agrees := by
  obtain ⟨store, M⟩ := s
  obtain ⟨hclean, hmap⟩ := h
  obtain rfl : store.committed.catalog = M := hmap
  exact {
    represents := rfl
    get_file_none := fun o₁ o₂ f hf => getFile_eq_none o₁ o₂ hf
    get_file_some := fun o₁ o₂ f e he => getFile_describes o₁ o₂ he
    list_files := fun o fm => by rw [mem_listFiles, Db.catalog_view]
    list_files_sorted := fun o => listFiles_sorted _
    list_committed_chunks := fun o c it => by rw [← mem_listCommittedChunks, Db.catalog_view]
    list_committed_once := fun o =>
      ⟨listCommittedChunks_ids_nodup _, fun m hm => listCommittedChunks_locations_nodup hm⟩
    list_committed_sorted := fun o => by
      simpa only [Db.catalog_view] using listCommittedChunks_sorted (o.view store.committed)
    list_chunk_ids_for := fun o addr =>
      ⟨listChunkIdsFor_nodup _ addr, fun c => by rw [listChunkIdsFor_holds, Db.catalog_view]⟩
    answers := fun w hw => (MetadataStore.exec_refines hclean hw).2.2 }

/-- After every sequence of allowed calls the store answers as the map does, and so does
every further call. -/
theorem agrees_of_calls (h : Steps step allowed init s) : s.Agrees :=
  (represented_of_calls h).agrees

/-- A file with two chunks, the second without a replica, is reserved and committed, and
then the second chunk gets a replica. -/
theorem agrees_of_calls_repaired : ∃ s, Steps step allowed init s ∧ s.Agrees ∧
    ∃ e, s.map ['f'] = some e ∧ e.info = ⟨1500, 2, .committed⟩ ∧
      (∃ it, e.items ['c'] = some it ∧ it.places = {['a'], ['b']}) ∧
      ∃ it, e.items ['d'] = some it ∧ it.places = {['a']} := by
  have hplan : allowed init
      (.createPending ['f'] 1500 2 [⟨['c'], 0, [['a'], ['b']]⟩, ⟨['d'], 1, []⟩] 0) := by
    refine ⟨by decide, ?_, by decide⟩
    rintro c _ g it _ ⟨e, he, _⟩
    cases he
  have hreserved : Steps step allowed init _ := Steps.single hplan rfl
  have hcommitted := Steps.tail (a := .commitFile ['f']) hreserved (by trivial) rfl
  have hrun := Steps.tail (a := .addReplica ['d'] ['a']) hcommitted
    (by exact ⟨['f'], _, _, rfl, rfl⟩) rfl
  refine ⟨_, hrun, agrees_of_calls hrun, _, rfl, rfl, ⟨_, rfl, ?_⟩, ⟨_, rfl, ?_⟩⟩
  · ext addr
    simp
  · ext addr
    simp

end StoreAndMap

end GfsCluster
