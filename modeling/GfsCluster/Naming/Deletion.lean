import GfsCluster.Naming.Rows

/-! Which chunks the naming server asks storage servers to delete. DeleteFile and the
cleanup loop remove the metadata before they send anything, so what they delete is
dead; the background thread of an overwriting CreateFile starts before the new version
is reserved and is safe only from then on. -/

namespace GfsCluster

open StepSystem

/-- What the cleanup loop has read and not yet removed. -/
def CleanupPhase.stale : CleanupPhase → List FileMeta
  | idle => []
  | listing _ _ stale => stale
  | listingRow _ _ _ stale => stale
  | removing _ stale => stale
  | sending _ _ stale => stale

/-- What the cleanup loop still has to delete of the file it removed last. -/
def CleanupPhase.pending : CleanupPhase → List (Addr × ChunkId)
  | sending _ pending _ => pending
  | _ => []

theorem FileMeta.mem_pairs {fm : FileMeta} {p : Addr × ChunkId} :
    p ∈ fm.pairs ↔ ∃ m ∈ fm.chunks, p.1 ∈ m.locations ∧ p.2 = m.chunkId := by
  obtain ⟨addr, c⟩ := p
  simp only [FileMeta.pairs, List.mem_flatMap, List.mem_map, Prod.mk.injEq]
  constructor
  · rintro ⟨m, hm, _, ha, rfl, rfl⟩
    exact ⟨m, hm, ha, rfl⟩
  · rintro ⟨m, hm, ha, rfl⟩
    exact ⟨m, hm, _, ha, rfl, rfl⟩

/-- The pairs of a file, each with the name. -/
def FileMeta.named (fm : FileMeta) : List (Filename × Addr × ChunkId) :=
  fm.pairs.map (fm.filename, ·)

def CleanupPhase.read (p : CleanupPhase) : List (Filename × Addr × ChunkId) :=
  p.stale.flatMap FileMeta.named

/-- What a DeleteFile handler has read and not yet removed. -/
def DeleteHandler.read (h : DeleteHandler) : List (Filename × Addr × ChunkId) :=
  match h.phase with
  | .loaded fm => fm.pairs.map (h.filename, ·)
  | _ => []

/-- What a DeleteFile handler still has to delete. -/
def DeletePhase.pending : DeletePhase → List (Addr × ChunkId)
  | sending pending _ => pending
  | _ => []

namespace NamingServer

variable {cfg : Settings} {n n' : NamingServer} {k : ℕ} {f : Filename} {c : ChunkId}

/-! ### Dead chunks -/

/-- What a SELECT of a file's chunks collects was reserved under its name. -/
theorem Consistent.selected_born (h : Consistent cfg n) (o : RowOrder) (row : FileRow)
    {p : Addr × ChunkId}
    (hp : p ∈ (FileMeta.ofRow row (collectChunks (selectChunks (o.view n.db) f))).pairs) :
    n.BornIn f p.2 := by
  obtain ⟨m, hm, _, hid⟩ := FileMeta.mem_pairs.mp hp
  rw [FileMeta.ofRow, collectChunks_selectChunks] at hm
  obtain ⟨r, hr, rfl⟩ := List.mem_map.mp hm
  rw [mem_chunkRowsOf, o.mem_chunks] at hr
  have hb := h.row_born hr.1
  rwa [hr.2, show r.chunkId = p.2 from hid.symm] at hb

/-- An id whose row is gone never gets one again. -/
theorem Dead.step {a : NamingAction} {out : List StorageRpc} (h : n.Dead c)
    (hc : Consistent cfg n) (hs : n.step cfg a = some (n', out)) : n'.Dead c := by
  obtain ⟨⟨f, hb⟩, hno⟩ := h
  refine ⟨⟨f, hb.step hs⟩, fun hmem => ?_⟩
  obtain ⟨row, hrow, rfl⟩ := List.mem_map.mp hmem
  exact hno (List.mem_map_of_mem (hb.row_of_step hc hs hrow))

theorem Dead.of_steps {ok : NamingServer → NamingAction → Prop} (h : n.Dead c)
    (hc : Consistent cfg n) (hs : Steps (NamingServer.next cfg) ok n n') : n'.Dead c := by
  refine (hs.invariant (P := fun m => Consistent cfg m ∧ m.Dead c) ⟨hc, h⟩ ?_).2
  intro m a m' _ hm _ hnext
  obtain ⟨out, hstep⟩ := exists_step_of_next hnext
  exact ⟨hm.1.of_step hstep, hm.2.step hm.1 hstep⟩

/-- Once the rows of a file are gone, every chunk reserved under its name is dead. -/
theorem dead_of_no_rows (hborn : n.BornIn f c) (hc : Consistent cfg n)
    (hno : ∀ row ∈ n.db.chunks, row.chunkId = c → row.filename ≠ f) : n.Dead c := by
  refine ⟨⟨f, hborn⟩, fun hmem => ?_⟩
  obtain ⟨row, hrow, rfl⟩ := List.mem_map.mp hmem
  exact hno row hrow rfl (hc.filename_of_born hrow hborn)

theorem removeFile_chunks (hc : Consistent cfg n) {row : ChunkRow}
    (hrow : row ∈ (n.store.deleteFile f).2.committed.chunks) : row.filename ≠ f := by
  have hw : n.store.writer = n.store.committed := hc.clean
  simp only [MetadataStore.deleteFile, hw] at hrow
  exact (Db.mem_deleteFile_chunks.mp hrow).2

/-! ### The steps that fill the lists -/

/-- A request that has come in is not replaced. -/
theorem step_req {a : NamingAction} {out : List StorageRpc} (hs : n.step cfg a = some (n', out))
    (hk : (n.creates k).phase ≠ .idle) :
    (n'.creates k).req = (n.creates k).req ∧ (n'.creates k).phase ≠ .idle := by
  rcases step_moves hs with ⟨j, b, _, hm⟩ | ⟨_, rfl⟩ | ⟨_, hcreates, _⟩
  · by_cases hj : k = j
    · subst hj
      obtain ⟨_, hphase, hreq⟩ := createStep_own hm
      exact ⟨hreq.resolve_left hk, hphase⟩
    · rw [createStep_other hm hj]
      exact ⟨rfl, hk⟩
  · obtain ⟨hreq, _⟩ := Consistent.crash_handler (n.creates k)
    refine ⟨hreq, fun hidle => hk ?_⟩
    cases hp : (n.creates k).phase <;> simp_all [crash, CreateHandler.crash]
  · exact ⟨by rw [hcreates], by rwa [hcreates]⟩

/-- The only step that makes a handler reserved replaces the rows of its file. -/
theorem reserved_of_step {a : NamingAction} {out : List StorageRpc} (hc : Consistent cfg n)
    (hs : n.step cfg a = some (n', out)) (hr : (n'.creates k).phase.reserved = true) :
    (n.creates k).phase.reserved = true ∨ ∃ chunks, (n.creates k).phase = .placing chunks ∧
      ∀ row ∈ n'.db.chunks, row.filename = (n.creates k).req.filename →
        row.chunkId ∈ chunks.map ChunkMeta.chunkId := by
  rcases reserve_of_step hc hs hr with hr | ⟨chunks, now, hm⟩
  · exact .inl hr
  · refine .inr ⟨chunks, hm.phase, fun row hrow hname => ?_⟩
    rw [hm.chunks, List.mem_append, Db.mem_deleteFile_chunks] at hrow
    rcases hrow with hrow | hrow
    · exact absurd hname hrow.2
    · obtain ⟨m, hmem, rfl⟩ := List.mem_map.mp hrow
      exact List.mem_map_of_mem hmem

/-- Only the second SELECT of an overwriting CreateFile starts a deletion thread. -/
theorem mem_purges_of_step {a : NamingAction} {out : List StorageRpc} {e : ℕ × Addr × ChunkId}
    (hs : n.step cfg a = some (n', out)) (he : e ∈ n'.purges) :
    e ∈ n.purges ∨ ∃ (o : RowOrder) (row : FileRow), a = .create e.1 (.selectChunks o) ∧
      (n.creates e.1).phase = .oldRow row ∧ e.2 ∈ (FileMeta.ofRow row
        (collectChunks (selectChunks (o.view n.db) (n.creates e.1).req.filename))).pairs := by
  cases case_of_step hs with
  | create k b n' h =>
    cases h with
    | selectChunks o row hp =>
      rcases List.mem_append.mp he with he | he
      · exact .inl he
      · obtain ⟨p, hpair, rfl⟩ := List.mem_map.mp he
        exact .inr ⟨o, row, rfl, hp, hpair⟩
    | _ => exact .inl he
  | purge i k addr c hi => exact .inl (List.mem_of_mem_eraseIdx he)
  | crash => cases he
  | delete k b r h =>
    obtain ⟨_, _, _, _, _, _, _, hp⟩ := deleteStep_moves hs
    exact .inl (hp ▸ he)
  | get k b n' h =>
    obtain ⟨hm, _⟩ := getStep_of_step hs
    obtain ⟨_, _, _, _, _, _, _, _, hp, _⟩ := getStep_frame hm
    exact .inl (hp ▸ he)
  | cleanup b r h =>
    obtain ⟨_, _, _, _, _, _, _, hp⟩ := cleanupStep_moves hs
    exact .inl (hp ▸ he)
  | heal b r h =>
    obtain ⟨_, _, _, _, _, _, hp⟩ := healStep_frame hs
    exact .inl (hp ▸ he)
  | _ => exact .inl he

/-- The lists of a deleting thread after a step: `read` is what it has collected of a
file that it is going to remove, `pending` what it still has to delete. -/
inductive ListMove (n n' : NamingServer) (read read' : List (Filename × Addr × ChunkId))
    (pending pending' : List (Addr × ChunkId)) : Prop
  | shrink (hread : read' ⊆ read) (hpending : pending' ⊆ pending)
  | collect (o : RowOrder) (row : FileRow) (f : Filename)
      (hread : read' ⊆ read ++ (FileMeta.ofRow row
        (collectChunks (selectChunks (o.view n.db) f))).pairs.map (f, ·))
      (hpending : pending' ⊆ pending)
  | remove (f : Filename) (hread : read' ⊆ read) (hpending : pending'.map (f, ·) ⊆ read)
      (hstore : n'.store = (n.store.deleteFile f).2)

theorem deleteStep_lists {a : DeleteStep} {out : List StorageRpc}
    (h : n.deleteStep k a = some (n', out)) (j : ℕ) :
    ListMove n n' (n.deletes j).read (n'.deletes j).read (n.deletes j).phase.pending
      (n'.deletes j).phase.pending := by
  by_cases hj : j = k
  · subst hj
    cases case_of_deleteStep h with
    | selectChunks o row hp =>
      refine .collect o row (n.deletes j).filename ?_ ?_
      · simp [setDelete, DeleteHandler.read]
      · simp [setDelete, DeletePhase.pending]
    | remove fm hp =>
      refine .remove (n.deletes j).filename ?_ ?_ rfl
      · simp [setDelete, DeleteHandler.read]
      · simp [setDelete, removeFile, DeleteHandler.read, DeletePhase.pending, hp]
    | send i ok pending failures addr c hp hi =>
      refine .shrink ?_ ?_
      · simp [setDelete, DeleteHandler.read]
      · simp only [setDelete, Function.update_self, DeletePhase.pending, hp]
        exact List.eraseIdx_subset
    | _ =>
      exact .shrink (by simp [setDelete, DeleteHandler.read]) (by simp [setDelete, DeletePhase.pending])
  · rw [deleteStep_other h hj]
    exact .shrink (List.Subset.refl _) (List.Subset.refl _)

theorem cleanupStep_lists {a : CleanupStep} {out : List StorageRpc}
    (h : n.cleanupStep cfg a = some (n', out)) :
    ListMove n n' n.cleanup.read n'.cleanup.read n.cleanup.pending n'.cleanup.pending := by
  cases case_of_cleanupStep h with
  | selectChunks o cutoff row names stale hp =>
    refine .collect o row row.filename ?_ ?_
    · simp [CleanupPhase.read, CleanupPhase.stale, hp, FileMeta.named, FileMeta.ofRow]
    · simp [CleanupPhase.pending]
  | remove cutoff fm stale hp =>
    refine .remove fm.filename ?_ ?_ rfl
    · simp [CleanupPhase.read, CleanupPhase.stale, hp]
    · simp [CleanupPhase.read, CleanupPhase.stale, CleanupPhase.pending, hp, FileMeta.named]
  | _ =>
    exact .shrink (by simp [CleanupPhase.read, CleanupPhase.stale, *])
      (by simp [CleanupPhase.pending, *])

theorem ListMove.of_eq {read read' : List (Filename × Addr × ChunkId)}
    {pending pending' : List (Addr × ChunkId)} (hr : read' = read) (hp : pending' = pending) :
    ListMove n n' read read' pending pending' :=
  .shrink (hr ▸ List.Subset.refl _) (hp ▸ List.Subset.refl _)

theorem lists_of_step {a : NamingAction} {out : List StorageRpc}
    (hs : n.step cfg a = some (n', out)) :
    (∀ j, ListMove n n' (n.deletes j).read (n'.deletes j).read (n.deletes j).phase.pending
      (n'.deletes j).phase.pending) ∧
    ListMove n n' n.cleanup.read n'.cleanup.read n.cleanup.pending n'.cleanup.pending := by
  rcases step_frame hs with rfl | ⟨hd, hc, _⟩
  · cases hs
    refine ⟨fun j => .shrink ?_ ?_, .shrink (List.nil_subset _) (List.nil_subset _)⟩
    · cases hp : (n.deletes j).phase <;> simp [crash, DeleteHandler.crash, DeleteHandler.read, hp]
    · cases hp : (n.deletes j).phase <;> simp [crash, DeleteHandler.crash, DeletePhase.pending, hp]
  · constructor
    · intro j
      rcases hd with ⟨k, b, rfl⟩ | hd
      · exact deleteStep_lists hs j
      · exact .of_eq (by rw [hd]) (by rw [hd])
    · rcases hc with ⟨b, rfl⟩ | hc
      · exact cleanupStep_lists hs
      · exact .of_eq (by rw [hc]) (by rw [hc])

/-! ### What is about to be deleted -/

/-- Whatever is collected was reserved under the name it was collected for, and whatever
a request is about to go out for is dead. A deletion thread of CreateFile request `k` is
harmless only once that request is reserved. -/
structure PendingDeletes (n : NamingServer) : Prop where
  purges : ∀ e ∈ n.purges, n.BornIn (n.creates e.1).req.filename e.2.2 ∧
    (n.creates e.1).phase ≠ .idle ∧ ((n.creates e.1).phase.reserved = true → n.Dead e.2.2)
  deletes : ∀ j, (∀ e ∈ (n.deletes j).read, n.BornIn e.1 e.2.2) ∧
    ∀ p ∈ (n.deletes j).phase.pending, n.Dead p.2
  cleanup : (∀ e ∈ n.cleanup.read, n.BornIn e.1 e.2.2) ∧ ∀ p ∈ n.cleanup.pending, n.Dead p.2

theorem ListMove.safe {read read' : List (Filename × Addr × ChunkId)}
    {pending pending' : List (Addr × ChunkId)} (hm : ListMove n n' read read' pending pending')
    {a : NamingAction} {out : List StorageRpc} (hc : Consistent cfg n)
    (hs : n.step cfg a = some (n', out))
    (h : (∀ e ∈ read, n.BornIn e.1 e.2.2) ∧ ∀ p ∈ pending, n.Dead p.2) :
    (∀ e ∈ read', n'.BornIn e.1 e.2.2) ∧ ∀ p ∈ pending', n'.Dead p.2 := by
  obtain ⟨hread, hpend⟩ := h
  have hread' : read' ⊆ read → ∀ e ∈ read', n'.BornIn e.1 e.2.2 :=
    fun hsub e he => (hread e (hsub he)).step hs
  have hpend' : pending' ⊆ pending → ∀ p ∈ pending', n'.Dead p.2 :=
    fun hsub p hp => (hpend p (hsub hp)).step hc hs
  cases hm with
  | shrink hr hp => exact ⟨hread' hr, hpend' hp⟩
  | collect o row f hr hp =>
    refine ⟨fun e he => ?_, hpend' hp⟩
    rcases List.mem_append.mp (hr he) with he | he
    · exact (hread e he).step hs
    · obtain ⟨p, hp, rfl⟩ := List.mem_map.mp he
      exact (hc.selected_born o row hp).step hs
  | remove f hr hp hstore =>
    refine ⟨hread' hr, fun p hmem => ?_⟩
    have hborn := hread _ (hp (List.mem_map_of_mem hmem))
    refine dead_of_no_rows (hborn.step hs) (hc.of_step hs) fun row hrow _ => ?_
    rw [NamingServer.db, hstore] at hrow
    exact removeFile_chunks hc hrow

namespace PendingDeletes

theorem init : PendingDeletes NamingServer.init where
  purges e he := by simp [NamingServer.init] at he
  deletes j := by simp [NamingServer.init, DeleteHandler.read, DeletePhase.pending]
  cleanup := by
    simp [NamingServer.init, CleanupPhase.read, CleanupPhase.stale, CleanupPhase.pending]

theorem purges_of_step {a : NamingAction} {out : List StorageRpc} (h : PendingDeletes n)
    (hc : Consistent cfg n) (hs : n.step cfg a = some (n', out)) :
    ∀ e ∈ n'.purges, n'.BornIn (n'.creates e.1).req.filename e.2.2 ∧
      (n'.creates e.1).phase ≠ .idle ∧
      ((n'.creates e.1).phase.reserved = true → n'.Dead e.2.2) := by
  intro e he
  have hold : n.BornIn (n.creates e.1).req.filename e.2.2 ∧ (n.creates e.1).phase ≠ .idle ∧
      ((n.creates e.1).phase.reserved = true → n.Dead e.2.2) := by
    rcases mem_purges_of_step hs he with he | ⟨o, row, _, hp, hmem⟩
    · exact h.purges e he
    · refine ⟨hc.selected_born o row hmem, by rw [hp]; simp, fun hr => ?_⟩
      rw [hp] at hr
      cases hr
  obtain ⟨hborn, hidle, hdead⟩ := hold
  obtain ⟨hreq, hidle'⟩ := step_req hs hidle
  rw [hreq]
  refine ⟨hborn.step hs, hidle', fun hr => ?_⟩
  rcases reserved_of_step hc hs hr with hr | ⟨chunks, hphase, hrows⟩
  · exact (hdead hr).step hc hs
  · -- the reservation has just replaced the rows under the name by those of its own plan
    refine dead_of_no_rows (hborn.step hs) (hc.of_step hs) fun row hrow hid hname => ?_
    obtain ⟨m, hm, hid'⟩ := List.mem_map.mp (hrows row hrow hname)
    have hplan := hc.plan e.1 chunks (by rw [hphase]; rfl)
    rw [← hid, ← hid'] at hborn
    exact hc.not_born (by rw [hphase]; rfl) (hplan.issued_of_mem hm) hborn

theorem of_step {a : NamingAction} {out : List StorageRpc} (h : PendingDeletes n)
    (hc : Consistent cfg n) (hs : n.step cfg a = some (n', out)) : PendingDeletes n' where
  purges := h.purges_of_step hc hs
  deletes j := ((lists_of_step hs).1 j).safe hc hs (h.deletes j)
  cleanup := (lists_of_step hs).2.safe hc hs h.cleanup

end PendingDeletes

theorem Reachable.pendingDeletes {ok : NamingServer → NamingAction → Prop}
    (h : Reachable cfg ok n) : PendingDeletes n :=
  Steps.invariant h PendingDeletes.init fun _ _ _ hr hp _ hs =>
    hp.of_step (Reachable.consistent hr) (exists_step_of_next hs).choose_spec

/-! ### The requests that go out -/

theorem deleteChunk_of_step {a : NamingAction} {out : List StorageRpc} {addr : Addr}
    (hs : n.step cfg a = some (n', out)) (hout : .deleteChunk addr c ∈ out) :
    (∃ i k, a = .purge i ∧ n.purges[i]? = some (k, addr, c)) ∨
      (∃ j i ok, a = .delete j (.send i ok) ∧ (addr, c) ∈ (n.deletes j).phase.pending) ∨
      (a = .cleanup .send ∧ (addr, c) ∈ n.cleanup.pending) := by
  cases case_of_step hs with
  | purge i k addr' c' hi =>
    simp only [List.mem_singleton, StorageRpc.deleteChunk.injEq] at hout
    obtain ⟨rfl, rfl⟩ := hout
    exact .inl ⟨i, k, rfl, hi⟩
  | delete j b r h =>
    cases h with
    | send i ok pending failures addr' c' hp hi =>
      simp only [List.mem_singleton, StorageRpc.deleteChunk.injEq] at hout
      obtain ⟨rfl, rfl⟩ := hout
      refine .inr (.inl ⟨j, i, ok, rfl, ?_⟩)
      rw [hp]
      exact List.mem_of_getElem? hi
    | _ => cases hout
  | cleanup b r h =>
    cases h with
    | send cutoff addr' c' pending stale hp =>
      simp only [List.mem_singleton, StorageRpc.deleteChunk.injEq] at hout
      obtain ⟨rfl, rfl⟩ := hout
      refine .inr (.inr ⟨rfl, ?_⟩)
      rw [hp]
      exact List.mem_cons_self
    | _ => cases hout
  | heal b r h => cases h <;> simp at hout
  | _ => cases hout

/-- GetFile would answer with the chunk among the placements of some name. -/
def Serves (n : NamingServer) (c : ChunkId) : Prop :=
  ∃ (f : Filename) (o₁ o₂ : RowOrder) (live : List Addr),
    ∃ p ∈ (getFileResponse (getFile (o₁.view n.db) (o₂.view n.db) f) live).placements, p.chunkId = c

theorem Dead.not_serves (h : n.Dead c) : ¬ n.Serves c := by
  rintro ⟨f, o₁, o₂, live, p, hp, rfl⟩
  cases hrow : selectFile (o₁.view n.db) f with
  | none => simp [getFile, hrow, getFileResponse] at hp
  | some row =>
    simp only [getFile, hrow, Option.map_some, getFileResponse, FileMeta.ofRow,
      collectChunks_selectChunks] at hp
    split_ifs at hp
    · simp only [List.map_map, List.mem_map, mem_chunkRowsOf, o₂.mem_chunks] at hp
      obtain ⟨r, hr, rfl⟩ := hp
      exact h.2 (List.mem_map_of_mem hr.1)
    · cases hp

/-- In runs under `ok`, whenever a DeleteChunk request goes out its chunk has no row any
more, and no later GetFile answers with it. -/
def MetadataFirst (cfg : Settings) (ok : NamingServer → NamingAction → Prop) : Prop :=
  ∀ n a n' out addr c, Reachable cfg ok n → ok n a → n.step cfg a = some (n', out) →
    .deleteChunk addr c ∈ out → c ∉ n.db.chunks.map ChunkRow.chunkId ∧
      ∀ n'', Steps (NamingServer.next cfg) anyStep n n'' → ¬ n''.Serves c

/-- A deletion thread runs only after its own CreateFile request has been reserved. -/
def PurgeAfterReserve (n : NamingServer) : NamingAction → Prop
  | .purge i => ∀ e ∈ n.purges[i]?, (n.creates e.1).phase.reserved = true
  | _ => True

instance (n : NamingServer) (a : NamingAction) : Decidable (PurgeAfterReserve n a) :=
  match a with
  | .purge i => inferInstanceAs (Decidable (∀ e ∈ n.purges[i]?, _))
  | .registerStorage _ | .heartbeat _ | .tick _ | .create _ _ | .commit _ | .delete _ _
  | .get _ _ | .cleanup _ | .heal _ | .crash => .isTrue trivial

theorem metadataFirst_of_purgeAfterReserve (cfg : Settings) :
    MetadataFirst cfg PurgeAfterReserve := by
  intro n a n' out addr c hr hok hs hout
  have hp := hr.pendingDeletes
  have hdead : n.Dead c := by
    rcases deleteChunk_of_step hs hout with ⟨i, k, rfl, hi⟩ | ⟨j, i, b, _, hmem⟩ | ⟨_, hmem⟩
    · exact (hp.purges _ (List.mem_of_getElem? hi)).2.2 (hok _ hi)
    · exact (hp.deletes j).2 _ hmem
    · exact hp.cleanup.2 _ hmem
  exact ⟨hdead.2, fun n'' hsteps => (hdead.of_steps hr.consistent hsteps).not_serves⟩

section Overwrite

/-- `f` is stored and committed, and a second CreateFile has just read the old version. -/
def overwriting : List NamingAction :=
  [.registerStorage ['s'], .create 0 (.receive ⟨['f'], 1, 1⟩), .create 0 .checkLive,
    .create 0 (.selectFile .table), .create 0 (.place ['c']), .create 0 (.reserve 0),
    .commit ['f'], .create 1 (.receive ⟨['f'], 1, 1⟩), .create 1 .checkLive,
    .create 1 (.selectFile .table), .create 1 (.selectChunks .table)]

/-- The purge at position 0 sends out the delete of `c`. -/
def purgesC (n : NamingServer) : Bool :=
  (n.step ⟨1, 60⟩ (.purge 0)).any fun r => r.2.contains (.deleteChunk ['s'] ['c'])

theorem exists_of_purgesC {n : NamingServer} (h : purgesC n = true) : ∃ n' out,
    n.step ⟨1, 60⟩ (.purge 0) = some (n', out) ∧ .deleteChunk ['s'] ['c'] ∈ out := by
  simp only [purgesC, Option.any_eq_true_iff_get, List.contains_iff_mem] at h
  exact ⟨_, _, (Option.some_get h.1).symm, h.2⟩

/-- With the reservation made first, the deletion thread deletes a chunk without a row. -/
theorem metadataFirst_of_purgeAfterReserve_overwrite : ∃ n n' out,
    Reachable ⟨1, 60⟩ PurgeAfterReserve n ∧
      n.step ⟨1, 60⟩ (.purge 0) = some (n', out) ∧ .deleteChunk ['s'] ['c'] ∈ out ∧
      ['c'] ∉ n.db.chunks.map ChunkRow.chunkId := by
  have hrun : (run (guarded (NamingServer.next ⟨1, 60⟩) PurgeAfterReserve) NamingServer.init
      (overwriting ++ [.create 1 (.place ['d']), .create 1 (.reserve 1)])).any
      (fun n => purgesC n && decide (PurgeAfterReserve n (.purge 0))) = true := by
    decide +kernel
  obtain ⟨n, hr, hn⟩ := exists_of_run hrun
  rw [Bool.and_eq_true, decide_eq_true_eq] at hn
  obtain ⟨n', out, hs, hout⟩ := exists_of_purgesC hn.1
  exact ⟨n, n', out, hr, hs, hout,
    (metadataFirst_of_purgeAfterReserve ⟨1, 60⟩ n _ n' out ['s'] ['c'] hr hn.2 hs hout).1⟩

/-- Without it, the thread runs while the old version is still committed. -/
theorem not_metadataFirst : ¬ MetadataFirst ⟨1, 60⟩ anyStep := by
  intro h
  have hrun : (run (guarded (NamingServer.next ⟨1, 60⟩) anyStep) NamingServer.init
      overwriting).any (fun n => purgesC n && decide (['c'] ∈ n.db.chunks.map ChunkRow.chunkId)) =
      true := by
    decide +kernel
  obtain ⟨n, hr, hn⟩ := exists_of_run hrun
  rw [Bool.and_eq_true, decide_eq_true_eq] at hn
  obtain ⟨n', out, hs, hout⟩ := exists_of_purgesC hn.1
  exact (h n _ n' out ['s'] ['c'] hr trivial hs hout).1 hn.2

end Overwrite

end NamingServer

end GfsCluster
