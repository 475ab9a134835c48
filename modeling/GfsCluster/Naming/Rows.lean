import GfsCluster.Naming.Versions

/-! What one step of the naming server does to the rows of the database, said once for
all threads, and what follows for the rows of one chunk: an id that was reserved once
never gets a new row, and the addresses of a chunk change by the healer only. -/

namespace GfsCluster

open StepSystem

namespace NamingServer

variable {cfg : Settings} {n n' : NamingServer} {k : ℕ} {f : Filename} {c : ChunkId}
  {a : NamingAction} {out : List StorageRpc}

/-! ### What stays for good -/

/-- A request whose reservation went through is never touched again. -/
theorem step_reserved {a : NamingAction} {out : List StorageRpc}
    (hs : n.step cfg a = some (n', out)) {j : ℕ} (hr : (n.creates j).phase.reserved = true) :
    n'.creates j = n.creates j := by
  rcases step_moves hs with ⟨k, b, _, hm⟩ | ⟨_, rfl⟩ | ⟨_, hcreates, _⟩
  · have hjk : j ≠ k := by
      rintro rfl
      rw [(createStep_own hm).1] at hr
      cases hr
    exact createStep_other hm hjk
  · show (n.creates j).crash = n.creates j
    cases hp : (n.creates j).phase with
    | replied resp => simp [CreateHandler.crash, hp]
    | _ =>
      rw [hp] at hr
      cases hr
  · rw [hcreates]

theorem step_issued {a : NamingAction} {out : List StorageRpc}
    (hs : n.step cfg a = some (n', out)) {e : Issue} (he : e ∈ n.issued) : e ∈ n'.issued := by
  rcases step_moves hs with ⟨k, b, _, hm⟩ | ⟨_, rfl⟩ | ⟨_, _, hissued⟩
  · cases createStep_moves hm with
    | turn _ _ _ hissued => exact hissued ▸ he
    | place _ _ _ _ _ _ _ _ _ _ hissued => exact hissued ▸ List.mem_append_left _ he
    | reserve _ _ _ _ _ _ _ hissued => exact hissued ▸ he
    | raise _ _ _ _ _ _ hissued => exact hissued ▸ he
  · exact he
  · exact hissued ▸ he

theorem BornIn.step {a : NamingAction} {out : List StorageRpc} {f : Filename} {c : ChunkId}
    (h : n.BornIn f c) (hs : n.step cfg a = some (n', out)) : n'.BornIn f c := by
  obtain ⟨k, i, hi, hr, hf⟩ := h
  have he := step_reserved hs hr
  exact ⟨k, i, step_issued hs hi, by rw [he]; exact hr, by rw [he]; exact hf⟩

/-- A handler without a request gets one by the first step of its own only. -/
theorem idle_of_step (hs : n.step cfg a = some (n', out)) (hk : (n.creates k).phase = .idle) :
    n'.creates k = n.creates k ∨ ∃ req, a = .create k (.receive req) ∧ n'.creates k = ⟨req, .received⟩ := by
  rcases step_moves hs with ⟨j, b, rfl, hm⟩ | ⟨_, rfl⟩ | ⟨_, hcreates, _⟩
  · by_cases hj : k = j
    · subst hj
      cases b <;> simp only [createStep, hk, reduceCtorEq] at hm
      cases hm
      exact .inr ⟨_, rfl, by simp⟩
    · exact .inl (createStep_other hm hj)
  · left
    show (n.creates k).crash = n.creates k
    simp [CreateHandler.crash, hk]
  · exact .inl (by rw [hcreates])

/-! ### One step -/

/-- The tables after a step. -/
inductive DbMove (n : NamingServer) (a : NamingAction) (n' : NamingServer) : Prop
  | keep (hdb : n'.db = n.db) (hgraves : n'.graves = n.graves)
  | commit (f : Filename) (ha : a = .commit f) (hdb : n'.db = n.db.markCommitted f)
      (hgraves : n'.graves = n.graves)
  | remove (f : Filename) (hdb : n'.db = n.db.deleteFile f)
      (hgraves : n'.graves = n.graves ++ n.db.chunksWithRow f) (hf : n.removes a = some f)
  | reserve (k : ℕ) (t : Seconds) (chunks : List ChunkMeta) (ha : a = .create k (.reserve t))
      (hphase : (n.creates k).phase = .placing chunks)
      (hlen : chunks.length = (n.creates k).req.numChunks.toNat)
      (hfiles : n'.db.files = (n.db.deleteFile (n.creates k).req.filename).files ++
        [⟨(n.creates k).req.filename, (n.creates k).req.size, (n.creates k).req.numChunks,
          .pending, t⟩])
      (hchunks : n'.db.chunks = (n.db.deleteFile (n.creates k).req.filename).chunks ++
        chunks.map (·.row (n.creates k).req.filename))
      (hreplicas : n'.db.replicas = (n.db.deleteFile (n.creates k).req.filename).replicas ++
        chunks.flatMap ChunkMeta.replicaRows)
      (hcreates : n'.creates = Function.update n.creates k ⟨(n.creates k).req,
        .replied ⟨true, "reserved", chunks.map ChunkMeta.placement⟩⟩)
      (hgraves : n'.graves = n.graves ++ n.db.chunksWithRow (n.creates k).req.filename)
  | record (live : List Addr) (rest : List ChunkMeta) (repaired : ℕ) (w : Repair) (target : Addr)
      (ha : a = .heal .record) (hheal : n.heal = .copied live rest repaired w target)
      (hnew : ⟨w.chunkId, target⟩ ∉ n.db.replicas)
      (hfiles : n'.db.files = n.db.files) (hchunks : n'.db.chunks = n.db.chunks)
      (hreplicas : n'.db.replicas = n.db.replicas ++ [⟨w.chunkId, target⟩])
      (hgraves : n'.graves = n.graves)
  | drop (live : List Addr) (rest : List ChunkMeta) (repaired : ℕ) (w : Repair) (addr : Addr)
      (ha : a = .heal .drop) (hheal : n.heal = .dropping live rest repaired w addr)
      (hdb : n'.db = n.db.deleteReplica w.chunkId addr) (hgraves : n'.graves = n.graves)

theorem db_of_step (h : Consistent cfg n) (hs : n.step cfg a = some (n', out)) : DbMove n a n' := by
  have hw : n.store.writer = n.db := h.clean
  rcases step_moves hs with ⟨k, b, rfl, hm⟩ | ⟨_, rfl⟩ | ⟨hm, _, _⟩
  · cases createStep_moves hm with
    | turn _ _ hstore _ hgraves => exact .keep (by rw [NamingServer.db, hstore]) hgraves
    | place _ _ _ _ _ _ _ _ hstore hgraves => exact .keep (by rw [NamingServer.db, hstore]) hgraves
    | raise chunks now e _ hphase herr =>
      obtain ⟨db, hdb, _⟩ := h.createPending_tables hphase (n.creates k).req.filename
        (n.creates k).req.size (n.creates k).req.numChunks now
      rw [hdb] at herr
      cases herr
    | reserve chunks now ha hphase hlen _ hstore _ hgraves hcreates =>
      obtain ⟨db, hpend, hfiles, hchunks, hreplicas⟩ := h.createPending_tables hphase
        (n.creates k).req.filename (n.creates k).req.size (n.creates k).req.numChunks now
      have hdb : n'.db = db := by rw [NamingServer.db, hstore, hpend]
      exact .reserve k now chunks (by rw [ha]) hphase (le_antisymm (h.placing k chunks hphase) hlen)
        (by rw [hdb, hfiles]) (by rw [hdb, hchunks]) (by rw [hdb, hreplicas]) hcreates hgraves
  · exact .keep rfl rfl
  · cases hm with
    | keep hstore hgraves => exact .keep (by rw [NamingServer.db, hstore]) hgraves
    | commit f ha hstore hgraves =>
      exact .commit f ha (by rw [NamingServer.db, hstore, MetadataStore.commitFile, hw]) hgraves
    | remove f hstore hgraves hf =>
      exact .remove f (by rw [NamingServer.db, hstore, MetadataStore.deleteFile, hw]) hgraves hf
    | record live rest repaired w target ha hheal hstore hgraves =>
      obtain ⟨_, ⟨_, _, hm, _⟩ | ⟨_, hm, _⟩ | ⟨_, hnew, hf, hch, hr⟩⟩ :=
        MetadataStore.addReplica_cases h.clean w.chunkId target
      · exact .keep (by rw [NamingServer.db, hstore, hm]) hgraves
      · exact .keep (by rw [NamingServer.db, hstore, hm]) hgraves
      · refine .record live rest repaired w target ha hheal hnew ?_ ?_ ?_ hgraves
        · rw [NamingServer.db, hstore, hf]
        · rw [NamingServer.db, hstore, hch]
        · rw [NamingServer.db, hstore, hr]
    | drop live rest repaired w addr ha hheal hstore hgraves =>
      exact .drop live rest repaired w addr ha hheal
        (by rw [NamingServer.db, hstore, MetadataStore.removeReplica, hw]) hgraves

/-- The reservation of a request: the rows of its file are replaced by those of its plan. -/
structure Reserves (n : NamingServer) (k : ℕ) (a : NamingAction) (n' : NamingServer)
    (chunks : List ChunkMeta) (t : Seconds) : Prop where
  action : a = .create k (.reserve t)
  phase : (n.creates k).phase = .placing chunks
  files : n'.db.files = (n.db.deleteFile (n.creates k).req.filename).files ++
    [⟨(n.creates k).req.filename, (n.creates k).req.size, (n.creates k).req.numChunks, .pending, t⟩]
  chunks : n'.db.chunks = (n.db.deleteFile (n.creates k).req.filename).chunks ++
    chunks.map (·.row (n.creates k).req.filename)
  issued : n'.issued = n.issued
  req : (n'.creates k).req = (n.creates k).req

/-- A request becomes reserved by its reservation only. -/
theorem reserve_of_step (h : Consistent cfg n) (hs : n.step cfg a = some (n', out))
    (hr : (n'.creates k).phase.reserved = true) :
    (n.creates k).phase.reserved = true ∨ ∃ chunks t, Reserves n k a n' chunks t := by
  rcases step_moves hs with ⟨j, b, rfl, hm⟩ | ⟨_, rfl⟩ | ⟨_, hcreates, _⟩
  · have hother : ∀ h, n'.creates = Function.update n.creates j h → h.phase.reserved = false →
        (n.creates k).phase.reserved = true := by
      intro h hcreates hnew
      by_cases hj : k = j
      · subst hj
        rw [hcreates, Function.update_self, hnew] at hr
        cases hr
      · rwa [hcreates, Function.update_of_ne hj] at hr
    cases createStep_moves hm with
    | turn req p _ _ _ hcreates _ _ hnew => exact .inl (hother _ hcreates hnew)
    | place _ _ _ _ _ _ _ _ _ _ _ _ hcreates => exact .inl (hother _ hcreates rfl)
    | raise _ _ _ _ _ _ _ hcreates => exact .inl (hother _ hcreates rfl)
    | reserve chunks now ha hphase _ _ hstore hissued _ hcreates =>
      by_cases hj : k = j
      · subst hj
        obtain ⟨db, hpend, hfiles, hchunks, _⟩ := h.createPending_tables hphase
          (n.creates k).req.filename (n.creates k).req.size (n.creates k).req.numChunks now
        have hdb : n'.db = db := by rw [NamingServer.db, hstore, hpend]
        exact .inr ⟨chunks, now, by rw [ha], hphase, by rw [hdb, hfiles], by rw [hdb, hchunks],
          hissued, by rw [hcreates, Function.update_self]⟩
      · rw [hcreates, Function.update_of_ne hj] at hr
        exact .inl hr
  · exact .inl ((Consistent.crash_handler (n.creates k)).2.1 ▸ hr)
  · exact .inl (hcreates ▸ hr)

/-- A chunk row that appears is of a request that was still placing before the step. -/
theorem row_of_step (h : Consistent cfg n) (hs : n.step cfg a = some (n', out)) {r : ChunkRow}
    (hr : r ∈ n'.db.chunks) :
    r ∈ n.db.chunks ∨ ∃ k t chunks, a = .create k (.reserve t) ∧
      (n.creates k).phase = .placing chunks ∧ (n.creates k).req.filename = r.filename ∧
      (⟨r.chunkId, k, r.idx⟩ : Issue) ∈ n.issued := by
  cases db_of_step h hs with
  | keep hdb => exact .inl (hdb ▸ hr)
  | commit f _ hdb => exact .inl (by rw [hdb] at hr; exact hr)
  | remove f hdb => exact .inl (by rw [hdb, Db.mem_deleteFile_chunks] at hr; exact hr.1)
  | record _ _ _ _ _ _ _ _ _ hchunks => exact .inl (hchunks ▸ hr)
  | drop _ _ _ _ _ _ _ hdb => exact .inl (by rw [hdb] at hr; exact hr)
  | reserve k t chunks ha hphase _ _ hchunks =>
    rw [hchunks, List.mem_append, Db.mem_deleteFile_chunks] at hr
    rcases hr with hr | hr
    · exact .inl hr.1
    · obtain ⟨m, hm, rfl⟩ := List.mem_map.mp hr
      have hplan := h.plan k chunks (by rw [hphase]; rfl)
      exact .inr ⟨k, t, chunks, ha, hphase, rfl, hplan.issued_of_mem hm⟩

/-- An id that waits for its reservation was not reserved before. -/
theorem Consistent.not_born {i : ℕ} (h : Consistent cfg n) (hk : (n.creates k).phase.reserved = false)
    (hi : (⟨c, k, i⟩ : Issue) ∈ n.issued) : ¬ n.BornIn f c := by
  rintro ⟨k', i', hi', hr, _⟩
  have := h.issue_unique hi hi' rfl
  simp only [Issue.mk.injEq] at this
  rw [← this.2.1, hk] at hr
  cases hr

/-- An id that was reserved before never gets a new row. -/
theorem BornIn.row_of_step {r : ChunkRow} (hb : n.BornIn f r.chunkId) (h : Consistent cfg n)
    (hs : n.step cfg a = some (n', out)) (hr : r ∈ n'.db.chunks) : r ∈ n.db.chunks := by
  rcases NamingServer.row_of_step h hs hr with hold | ⟨k, t, chunks, _, hphase, _, hi⟩
  · exact hold
  · exact absurd hb (h.not_born (by rw [hphase]; rfl) hi)

/-- A chunk row that survives a reservation is of another file. -/
theorem filename_ne_of_reserve {r : ChunkRow} {chunks : List ChunkMeta} (h : Consistent cfg n)
    (hr : r ∈ n.db.chunks) (hr' : r ∈ n'.db.chunks)
    (hphase : (n.creates k).phase = .placing chunks)
    (hchunks : n'.db.chunks = (n.db.deleteFile (n.creates k).req.filename).chunks ++
      chunks.map (·.row (n.creates k).req.filename)) :
    r.filename ≠ (n.creates k).req.filename := by
  rw [hchunks, List.mem_append, Db.mem_deleteFile_chunks] at hr'
  rcases hr' with hr' | hr'
  · exact hr'.2
  · obtain ⟨m, hm, rfl⟩ := List.mem_map.mp hr'
    exact absurd rfl (h.placing_fresh hphase hm hr)

/-- A file row that appears was committed or reserved by the step. -/
theorem file_of_step (h : Consistent cfg n) (hs : n.step cfg a = some (n', out)) {F : FileRow}
    (hF : F ∈ n'.db.files) : F ∈ n.db.files ∨
      (a = .commit F.filename ∧ ∃ G ∈ n.db.files, F = { G with status := .committed }) ∨
      ∃ k t, a = .create k (.reserve t) ∧ F = ⟨(n.creates k).req.filename,
        (n.creates k).req.size, (n.creates k).req.numChunks, .pending, t⟩ ∧
        (∀ r ∈ n.db.chunks, r ∈ n'.db.chunks → r.filename ≠ F.filename) ∧
        (n.creates k).phase.reserved = false := by
  cases db_of_step h hs with
  | keep hdb => exact .inl (hdb ▸ hF)
  | commit f ha hdb =>
    rw [hdb, Db.mem_markCommitted] at hF
    obtain ⟨G, hG, rfl⟩ := hF
    split_ifs with hname
    · exact .inr (.inl ⟨by rw [ha, ← hname], G, hG, rfl⟩)
    · exact .inl hG
  | remove f hdb => exact .inl (by rw [hdb, Db.mem_deleteFile_files] at hF; exact hF.1)
  | record _ _ _ _ _ _ _ _ hfiles => exact .inl (hfiles ▸ hF)
  | drop _ _ _ _ _ _ _ hdb => exact .inl (by rw [hdb] at hF; exact hF)
  | reserve k t chunks ha hphase _ hfiles hchunks =>
    rw [hfiles, List.mem_append, List.mem_singleton, Db.mem_deleteFile_files] at hF
    rcases hF with hF | rfl
    · exact .inl hF.1
    · exact .inr (.inr ⟨k, t, ha, rfl,
        fun r hr hr' => filename_ne_of_reserve h hr hr' hphase hchunks, by rw [hphase]; rfl⟩)

/-- A replica row that appears is of the plan reserved by the step, or is the target of
the repair that the step records. -/
theorem replica_of_step (h : Consistent cfg n) (hs : n.step cfg a = some (n', out))
    {r : ReplicaRow} (hr : r ∈ n'.db.replicas) : r ∈ n.db.replicas ∨
      (∃ k t chunks, a = .create k (.reserve t) ∧ (n.creates k).phase = .placing chunks ∧
        ∃ m ∈ chunks, r ∈ m.replicaRows) ∨
      ∃ live rest repaired w target, a = .heal .record ∧
        n.heal = .copied live rest repaired w target ∧ r = ⟨w.chunkId, target⟩ := by
  cases db_of_step h hs with
  | keep hdb => exact .inl (hdb ▸ hr)
  | commit f _ hdb => exact .inl (by rw [hdb] at hr; exact hr)
  | remove f hdb => exact .inl (by rw [hdb, Db.mem_deleteFile_replicas] at hr; exact hr.1)
  | record live rest repaired w target ha hheal _ _ _ hreplicas =>
    rw [hreplicas, List.mem_append, List.mem_singleton] at hr
    exact hr.imp_right fun he => .inr ⟨live, rest, repaired, w, target, ha, hheal, he⟩
  | drop _ _ _ _ _ _ _ hdb =>
    rw [hdb] at hr
    exact .inl (List.mem_filter.mp hr).1
  | reserve k t chunks ha hphase _ _ _ hreplicas =>
    rw [hreplicas, List.mem_append, Db.mem_deleteFile_replicas, List.mem_flatMap] at hr
    rcases hr with hr | ⟨m, hm, hr⟩
    · exact .inl hr.1
    · exact .inr (.inl ⟨k, t, chunks, ha, hphase, m, hm, hr⟩)

/-- A reserved chunk is recorded at the addresses of its plan. -/
theorem locations_of_reserve {chunks : List ChunkMeta} (h : Consistent cfg n)
    (hphase : (n.creates k).phase = .placing chunks)
    (hreplicas : n'.db.replicas = (n.db.deleteFile (n.creates k).req.filename).replicas ++
      chunks.flatMap ChunkMeta.replicaRows) {m : ChunkMeta} (hm : m ∈ chunks) :
    n'.db.locations m.chunkId = m.locations := by
  have hplan := h.plan k chunks (by rw [hphase]; rfl)
  rw [Db.locations_append hreplicas, Db.locations_of_plan (h.plan_ids_nodup hplan) hm]
  have hnone : (n.db.deleteFile (n.creates k).req.filename).locations m.chunkId = [] := by
    rw [List.eq_nil_iff_forall_not_mem]
    intro addr haddr
    rw [Db.mem_locations, Db.mem_deleteFile_replicas] at haddr
    obtain ⟨r, hr, hid⟩ := n.db.exists_chunk haddr.1
    exact h.placing_fresh hphase hm hr hid
  rw [hnone, List.nil_append]

/-- A chunk that gets its row is recorded at the addresses of its plan. -/
theorem locations_of_new_row (h : Consistent cfg n) (hs : n.step cfg a = some (n', out))
    {r : ChunkRow} (hr' : r ∈ n'.db.chunks) (hr : r ∉ n.db.chunks) :
    ∃ k t chunks, a = .create k (.reserve t) ∧ (n.creates k).phase = .placing chunks ∧
      (n'.creates k).phase.plan = some chunks ∧
      ∃ m ∈ chunks, m.chunkId = r.chunkId ∧ n'.db.locations r.chunkId = m.locations := by
  cases db_of_step h hs with
  | keep hdb => exact absurd (hdb ▸ hr') hr
  | commit f _ hdb => exact absurd (by rw [hdb] at hr'; exact hr') hr
  | remove f hdb => exact absurd (by rw [hdb, Db.mem_deleteFile_chunks] at hr'; exact hr'.1) hr
  | record _ _ _ _ _ _ _ _ _ hchunks => exact absurd (hchunks ▸ hr') hr
  | drop _ _ _ _ _ _ _ hdb => exact absurd (by rw [hdb] at hr'; exact hr') hr
  | reserve k t chunks ha hphase _ _ hchunks hreplicas hcreates =>
    rw [hchunks, List.mem_append, Db.mem_deleteFile_chunks] at hr'
    rcases hr' with hr' | hr'
    · exact absurd hr'.1 hr
    · obtain ⟨m, hm, rfl⟩ := List.mem_map.mp hr'
      refine ⟨k, t, chunks, ha, hphase, ?_, m, hm, rfl, locations_of_reserve h hphase hreplicas hm⟩
      rw [hcreates, Function.update_self]
      simp [CreatePhase.plan, Function.comp_def]

/-- A chunk that gets its row is not committed yet. -/
theorem not_committed_of_new_row (h : Consistent cfg n) (hs : n.step cfg a = some (n', out))
    {r : ChunkRow} (hr' : r ∈ n'.db.chunks) (hr : r ∉ n.db.chunks) :
    ¬ n'.db.CommittedChunk r.chunkId := by
  rintro ⟨r₀, hr₀, hid, F, hF, hname, hst⟩
  obtain rfl := n'.db.chunk_unique hr₀ hr' hid
  cases db_of_step h hs with
  | keep hdb => exact hr (hdb ▸ hr')
  | commit f _ hdb => exact hr (by rw [hdb] at hr'; exact hr')
  | remove f hdb => exact hr (by rw [hdb, Db.mem_deleteFile_chunks] at hr'; exact hr'.1)
  | record _ _ _ _ _ _ _ _ _ hchunks => exact hr (hchunks ▸ hr')
  | drop _ _ _ _ _ _ _ hdb => exact hr (by rw [hdb] at hr'; exact hr')
  | reserve k t chunks _ _ _ hfiles hchunks =>
    rw [hchunks, List.mem_append, Db.mem_deleteFile_chunks] at hr'
    rw [hfiles, List.mem_append, Db.mem_deleteFile_files, List.mem_singleton] at hF
    rcases hr' with hr' | hr'
    · exact hr hr'.1
    · obtain ⟨m, _, rfl⟩ := List.mem_map.mp hr'
      rcases hF with hF | rfl
      · exact hF.2 hname
      · cases hst

section Chunk

variable {r : ChunkRow} (h : Consistent cfg n) (hs : n.step cfg a = some (n', out))
  (hr : r ∈ n.db.chunks) (hr' : r ∈ n'.db.chunks)

include h hs hr hr'

/-- A committed chunk stays committed as long as it is there. -/
theorem committed_of_step (hcom : n.db.CommittedChunk r.chunkId) :
    n'.db.CommittedChunk r.chunkId := by
  obtain ⟨r₀, hr₀, hid, F, hF, hname, hst⟩ := hcom
  obtain rfl := n.db.chunk_unique hr₀ hr hid
  suffices hF' : ∃ F' ∈ n'.db.files, F'.filename = r₀.filename ∧ F'.status = .committed from
    ⟨r₀, hr', rfl, hF'⟩
  cases db_of_step h hs with
  | keep hdb => exact ⟨F, hdb ▸ hF, hname, hst⟩
  | commit f _ hdb =>
    refine ⟨_, hdb ▸ Db.mem_markCommitted.mpr ⟨F, hF, rfl⟩, ?_⟩
    split_ifs
    · exact ⟨hname, rfl⟩
    · exact ⟨hname, hst⟩
  | remove f hdb =>
    rw [hdb, Db.mem_deleteFile_chunks] at hr'
    exact ⟨F, hdb ▸ Db.mem_deleteFile_files.mpr ⟨hF, hname ▸ hr'.2⟩, hname, hst⟩
  | record _ _ _ _ _ _ _ _ hfiles => exact ⟨F, hfiles ▸ hF, hname, hst⟩
  | drop _ _ _ _ _ _ _ hdb => exact ⟨F, by rw [hdb]; exact hF, hname, hst⟩
  | reserve k t chunks _ hphase _ hfiles hchunks =>
    have hne := filename_ne_of_reserve h hr hr' hphase hchunks
    refine ⟨F, ?_, hname, hst⟩
    rw [hfiles, List.mem_append, Db.mem_deleteFile_files]
    exact .inl ⟨hF, hname ▸ hne⟩

/-- A chunk becomes committed by the commit of its file. -/
theorem committed_before_step (hcom : n'.db.CommittedChunk r.chunkId) :
    n.db.CommittedChunk r.chunkId ∨ a = .commit r.filename := by
  obtain ⟨r₀, hr₀, hid, F, hF, hname, hst⟩ := hcom
  obtain rfl := n'.db.chunk_unique hr₀ hr' hid
  rcases file_of_step h hs hF with hF | ⟨ha, _⟩ | ⟨_, _, _, rfl, _⟩
  · exact .inl ⟨r₀, hr, rfl, F, hF, hname, hst⟩
  · exact .inr (by rw [ha, hname])
  · cases hst

/-- The addresses of a chunk change by the healer's two writes for that chunk only. -/
theorem locations_of_step : n'.db.locations r.chunkId = n.db.locations r.chunkId ∨
    (∃ live rest repaired w target, a = .heal .record ∧
      n.heal = .copied live rest repaired w target ∧ w.chunkId = r.chunkId ∧
      n'.db.locations r.chunkId = n.db.locations r.chunkId ++ [target]) ∨
    ∃ live rest repaired w addr, a = .heal .drop ∧
      n.heal = .dropping live rest repaired w addr ∧ w.chunkId = r.chunkId ∧
      n'.db.locations r.chunkId = (n.db.locations r.chunkId).filter (· ≠ addr) := by
  cases db_of_step h hs with
  | keep hdb => exact .inl (by rw [hdb])
  | commit f _ hdb => exact .inl (by rw [hdb]; rfl)
  | remove f hdb =>
    rw [hdb, Db.mem_deleteFile_chunks] at hr'
    exact .inl (by rw [hdb, Db.locations_deleteFile hr hr'.2])
  | record live rest repaired w target ha hheal _ _ _ hreplicas =>
    rw [Db.locations_append hreplicas]
    by_cases hc : w.chunkId = r.chunkId
    · exact .inr (.inl ⟨live, rest, repaired, w, target, ha, hheal, hc, by simp [hc]⟩)
    · exact .inl (by simp [hc])
  | drop live rest repaired w addr ha hheal hdb =>
    rw [hdb]
    by_cases hc : w.chunkId = r.chunkId
    · exact .inr (.inr ⟨live, rest, repaired, w, addr, ha, hheal, hc,
        by rw [← hc, Db.locations_deleteReplica]⟩)
    · exact .inl (Db.locations_deleteReplica_of_ne (Ne.symm hc) addr)
  | reserve k t chunks _ hphase _ _ hchunks hreplicas =>
    have hne := filename_ne_of_reserve h hr hr' hphase hchunks
    left
    rw [Db.locations_append hreplicas, Db.locations_deleteFile hr hne]
    -- the rows of the plan are of other chunks
    rw [List.filter_eq_nil_iff.mpr, List.map_nil, List.append_nil]
    intro x hx hid
    obtain ⟨m, hm, hx⟩ := List.mem_flatMap.mp hx
    rw [decide_eq_true_eq] at hid
    exact h.placing_fresh hphase hm hr (hid.symm.trans (ChunkMeta.mem_replicaRows.mp hx).1)

end Chunk

end NamingServer

end GfsCluster
