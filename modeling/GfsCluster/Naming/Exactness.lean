import GfsCluster.Naming.Ledger

/-! Deletion by version. An operation reads the chunks of a file, removes the rows by name
in a later transaction, and deletes what it has read. It deletes exactly the version that it
removed if, in between, the file was not reserved by another request and the healer recorded
and dropped no replica of its chunks. -/

namespace GfsCluster

open StepSystem

/-- There is a version of the file. -/
def Db.HasFile (db : Db) (f : Filename) : Prop := ∃ F ∈ db.files, F.filename = f

theorem Db.records_congr {db db' : Db} {f : Filename} {p : Addr × ChunkId}
    (hrows : ∀ row, row.filename = f → (row ∈ db'.chunks ↔ row ∈ db.chunks))
    (hreplicas : ∀ row ∈ db.chunks, row.filename = f → ∀ addr,
      (⟨row.chunkId, addr⟩ ∈ db'.replicas ↔ ⟨row.chunkId, addr⟩ ∈ db.replicas)) :
    db'.Records f p ↔ db.Records f p := by
  obtain ⟨addr, c⟩ := p
  constructor
  · rintro ⟨hrep, row, hrow, rfl, hname⟩
    rw [hrows row hname] at hrow
    exact ⟨(hreplicas row hrow hname addr).mp hrep, row, hrow, rfl, hname⟩
  · rintro ⟨hrep, row, hrow, rfl, hname⟩
    exact ⟨(hreplicas row hrow hname addr).mpr hrep, row, (hrows row hname).mpr hrow, rfl, hname⟩

theorem Db.records_deleteFile {db : Db} {f g : Filename} {p : Addr × ChunkId} (hne : f ≠ g) :
    (db.deleteFile g).Records f p ↔ db.Records f p := by
  refine records_congr (fun row hname => ?_) fun row hrow hname addr => ?_
  · rw [mem_deleteFile_chunks, hname]
    exact and_iff_left hne
  · rw [mem_deleteFile_replicas]
    refine and_iff_left fun row' hrow' hid => ?_
    rw [db.chunk_unique hrow' hrow hid, hname]
    exact hne

/-- A reservation under another name adds nothing. -/
theorem Db.records_of_append {db db' : Db} {f g : Filename} {chunks : List ChunkMeta} {p : Addr × ChunkId}
    (hchunks : db'.chunks = db.chunks ++ chunks.map (·.row g))
    (hreplicas : db'.replicas = db.replicas ++ chunks.flatMap ChunkMeta.replicaRows) (hne : f ≠ g) :
    db'.Records f p ↔ db.Records f p := by
  refine records_congr (fun row hname => ?_) fun row hrow hname addr => ?_
  · rw [hchunks, List.mem_append]
    refine or_iff_left fun hrow => ?_
    obtain ⟨m, _, rfl⟩ := List.mem_map.mp hrow
    exact hne hname.symm
  · rw [hreplicas, List.mem_append]
    refine or_iff_left fun hrep => ?_
    -- a new replica is of a new chunk, and that has another name
    obtain ⟨m, hm, hrep⟩ := List.mem_flatMap.mp hrep
    have hid : row.chunkId = m.chunkId := (ChunkMeta.mem_replicaRows.mp hrep).1
    have hnew : m.row g ∈ db'.chunks := by
      rw [hchunks]
      exact List.mem_append_right _ (List.mem_map_of_mem hm)
    have hold : row ∈ db'.chunks := by
      rw [hchunks]
      exact List.mem_append_left _ hrow
    rw [db'.chunk_unique hold hnew hid] at hname
    exact hne hname.symm

theorem CreatePhase.not_reserved_of_early {ph : CreatePhase} (h : ph.early = true) :
    ph.reserved = false := by
  cases ph <;> first | rfl | cases h

/-- A DeleteFile request that has not removed anything. -/
def DeletePhase.early : DeletePhase → Bool
  | idle | received | row _ | loaded _ => true
  | _ => false

/-- A DeleteFile request that has nothing more to remove. -/
def DeletePhase.done : DeletePhase → Bool
  | sending _ _ | replied _ => true
  | _ => false

namespace NamingServer

variable {cfg : Settings} {n n' : NamingServer} {k : ℕ} {out : List StorageRpc}

theorem deleteStep_early {b : DeleteStep} (hs : n.deleteStep k b = some (n', out))
    (h : (n'.deletes k).phase.early = true) :
    (n.deletes k).phase.early = true ∧ b ≠ .remove := by
  cases case_of_deleteStep hs <;> simp_all [setDelete, DeletePhase.early]

theorem deleteStep_done {b : DeleteStep} (hs : n.deleteStep k b = some (n', out))
    (h : (n.deletes k).phase.done = true) : (n'.deletes k).phase.done = true := by
  cases case_of_deleteStep hs <;> simp_all [setDelete, DeletePhase.done]

/-- A DeleteFile request reads what is recorded. -/
theorem deleteStep_loaded {b : DeleteStep} {fm : FileMeta} (hs : n.deleteStep k b = some (n', out))
    (h : (n'.deletes k).phase = .loaded fm) :
    n'.db = n.db ∧ ∀ p, p ∈ fm.pairs ↔ n.db.Records (n'.deletes k).filename p := by
  cases case_of_deleteStep hs with
  | selectChunks o row hp =>
    simp only [setDelete, Function.update_self, DeletePhase.loaded.injEq] at h ⊢
    subst h
    exact ⟨trivial, fun p => FileMeta.mem_selected_pairs⟩
  | _ => simp [setDelete] at h

/-- The cleanup loop collects what is recorded. -/
theorem cleanupStep_stale {b : CleanupStep} {fm : FileMeta}
    (hs : n.cleanupStep cfg b = some (n', out)) (hfm : fm ∈ n'.cleanup.stale) :
    fm ∈ n.cleanup.stale ∨
      n'.db = n.db ∧ ∀ p, p ∈ fm.pairs ↔ n.db.Records fm.filename p := by
  cases case_of_cleanupStep hs with
  | selectChunks o cutoff row names stale hp =>
    simp only [CleanupPhase.stale, List.mem_append, List.mem_singleton, hp] at hfm ⊢
    refine hfm.imp_right ?_
    rintro rfl
    exact ⟨trivial, fun p => FileMeta.mem_selected_pairs⟩
  | _ => simp_all [CleanupPhase.stale]

variable {a : NamingAction} {fm : FileMeta}

/-- What a DeleteFile request has loaded it had loaded, or has read just now. -/
theorem loaded_of_step (hs : n.step cfg a = some (n', out)) (hcrash : a ≠ .crash)
    (h : (n'.deletes k).phase = .loaded fm) : n'.deletes k = n.deletes k ∨
      n'.db = n.db ∧ ∀ p, p ∈ fm.pairs ↔ n.db.Records (n'.deletes k).filename p := by
  rcases (requests_of_step hs hcrash k).2 with ⟨b, rfl⟩ | hkeep
  · exact .inr (deleteStep_loaded hs h)
  · exact .inl hkeep

/-- What the cleanup loop has collected it had collected, or has read just now. -/
theorem stale_of_step (hs : n.step cfg a = some (n', out)) (hcrash : a ≠ .crash)
    (hfm : fm ∈ n'.cleanup.stale) : fm ∈ n.cleanup.stale ∨
      n'.db = n.db ∧ ∀ p, p ∈ fm.pairs ↔ n.db.Records fm.filename p := by
  rcases ((step_frame hs).resolve_left hcrash).2.1 with ⟨b, rfl⟩ | hkeep
  · exact cleanupStep_stale hs hfm
  · exact .inl (hkeep ▸ hfm)

end NamingServer

namespace Ledger

variable {cfg : Settings} {L L' : Ledger} {a : NamingAction} {d : Deleter} {f : Filename}
  {p : Addr × ChunkId} {k : ℕ} {c : ChunkId}

/-! ### One step -/

/-- The operation has read the chunks of the file and has not removed it yet. -/
def Holds (L : Ledger) : Deleter → Filename → Prop
  | .create k, f => (∃ chunks, (L.naming.creates k).phase = .placing chunks) ∧
      (L.naming.creates k).req.filename = f
  | .delete k, f => (∃ fm, (L.naming.deletes k).phase = .loaded fm) ∧
      (L.naming.deletes k).filename = f
  | .cleanup i, f => L.turn < i ∧ ∃ fm ∈ L.naming.cleanup.stale, fm.filename = f

/-- Nobody holds the file of the chunk. -/
def Unheld (L : Ledger) (c : ChunkId) : Prop :=
  ∀ row ∈ L.naming.db.chunks, row.chunkId = c → ∀ d, ¬L.Holds d row.filename

/-- While an operation holds a file, no other request reserves it and the healer changes
nothing that is recorded for it. -/
def Undisturbed (L : Ledger) : NamingAction → Prop
  | .create k (.reserve _) => ∀ d, L.Holds d (L.naming.creates k).req.filename → d = .create k
  | .heal .record =>
    match L.naming.heal with
    | .copied _ _ _ w target => ⟨w.chunkId, target⟩ ∈ L.naming.db.replicas ∨ L.Unheld w.chunkId
    | _ => True
  | .heal .drop =>
    match L.naming.heal with
    | .dropping _ _ _ w addr => ⟨w.chunkId, addr⟩ ∉ L.naming.db.replicas ∨ L.Unheld w.chunkId
    | _ => True
  | .crash => False
  | _ => True

/-- An undisturbed step changes nothing that is recorded for a file that another operation
holds, unless the file goes. -/
theorem records_of_step {out : List StorageRpc} (hc : NamingServer.Consistent cfg L.naming)
    (hs : L.naming.step cfg a = some (L'.naming, out)) (hok : Undisturbed L a) (hd : L.Holds d f)
    (hother : ∀ k b, d = .create k → a ≠ .create k b) (hfile : L'.naming.db.HasFile f) :
    L.naming.db.HasFile f ∧ ∀ p, L'.naming.db.Records f p ↔ L.naming.db.Records f p := by
  obtain ⟨F', hF', rfl⟩ := hfile
  cases NamingServer.db_of_step hc hs with
  | keep hdb =>
    rw [hdb] at hF' ⊢
    exact ⟨⟨F', hF', rfl⟩, fun _ => Iff.rfl⟩
  | commit g _ hdb =>
    rw [hdb] at hF' ⊢
    obtain ⟨F, hF, hname, _⟩ := (Db.shrinks_markCommitted g).files F' hF'
    exact ⟨⟨F, hF, hname⟩, fun _ => Iff.rfl⟩
  | remove g hdb =>
    rw [hdb] at hF' ⊢
    obtain ⟨hF, hne⟩ := Db.mem_deleteFile_files.mp hF'
    exact ⟨⟨F', hF, rfl⟩, fun p => Db.records_deleteFile hne⟩
  | reserve k t chunks ha _ _ hfiles hchunks hreplicas =>
    subst ha
    have hne : F'.filename ≠ (L.naming.creates k).req.filename := fun he =>
      hother k _ (hok d (he ▸ hd)) rfl
    constructor
    · rw [hfiles, List.mem_append, List.mem_singleton, Db.mem_deleteFile_files] at hF'
      rcases hF' with ⟨hF, _⟩ | rfl
      · exact ⟨F', hF, rfl⟩
      · exact absurd rfl hne
    · intro p
      exact (Db.records_of_append hchunks hreplicas hne).trans (Db.records_deleteFile hne)
  | record live rest repaired w target ha hheal hnew hfiles hchunks hreplicas =>
    subst ha
    simp only [Undisturbed, hheal] at hok
    rw [hfiles] at hF'
    refine ⟨⟨F', hF', rfl⟩, fun p => Db.records_congr (fun row _ => by rw [hchunks]) ?_⟩
    intro row hrow hname addr
    rw [hreplicas, List.mem_append, List.mem_singleton, ReplicaRow.mk.injEq]
    refine or_iff_left fun he => ?_
    exact hok.resolve_left hnew row hrow he.1 d (hname ▸ hd)
  | drop live rest repaired w addr ha hheal hdb =>
    subst ha
    simp only [Undisturbed, hheal] at hok
    rw [hdb] at hF' ⊢
    refine ⟨⟨F', hF', rfl⟩, fun p => Db.records_congr (fun _ _ => Iff.rfl) ?_⟩
    intro row hrow hname addr'
    simp only [Db.deleteReplica, List.mem_filter, decide_eq_true_eq, ne_eq, ReplicaRow.mk.injEq]
    refine and_iff_left_of_imp fun hrep he => ?_
    obtain ⟨hid, rfl⟩ := he
    exact hok.resolve_left (fun hnot => hnot (hid ▸ hrep)) row hrow hid d (hname ▸ hd)

/-- What is put on order, and by whom. -/
theorem mem_orders (h : (d, p) ∈ L.orders a) :
    (∃ k o row, d = .create k ∧ a = .create k (.selectChunks o) ∧
      (L.naming.creates k).phase = .oldRow row) ∨
    (∃ k fm, d = .delete k ∧ a = .delete k .remove ∧ (L.naming.deletes k).phase = .loaded fm ∧
      p ∈ fm.pairs) ∨
    ∃ cutoff fm stale, d = .cleanup (L.turn + 1) ∧ a = .cleanup .remove ∧
      L.naming.cleanup = .removing cutoff (fm :: stale) ∧ p ∈ fm.pairs := by
  unfold orders at h
  split at h
  · rename_i k o
    split at h
    · rename_i row hp
      obtain ⟨q, _, he⟩ := List.mem_map.mp h
      cases he
      exact .inl ⟨k, o, row, rfl, rfl, hp⟩
    · cases h
  · rename_i k
    split at h
    · rename_i fm hp
      obtain ⟨q, hq, he⟩ := List.mem_map.mp h
      cases he
      exact .inr (.inl ⟨k, fm, rfl, rfl, hp, hq⟩)
    · cases h
  · split at h
    · rename_i cutoff fm stale hp
      obtain ⟨q, hq, he⟩ := List.mem_map.mp h
      cases he
      exact .inr (.inr ⟨cutoff, fm, stale, rfl, rfl, hp, hq⟩)
    · cases h
  · cases h

/-! ### Before and after the removal -/

/-- The operation has not put anything on order. -/
def NotYet (L : Ledger) : Deleter → Prop
  | .create k => (L.naming.creates k).phase.early = true
  | .delete k => (L.naming.deletes k).phase.early = true
  | .cleanup i => L.turn < i

/-- The operation has nothing more to put on order. -/
def Over (L : Ledger) : Deleter → Prop
  | .create k => (L.naming.creates k).phase.reserved = true
  | .delete k => (L.naming.deletes k).phase.done = true
  | .cleanup i => i ≤ L.turn

theorem turn_le (L : Ledger) (a : NamingAction) : L.turn ≤ L.nextTurn a := by
  unfold nextTurn
  repeat' split
  all_goals omega

/-- Nothing is put on order in the step. -/
theorem ordered_of_no_order (hs : L.step cfg a = some L') (hcrash : a ≠ .crash)
    (hno : ∀ p, (d, p) ∉ L.orders a) : ∀ p, L'.Ordered d p ↔ L.Ordered d p := by
  intro p
  rw [ordered_of_step hs hcrash]
  exact or_iff_left (hno p)

theorem NotYet.of_step (hs : L.step cfg a = some L') (hcrash : a ≠ .crash) (h : L'.NotYet d) :
    L.NotYet d ∧ ∀ p, L'.Ordered d p ↔ L.Ordered d p := by
  obtain ⟨_, hn, hturn, _⟩ := step_eq_some.mp hs
  cases d with
  | create k =>
    have hearly : (L'.naming.creates k).phase.early = true := h
    by_cases hown : ∃ b, a = .create k b
    · obtain ⟨b, rfl⟩ := hown
      cases createTurn_of_step hs with
      | early _ hphase _ _ hord => exact ⟨hphase, hord⟩
      | start _ _ hphase' => rw [hphase'] at hearly; cases hearly
      | place _ _ _ _ _ _ hphase' => rw [hphase'] at hearly; cases hearly
      | short _ _ _ _ _ _ hphase' => rw [hphase'] at hearly; cases hearly
      | finish _ _ _ _ hphase' =>
        rcases hphase' with he | he
        · rw [CreatePhase.not_reserved_of_early hearly] at he
          cases he
        · rw [he] at hearly
          cases hearly
    · rw [(NamingServer.requests_of_step hn hcrash k).1.resolve_left hown] at hearly
      refine ⟨hearly, ordered_of_no_order hs hcrash fun p hmem => ?_⟩
      rcases mem_orders hmem with ⟨j, o, _, he, rfl, _⟩ | ⟨_, _, he, _⟩ | ⟨_, _, _, he, _⟩ <;> cases he
      exact hown ⟨_, rfl⟩
  | delete k =>
    have hearly : (L'.naming.deletes k).phase.early = true := h
    by_cases hown : ∃ b, a = .delete k b
    · obtain ⟨b, rfl⟩ := hown
      obtain ⟨hphase, hb⟩ := NamingServer.deleteStep_early hn hearly
      refine ⟨hphase, ordered_of_no_order hs hcrash fun p hmem => ?_⟩
      rcases mem_orders hmem with ⟨_, _, _, he, _⟩ | ⟨_, _, _, he, _⟩ | ⟨_, _, _, he, _⟩ <;> cases he
      exact hb rfl
    · rw [(NamingServer.requests_of_step hn hcrash k).2.resolve_left hown] at hearly
      refine ⟨hearly, ordered_of_no_order hs hcrash fun p hmem => ?_⟩
      rcases mem_orders hmem with ⟨_, _, _, he, _⟩ | ⟨j, _, he, rfl, _⟩ | ⟨_, _, _, he, _⟩ <;> cases he
      exact hown ⟨_, rfl⟩
  | cleanup i =>
    have hlt : L'.turn < i := h
    have hle := L.turn_le a
    refine ⟨show L.turn < i by omega, ordered_of_no_order hs hcrash fun p hmem => ?_⟩
    rcases mem_orders hmem with ⟨_, _, _, he, _⟩ | ⟨_, _, he, _⟩ | ⟨_, _, _, he, rfl, hp, _⟩ <;> cases he
    simp [hturn, nextTurn, hp] at hlt

theorem Over.of_step (hs : L.step cfg a = some L') (hcrash : a ≠ .crash) (h : L.Over d) :
    L'.Over d ∧ ∀ p, L'.Ordered d p ↔ L.Ordered d p := by
  obtain ⟨_, hn, hturn, _⟩ := step_eq_some.mp hs
  cases d with
  | create k =>
    have hres : (L.naming.creates k).phase.reserved = true := h
    refine ⟨?_, ordered_of_no_order hs hcrash fun p hmem => ?_⟩
    · rw [Over, NamingServer.step_reserved hn hres]
      exact hres
    · rcases mem_orders hmem with ⟨_, _, _, he, _, hp⟩ | ⟨_, _, he, _⟩ | ⟨_, _, _, he, _⟩ <;> cases he
      rw [hp] at hres
      cases hres
  | delete k =>
    have hover : (L.naming.deletes k).phase.done = true := h
    refine ⟨?_, ordered_of_no_order hs hcrash fun p hmem => ?_⟩
    · by_cases hown : ∃ b, a = .delete k b
      · obtain ⟨b, rfl⟩ := hown
        exact NamingServer.deleteStep_done hn hover
      · rw [Over, (NamingServer.requests_of_step hn hcrash k).2.resolve_left hown]
        exact hover
    · rcases mem_orders hmem with ⟨_, _, _, he, _⟩ | ⟨_, _, he, _, hp, _⟩ | ⟨_, _, _, he, _⟩ <;> cases he
      rw [hp] at hover
      cases hover
  | cleanup i =>
    have hle : i ≤ L.turn := h
    have hturn' := L.turn_le a
    refine ⟨show i ≤ L'.turn by omega, ordered_of_no_order hs hcrash fun p hmem => ?_⟩
    rcases mem_orders hmem with ⟨_, _, _, he, _⟩ | ⟨_, _, he, _⟩ | ⟨_, _, _, he, _⟩ <;> cases he
    omega

/-! ### The invariant -/

/-- What an operation holds is what is recorded, as long as the file is there, and what it
has put on order once the file is removed is what was recorded then. -/
structure Exacting (L : Ledger) : Prop where
  fresh : ∀ d, L.NotYet d → ∀ p, ¬L.Ordered d p
  creates : ∀ k chunks, (L.naming.creates k).phase = .placing chunks →
    L.naming.db.HasFile (L.naming.creates k).req.filename →
      ∀ p, L.Ordered (.create k) p ↔ L.naming.db.Records (L.naming.creates k).req.filename p
  deletes : ∀ k fm, (L.naming.deletes k).phase = .loaded fm →
    L.naming.db.HasFile (L.naming.deletes k).filename →
      ∀ p, p ∈ fm.pairs ↔ L.naming.db.Records (L.naming.deletes k).filename p
  stale : ∀ fm ∈ L.naming.cleanup.stale, L.naming.db.HasFile fm.filename →
    ∀ p, p ∈ fm.pairs ↔ L.naming.db.Records fm.filename p
  removed : ∀ e ∈ L.removed, L.Over e.1 ∧ ∀ p, L.Ordered e.1 p ↔ e.2.2.Records e.2.1 p

theorem exacting_init : Exacting init where
  fresh d _ p := by
    cases d with
    | cleanup i =>
      by_cases hi : i = 0 <;>
        simp [Ordered, init, pending, NamingServer.init, CleanupPhase.pending, hi]
    | _ => all_goals simp [Ordered, init, pending, NamingServer.init, DeletePhase.pending]
  creates k chunks h := by cases h
  deletes k fm h := by cases h
  stale fm h := by cases h
  removed e h := by cases h

theorem Undisturbed.not_crash (h : Undisturbed L a) : a ≠ .crash := by
  rintro rfl
  exact h

theorem Exacting.creates_of_step (h : Exacting L) (hc : NamingServer.Consistent cfg L.naming)
    (hok : Undisturbed L a) (hs : L.step cfg a = some L') {chunks : List ChunkMeta}
    (hphase : (L'.naming.creates k).phase = .placing chunks)
    (hfile : L'.naming.db.HasFile (L'.naming.creates k).req.filename) :
    L'.Ordered (.create k) p ↔ L'.naming.db.Records (L'.naming.creates k).req.filename p := by
  obtain ⟨_, hn, _⟩ := step_eq_some.mp hs
  by_cases hown : ∃ b, a = .create k b
  · obtain ⟨b, rfl⟩ := hown
    cases createTurn_of_step hs with
    | early _ _ hphase' =>
      rw [hphase] at hphase'
      rcases hphase' with he | ⟨_, he⟩ <;> cases he
    | start _ hearly _ hstore hreq hord =>
      rw [hord, hreq, or_iff_right (h.fresh (.create k) hearly p), NamingServer.db, NamingServer.db,
        hstore]
    | place chunks _ _ _ _ hphase _ hstore hreq hord =>
      rw [hreq, NamingServer.db, hstore] at hfile ⊢
      rw [hord]
      exact h.creates k chunks hphase hfile p
    | short _ _ _ _ _ _ hphase' => rw [hphase] at hphase'; cases hphase'
    | finish _ _ _ _ hphase' =>
      rw [hphase] at hphase'
      rcases hphase' with he | he <;> cases he
  · have hkeep := (NamingServer.requests_of_step hn hok.not_crash k).1.resolve_left hown
    rw [hkeep] at hphase hfile ⊢
    obtain ⟨hfile, hrec⟩ := records_of_step (d := .create k) hc hn hok ⟨⟨chunks, hphase⟩, rfl⟩
      (fun j b he ha => hown ⟨b, by cases he; exact ha⟩) hfile
    rw [ordered_of_no_order hs hok.not_crash, hrec]
    · exact h.creates k chunks hphase hfile p
    · intro p hmem
      rcases mem_orders hmem with ⟨j, o, _, he, rfl, _⟩ | ⟨_, _, he, _⟩ | ⟨_, _, _, he, _⟩ <;> cases he
      exact hown ⟨_, rfl⟩

theorem Exacting.deletes_of_step (h : Exacting L) (hc : NamingServer.Consistent cfg L.naming)
    (hok : Undisturbed L a) (hs : L.step cfg a = some L') {fm : FileMeta}
    (hphase : (L'.naming.deletes k).phase = .loaded fm)
    (hfile : L'.naming.db.HasFile (L'.naming.deletes k).filename) :
    p ∈ fm.pairs ↔ L'.naming.db.Records (L'.naming.deletes k).filename p := by
  obtain ⟨_, hn, _⟩ := step_eq_some.mp hs
  rcases NamingServer.loaded_of_step hn hok.not_crash hphase with hkeep | ⟨hdb, hpairs⟩
  · rw [hkeep] at hphase hfile ⊢
    obtain ⟨hfile, hrec⟩ := records_of_step (d := .delete k) hc hn hok ⟨⟨fm, hphase⟩, rfl⟩
      (fun _ _ he => by cases he) hfile
    rw [hrec]
    exact h.deletes k fm hphase hfile p
  · rw [hpairs, hdb]

theorem Exacting.stale_of_step (h : Exacting L) (hc : NamingServer.Consistent cfg L.naming)
    (hok : Undisturbed L a) (hs : L.step cfg a = some L') {fm : FileMeta}
    (hfm : fm ∈ L'.naming.cleanup.stale) (hfile : L'.naming.db.HasFile fm.filename) :
    p ∈ fm.pairs ↔ L'.naming.db.Records fm.filename p := by
  obtain ⟨_, hn, _⟩ := step_eq_some.mp hs
  rcases NamingServer.stale_of_step hn hok.not_crash hfm with hfm | ⟨hdb, hpairs⟩
  · obtain ⟨hfile, hrec⟩ := records_of_step (d := .cleanup (L.turn + 1)) hc hn hok
      ⟨Nat.lt_succ_self _, fm, hfm, rfl⟩ (fun _ _ he => by cases he) hfile
    rw [hrec]
    exact h.stale fm hfm hfile p
  · rw [hpairs, hdb]

/-- Who removes what. -/
theorem remover_eq_some {n' : NamingServer} (h : L.remover n' a = some (d, f)) :
    (∃ k t, a = .create k (.reserve t) ∧ d = .create k ∧ f = (L.naming.creates k).req.filename ∧
      (n'.creates k).phase.reserved = true) ∨
    (∃ k, a = .delete k .remove ∧ d = .delete k ∧ f = (L.naming.deletes k).filename) ∨
    ∃ cutoff fm stale, a = .cleanup .remove ∧ L.naming.cleanup = .removing cutoff (fm :: stale) ∧
      d = .cleanup (L.turn + 1) ∧ f = fm.filename := by
  unfold remover at h
  split at h
  · rename_i k t
    split_ifs at h with hres
    cases h
    exact .inl ⟨k, t, rfl, rfl, rfl, hres⟩
  · cases h
    exact .inr (.inl ⟨_, rfl, rfl, rfl⟩)
  · split at h
    · rename_i cutoff fm stale hp
      cases h
      exact .inr (.inr ⟨cutoff, fm, stale, rfl, hp, rfl, rfl⟩)
    · cases h
  · cases h

theorem mem_removal {n' : NamingServer} {e : Deleter × Filename × Db} (h : e ∈ L.removal n' a) :
    L.remover n' a = some (e.1, e.2.1) ∧ e.2.2 = L.naming.db ∧ L.naming.db.HasFile e.2.1 := by
  unfold removal at h
  split at h
  · rename_i d f hremover
    split_ifs at h with hfile
    · obtain rfl := List.mem_singleton.mp h
      obtain ⟨F, hF, hname⟩ := List.any_eq_true.mp hfile
      exact ⟨hremover, rfl, F, hF, of_decide_eq_true hname⟩
    · cases h
  · cases h

/-- The operation that removes a version has put on order what is recorded for it. -/
theorem Exacting.removed_of_removal (h : Exacting L) (hcrash : a ≠ .crash)
    (hs : L.step cfg a = some L') {e : Deleter × Filename × Db} (he : e ∈ L.removal L'.naming a) :
    L'.Over e.1 ∧ ∀ p, L'.Ordered e.1 p ↔ e.2.2.Records e.2.1 p := by
  obtain ⟨_, hn, hturn, _⟩ := step_eq_some.mp hs
  obtain ⟨d, f, db⟩ := e
  obtain ⟨hremover, rfl, hfile⟩ := mem_removal he
  rcases remover_eq_some hremover with ⟨k, t, rfl, rfl, rfl, hres⟩ | ⟨k, rfl, rfl, rfl⟩ |
    ⟨cutoff, fm, stale, rfl, hp, rfl, rfl⟩
  · cases createTurn_of_step hs with
    | early _ _ hphase' =>
      rcases hphase' with he | ⟨_, he⟩
      · rw [CreatePhase.not_reserved_of_early he] at hres
        cases hres
      · rw [he] at hres
        cases hres
    | start _ _ hphase' => rw [hphase'] at hres; cases hres
    | place _ _ _ hb => cases hb
    | short _ _ _ hb => cases hb
    | finish chunks _ _ hphase _ _ hord =>
      exact ⟨hres, fun p => (hord p).trans (h.creates k chunks hphase hfile p)⟩
  · have hn' := hn
    simp only [NamingServer.step, NamingServer.deleteStep] at hn'
    split at hn'
    · rename_i fm hp
      have hphase' : (L'.naming.deletes k).phase = .sending fm.pairs 0 := by
        rw [← fst_of_some hn']
        simp [NamingServer.setDelete]
      refine ⟨by rw [Over, hphase']; rfl, fun p => ?_⟩
      rw [ordered_of_delete hs, or_iff_right (h.fresh (.delete k) (by rw [NotYet, hp]; rfl) p)]
      simpa [orders, hp] using h.deletes k fm hp hfile p
    · cases hn'
  · have hturn' : L'.turn = L.turn + 1 := by simp [hturn, nextTurn, hp]
    refine ⟨hturn'.ge, fun p => ?_⟩
    rw [ordered_of_cleanup hs, or_iff_right (h.fresh (.cleanup (L.turn + 1)) (Nat.lt_succ_self _) p)]
    simpa [orders, hp] using h.stale fm (by simp [hp, CleanupPhase.stale]) hfile p

theorem Exacting.of_step (h : Exacting L) (hc : NamingServer.Consistent cfg L.naming)
    (hok : Undisturbed L a) (hs : L.step cfg a = some L') : Exacting L' where
  fresh d hd p := by
    obtain ⟨hd, hord⟩ := hd.of_step hs hok.not_crash
    rw [hord]
    exact h.fresh d hd p
  creates k chunks hphase hfile p := h.creates_of_step hc hok hs hphase hfile
  deletes k fm hphase hfile p := h.deletes_of_step hc hok hs hphase hfile
  stale fm hfm hfile p := h.stale_of_step hc hok hs hfm hfile
  removed e he := by
    obtain ⟨_, _, _, _, hremoved⟩ := step_eq_some.mp hs
    rw [hremoved] at he
    rcases List.mem_append.mp he with he | he
    · obtain ⟨hover, hord⟩ := h.removed e he
      obtain ⟨hover, hord'⟩ := hover.of_step hs hok.not_crash
      exact ⟨hover, fun p => (hord' p).trans (hord p)⟩
    · exact h.removed_of_removal hok.not_crash hs he

/-! ### Sending -/

/-- The step sends a DeleteChunk request of the operation. -/
def Sends (d : Deleter) (L : Ledger) (a : NamingAction) : Prop := ∃ p, L.issues a = [(d, p)]

theorem Sends.no_order (h : Sends d L a) : a ≠ .crash ∧ ∀ e, e ∉ L.orders a := by
  obtain ⟨p, h⟩ := h
  cases a with
  | create k b => cases h
  | delete k b => cases b <;> first | cases h | simp [orders]
  | cleanup b => cases b <;> first | cases h | simp [orders]
  | crash => cases h
  | _ => all_goals simp [orders]

/-- An operation that has something to send can send it. -/
theorem exists_send (cfg : Settings) (h : L.pending d ≠ []) : ∃ a L', Sends d L a ∧
    L.step cfg a = some L' ∧ (L'.pending d).length < (L.pending d).length := by
  cases d with
  | create k =>
    obtain ⟨p, hp⟩ := List.exists_mem_of_ne_nil _ h
    obtain ⟨i, hi⟩ := List.getElem?_of_mem (mem_pending_create.mp hp)
    refine ⟨.purge i, _, ⟨p, by simp [issues, hi]⟩, by simp only [step, NamingServer.step, hi]; rfl, ?_⟩
    simpa [pending] using Lists.length_filter_eraseIdx (q := fun e => e.1 = k) hi (by simp)
  | delete k =>
    cases hp : (L.naming.deletes k).phase with
    | sending ps failures =>
      cases ps with
      | nil => simp [pending, hp, DeletePhase.pending] at h
      | cons p ps =>
        refine ⟨.delete k (.send 0 true), _, ⟨p, by simp [issues, hp, DeletePhase.pending]⟩,
          by simp only [step, NamingServer.step, NamingServer.deleteStep, hp]; rfl, ?_⟩
        simp [pending, hp, DeletePhase.pending, NamingServer.setDelete]
    | _ => all_goals simp [pending, hp, DeletePhase.pending] at h
  | cleanup i =>
    obtain rfl : i = L.turn := by
      by_contra hi
      simp [pending, hi] at h
    cases hp : L.naming.cleanup with
    | sending cutoff ps stale =>
      cases ps with
      | nil => simp [pending, hp, CleanupPhase.pending] at h
      | cons p ps =>
        refine ⟨.cleanup .send, _, ⟨p, by simp [issues, hp, CleanupPhase.pending]⟩,
          by simp only [step, NamingServer.step, NamingServer.cleanupStep, hp]; rfl, ?_⟩
        simp [pending, hp, CleanupPhase.pending, nextTurn]
    | _ => all_goals simp [pending, hp, CleanupPhase.pending] at h

/-- An operation can send all that it has put on order. -/
theorem exists_drained (cfg : Settings) (d : Deleter) (L : Ledger) :
    ∃ L', Steps (step cfg) (Sends d) L L' ∧ ∀ p, (d, p) ∈ L'.sent ↔ L.Ordered d p := by
  induction hn : (L.pending d).length using Nat.strong_induction_on generalizing L with
  | _ n ih =>
    subst hn
    by_cases hnil : L.pending d = []
    · exact ⟨L, .refl, fun p => by simp [Ordered, hnil]⟩
    · obtain ⟨a, M, hsend, hs, hlt⟩ := exists_send cfg hnil
      obtain ⟨L', hsteps, hsent⟩ := ih _ hlt M rfl
      obtain ⟨hcrash, hno⟩ := hsend.no_order
      refine ⟨L', (Steps.single hsend hs).trans hsteps, fun p => (hsent p).trans ?_⟩
      exact ordered_of_no_order hs hcrash (fun p => hno _) p

/-! ### Exactness -/

/-- What the operation has put on order is what was recorded for the file that it removed,
and it can send just that. -/
def SendsExactly (cfg : Settings) (L : Ledger) (e : Deleter × Filename × Db) : Prop :=
  (∀ p, L.Ordered e.1 p ↔ e.2.2.Records e.2.1 p) ∧
    ∃ L', Steps (step cfg) (Sends e.1) L L' ∧ ∀ p, (e.1, p) ∈ L'.sent ↔ e.2.2.Records e.2.1 p

/-- Every operation that removes a version deletes what is recorded for that version. -/
def VersionExact (cfg : Settings) (ok : Ledger → NamingAction → Prop) : Prop :=
  ∀ L, Steps (step cfg) ok init L → ∀ e ∈ L.removed, L.SendsExactly cfg e

theorem exacting_of_steps (h : Steps (step cfg) Undisturbed init L) : Exacting L := by
  refine (h.invariant (P := fun L => NamingServer.Consistent cfg L.naming ∧ Exacting L)
    ⟨NamingServer.Consistent.init, exacting_init⟩ ?_).2
  rintro L a L' _ ⟨hc, hL⟩ hok hs
  obtain ⟨_, hn, _⟩ := step_eq_some.mp hs
  exact ⟨hc.of_step hn, hL.of_step hc hok hs⟩

theorem versionExact_of_undisturbed (cfg : Settings) : VersionExact cfg Undisturbed := by
  intro L h e he
  obtain ⟨_, hord⟩ := (exacting_of_steps h).removed e he
  obtain ⟨L', hsteps, hsent⟩ := exists_drained cfg e.1 L
  exact ⟨hord, L', hsteps, fun p => (hsent p).trans (hord p)⟩

/-- The server is not restarted. -/
def NoCrash (_ : Ledger) : NamingAction → Prop
  | .crash => False
  | _ => True

instance (L : Ledger) (a : NamingAction) : Decidable (NoCrash L a) :=
  match a with
  | .crash => .isFalse id
  | .registerStorage _ | .heartbeat _ | .tick _ | .create _ _ | .commit _ | .delete _ _ | .get _ _
  | .purge _ | .cleanup _ | .heal _ => .isTrue trivial

/-- DeleteFile reads the old version, CreateFile overwrites it, and DeleteFile removes the
new one. -/
def overtaken : List NamingAction :=
  [.registerStorage ['a'], .create 0 (.receive ⟨['f'], 1, 1⟩), .create 0 .checkLive,
    .create 0 (.selectFile .table), .create 0 (.place ['c']), .create 0 (.reserve 0),
    .delete 0 (.receive ['f']), .delete 0 (.selectFile .table), .delete 0 (.selectChunks .table),
    .create 1 (.receive ⟨['f'], 1, 1⟩), .create 1 .checkLive, .create 1 (.selectFile .table),
    .create 1 (.selectChunks .table), .create 1 (.place ['d']), .create 1 (.reserve 0),
    .delete 0 .remove]

/-- DeleteFile has removed the row of `d`, which it does not delete. -/
def removedUnread (L : Ledger) : Bool :=
  L.removed.any fun e => e.1 = .delete 0 ∧ e.2.1 = ['f'] ∧ ⟨['d'], ['a']⟩ ∈ e.2.2.replicas ∧
    ⟨['d'], ['f'], 0⟩ ∈ e.2.2.chunks ∧ (.delete 0, ['a'], ['d']) ∉ L.sent ∧
    (['a'], ['d']) ∉ (L.naming.deletes 0).phase.pending

theorem not_versionExact : ¬VersionExact ⟨1, 60⟩ NoCrash := by
  intro h
  have hrun : (run (guarded (step ⟨1, 60⟩) NoCrash) init overtaken).any removedUnread = true := by
    decide +kernel
  obtain ⟨L, hrun, hL⟩ := exists_of_run hrun
  obtain ⟨⟨d, f, db⟩, he, hL⟩ := List.any_eq_true.mp hL
  obtain ⟨rfl, rfl, hrep, hrow, hsent, hpending⟩ := of_decide_eq_true hL
  obtain ⟨hord, _⟩ := h L hrun _ he
  rcases (hord (['a'], ['d'])).mpr ⟨hrep, _, hrow, rfl, rfl⟩ with hmem | hmem
  · exact hsent hmem
  · exact hpending hmem

end Ledger

end GfsCluster
