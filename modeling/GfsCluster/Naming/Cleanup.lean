import GfsCluster.Naming.Deletion

/-! What the cleanup loop removes. It reads the names of stale pending files, then the
files, and only then removes them one by one; between the first read and the removal
the loop relies on nobody committing the name or reserving it anew. -/

namespace GfsCluster

open StepSystem

namespace CleanupPhase

/-- The cutoff of the running iteration. -/
def cutoff : CleanupPhase → Option Seconds
  | idle => none
  | listing cutoff _ _ => some cutoff
  | listingRow cutoff _ _ _ => some cutoff
  | removing cutoff _ => some cutoff
  | sending cutoff _ _ => some cutoff

/-- The names the running iteration is going to remove. -/
def listed : CleanupPhase → List Filename
  | idle => []
  | listing _ names stale => names ++ stale.map FileMeta.filename
  | listingRow _ row names stale => row.filename :: names ++ stale.map FileMeta.filename
  | removing _ stale => stale.map FileMeta.filename
  | sending _ _ stale => stale.map FileMeta.filename

end CleanupPhase

/-- The version is none of the cleanup loop's business. -/
def FileRow.Live (cutoff : Seconds) (F : FileRow) : Prop :=
  F.status = .committed ∨ cutoff ≤ F.createdAt

instance (cutoff : Seconds) (F : FileRow) : Decidable (F.Live cutoff) :=
  inferInstanceAs (Decidable (_ ∨ _))

namespace NamingServer

variable {cfg : Settings} {n n' : NamingServer} {k : ℕ} {f : Filename} {c : ChunkId}

/-- `F` is the row of the version that the chunk belongs to, or belonged to when that
version was removed. -/
def VersionRow (n : NamingServer) (c : ChunkId) (F : FileRow) : Prop :=
  (∃ r ∈ n.db.chunks, r.chunkId = c ∧ F ∈ n.db.files ∧ F.filename = r.filename) ∨ (c, F) ∈ n.graves

/-! ### The removed versions -/

theorem mem_chunksWithRow {db : Db} {F : FileRow} : (c, F) ∈ db.chunksWithRow f ↔
    F ∈ db.files ∧ F.filename = f ∧ ∃ r ∈ db.chunks, r.chunkId = c ∧ r.filename = f := by
  simp only [Db.chunksWithRow, List.mem_flatMap, List.mem_filter, decide_eq_true_eq, List.mem_map,
    Prod.mk.injEq]
  constructor
  · rintro ⟨G, ⟨hG, hname⟩, r, ⟨hr, hf⟩, rfl, rfl⟩
    exact ⟨hG, hname, r, hr, rfl, hf⟩
  · rintro ⟨hF, hname, r, hr, rfl, hf⟩
    exact ⟨F, ⟨hF, hname⟩, r, ⟨hr, hf⟩, rfl, rfl⟩

/-- A version is remembered when its rows go. -/
theorem graves_of_step {a : NamingAction} {out : List StorageRpc} {F : FileRow}
    (hc : Consistent cfg n) (hs : n.step cfg a = some (n', out)) (hF : (c, F) ∈ n'.graves) :
    (c, F) ∈ n.graves ∨ F ∈ n.db.files ∧ (∃ r ∈ n.db.chunks, r.chunkId = c ∧
      r.filename = F.filename) ∧ n'.Dead c := by
  have hnew : ∀ f, (c, F) ∈ n.db.chunksWithRow f →
      (∀ row ∈ n'.db.chunks, row.chunkId = c → row.filename ≠ f) →
      F ∈ n.db.files ∧ (∃ r ∈ n.db.chunks, r.chunkId = c ∧ r.filename = F.filename) ∧
        n'.Dead c := by
    intro f hmem hno
    obtain ⟨hfile, rfl, r, hr, rfl, hname⟩ := mem_chunksWithRow.mp hmem
    refine ⟨hfile, ⟨r, hr, rfl, hname⟩, ?_⟩
    exact dead_of_no_rows (hname ▸ (hc.row_born hr).step hs) (hc.of_step hs) hno
  cases db_of_step hc hs with
  | keep _ hgraves => exact .inl (hgraves ▸ hF)
  | commit _ _ _ hgraves => exact .inl (hgraves ▸ hF)
  | record _ _ _ _ _ _ _ _ _ _ _ hgraves => exact .inl (hgraves ▸ hF)
  | drop _ _ _ _ _ _ _ _ hgraves => exact .inl (hgraves ▸ hF)
  | remove f hdb hgraves =>
    rw [hgraves, List.mem_append] at hF
    refine hF.imp_right fun hmem => hnew f hmem fun row hrow _ => ?_
    rw [hdb, Db.mem_deleteFile_chunks] at hrow
    exact hrow.2
  | reserve k t chunks _ hphase _ _ hchunks _ _ hgraves =>
    rw [hgraves, List.mem_append] at hF
    refine hF.imp_right fun hmem => hnew _ hmem fun row hrow hid => ?_
    obtain ⟨_, _, r, hr, hrc, _⟩ := mem_chunksWithRow.mp hmem
    have hborn : n.BornIn r.filename row.chunkId := by
      rw [hid, ← hrc]
      exact hc.row_born hr
    exact filename_ne_of_reserve hc (hborn.row_of_step hc hs hrow) hrow hphase hchunks

theorem Reachable.grave_dead {ok : NamingServer → NamingAction → Prop} (h : Reachable cfg ok n) :
    ∀ e ∈ n.graves, n.Dead e.1 := by
  refine Steps.invariant (P := fun m => ∀ e ∈ m.graves, m.Dead e.1) h
    (by simp [NamingServer.init]) ?_
  rintro m a m' hr hm - hnext ⟨c, F⟩ he
  obtain ⟨out, hs⟩ := exists_step_of_next hnext
  have hc := Reachable.consistent hr
  rcases graves_of_step hc hs he with he | ⟨_, _, hdead⟩
  · exact (hm _ he).step hc hs
  · exact hdead

/-- The version of a chunk changes by a commit of its file only. -/
theorem versionRow_of_step {a : NamingAction} {out : List StorageRpc} {F : FileRow}
    (hc : Consistent cfg n) (hs : n.step cfg a = some (n', out)) (hb : n.BornIn f c)
    (hF : n'.VersionRow c F) :
    n.VersionRow c F ∨ a = .commit f ∧ ∃ r ∈ n.db.chunks, r.chunkId = c := by
  rcases hF with ⟨r, hr, rfl, hF, hname⟩ | hgrave
  · have hold := hb.row_of_step hc hs hr
    have hf := hc.filename_of_born hold hb
    rcases file_of_step hc hs hF with hF | ⟨ha, _⟩ | ⟨_, _, _, _, hne, _⟩
    · exact .inl (.inl ⟨r, hold, rfl, hF, hname⟩)
    · exact .inr ⟨by rw [ha, hname, hf], r, hold, rfl⟩
    · exact absurd hname.symm (hne r hold hr)
  · rcases graves_of_step hc hs hgrave with hold | ⟨hF, ⟨r, hr, hid, hname⟩, _⟩
    · exact .inl (.inr hold)
    · exact .inl (.inl ⟨r, hr, hid, hF, hname.symm⟩)

/-! ### The loop -/

/-- Under an iteration, every listed name has no live version, nor has any chunk that
was collected or is about to be deleted. -/
structure Watched (n : NamingServer) (cutoff : Seconds) : Prop where
  listed : ∀ f ∈ n.cleanup.listed, ∀ F ∈ n.db.files, F.filename = f → ¬ F.Live cutoff
  read : ∀ e ∈ n.cleanup.read, ∀ F, n.VersionRow e.2.2 F → ¬ F.Live cutoff
  pending : ∀ p ∈ n.cleanup.pending, ∀ F, n.VersionRow p.2 F → ¬ F.Live cutoff

/-- While the cleanup loop holds a name, nobody commits it or reserves it anew. -/
def KeepsListed (n : NamingServer) : NamingAction → Prop
  | .commit f => f ∉ n.cleanup.listed
  | .create k (.reserve _) => (n.creates k).req.filename ∉ n.cleanup.listed
  | _ => True

instance (n : NamingServer) (a : NamingAction) : Decidable (KeepsListed n a) :=
  match a with
  | .commit _ | .create _ (.reserve _) => inferInstanceAs (Decidable (_ ∉ _))
  | .create _ (.receive _) | .create _ .checkLive | .create _ (.selectFile _)
  | .create _ (.selectChunks _) | .create _ (.place _) => .isTrue trivial
  | .registerStorage _ | .heartbeat _ | .tick _ | .delete _ _ | .get _ _ | .purge _
  | .cleanup _ | .heal _ | .crash => .isTrue trivial

theorem CleanupPhase.mem_read {p : CleanupPhase} {e : Filename × Addr × ChunkId} :
    e ∈ p.read ↔ ∃ fm ∈ p.stale, fm.filename = e.1 ∧ e.2 ∈ fm.pairs := by
  obtain ⟨f, pair⟩ := e
  simp only [CleanupPhase.read, FileMeta.named, List.mem_flatMap, List.mem_map, Prod.mk.injEq]
  constructor
  · rintro ⟨fm, hfm, _, hp, rfl, rfl⟩
    exact ⟨fm, hfm, rfl, hp⟩
  · rintro ⟨fm, hfm, rfl, hp⟩
    exact ⟨fm, hfm, _, hp, rfl, rfl⟩

theorem CleanupPhase.read_listed {p : CleanupPhase} {e : Filename × Addr × ChunkId}
    (h : e ∈ p.read) : e.1 ∈ p.listed := by
  obtain ⟨fm, hfm, hname, _⟩ := CleanupPhase.mem_read.mp h
  rw [← hname]
  have := List.mem_map_of_mem (f := FileMeta.filename) hfm
  cases p <;> simp_all [CleanupPhase.stale, CleanupPhase.listed]

namespace Watched

variable {cutoff : Seconds} {a : NamingAction} {out : List StorageRpc}

theorem files (h : Watched n cutoff) (hc : Consistent cfg n) (hok : KeepsListed n a)
    (hs : n.step cfg a = some (n', out)) {F : FileRow} (hf : F.filename ∈ n.cleanup.listed)
    (hF : F ∈ n'.db.files) : ¬ F.Live cutoff := by
  rcases file_of_step hc hs hF with hF | ⟨rfl, _⟩ | ⟨k, t, rfl, rfl, _⟩
  · exact h.listed _ hf F hF rfl
  · exact absurd hf hok
  · exact absurd hf hok

/-- A step that lists and collects nothing new. -/
theorem of_sub (h : Watched n cutoff) (hc : Consistent cfg n) (hp : PendingDeletes n)
    (hok : KeepsListed n a) (hs : n.step cfg a = some (n', out))
    (hl : n'.cleanup.listed ⊆ n.cleanup.listed) (hr : n'.cleanup.read ⊆ n.cleanup.read)
    (hpend : ∀ p ∈ n'.cleanup.pending, p ∈ n.cleanup.pending ∨ ∃ f, (f, p) ∈ n.cleanup.read) :
    Watched n' cutoff := by
  have hread : ∀ e ∈ n.cleanup.read, ∀ F, n'.VersionRow e.2.2 F → ¬ F.Live cutoff := by
    intro e he F hF
    rcases versionRow_of_step hc hs (hp.cleanup.1 e he) hF with hF | ⟨rfl, _⟩
    · exact h.read e he F hF
    · exact absurd (CleanupPhase.read_listed he) hok
  refine ⟨fun f hf F hF hname => ?_, fun e he => hread e (hr he), fun p hmem F hF => ?_⟩
  · subst hname
    exact h.files hc hok hs (hl hf) hF
  · rcases hpend p hmem with hmem | ⟨f, hmem⟩
    · obtain ⟨⟨f, hb⟩, hno⟩ := hp.cleanup.2 p hmem
      rcases versionRow_of_step hc hs hb hF with hF | ⟨_, r, hr, hid⟩
      · exact h.pending p hmem F hF
      · exact absurd (List.mem_map.mpr ⟨r, hr, hid⟩) hno
    · exact hread _ hmem F hF

theorem listNames {now : Seconds} {o : RowOrder} {cutoff' : Seconds}
    (hs : n.step cfg (.cleanup (.listNames now o)) = some (n', out))
    (hcut : n'.cleanup.cutoff = some cutoff') : Watched n' cutoff' := by
  cases cleanupCase_of_step hs with
  | listNames now o hp =>
    simp only [CleanupPhase.cutoff, Option.some.injEq] at hcut
    subst hcut
    refine ⟨fun f hf F hF hname => ?_, by simp [CleanupPhase.read, CleanupPhase.stale],
      by simp [CleanupPhase.pending]⟩
    simp only [CleanupPhase.listed, List.map_nil, List.append_nil, stalePendingNames,
      List.mem_map, List.mem_filter, decide_eq_true_eq, RowOrder.mem_files] at hf
    obtain ⟨G, ⟨hG, hst, hold⟩, rfl⟩ := hf
    obtain rfl := n.db.file_unique hF hG hname
    rintro (hlive | hlive)
    · rw [hst] at hlive
      cases hlive
    · exact absurd hold (not_lt.mpr hlive)

theorem selectChunks {o : RowOrder} (h : Watched n cutoff)
    (hgraves : ∀ e ∈ n.graves, n.Dead e.1)
    (hs : n.step cfg (.cleanup (.selectChunks o)) = some (n', out)) : Watched n' cutoff := by
  cases cleanupCase_of_step hs with
  | selectChunks o cutoff₀ row names stale hph =>
    refine ⟨fun f hf => h.listed f ?_, fun e he F hF => ?_, by simp [CleanupPhase.pending]⟩
    · simp only [CleanupPhase.listed, List.map_append, List.map_cons, List.map_nil,
        List.mem_append, FileMeta.ofRow, hph, List.cons_append, List.mem_cons] at hf ⊢
      tauto
    · simp only [CleanupPhase.read, CleanupPhase.stale, List.flatMap_append, List.flatMap_cons,
        List.flatMap_nil, List.append_nil, List.mem_append] at he
      rcases he with he | he
      · exact h.read e (by simpa [CleanupPhase.read, CleanupPhase.stale, hph] using he) F hF
      · -- a chunk just read: its file is listed, and it was never removed before
        obtain ⟨p, hp, rfl⟩ := List.mem_map.mp he
        obtain ⟨m, hm, _, hid⟩ := FileMeta.mem_pairs.mp hp
        rw [FileMeta.ofRow, collectChunks_selectChunks] at hm
        obtain ⟨r, hr, rfl⟩ := List.mem_map.mp hm
        rw [mem_chunkRowsOf, o.mem_chunks] at hr
        rcases hF with ⟨r', hr', hid', hF, hname⟩ | hgrave
        · obtain rfl := n.db.chunk_unique hr' hr.1 (hid'.trans hid)
          refine h.listed row.filename ?_ F hF (hname.trans hr.2)
          rw [hph]
          simp [CleanupPhase.listed]
        · exact absurd (List.mem_map.mpr ⟨r, hr.1, hid.symm⟩) (hgraves _ hgrave).2

/-- A step of the cleanup loop other than the two reads above. -/
theorem cleanup_sub {b : CleanupStep} (hs : n.step cfg (.cleanup b) = some (n', out))
    (hb : (∀ now o, b ≠ .listNames now o) ∧ ∀ o, b ≠ .selectChunks o)
    (hcut : n'.cleanup.cutoff = some cutoff) : n.cleanup.cutoff = some cutoff ∧
      n'.cleanup.listed ⊆ n.cleanup.listed ∧ n'.cleanup.read ⊆ n.cleanup.read ∧
      ∀ p ∈ n'.cleanup.pending, p ∈ n.cleanup.pending ∨ ∃ f, (f, p) ∈ n.cleanup.read := by
  cases cleanupCase_of_step hs with
  | listNames now o _ => exact absurd rfl (hb.1 now o)
  | selectChunks o _ _ _ _ _ => exact absurd rfl (hb.2 o)
  | finish cutoff' hp => cases hcut
  | remove cutoff' fm stale hp =>
    refine ⟨by simpa [CleanupPhase.cutoff, hp] using hcut, ?_, ?_, fun p hmem => .inr ?_⟩
    · simp [CleanupPhase.listed, hp]
    · simp [CleanupPhase.read, CleanupPhase.stale, hp]
    · exact ⟨fm.filename, CleanupPhase.mem_read.mpr ⟨fm, by simp [CleanupPhase.stale, hp], rfl, hmem⟩⟩
  | send cutoff' addr c pending stale hp =>
    refine ⟨by simpa [CleanupPhase.cutoff, hp] using hcut, ?_, ?_, fun p hmem => .inl ?_⟩
    · simp [CleanupPhase.listed, hp]
    · simp [CleanupPhase.read, CleanupPhase.stale, hp]
    · rw [hp]
      exact List.mem_cons_of_mem _ hmem
  | selectFile o cutoff' f row names stale hp hrow =>
    have hname : row.filename = f := by
      rw [selectFile_view, selectFile_eq_some] at hrow
      exact hrow.2
    refine ⟨by simpa [CleanupPhase.cutoff, hp] using hcut, ?_, ?_, by simp [CleanupPhase.pending]⟩
    · simp [CleanupPhase.listed, hp, hname]
    · simp [CleanupPhase.read, CleanupPhase.stale, hp]
  | gone _ _ _ _ _ hp _ | listed _ _ _ hp | sent _ _ hp =>
    refine ⟨by simpa [CleanupPhase.cutoff, hp] using hcut, ?_, ?_, by simp [CleanupPhase.pending]⟩
    · simp [CleanupPhase.listed, hp]
    · simp [CleanupPhase.read, CleanupPhase.stale, hp]

theorem of_step (h : ∀ cutoff, n.cleanup.cutoff = some cutoff → Watched n cutoff)
    (hc : Consistent cfg n) (hp : PendingDeletes n) (hgraves : ∀ e ∈ n.graves, n.Dead e.1)
    (hok : KeepsListed n a) (hs : n.step cfg a = some (n', out))
    (hcut : n'.cleanup.cutoff = some cutoff) : Watched n' cutoff := by
  rcases step_frame hs with rfl | ⟨_, ⟨b, rfl⟩ | he, _⟩
  · cases hs
    cases hcut
  · by_cases hb : (∀ now o, b ≠ .listNames now o) ∧ ∀ o, b ≠ .selectChunks o
    · obtain ⟨hcut', hl, hr, hpend⟩ := cleanup_sub hs hb hcut
      exact (h cutoff hcut').of_sub hc hp hok hs hl hr hpend
    · cases b with
      | listNames now o => exact listNames hs hcut
      | selectChunks o =>
        refine (h cutoff ?_).selectChunks hgraves hs
        cases cleanupCase_of_step hs with
        | selectChunks o cutoff' row names stale hph => simpa [CleanupPhase.cutoff, hph] using hcut
      | _ => simp at hb
  · exact (h cutoff (he ▸ hcut)).of_sub hc hp hok hs (by rw [he]; exact List.Subset.refl _)
      (by rw [he]; exact List.Subset.refl _) (fun p hmem => .inl (he ▸ hmem))

end Watched

theorem Reachable.watched (h : Reachable cfg KeepsListed n) {cutoff : Seconds}
    (hcut : n.cleanup.cutoff = some cutoff) : Watched n cutoff := by
  refine Steps.invariant (P := fun m => ∀ cutoff, m.cleanup.cutoff = some cutoff → Watched m cutoff)
    h (fun cutoff hcut => by cases hcut) ?_ cutoff hcut
  intro m a m' hr hw hok hnext cutoff hcut
  obtain ⟨out, hs⟩ := exists_step_of_next hnext
  exact Watched.of_step hw (Reachable.consistent hr) (Reachable.pendingDeletes hr)
    (Reachable.grave_dead hr) hok hs hcut

/-- In runs under `ok`, what an iteration removes is never a live version, and it never
asks for the deletion of a chunk of one. -/
def CleanupSparesLive (cfg : Settings) (ok : NamingServer → NamingAction → Prop) : Prop :=
  ∀ n a n' out cutoff, Reachable cfg ok n → n.cleanup.cutoff = some cutoff →
    n.step cfg (.cleanup a) = some (n', out) →
    (∀ F ∈ n.db.files, F ∉ n'.db.files → ¬ F.Live cutoff) ∧
    ∀ addr c, .deleteChunk addr c ∈ out → ∀ F, n.VersionRow c F → ¬ F.Live cutoff

theorem cleanupSparesLive_of_keepsListed (cfg : Settings) :
    CleanupSparesLive cfg KeepsListed := by
  intro n a n' out cutoff hr hcut hs
  have hw := hr.watched hcut
  constructor
  · intro F hF hgone
    cases cleanupCase_of_step hs with
    | remove cutoff' fm stale hp =>
      have hclean : n.store.writer = n.db := hr.consistent.clean
      refine hw.listed fm.filename (by simp [hp, CleanupPhase.listed]) F hF ?_
      by_contra hne
      apply hgone
      simp only [NamingServer.db, removeFile, MetadataStore.deleteFile, hclean, Db.mem_deleteFile_files]
      exact ⟨hF, hne⟩
    | _ => exact absurd hF hgone
  · intro addr c hout
    rcases deleteChunk_of_step hs hout with ⟨_, _, ha, _⟩ | ⟨_, _, _, ha, _⟩ | ⟨_, hmem⟩
    · cases ha
    · cases ha
    · exact hw.pending _ hmem

section LateCommit

/-- A pending file grows old, and the cleanup loop has listed and read it. -/
def cleaning : List NamingAction :=
  [.registerStorage ['s'], .create 0 (.receive ⟨['f'], 1, 1⟩), .create 0 .checkLive,
    .create 0 (.selectFile .table), .create 0 (.place ['c']), .create 0 (.reserve 0),
    .cleanup (.listNames 100 .table), .cleanup (.selectFile .table),
    .cleanup (.selectChunks .table), .cleanup (.selectFile .table)]

/-- The next removal takes away a row of `f`, and `live` says what is known about it. -/
def removesF (live : Bool) (n : NamingServer) : Bool :=
  (n.cleanup.cutoff == some 40) && n.db.files.any fun F => decide (F.Live 40) == live &&
    ((n.step ⟨1, 60⟩ (.cleanup .remove)).any fun r => decide (F ∉ r.1.db.files))

theorem exists_of_removesF {live : Bool} (h : removesF live n = true) :
    n.cleanup.cutoff = some 40 ∧ ∃ F ∈ n.db.files, (F.Live 40 ↔ live = true) ∧ ∃ n' out,
      n.step ⟨1, 60⟩ (.cleanup .remove) = some (n', out) ∧ F ∉ n'.db.files := by
  simp only [removesF, Bool.and_eq_true, beq_iff_eq, List.any_eq_true] at h
  obtain ⟨hcut, F, hF, hlive, hstep⟩ := h
  simp only [Option.any_eq_true_iff_get, decide_eq_true_eq] at hstep
  refine ⟨hcut, F, hF, ?_, _, _, (Option.some_get hstep.1).symm, hstep.2⟩
  rw [← hlive, decide_eq_true_eq]

/-- An iteration that nobody crosses removes the abandoned version. -/
theorem cleanupSparesLive_of_keepsListed_abandoned : ∃ n n' out F,
    Reachable ⟨1, 60⟩ KeepsListed n ∧ n.step ⟨1, 60⟩ (.cleanup .remove) = some (n', out) ∧
      F ∈ n.db.files ∧ F ∉ n'.db.files ∧ ¬ F.Live 40 := by
  have hrun : (run (guarded (NamingServer.next ⟨1, 60⟩) KeepsListed) NamingServer.init
      cleaning).any (removesF false) = true := by
    decide +kernel
  obtain ⟨n, hr, hn⟩ := exists_of_run hrun
  obtain ⟨hcut, F, hF, _, n', out, hs, hgone⟩ := exists_of_removesF hn
  exact ⟨n, n', out, F, hr, hs, hF, hgone,
    (cleanupSparesLive_of_keepsListed ⟨1, 60⟩ n _ n' out 40 hr hcut hs).1 F hF hgone⟩

/-- The commit arrives after the loop has read the file and before it removes it. -/
theorem not_cleanupSparesLive : ¬ CleanupSparesLive ⟨1, 60⟩ anyStep := by
  intro h
  have hrun : (run (guarded (NamingServer.next ⟨1, 60⟩) anyStep) NamingServer.init
      (cleaning ++ [.commit ['f']])).any (removesF true) = true := by
    decide +kernel
  obtain ⟨n, hr, hn⟩ := exists_of_run hrun
  obtain ⟨hcut, F, hF, hlive, n', out, hs, hgone⟩ := exists_of_removesF hn
  exact (h n _ n' out 40 hr hcut hs).1 F hF hgone (hlive.mpr rfl)

end LateCommit

end NamingServer

end GfsCluster
