import GfsCluster.Cluster.Durability
import GfsCluster.Cluster.Scrub
import GfsCluster.Naming.Sweep

/-! Garbage collection. When clients and the healer pause, an iteration of the cleanup loop and then
the scrub of a storage server leave on its disk what committed files have there, and nothing else. -/

namespace GfsCluster

open StepSystem

/-- A committed file has the chunk at the server. -/
def Db.Keeps (db : Db) (addr : Addr) (c : ChunkId) : Prop :=
  db.CommittedChunk c ∧ ⟨c, addr⟩ ∈ db.replicas

deriving instance DecidableEq for ScrubPhase

/-- The scrub takes for orphans what is not kept, and only that. -/
def ScrubPhase.Exact (stored keeps : ChunkId → Prop) : ScrubPhase → Prop
  | idle => True
  | queried expected => ∀ c, c ∈ expected ↔ keeps c
  | removing orphans => (∀ c ∈ orphans, ¬ keeps c) ∧ ∀ c, stored c → c ∈ orphans ∨ keeps c

/-- Removing a file that is not committed takes nothing from the others. -/
theorem Db.keeps_deleteFile {db : Db} {f : Filename} {addr : Addr} {c : ChunkId}
    (hf : ∀ F ∈ db.files, F.filename = f → F.status ≠ .committed) :
    (db.deleteFile f).Keeps addr c ↔ db.Keeps addr c := by
  constructor
  · rintro ⟨⟨r, hr, rfl, F, hF, hname, hst⟩, hrep⟩
    rw [Db.mem_deleteFile_chunks] at hr
    rw [Db.mem_deleteFile_files] at hF
    exact ⟨⟨r, hr.1, rfl, F, hF.1, hname, hst⟩, (Db.mem_deleteFile_replicas.mp hrep).1⟩
  · rintro ⟨⟨r, hr, rfl, F, hF, hname, hst⟩, hrep⟩
    have hne : F.filename ≠ f := fun he => hf F hF he hst
    refine ⟨⟨r, Db.mem_deleteFile_chunks.mpr ⟨hr, hname ▸ hne⟩, rfl, F,
      Db.mem_deleteFile_files.mpr ⟨hF, hne⟩, hname, hst⟩, Db.mem_deleteFile_replicas.mpr ⟨hrep, ?_⟩⟩
    intro r' hr' hid
    obtain rfl := db.chunk_unique hr' hr hid
    exact hname ▸ hne

/-- Where every file is committed, all that is recorded is kept. -/
theorem Db.keeps_iff {db : Db} {addr : Addr} {c : ChunkId}
    (hcom : ∀ F ∈ db.files, F.status = .committed) : db.Keeps addr c ↔ ⟨c, addr⟩ ∈ db.replicas := by
  refine ⟨And.right, fun hrep => ⟨?_, hrep⟩⟩
  obtain ⟨r, hr, hid⟩ := db.exists_chunk hrep
  obtain ⟨F, hF, hname⟩ := db.exists_file hr
  exact ⟨r, hr, hid, F, hF, hname, hcom F hF⟩

namespace NamingServer

/-- No request changes the metadata, and no repair is recorded. -/
def Pauses : NamingAction → Prop
  | .create _ _ | .commit _ | .delete _ .remove | .heal .record | .heal .drop | .crash => False
  | _ => True

instance (a : NamingAction) : Decidable (Pauses a) :=
  match a with
  | .create _ _ | .commit _ | .delete _ .remove | .heal .record | .heal .drop | .crash => .isFalse id
  | .delete _ (.receive _) | .delete _ (.selectFile _) | .delete _ (.selectChunks _)
  | .delete _ (.send _ _) | .delete _ .reply | .heal .count | .heal .pick | .heal (.known _)
  | .heal (.scan _) | .heal .next | .heal .copy | .heal (.answer _) | .heal (.refresh _) | .registerStorage _
  | .heartbeat _ | .tick _ | .get _ _ | .purge _ | .cleanup _ => .isTrue trivial

variable {cfg : Settings} {n n' : NamingServer} {a : NamingAction} {out : List StorageRpc}

theorem Pauses.keepsListed (h : Pauses a) : KeepsListed n a := by
  cases a with
  | create k b => exact absurd h id
  | commit f => exact absurd h id
  | _ => trivial

theorem Pauses.sweeps (h : Pauses a) (cutoff : Seconds) : Sweeps cutoff n a := by
  cases a with
  | create k b => exact absurd h id
  | crash => exact absurd h id
  | _ => trivial

theorem Pauses.file_before (h : Pauses a) (hc : Consistent cfg n) (hs : n.step cfg a = some (n', out))
    {F : FileRow} (hF : F ∈ n'.db.files) : F ∈ n.db.files := by
  rcases file_of_step hc hs hF with hF | ⟨rfl, _⟩ | ⟨k, t, rfl, _⟩
  · exact hF
  · exact absurd h id
  · exact absurd h id

/-- The cleanup loop takes away what is not committed. -/
theorem Pauses.keeps (h : Pauses a) (hc : Consistent cfg n)
    (hw : ∀ cutoff, n.cleanup.cutoff = some cutoff → Watched n cutoff)
    (hs : n.step cfg a = some (n', out)) (addr : Addr) (c : ChunkId) :
    n'.db.Keeps addr c ↔ n.db.Keeps addr c := by
  cases db_of_step hc hs with
  | keep hdb => rw [hdb]
  | commit f ha =>
    subst ha
    exact absurd h id
  | reserve k t chunks ha =>
    subst ha
    exact absurd h id
  | record _ _ _ _ _ ha =>
    subst ha
    exact absurd h id
  | drop _ _ _ _ _ ha =>
    subst ha
    exact absurd h id
  | remove f hdb _ hf =>
    rw [hdb]
    refine Db.keeps_deleteFile fun F hF hname hst => ?_
    unfold removes at hf
    split at hf
    · exact absurd h id
    · split at hf
      · rename_i cutoff fm stale hp
        cases hf
        have hlisted : fm.filename ∈ n.cleanup.listed := by simp [hp, CleanupPhase.listed]
        exact (hw cutoff (by rw [hp]; rfl)).listed _ hlisted F hF hname (.inl hst)
      · cases hf
    · cases hf

/-- Deletion threads are started by requests only. -/
theorem Pauses.purges (h : Pauses a) (hs : n.step cfg a = some (n', out)) {e : ℕ × Addr × ChunkId}
    (he : e ∈ n'.purges) : e ∈ n.purges := by
  rcases mem_purges_of_step hs he with he | ⟨_, _, rfl, _⟩
  · exact he
  · exact absurd h id

end NamingServer

namespace Cluster

variable {cfg : Settings} {s s' s₀ s₁ s₂ s₃ : Cluster} {a : ClusterAction} {addr : Addr} {c : ChunkId}
  {ok : Cluster → ClusterAction → Prop}

/-! ### While clients pause -/

/-- Nobody works on a file, and nothing is stored. -/
def Paused (_ : Cluster) : ClusterAction → Prop
  | .naming b => NamingServer.Pauses b
  | .createCall _ _ _ | .commitExec _ | .storeItem _ | .copyStore _ => False
  | _ => True

instance (s : Cluster) (a : ClusterAction) : Decidable (Paused s a) :=
  match a with
  | .naming b => inferInstanceAs (Decidable (NamingServer.Pauses b))
  | .createCall _ _ _ | .commitExec _ | .storeItem _ | .copyStore _ => .isFalse id
  | .createReply _ | .sendBatch _ _ | .storeReply _ _ _ | .uploadFail _ _ | .commitSend _
  | .commitLost _ | .commitReply _ | .clientStop _ | .deleteExec _ | .copyFetch _ | .drop _
  | .scrubQuery _ _ | .scrubList _ | .scrubRemove _ _ | .scrubStop _ => .isTrue trivial

/-- The scrub of the server removes nothing. -/
def Unscrubbed (addr : Addr) (_ : Cluster) (a : ClusterAction) : Prop :=
  ∀ x ∈ scrubRemoves a, x.1 ≠ addr

instance (s : Cluster) (a : ClusterAction) : Decidable (Unscrubbed addr s a) :=
  inferInstanceAs (Decidable (∀ x ∈ scrubRemoves a, x.1 ≠ addr))

theorem Paused.pauses {b : NamingAction} (h : Paused s a) (hd : s.Drives a b) :
    NamingServer.Pauses b := by
  cases hd with
  | free b _ => exact h
  | create k f data _ => exact absurd h id
  | commit k _ => exact absurd h id

/-- What is to be deleted has lost its rows, the cleanup loop is after no committed file, and what
committed files had at the server is as it was. -/
structure Rested (s₀ : Cluster) (addr : Addr) (s : Cluster) : Prop where
  purges : ∀ e ∈ s.naming.purges, s.naming.Dead e.2.2
  deletes : ∀ addr c, .deleteChunk addr c ∈ s.net → s.naming.Dead c
  watched : ∀ cutoff, s.naming.cleanup.cutoff = some cutoff → s.naming.Watched cutoff
  files : ∀ F ∈ s.naming.db.files, F ∈ s₀.naming.db.files
  keeps : ∀ c, s.naming.db.Keeps addr c ↔ s₀.naming.db.Keeps addr c
  stored : ∀ c, s₀.naming.db.Keeps addr c → s.file addr c = s₀.file addr c

namespace Rested

theorem not_dead (h : Rested s₀ addr s) (hkeeps : s₀.naming.db.Keeps addr c) : ¬ s.naming.Dead c := by
  intro hdead
  obtain ⟨⟨r, hr, rfl, _⟩, _⟩ := (h.keeps c).mpr hkeeps
  exact hdead.2 (List.mem_map_of_mem hr)

theorem dead_of_step (hc : s.naming.Consistent cfg) (hs : s.step cfg a = some s')
    (h : s.naming.Dead c) : s'.naming.Dead c := by
  rcases naming_of_step hs with he | ⟨b, out, _, hn⟩
  · rwa [he]
  · exact h.step hc hn

theorem deletes_of_step (h : Rested s₀ addr s) (hr : Reachable cfg ok s) (hs : s.step cfg a = some s')
    {addr' : Addr} (hm : .deleteChunk addr' c ∈ s'.net) : s'.naming.Dead c := by
  apply dead_of_step hr.consistent hs
  cases net_of_step hs hm with
  | old hold => exact h.deletes addr' c hold
  | rpc b out r _ hn hout hm =>
    cases r with
    | replicateChunk => cases hm
    | deleteChunk addr' c' =>
      cases hm
      have hp := hr.naming.pendingDeletes
      rcases NamingServer.deleteChunk_of_step hn hout with ⟨i, j, _, hi⟩ | ⟨j, _, _, _, hmem⟩ | ⟨_, hmem⟩
      · exact h.purges _ (List.mem_of_getElem? hi)
      · exact (hp.deletes j).2 _ hmem
      · exact hp.cleanup.2 _ hmem
  | sent _ _ _ _ _ _ _ _ hm => cases hm
  | stored _ _ _ _ _ hm => cases hm
  | fetched _ _ _ _ _ _ _ hm => cases hm

theorem stored_of_step (h : Rested s₀ addr s) (hok : Paused s a)
    (hscrub : ∀ c, a = .scrubRemove addr c → ¬ s₀.naming.db.Keeps addr c)
    (hs : s.step cfg a = some s') (hkeeps : s₀.naming.db.Keeps addr c) :
    s'.file addr c = s₀.file addr c := by
  cases file_of_step hs addr c with
  | keep h' => rw [h', h.stored c hkeeps]
  | store _ _ _ _ _ ha =>
    subst ha
    exact absurd hok id
  | copy _ _ _ ha =>
    subst ha
    exact absurd hok id
  | delete i _ hi => exact absurd (h.deletes addr c (List.mem_of_getElem? hi)) (h.not_dead hkeeps)
  | scrub _ ha => exact absurd hkeeps (hscrub c ha)

theorem of_step (h : Rested s₀ addr s) (hr : Reachable cfg ok s) (hok : Paused s a)
    (hscrub : ∀ c, a = .scrubRemove addr c → ¬ s₀.naming.db.Keeps addr c)
    (hs : s.step cfg a = some s') : Rested s₀ addr s' := by
  have hc := hr.consistent
  rcases naming_of_step hs with he | ⟨b, out, hd, hn⟩
  · refine ⟨?_, fun _ _ => h.deletes_of_step hr hs, ?_, ?_, ?_, fun c => h.stored_of_step hok hscrub hs⟩
    · rw [he]
      exact h.purges
    · rw [he]
      exact h.watched
    · rw [he]
      exact h.files
    · rw [he]
      exact h.keeps
  · have hb := hok.pauses hd
    refine ⟨fun e hmem => (h.purges e (hb.purges hn hmem)).step hc hn,
      fun _ _ => h.deletes_of_step hr hs, fun cutoff hcut => ?_,
      fun F hF => h.files F (hb.file_before hc hn hF),
      fun c => (hb.keeps hc h.watched hn addr c).trans (h.keeps c),
      fun c => h.stored_of_step hok hscrub hs⟩
    exact NamingServer.Watched.of_step h.watched hc hr.naming.pendingDeletes hr.naming.grave_dead
      hb.keepsListed hn hcut

end Rested

/-! ### The scrub -/

/-- Only committed files are left, and the scrub of the server is exact. -/
structure Combed (s₀ : Cluster) (addr : Addr) (s : Cluster) : Prop extends Rested s₀ addr s where
  committed : ∀ F ∈ s.naming.db.files, F.status = .committed
  scrub : (s.scrubs addr).Exact (s.Stored addr) (s₀.naming.db.Keeps addr)

namespace Combed

theorem not_keeps (h : Combed s₀ addr s) {orphans : List ChunkId} (hp : s.scrubs addr = .removing orphans)
    (hc : c ∈ orphans) : ¬ s₀.naming.db.Keeps addr c := by
  have hexact := h.scrub
  rw [hp] at hexact
  exact hexact.1 c hc

theorem removing_of_scrubRemove (hs : s.step cfg (.scrubRemove addr c) = some s') :
    ∃ orphans, s.scrubs addr = .removing orphans ∧ c ∈ orphans ∧ s'.file addr c = none := by
  simp only [step] at hs
  split at hs
  · rename_i orphans hp
    split_ifs at hs with hc
    cases hs
    exact ⟨orphans, hp, hc, (file_remove s addr addr c c).trans (if_pos ⟨rfl, rfl⟩)⟩
  · cases hs

/-- Nothing is stored in the meantime. -/
theorem stored_before (hok : Paused s a) (hs : s.step cfg a = some s') (hst : s'.Stored addr c) :
    s.Stored addr c ∧ a ≠ .scrubRemove addr c := by
  unfold Stored at hst ⊢
  cases file_of_step hs addr c with
  | keep h' =>
    refine ⟨by rwa [← h'], ?_⟩
    rintro rfl
    obtain ⟨_, _, _, hnone⟩ := removing_of_scrubRemove hs
    exact hst hnone
  | store _ _ _ _ _ ha =>
    subst ha
    exact absurd hok id
  | copy _ _ _ ha =>
    subst ha
    exact absurd hok id
  | delete _ _ _ h' => exact absurd h' hst
  | scrub _ _ _ _ h' => exact absurd h' hst

theorem scrub_of_step (h : Combed s₀ addr s) (hok : Paused s a) (hs : s.step cfg a = some s') :
    (s'.scrubs addr).Exact (s'.Stored addr) (s₀.naming.db.Keeps addr) := by
  have hexact := h.scrub
  cases Cluster.scrub_of_step hs addr with
  | keep h' =>
    rw [h']
    cases hp : s.scrubs addr with
    | idle => trivial
    | queried expected =>
      rw [hp] at hexact
      exact hexact
    | removing orphans =>
      rw [hp] at hexact
      exact ⟨hexact.1, fun c hst => hexact.2 c (stored_before hok hs hst).1⟩
  | query o hnaming h' =>
    rw [h']
    intro c
    rw [mem_listChunkIdsFor, RowOrder.mem_replicas, ← h.keeps c]
    exact (Db.keeps_iff h.committed).symm
  | list expected hp hnaming h' =>
    rw [hp] at hexact
    rw [h']
    refine ⟨fun c hc hkeeps => ?_, fun c hst => ?_⟩
    · exact of_decide_eq_true (List.mem_filter.mp hc).2 ((hexact c).mpr hkeeps)
    · by_cases hkeeps : s₀.naming.db.Keeps addr c
      · exact .inr hkeeps
      · have hold := (stored_before hok hs hst).1
        have hkey : c ∈ (s.disks addr).keys := by
          by_contra hno
          exact hold (AList.lookup_eq_none.mpr hno)
        exact .inl (List.mem_filter.mpr ⟨hkey, decide_eq_true (mt (hexact c).mp hkeeps)⟩)
  | remove c orphans ha hp hc h' =>
    rw [hp] at hexact
    rw [h']
    refine ⟨fun c' hc' => hexact.1 c' (List.mem_of_mem_erase hc'), fun c' hst => ?_⟩
    obtain ⟨hold, hne⟩ := stored_before hok hs hst
    refine (hexact.2 c' hold).imp_left fun hmem => (List.mem_erase_of_ne ?_).mpr hmem
    rintro rfl
    exact hne ha
  | stop h' =>
    rw [h']
    trivial

theorem of_step (h : Combed s₀ addr s) (hr : Reachable cfg ok s) (hok : Paused s a)
    (hs : s.step cfg a = some s') : Combed s₀ addr s' := by
  refine ⟨h.toRested.of_step hr hok (fun c ha => ?_) hs, ?_, h.scrub_of_step hok hs⟩
  · subst ha
    obtain ⟨orphans, hp, hc, _⟩ := removing_of_scrubRemove hs
    exact h.not_keeps hp hc
  · rcases naming_of_step hs with he | ⟨b, out, hd, hn⟩
    · rw [he]
      exact h.committed
    · exact fun F hF => h.committed F ((hok.pauses hd).file_before hr.consistent hn hF)

end Combed

/-! ### Both, one after the other -/

/-- The loop lists names at a time when nobody works on a file. -/
theorem Rested.of_listNames {now : Seconds} {o : RowOrder} (h₀ : Reachable cfg (Orderly cfg) s₀)
    (hplacing : ∀ k chunks, (s₀.naming.creates k).phase ≠ .placing chunks)
    (hs : s₀.step cfg (.naming (.cleanup (.listNames now o))) = some s₁) :
    Rested s₀ addr s₁ ∧ s₁.naming.StaleListed (now - cfg.cleanupMaxAge) := by
  have hdead : ∀ c, s₀.naming.Doomed c → s₀.naming.Dead c := fun c hc =>
    hc.resolve_right fun ⟨k, chunks, hphase, _⟩ => hplacing k chunks hphase
  simp only [step] at hs
  split_ifs at hs
  obtain ⟨⟨n, out⟩, hn, rfl⟩ := Option.map_eq_some_iff.mp hs
  refine ⟨?_, NamingServer.staleListed_of_listNames hn⟩
  have hwatched : ∀ cutoff, n.cleanup.cutoff = some cutoff → n.Watched cutoff := fun _ hcut =>
    NamingServer.Watched.listNames hn hcut
  cases NamingServer.cleanupCase_of_step hn with
  | listNames _ _ hp =>
    refine ⟨fun e he => hdead _ (h₀.intact.purges e he), fun addr' c hm => hdead _ ?_, hwatched,
      fun _ => id, fun _ => Iff.rfl, fun _ _ => rfl⟩
    exact h₀.intact.deletes addr' c (by simpa using hm)

theorem Rested.combed {now : Seconds} (h : Rested s₀ addr s₁)
    (hlisted : s₁.naming.StaleListed (now - cfg.cleanupMaxAge)) (hr : Reachable cfg anyStep s₁)
    (hstale : ∀ F ∈ s₀.naming.db.files, F.status ≠ .committed → F.createdAt < now - cfg.cleanupMaxAge)
    (hclean : Steps (step cfg) (fun s a => Paused s a ∧ Unscrubbed addr s a) s₁ s₂)
    (hidle : s₂.naming.cleanup = .idle) (hscrub : s₂.scrubs addr = .idle) : Combed s₀ addr s₂ := by
  have hrest : Rested s₀ addr s₂ := by
    refine hclean.invariant h fun s a s' hs h hok hstep => ?_
    refine h.of_step (hr.trans hs.unguarded) hok.1 (fun c ha => ?_) hstep
    subst ha
    exact absurd rfl (hok.2 (addr, c) rfl)
  have hrun : Steps (NamingServer.next cfg) (NamingServer.Sweeps (now - cfg.cleanupMaxAge))
      s₁.naming s₂.naming :=
    steps_naming hclean fun s a b hok hd => (hok.1.pauses hd).sweeps _
  refine ⟨hrest, fun F hF => ?_, ?_⟩
  · -- a file that is not committed was listed, and is gone
    have hlive := hlisted.live_of_steps hr.naming hrun hidle F hF
    by_contra hst
    exact absurd (hstale F (hrest.files F hF) hst) (not_lt.mpr (hlive.resolve_left hst))
  · rw [hscrub]
    trivial

/-- An iteration of the cleanup loop whose cutoff is later than every pending file, and after it a
scrub of a server, while clients and the healer pause: what is left on the server are the chunks that
committed files have there, as they were, and all metadata left is that of committed files. -/
theorem collected {now : Seconds} {o : RowOrder} (h₀ : Reachable cfg (Orderly cfg) s₀)
    (hplacing : ∀ k chunks, (s₀.naming.creates k).phase ≠ .placing chunks)
    (hstale : ∀ F ∈ s₀.naming.db.files, F.status ≠ .committed → F.createdAt < now - cfg.cleanupMaxAge)
    (hlist : s₀.step cfg (.naming (.cleanup (.listNames now o))) = some s₁)
    (hclean : Steps (step cfg) (fun s a => Paused s a ∧ Unscrubbed addr s a) s₁ s₂)
    (hidle : s₂.naming.cleanup = .idle) (hscrub : s₂.scrubs addr = .idle)
    (hcomb : Steps (step cfg) Paused s₂ s₃) (hdone : s₃.scrubs addr = .removing []) :
    (∀ F ∈ s₃.naming.db.files, F.status = .committed) ∧ ∀ c,
      (s₃.Stored addr c ↔ ⟨c, addr⟩ ∈ s₃.naming.db.replicas) ∧
      (s₃.Stored addr c ↔ s₀.naming.db.Keeps addr c) ∧
      (s₃.Stored addr c → s₃.file addr c = s₀.file addr c) := by
  have hr₁ : Reachable cfg anyStep s₁ := .tail h₀.unguarded trivial hlist
  obtain ⟨hrest, hlisted⟩ := Rested.of_listNames h₀ hplacing hlist
  have hcombed : Combed s₀ addr s₃ := by
    refine hcomb.invariant (hrest.combed hlisted hr₁ hstale hclean hidle hscrub) ?_
    exact fun s a s' hs h hok hstep =>
      h.of_step ((hr₁.trans hclean.unguarded).trans hs.unguarded) hok hstep
  have hstored : ∀ c, s₃.Stored addr c ↔ s₀.naming.db.Keeps addr c := by
    refine fun c => ⟨fun hst => ?_, fun hkeeps => ?_⟩
    · have hexact := hcombed.scrub
      rw [hdone] at hexact
      exact (hexact.2 c hst).resolve_left List.not_mem_nil
    · obtain ⟨⟨r, hrow, rfl, hF⟩, hrep⟩ := id hkeeps
      obtain ⟨_, b, _, _, _, hb⟩ := h₀.recordedStored hplacing r hrow ⟨r, hrow, rfl, hF⟩ addr hrep
      rw [Stored, hcombed.stored _ hkeeps, hb]
      exact Option.some_ne_none b
  refine ⟨hcombed.committed, fun c => ⟨?_, hstored c, fun hst => ?_⟩⟩
  · rw [hstored c, ← hcombed.keeps c]
    exact Db.keeps_iff hcombed.committed
  · exact hcombed.stored c ((hstored c).mp hst)

/-- One file is committed, and the upload of another is abandoned after its chunk is stored. The
request to delete that chunk is lost, so the scrub finds it. -/
theorem collected_abandoned : ∃ s₀ s₃ : Cluster, s₀.file ['s'] ['d'] = some [8] ∧
    s₃.file ['s'] ['d'] = none ∧ s₃.file ['s'] ['c'] = some [7] ∧
      ∀ c, s₃.Stored ['s'] c ↔ s₀.naming.db.Keeps ['s'] c := by
  have hrun : ((run (guarded (step ⟨1, 60⟩) fun s a => Steady ⟨1, 60⟩ s a ∧ Calls 2 a) init
      [.naming (.registerStorage ['s']), .createCall 0 ['f'] [7], .naming (.create 0 .checkLive),
        .naming (.create 0 (.selectFile .table)), .naming (.create 0 (.place ['c'])),
        .naming (.create 0 (.reserve 0)), .createReply 0, .sendBatch 0 0, .storeItem 0,
        .storeReply 0 0 0, .commitSend 0, .commitExec 0, .createCall 1 ['g'] [8],
        .naming (.create 1 .checkLive), .naming (.create 1 (.selectFile .table)),
        .naming (.create 1 (.place ['d'])), .naming (.create 1 (.reserve 0)), .createReply 1,
        .sendBatch 1 0, .storeItem 0, .clientStop 1]).bind fun s₀ =>
      (s₀.step ⟨1, 60⟩ (.naming (.cleanup (.listNames 100 .table)))).bind fun s₁ =>
        (run (guarded (step ⟨1, 60⟩) fun s a => Paused s a ∧ Unscrubbed ['s'] s a) s₁
          [.naming (.cleanup (.selectFile .table)), .naming (.cleanup (.selectChunks .table)),
            .naming (.cleanup (.selectFile .table)), .naming (.cleanup .remove),
            .naming (.cleanup .send), .drop 1, .naming (.cleanup .send),
            .naming (.cleanup .remove)]).bind fun s₂ =>
          (run (guarded (step ⟨1, 60⟩) Paused) s₂
            [.scrubQuery ['s'] .table, .scrubList ['s'], .scrubRemove ['s'] ['d']]).map
              fun s₃ => (s₀, s₁, s₂, s₃)).any (fun x =>
      (x.1.naming.creates 0).phase.over && (x.1.naming.creates 1).phase.over &&
        x.1.naming.db.files.all (fun F => F.status == .committed || decide (F.createdAt < 40)) &&
        !x.2.2.1.naming.cleanup.cutoff.isSome && decide (x.2.2.1.scrubs ['s'] = .idle) &&
        decide (x.2.2.2.scrubs ['s'] = .removing []) && decide (x.1.file ['s'] ['d'] = some [8]) &&
        decide (x.2.2.2.file ['s'] ['d'] = none) && decide (x.2.2.2.file ['s'] ['c'] = some [7])) =
        true := by
    decide +kernel
  simp only [Option.any_eq_true, Option.bind_eq_some_iff, Option.map_eq_some_iff, Bool.and_eq_true,
    decide_eq_true_eq, Bool.not_eq_true', Option.isSome_eq_false_iff, Option.isNone_iff_eq_none] at hrun
  obtain ⟨_, ⟨s₀, hs₀, s₁, hs₁, s₂, hs₂, s₃, hs₃, rfl⟩, hp⟩ := hrun
  obtain ⟨⟨⟨⟨⟨⟨⟨⟨hover₀, hover₁⟩, hfiles⟩, hcut⟩, hscrub⟩, hdone⟩, hbefore⟩, hgone⟩, hleft⟩ := hp
  have hrun₀ := steps_of_guarded_run hs₀
  have hplacing : ∀ k chunks, (s₀.naming.creates k).phase ≠ .placing chunks := by
    have hothers := (hrun₀.mono fun _ _ h => h.2).invariant
      (P := fun u : Cluster => ∀ k ≥ 2, (u.naming.creates k).phase = .idle) (fun _ _ => rfl)
      fun _ _ _ _ h ha hs => idle_of_calls ha hs h
    intro k chunks hphase
    obtain rfl | rfl | hk : k = 0 ∨ k = 1 ∨ 2 ≤ k := by omega
    · rw [hphase] at hover₀
      cases hover₀
    · rw [hphase] at hover₁
      cases hover₁
    · rw [hothers k hk] at hphase
      cases hphase
  have hcutoff : (100 : Seconds) - Settings.cleanupMaxAge ⟨1, 60⟩ = 40 := by decide +kernel
  have hstale : ∀ F ∈ s₀.naming.db.files, F.status ≠ .committed →
      F.createdAt < 100 - Settings.cleanupMaxAge ⟨1, 60⟩ := by
    intro F hF hst
    have hF := List.all_eq_true.mp hfiles F hF
    rw [Bool.or_eq_true, beq_iff_eq, decide_eq_true_eq] at hF
    rw [hcutoff]
    exact hF.resolve_left hst
  have hidle : s₂.naming.cleanup = .idle := by
    cases hp : s₂.naming.cleanup with
    | idle => rfl
    | _ => simp [hp, CleanupPhase.cutoff] at hcut
  obtain ⟨_, hexact⟩ := collected (hrun₀.mono fun _ _ h => h.1.orderly) hplacing hstale hs₁
    (steps_of_guarded_run hs₂) hidle hscrub (steps_of_guarded_run hs₃) hdone
  exact ⟨s₀, s₃, hbefore, hgone, hleft, fun c => (hexact c).2.1⟩

end Cluster

end GfsCluster
