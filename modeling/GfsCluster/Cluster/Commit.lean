import GfsCluster.Cluster.Reads
import GfsCluster.Cluster.Uploads

/-! What a CommitFile covers. The request names a file, not a reservation, so it commits
whatever version is there when it is executed. Where that is the reservation of its own
call, every replica it makes visible has been acknowledged with the chunk's payload. -/

namespace GfsCluster

open StepSystem

namespace Cluster

variable {cfg : Settings} {s s' : Cluster} {a : ClusterAction} {k : ℕ} {r : ChunkRow}
  {ok : Cluster → ClusterAction → Prop}

/-- CommitFile is executed only on a version that its own call has reserved. -/
def OwnCommit (s : Cluster) : ClusterAction → Prop
  | .commitExec k => ∀ r ∈ s.naming.db.chunks, r.filename = (s.calls k).filename →
    ∃ e ∈ s.naming.issued, e.chunkId = r.chunkId ∧ e.call = k
  | _ => True

instance (s : Cluster) (a : ClusterAction) : Decidable (OwnCommit s a) :=
  match a with
  | .commitExec k => inferInstanceAs (Decidable (∀ r ∈ s.naming.db.chunks,
    r.filename = (s.calls k).filename → ∃ e ∈ s.naming.issued, e.chunkId = r.chunkId ∧ e.call = k))
  | .naming _ | .createCall _ _ _ | .createReply _ | .sendBatch _ _ | .storeItem _
  | .storeReply _ _ _ | .uploadFail _ _ | .commitSend _ | .commitLost _ | .commitReply _
  | .clientStop _ | .deleteExec _ | .copyFetch _ | .copyStore _ | .drop _ | .scrubQuery _ _
  | .scrubList _ | .scrubRemove _ _ | .scrubStop _ => .isTrue trivial

/-- Whatever is recorded for the file at the moment of a commit has been acknowledged. -/
def CommitCovers (cfg : Settings) (ok : Cluster → ClusterAction → Prop) : Prop :=
  ∀ s s' k, Reachable cfg ok s → ok s (.commitExec k) → s.step cfg (.commitExec k) = some s' →
    ∀ r ∈ s'.naming.db.chunks, r.filename = (s.calls k).filename →
      ∀ addr, ⟨r.chunkId, addr⟩ ∈ s'.naming.db.replicas → s'.Acked r.chunkId addr

/-! ### A version is committed once -/

theorem commit_of_drives {f : Filename} (hd : s.Drives a (.commit f)) :
    ∃ k, a = .commitExec k ∧ f = (s.calls k).filename := by
  generalize hb : NamingAction.commit f = b at hd
  cases hd with
  | free _ hfree =>
    subst hb
    exact absurd hfree id
  | create => cases hb
  | commit k =>
    cases hb
    exact ⟨k, rfl, rfl⟩

/-- An answered CommitFile is not sent again. -/
theorem answered_of_step (hr : Requests s) (hu : Uploads s) (hs : s.step cfg a = some s') {ok : Bool}
    (h : (s.calls k).commit = .answered ok) : (s'.calls k).commit = .answered ok := by
  cases call_of_step hs k with
  | keep h' => rwa [h']
  | call f data _ hp h' =>
    rw [(hr.idle k hp).2] at h
    cases h
  | reply _ _ _ h' => rwa [h']
  | upload _ _ _ _ _ _ _ _ _ h' => rwa [h']
  | acked _ _ _ _ _ _ _ _ _ _ h' => rwa [h']
  | send us hp _ h' =>
    rw [hu.unsent_of_uploading hp] at h
    cases h
  | exec _ hc h' => rw [hc] at h; cases h
  | lost hc h' => rw [hc] at h; cases h
  | finish _ _ _ h' => rwa [h']
  | stop _ h' => rwa [h']

theorem answered_of_commitExec (hs : s.step cfg (.commitExec k) = some s') :
    ∃ ok, (s'.calls k).commit = .answered ok := by
  simp only [step] at hs
  split at hs
  · obtain ⟨p, _, rfl⟩ := Option.map_eq_some_iff.mp hs
    exact ⟨_, by simp [setCommit]; rfl⟩
  · cases hs

/-- The call's version is committed by the call's own CommitFile. -/
def CommittedBy (k : ℕ) (s : Cluster) : Prop :=
  ∀ r ∈ s.naming.db.chunks, s.naming.db.CommittedChunk r.chunkId → ∀ i,
    ⟨r.chunkId, k, i⟩ ∈ s.naming.issued → ∃ ok, (s.calls k).commit = .answered ok

theorem CommittedBy.of_step (h : CommittedBy k s) (hr : Requests s) (hu : Uploads s)
    (hc : s.naming.Consistent cfg) (hs : s.step cfg a = some s')
    (hown : ∀ j, a = .commitExec j → ∀ r ∈ s.naming.db.chunks, r.filename = (s.calls j).filename →
      ∀ i, ⟨r.chunkId, k, i⟩ ∈ s.naming.issued → j = k) : CommittedBy k s' := by
  intro r hrow' hcom' i hi'
  rcases naming_of_step hs with he | ⟨b, out, hd, hn⟩
  · rw [he] at hrow' hcom' hi'
    obtain ⟨ok, hok⟩ := h r hrow' hcom' i hi'
    exact ⟨ok, answered_of_step hr hu hs hok⟩
  · by_cases hrow : r ∈ s.naming.db.chunks
    · obtain ⟨F, _, _, k₀, hv, hi⟩ := hc.row_issued hrow
      have hk := (hc.of_step hn).issue_unique (NamingServer.step_issued hn hi) hi' rfl
      simp only [Issue.mk.injEq, true_and] at hk
      obtain ⟨rfl, rfl⟩ := hk
      rcases NamingServer.committed_before_step hc hn hrow hrow' hcom' with hcom | rfl
      · obtain ⟨ok, hok⟩ := h r hrow hcom _ hi
        exact ⟨ok, answered_of_step hr hu hs hok⟩
      · -- no other call commits this version
        obtain ⟨j, rfl, hname⟩ := commit_of_drives hd
        obtain rfl := hown j rfl r hrow hname _ hi
        exact answered_of_commitExec hs
    · exact absurd hcom' (NamingServer.not_committed_of_new_row hc hn hrow' hrow)

/-! ### The commit of an own reservation -/

theorem commitExec_cases (hc : s.naming.Consistent cfg) (hs : s.step cfg (.commitExec k) = some s') :
    (s.calls k).commit = .sent ∧
      s'.naming.db = s.naming.db.markCommitted (s.calls k).filename := by
  have hw : s.naming.store.writer = s.naming.db := hc.clean
  simp only [step] at hs
  split at hs
  · rename_i hsent
    obtain ⟨⟨n, out⟩, hn, rfl⟩ := Option.map_eq_some_iff.mp hs
    cases hn
    exact ⟨hsent, by simp [NamingServer.db, MetadataStore.commitFile, hw]⟩
  · cases hs

/-- A version that waits for its own CommitFile is recorded where it was uploaded. -/
theorem acked_of_sent (hs : Reachable cfg ok s) (howner : CommittedBy k s)
    (hsent : (s.calls k).commit = .sent) (hr : r ∈ s.naming.db.chunks) {i : ℕ}
    (hi : ⟨r.chunkId, k, i⟩ ∈ s.naming.issued) {addr : Addr}
    (haddr : ⟨r.chunkId, addr⟩ ∈ s.naming.db.replicas) : s.Acked r.chunkId addr := by
  have hc := hs.consistent
  obtain ⟨F, hF, hFname, k₀, hv, hi₀⟩ := hc.row_issued hr
  have hk := hc.issue_unique hi hi₀ rfl
  simp only [Issue.mk.injEq, true_and] at hk
  obtain ⟨rfl, rfl⟩ := hk
  have hpend : F.status = .pending := by
    cases hst : F.status with
    | pending => rfl
    | committed =>
      obtain ⟨ok, hans⟩ := howner r hr ⟨r, hr, rfl, F, hF, hFname, hst⟩ _ hi
      rw [hsent] at hans
      cases hans
  obtain ⟨chunks, hplan⟩ := NamingServer.reserved_plan hv.reserved
  obtain ⟨m, hm, hmid⟩ := ((hc.plan k chunks hplan).issue _ _).mp hi
  have hm := List.mem_of_getElem? hm
  have hlocs := hs.naming.pendingPlaced F hF hpend k chunks hv hplan m hm
  rw [hmid] at hlocs
  have haddr := s.naming.db.mem_locations.mpr haddr
  rw [hlocs] at haddr
  have hacked := (hs.uploads.sent k (by rw [hsent]; simp)).2 chunks hplan m hm addr haddr
  rwa [hmid] at hacked

theorem commitCovers_of_ownCommit (cfg : Settings) : CommitCovers cfg OwnCommit := by
  intro s s' k hs hok hstep r hr' hname addr haddr'
  have howner : CommittedBy k s := by
    refine Steps.invariant (P := CommittedBy k) hs (fun r hr => by cases hr) ?_
    intro t a u ht hown hok hstep
    have ht : Reachable cfg OwnCommit t := ht
    refine hown.of_step ht.requests ht.uploads ht.consistent hstep ?_
    rintro j rfl r hr hname i hi
    obtain ⟨e, he, hid, rfl⟩ := hok r hr hname
    rw [ht.consistent.issue_unique he hi hid]
  obtain ⟨hsent, hdb⟩ := commitExec_cases hs.consistent hstep
  have hr : r ∈ s.naming.db.chunks := by
    rw [hdb] at hr'
    exact hr'
  have haddr : ⟨r.chunkId, addr⟩ ∈ s.naming.db.replicas := by
    rw [hdb] at haddr'
    exact haddr'
  obtain ⟨e, he, hid, rfl⟩ := hok r hr hname
  rw [show e = ⟨r.chunkId, e.call, e.index⟩ from hid ▸ rfl] at he
  exact (acked_of_sent hs howner hsent hr he haddr).of_step hs.requests hstep

theorem commitCovers_of_ownCommit_created : ∃ s s', Reachable ⟨1, 60⟩ OwnCommit s ∧
    s.step ⟨1, 60⟩ (.commitExec 0) = some s' ∧ ⟨['c'], ['s']⟩ ∈ s'.naming.db.replicas ∧
    s'.Acked ['c'] ['s'] := by
  have hrun : (run (guarded (step ⟨1, 60⟩) OwnCommit) init (storing.take 11)).any (fun s =>
      OwnCommit s (.commitExec 0) && (s.calls 0).filename == ['f'] &&
        (s.step ⟨1, 60⟩ (.commitExec 0)).any (fun s' =>
          decide (⟨['c'], ['f'], 0⟩ ∈ s'.naming.db.chunks) &&
            decide (⟨['c'], ['s']⟩ ∈ s'.naming.db.replicas))) = true := by
    decide +kernel
  obtain ⟨s, hs, hp⟩ := exists_of_run hrun
  simp only [Bool.and_eq_true, decide_eq_true_eq, beq_iff_eq, Option.any_eq_true] at hp
  obtain ⟨⟨hown, hname⟩, s', hstep, hrow, hreplica⟩ := hp
  exact ⟨s, s', hs, hstep, hreplica,
    commitCovers_of_ownCommit ⟨1, 60⟩ s s' 0 hs hown hstep _ hrow hname.symm _ hreplica⟩

/-- A first client has uploaded everything; a second one reserves the same name and has
uploaded nothing when the first one's CommitFile is executed. -/
theorem not_commitCovers : ¬ CommitCovers ⟨1, 60⟩ anyStep := by
  intro h
  have hrun : (run (guarded (step ⟨1, 60⟩) anyStep) init (storing.take 11 ++
      [.createCall 1 ['f'] [8], .naming (.create 1 .checkLive),
        .naming (.create 1 (.selectFile .table)), .naming (.create 1 (.selectChunks .table)),
        .naming (.create 1 (.place ['d'])), .naming (.create 1 (.reserve 0))])).any (fun s =>
      (s.calls 0).filename == ['f'] && (s.step ⟨1, 60⟩ (.commitExec 0)).any (fun s' =>
        decide (⟨['d'], ['f'], 0⟩ ∈ s'.naming.db.chunks) &&
          decide (⟨['d'], ['s']⟩ ∈ s'.naming.db.replicas) &&
            s'.acked.all (fun x => x.1 ≠ ['d']))) = true := by
    decide +kernel
  obtain ⟨s, hs, hp⟩ := exists_of_run hrun
  simp only [Bool.and_eq_true, decide_eq_true_eq, beq_iff_eq, Option.any_eq_true,
    List.all_eq_true] at hp
  obtain ⟨hname, s', hstep, ⟨hrow, hreplica⟩, hnone⟩ := hp
  obtain ⟨b, _, hb⟩ := h s s' 0 hs trivial hstep _ hrow hname.symm _ hreplica
  exact hnone _ hb rfl

end Cluster

end GfsCluster
