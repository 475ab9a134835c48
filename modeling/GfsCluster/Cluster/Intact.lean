import GfsCluster.Cluster.Undisturbed
import GfsCluster.Naming.Doomed

/-! Recorded means stored, in any order of steps that no failure of the naming server's
own crosses. Where every CommitFile is executed on a version of its own call, no scrub
removes a file and no overwrite fails halfway, what the metadata records of a committed
file is on disk, except while the file is being overwritten. -/

namespace GfsCluster

open StepSystem

namespace Cluster

variable {cfg : Settings} {s s' : Cluster} {a : ClusterAction} {k : ℕ} {c : ChunkId}

/-- No scrub removes a file, every CommitFile is executed on a version of its own call,
and no overwrite fails halfway. -/
def Orderly (cfg : Settings) (s : Cluster) : ClusterAction → Prop
  | .naming b => NamingServer.KeepsPlacing cfg s.naming b
  | .commitExec k => OwnCommit s (.commitExec k)
  | .scrubRemove _ _ => False
  | _ => True

theorem Orderly.keepsPlacing {b : NamingAction} (h : Orderly cfg s a) (hd : s.Drives a b) :
    NamingServer.KeepsPlacing cfg s.naming b := by
  cases hd with
  | free _ _ => exact h
  | create _ _ _ _ => trivial
  | commit _ _ => trivial

structure Intact (s : Cluster) : Prop where
  purges : s.naming.PurgesDoomed
  deletes : ∀ addr c, .deleteChunk addr c ∈ s.net → s.naming.Doomed c
  committed : ∀ k, CommittedBy k s
  kept : Kept s.naming.Doomed s

namespace Intact

theorem init : Intact Cluster.init where
  purges e he := by simp [Cluster.init, NamingServer.init] at he
  deletes addr c hm := by simp [Cluster.init] at hm
  committed k r hr := by cases hr
  kept := Kept.init

theorem doomed_of_step (hc : s.naming.Consistent cfg) (hok : Orderly cfg s a)
    (hs : s.step cfg a = some s') (h : s.naming.Doomed c) : s'.naming.Doomed c := by
  rcases naming_of_step hs with he | ⟨b, out, hd, hn⟩
  · rwa [he]
  · exact h.of_step hc (hok.keepsPlacing hd) hn

theorem deletes_of_step (h : Intact s) (hc : s.naming.Consistent cfg)
    (hp : s.naming.PendingDeletes) (hok : Orderly cfg s a) (hs : s.step cfg a = some s')
    {addr : Addr} (hm : .deleteChunk addr c ∈ s'.net) : s'.naming.Doomed c := by
  apply doomed_of_step hc hok hs
  cases net_of_step hs hm with
  | old hold => exact h.deletes addr c hold
  | rpc b out r _ hn hr hm =>
    cases r with
    | replicateChunk => cases hm
    | deleteChunk addr' c' =>
      cases hm
      exact NamingServer.doomed_of_deleteChunk h.purges hp hn hr
  | sent _ _ _ _ _ _ _ _ hm => cases hm
  | stored _ _ _ _ _ hm => cases hm
  | fetched _ _ _ _ _ _ _ hm => cases hm

theorem own_of_commitExec (hc : s.naming.Consistent cfg) (hok : Orderly cfg s (.commitExec k))
    {r : ChunkRow} (hr : r ∈ s.naming.db.chunks) (hname : r.filename = (s.calls k).filename) :
    ∃ i, (⟨r.chunkId, k, i⟩ : Issue) ∈ s.naming.issued ∧
      ∀ j i', (⟨r.chunkId, j, i'⟩ : Issue) ∈ s.naming.issued → k = j := by
  obtain ⟨e, he, hid, rfl⟩ := hok r hr hname
  refine ⟨e.index, hid ▸ he, fun j i' hi => ?_⟩
  rw [hc.issue_unique he hi hid]

theorem of_step (h : Intact s) (hs : Reachable cfg (Orderly cfg) s) (hok : Orderly cfg s a)
    (hstep : s.step cfg a = some s') : Intact s' := by
  have hc := hs.consistent
  refine ⟨?_, fun addr c hm => h.deletes_of_step hc hs.naming.pendingDeletes hok hstep hm, ?_, ?_⟩
  · rcases naming_of_step hstep with he | ⟨b, out, hd, hn⟩
    · rw [he]
      exact h.purges
    · exact h.purges.of_step hc (hok.keepsPlacing hd) hn
  · intro k
    refine (h.committed k).of_step hs.requests hs.uploads hc hstep ?_
    rintro j rfl r hr hname i hi
    obtain ⟨_, _, hown⟩ := own_of_commitExec hc hok hr hname
    exact hown k i hi
  · have hrem : RemovesOnly s.naming.Doomed s a := by
      refine ⟨h.deletes, ?_⟩
      rintro addr c rfl
      exact absurd hok id
    refine (h.kept.of_step hc hs.tickets hstep hrem ?_).mono fun c => doomed_of_step hc hok hstep
    rintro k r addr rfl hr hname _ haddr
    obtain ⟨i, hi, _⟩ := own_of_commitExec hc hok hr hname
    obtain ⟨hsent, _⟩ := commitExec_cases hc hstep
    exact .inr (acked_of_sent hs (h.committed k) hsent hr hi haddr)

end Intact

theorem Reachable.intact (h : Reachable cfg (Orderly cfg) s) : Intact s :=
  Steps.invariant (P := Intact) h Intact.init fun _ _ _ ht h hok hs => h.of_step ht hok hs

/-- Every recorded replica of a committed chunk is a file with the bytes that its creator
assigned to it. -/
def RecordedStored (s : Cluster) : Prop :=
  ∀ r ∈ s.naming.db.chunks, s.naming.db.CommittedChunk r.chunkId → ∀ addr,
    ⟨r.chunkId, addr⟩ ∈ s.naming.db.replicas → ∃ k b, (s.calls k).filename = r.filename ∧
      (⟨r.chunkId, k, r.idx⟩ : Issue) ∈ s.naming.issued ∧
        (splitChunks (s.calls k).data)[r.idx]? = some b ∧ s.file addr r.chunkId = some b

theorem Reachable.recordedStored (h : Reachable cfg (Orderly cfg) s)
    (hidle : ∀ k chunks, (s.naming.creates k).phase ≠ .placing chunks) : RecordedStored s := by
  intro r hr hcom addr haddr
  have hstored : s.Stored addr r.chunkId := by
    rcases h.intact.kept.recorded r.chunkId addr hcom haddr with hdoomed | hstored
    · exact absurd hdoomed (NamingServer.not_doomed (List.mem_map_of_mem hr) hidle)
    · exact hstored
  obtain ⟨b, hb⟩ := Option.ne_none_iff_exists'.mp hstored
  obtain ⟨F, _, hname, k, hv, hi⟩ := h.consistent.row_issued hr
  obtain ⟨k', i, hi', _, hget⟩ := h.carried.files addr r.chunkId b hb
  have he := h.consistent.issue_unique hi hi' rfl
  simp only [Issue.mk.injEq, true_and] at he
  obtain ⟨rfl, rfl⟩ := he
  have hreq := (h.requests.sent k (h.requests.begun hv.reserved)).2
  refine ⟨k, b, ?_, hi, hget, hb⟩
  rw [← hname, ← hv.name, hreq]
  rfl

end Cluster

end GfsCluster
