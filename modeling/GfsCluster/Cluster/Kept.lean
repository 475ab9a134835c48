import GfsCluster.Cluster.Commit
import GfsCluster.Cluster.Repair

/-! Chunks that stay on disk. What a storage server has taken over is on its disk until it
is removed, and only chunks that are given up are removed. The chunks given up are a
parameter here: any set that grows, that has every chunk asked to be deleted in it and
every chunk that a scrub removes. -/

namespace GfsCluster

open StepSystem

namespace Cluster

variable {cfg : Settings} {s s' : Cluster} {a : ClusterAction} {addr : Addr} {c : ChunkId}
  {D D' : ChunkId → Prop}

/-- The server has the chunk file. -/
def Stored (s : Cluster) (addr : Addr) (c : ChunkId) : Prop := s.file addr c ≠ none

/-- Nothing is removed in the step that is not given up. -/
def RemovesOnly (D : ChunkId → Prop) (s : Cluster) (a : ClusterAction) : Prop :=
  (∀ addr c, .deleteChunk addr c ∈ s.net → D c) ∧ ∀ addr c, a = .scrubRemove addr c → D c

theorem stored_of_step (h : s.Stored addr c) (hs : s.step cfg a = some s') (hrem : RemovesOnly D s a) :
    D c ∨ s'.Stored addr c := by
  unfold Stored at h ⊢
  cases file_of_step hs addr c with
  | keep h' =>
    rw [h']
    exact .inr h
  | store _ _ _ _ _ _ _ _ h' =>
    rw [h']
    exact .inr (by simp)
  | copy _ _ _ _ _ h' =>
    rw [h']
    exact .inr (by simp)
  | delete i _ hi _ => exact .inl (hrem.1 addr c (List.mem_of_getElem? hi))
  | scrub _ ha _ _ _ => exact .inl (hrem.2 addr c ha)

theorem stored_of_copyStore {i ticket : ℕ} {b : Bytes} (hs : s.step cfg (.copyStore i) = some s')
    (hi : s.net[i]? = some (.replicateData ticket addr c b)) : s'.Stored addr c := by
  simp only [step, hi, Option.some.injEq] at hs
  subst hs
  have hfile := (file_write s addr addr c c b).trans (if_pos ⟨rfl, rfl⟩)
  intro hnone
  exact absurd (hfile.symm.trans hnone) (by simp)

/-- What storage servers have received, acknowledged and copied, and what the metadata
records of committed files, is given up or on disk. -/
structure Kept (D : ChunkId → Prop) (s : Cluster) : Prop where
  received : ∀ k addr batch j, .storeChunks k addr batch j ∈ s.net → ∀ x ∈ batch.take j,
    D x.1 ∨ s.Stored addr x.1
  acked : ∀ c addr b, (c, addr, b) ∈ s.acked → D c ∨ s.Stored addr c
  landed : ∀ c addr, s.Landed addr c → D c ∨ s.Stored addr c
  recorded : ∀ c addr, s.naming.db.CommittedChunk c → ⟨c, addr⟩ ∈ s.naming.db.replicas →
    D c ∨ s.Stored addr c

namespace Kept

theorem init : Kept D Cluster.init where
  received k addr batch j h := by simp [Cluster.init] at h
  acked c addr b h := by simp [Cluster.init] at h
  landed c addr h := by
    simp [Landed, Cluster.init, NamingServer.init, HealPhase.unrecorded, HealPhase.asked] at h
  recorded c addr _ h := by cases h

theorem received_of_step (h : Kept D s) (hs : s.step cfg a = some s')
    (hkeep : ∀ addr c, D c ∨ s.Stored addr c → D c ∨ s'.Stored addr c) {k j : ℕ}
    {batch : List (ChunkId × Bytes)} (hm : .storeChunks k addr batch j ∈ s'.net)
    {x : ChunkId × Bytes} (hx : x ∈ batch.take j) : D x.1 ∨ s'.Stored addr x.1 := by
  cases net_of_step hs hm with
  | old hold => exact hkeep addr x.1 (h.received k addr batch j hold x hx)
  | sent _ _ _ _ _ _ _ _ hm =>
    cases hm
    cases hx
  | stored _ _ _ j' hold hm c b hj hf =>
    cases hm
    rw [List.take_add_one, hj, List.mem_append] at hx
    rcases hx with hx | hx
    · exact hkeep addr x.1 (h.received k addr batch j' hold x hx)
    · rw [Option.toList_some, List.mem_singleton] at hx
      subst hx
      exact .inr (by rw [Stored, hf]; simp)
  | rpc _ _ r _ _ _ hm => cases r <;> cases hm
  | fetched _ _ _ _ _ _ _ hm => cases hm

theorem acked_of_step (h : Kept D s) (hs : s.step cfg a = some s')
    (hkeep : ∀ addr c, D c ∨ s.Stored addr c → D c ∨ s'.Stored addr c) {b : Bytes}
    (hx : (c, addr, b) ∈ s'.acked) : D c ∨ s'.Stored addr c := by
  apply hkeep
  rcases Cluster.acked_of_step hs with he | ⟨k, j, i, us, addr', batch, rest, _, _, hi, _, _, he⟩
  · rw [he] at hx
    exact h.acked c addr b hx
  · rw [he, List.mem_append] at hx
    rcases hx with hx | hx
    · exact h.acked c addr b hx
    · obtain ⟨x, hmem, hx⟩ := List.mem_map.mp hx
      cases hx
      exact h.received k addr batch _ (List.mem_of_getElem? hi) x (by rwa [List.take_length])

theorem landed_of_step (h : Kept D s) (ht : Tickets s) (hs : s.step cfg a = some s')
    (hkeep : ∀ addr c, D c ∨ s.Stored addr c → D c ∨ s'.Stored addr c) (hl : s'.Landed addr c) :
    D c ∨ s'.Stored addr c := by
  rcases Cluster.landed_of_step ht hs hl with hl | ⟨i, t, b, rfl, hi⟩
  · exact hkeep addr c (h.landed c addr hl)
  · exact .inr (stored_of_copyStore hs hi)

/-- What is recorded was recorded before or copied for the healer, and where its file is
committed by the step it was acknowledged. -/
theorem recorded_of_step (h : Kept D s) (hc : s.naming.Consistent cfg) (hs : s.step cfg a = some s')
    (hkeep : ∀ addr c, D c ∨ s.Stored addr c → D c ∨ s'.Stored addr c)
    (hcover : ∀ k r addr, a = .commitExec k → r ∈ s.naming.db.chunks →
      r.filename = (s.calls k).filename → ¬ s.naming.db.CommittedChunk r.chunkId →
      ⟨r.chunkId, addr⟩ ∈ s.naming.db.replicas → D r.chunkId ∨ s.Acked r.chunkId addr)
    (hcom : s'.naming.db.CommittedChunk c) (hr : ⟨c, addr⟩ ∈ s'.naming.db.replicas) :
    D c ∨ s'.Stored addr c := by
  apply hkeep
  obtain ⟨r, hrow', rfl, hF⟩ := hcom
  have hcom : s'.naming.db.CommittedChunk r.chunkId := ⟨r, hrow', rfl, hF⟩
  rcases naming_of_step hs with he | ⟨b, out, hd, hn⟩
  · rw [he] at hcom hr
    exact h.recorded _ addr hcom hr
  · have hrow : r ∈ s.naming.db.chunks := by
      by_contra hrow
      exact NamingServer.not_committed_of_new_row hc hn hrow' hrow hcom
    have hborn := hc.row_born hrow
    rcases Cluster.recorded_of_step hc hs hr with hold | hnew | ⟨_, hu⟩
    · by_cases hbefore : s.naming.db.CommittedChunk r.chunkId
      · exact h.recorded _ addr hbefore hold
      · rcases NamingServer.committed_before_step hc hn hrow hrow' hcom with hbefore' | rfl
        · exact absurd hbefore' hbefore
        · obtain ⟨k, rfl, hname⟩ := commit_of_drives hd
          rcases hcover k r addr rfl hrow hname hbefore hold with hD | ⟨x, _, hx⟩
          · exact .inl hD
          · exact h.acked _ addr x hx
    · exact absurd hborn (hnew _)
    · exact h.landed _ addr (.inl hu)

theorem mono (h : Kept D s) (hD : ∀ c, D c → D' c) : Kept D' s where
  received k addr batch j hm x hx := (h.received k addr batch j hm x hx).imp_left (hD _)
  acked c addr b hx := (h.acked c addr b hx).imp_left (hD _)
  landed c addr hl := (h.landed c addr hl).imp_left (hD _)
  recorded c addr hcom hr := (h.recorded c addr hcom hr).imp_left (hD _)

theorem of_step (h : Kept D s) (hc : s.naming.Consistent cfg) (ht : Tickets s)
    (hs : s.step cfg a = some s') (hrem : RemovesOnly D s a)
    (hcover : ∀ k r addr, a = .commitExec k → r ∈ s.naming.db.chunks →
      r.filename = (s.calls k).filename → ¬ s.naming.db.CommittedChunk r.chunkId →
      ⟨r.chunkId, addr⟩ ∈ s.naming.db.replicas → D r.chunkId ∨ s.Acked r.chunkId addr) : Kept D s' := by
  have hkeep : ∀ addr c, D c ∨ s.Stored addr c → D c ∨ s'.Stored addr c := by
    rintro addr c (hD | hstored)
    · exact .inl hD
    · exact stored_of_step hstored hs hrem
  exact ⟨fun k addr batch j hm x hx => h.received_of_step hs hkeep hm hx,
    fun c addr b hx => h.acked_of_step hs hkeep hx,
    fun c addr hl => h.landed_of_step ht hs hkeep hl,
    fun c addr hcom hr => h.recorded_of_step hc hs hkeep hcover hcom hr⟩

end Kept

end Cluster

end GfsCluster
