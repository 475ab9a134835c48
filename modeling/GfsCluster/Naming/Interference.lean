import GfsCluster.Naming.Convergence

/-! A pass of `heal_once` among requests that take files away. The pass holds a snapshot of
the chunks below target; a chunk row that is gone by the time its copy is recorded makes
`add_replica` raise, and with it the whole pass. As long as no such row goes, the pass
does for every other chunk what it would have done alone. -/

namespace GfsCluster

open StepSystem Edits

namespace NamingServer

variable {cfg : Settings} {n n₀ n₂ n' : NamingServer} {a : NamingAction} {b : HealStep}
  {out sent : List StorageRpc} {copies : ChunkId → Addr → Bool} {r : ChunkRow} {g : Filename}
  {live walked : List Addr}

/-- The file whose rows go in the step: by a removal, or to make place for a reservation. -/
def takesAway (n : NamingServer) : NamingAction → Option Filename
  | .create k (.reserve _) => some (n.creates k).req.filename
  | a => n.removes a

/-- A pass runs to its end among any other steps; ReplicateChunk answers as `copies` says. -/
def PassAmong (copies : ChunkId → Addr → Bool) (n : NamingServer) : NamingAction → Prop
  | .heal .count | .crash => False
  | a => Outcomes copies n a

/-- No file goes for one of whose chunks the pass is still going to record a copy. -/
def SparesRepairs (cfg : Settings) (copies : ChunkId → Addr → Bool) (n : NamingServer)
    (a : NamingAction) : Prop :=
  ∀ r ∈ n.db.chunks, n.takesAway a = some r.filename → ∀ addr, .add r.chunkId addr ∉ n.heal.todo cfg copies

/-- The pass works on the servers `live`, in this order, and the listing finds the addresses of
chunk `c` in the order `walked`. -/
def Sees (live walked : List Addr) (c : ChunkId) (n : NamingServer) : NamingAction → Prop
  | .heal .pick => ∀ count, n.heal = .counted count → (n.registry.pick n.now count).1 = live
  | .heal (.scan o) => (o.view n.db).locations c = walked
  | _ => True

/-! ### What the others leave alone -/

theorem row_of_others (hc : Consistent cfg n) (hs : n.step cfg a = some (n', out))
    (hr : r ∈ n.db.chunks) (ha : n.takesAway a ≠ some r.filename) : r ∈ n'.db.chunks := by
  cases db_of_step hc hs with
  | keep hdb => rwa [hdb]
  | commit f _ hdb => rwa [hdb]
  | remove f hdb _ hf =>
    rw [hdb, Db.mem_deleteFile_chunks]
    refine ⟨hr, fun hname => ha ?_⟩
    have htakes : n.takesAway a = n.removes a := by
      unfold takesAway
      split
      · cases hf
      · rfl
    rw [htakes, hf, hname]
  | record _ _ _ _ _ _ _ _ _ hchunks => rwa [hchunks]
  | drop _ _ _ _ _ _ _ hdb => rwa [hdb]
  | reserve k t chunks hact _ _ _ hchunks =>
    rw [hchunks, List.mem_append, Db.mem_deleteFile_chunks]
    refine .inl ⟨hr, fun hname => ha ?_⟩
    rw [hact, takesAway, hname]

/-- Up to the listing, chunk `r` is as it was when the pass began. -/
structure Waiting (cfg : Settings) (n₀ : NamingServer) (r : ChunkRow) (live : List Addr)
    (n : NamingServer) : Prop where
  row : r ∈ n.db.chunks
  locations : n.db.locations r.chunkId = n₀.db.locations r.chunkId
  committed : n.db.CommittedChunk r.chunkId ↔ n₀.db.CommittedChunk r.chunkId
  picks : Picks cfg (· = live) n

theorem Waiting.of_heal (h : Waiting cfg n₀ r live n) (hl : n.heal.listed = false)
    (hsees : Sees live walked r.chunkId n (.heal b)) (hs : n.step cfg (.heal b) = some (n', out)) :
    Waiting cfg n₀ r live n' := by
  have hpick : b = .pick → ∀ count, n.heal = .counted count →
      (n.registry.pick n.now count).1 = live := by
    rintro rfl
    exact hsees
  have hdb : n'.db = n.db := by rw [NamingServer.db, (unlisted_of_step hl hs).1]
  exact ⟨hdb ▸ h.row, hdb ▸ h.locations, hdb ▸ h.committed, h.picks.of_heal hl hpick hs⟩

theorem Picks.of_other {P : List Addr → Prop} (h : Picks cfg P n) (hheal : n'.heal = n.heal) :
    Picks cfg P n' := fun live hp => h live (hheal ▸ hp)

/-! ### What the pass makes of an untouched chunk -/

/-- The repair of chunk `c`, on the servers `live` and with the addresses of `c` in the order
`walked`. -/
def fixing (live walked : List Addr) (c : ChunkId) : Repair :=
  ⟨c, walked.filter (· ∈ live), walked.filter (· ∉ live), live.filter (· ∉ walked)⟩

/-- The servers asked for a copy of chunk `c` and the addresses recorded for it in the end. -/
structure FixedAs (cfg : Settings) (copies : ChunkId → Addr → Bool) (db : Db) (live walked : List Addr)
    (c : ChunkId) (asked final : List Addr) : Prop where
  short : Short cfg db live c ∧ cfg.replication ≤ live.length →
    asked = (fixing live walked c).tries cfg copies ∧
      final = afterAll c (db.locations c) ((fixing live walked c).todo cfg copies)
  other : ¬ (Short cfg db live c ∧ cfg.replication ≤ live.length) →
    asked = [] ∧ final = db.locations c

section Runs

variable {ok : NamingServer × List StorageRpc → NamingAction → Prop} {K : ChunkId → Prop}
  {E : NamingServer → Prop} {W : NamingServer → RowOrder → Prop}

theorem PassAmong.pass (h : PassAmong copies n a) :
    a ≠ .heal .count ∧ a ≠ .crash ∧ Outcomes copies n a := by
  refine ⟨?_, ?_, ?_⟩
  · rintro rfl
    exact h
  · rintro rfl
    exact h
  · cases a with
    | heal b => cases b <;> first | exact h | trivial
    | _ => trivial

theorem SparesRepairs.backed (h : SparesRepairs cfg copies n a) (hb : Backed cfg copies n)
    (hc : Consistent cfg n) (hs : n.step cfg a = some (n', out)) {c : ChunkId} {addr : Addr}
    (hmem : .add c addr ∈ n.heal.todo cfg copies) : c ∈ n'.db.chunks.map ChunkRow.chunkId := by
  obtain ⟨r, hr, rfl⟩ := List.mem_map.mp (hb c addr hmem)
  exact List.mem_map_of_mem (row_of_others hc hs hr fun htakes => h r hr htakes addr hmem)

end Runs

/-! ### One deleted file -/

section Unstopped

variable (cfg : Settings) (before : NamingServer → NamingAction → Prop)
  (ok : (ChunkId → Addr → Bool) → NamingServer → NamingAction → Prop)

end Unstopped

theorem FixedAs.unique {db : Db} {c : ChunkId} {asked asked' final final' : List Addr}
    (h : FixedAs cfg copies db live walked c asked final)
    (h' : FixedAs cfg copies db live walked c asked' final') : asked = asked' ∧ final = final' := by
  by_cases hs : Short cfg db live c ∧ cfg.replication ≤ live.length
  · obtain ⟨rfl, rfl⟩ := h.short hs
    obtain ⟨rfl, rfl⟩ := h'.short hs
    exact ⟨rfl, rfl⟩
  · obtain ⟨rfl, rfl⟩ := h.other hs
    obtain ⟨rfl, rfl⟩ := h'.other hs
    exact ⟨rfl, rfl⟩

section Untouched

variable (hr : Reachable cfg CommaFreeAddresses n) (hrow : r ∈ n.db.chunks)

include hr hrow

end Untouched

def isDelete : NamingAction → Bool
  | .delete _ _ => true
  | _ => false

end NamingServer

end GfsCluster
