import GfsCluster.Lib.Grouping
import GfsCluster.Lib.Slices
import GfsCluster.Naming.Server

/-! The write side of `GFSClient`: splitting a file into chunks, and grouping the writes
of a placement plan by storage server into batches. -/

namespace GfsCluster

open Slices Grouping

/-- `_split_chunks`. -/
def splitChunks (data : Bytes) : List Bytes := slices chunkSize data

def createRequest (f : Filename) (data : Bytes) : CreateFileRequest :=
  ⟨f, data.length, (splitChunks data).length⟩

/-- The loop that fills `by_addr`; `none` where `chunks[placement.index]` raises. -/
def uploadPlan (chunks : List Bytes) (placements : List ChunkPlacement) :
    Option (List (Addr × List (ChunkId × Bytes))) :=
  if placements.all (·.index < chunks.length) then
    some (group (placements.flatMap fun p => p.locations.map fun addr =>
      (addr, p.chunkId, chunks[p.index]?.getD [])))
  else none

/-- The batches of `_upload`. -/
def uploadBatches (writes : List (ChunkId × Bytes)) : List (List (ChunkId × Bytes)) :=
  slices batchSize writes

/-- `_chunk_id_batches`. -/
def chunkIdBatches (chunkIds : List ChunkId) : List (List ChunkId) := slices batchSize chunkIds

variable {data : Bytes} {chunks : List Bytes} {placements : List ChunkPlacement}
  {plan : List (Addr × List (ChunkId × Bytes))}

theorem flatten_splitChunks (data : Bytes) : (splitChunks data).flatten = data :=
  flatten_slices (by decide) data

/-- The number of chunks is the number of kilobytes begun. -/
theorem length_splitChunks (data : Bytes) :
    (splitChunks data).length = (data.length + chunkSize - 1) / chunkSize :=
  length_slices _ _

/-- Every placement is written to each of its locations, and nothing else is. -/
theorem mem_uploadPlan (h : uploadPlan chunks placements = some plan) {addr : Addr} {c : ChunkId}
    {b : Bytes} : (∃ writes, (addr, writes) ∈ plan ∧ (c, b) ∈ writes) ↔
      ∃ p ∈ placements, addr ∈ p.locations ∧ p.chunkId = c ∧ chunks[p.index]? = some b := by
  simp only [uploadPlan, List.all_eq_true, decide_eq_true_eq] at h
  split_ifs at h with hall
  cases h
  rw [mem_group]
  simp only [List.mem_flatMap, List.mem_map, Prod.mk.injEq]
  constructor
  · rintro ⟨p, hp, _, haddr, rfl, rfl, rfl⟩
    exact ⟨p, hp, haddr, rfl, by simp [hall p hp]⟩
  · rintro ⟨p, hp, haddr, rfl, hb⟩
    exact ⟨p, hp, addr, haddr, rfl, rfl, by rw [hb]; rfl⟩

/-- Each server gets its chunks from one `_upload`. -/
theorem uploadPlan_keys_nodup (h : uploadPlan chunks placements = some plan) :
    (plan.map Prod.fst).Nodup := by
  simp only [uploadPlan] at h
  split_ifs at h
  cases h
  exact group_keys_nodup _

theorem exists_chunk_of_uploadPlan (h : uploadPlan chunks placements = some plan)
    {p : ChunkPlacement} (hp : p ∈ placements) : ∃ b, chunks[p.index]? = some b := by
  simp only [uploadPlan, List.all_eq_true, decide_eq_true_eq] at h
  split_ifs at h with hall
  exact ⟨_, List.getElem?_eq_getElem (hall p hp)⟩

theorem mem_uploadBatches {writes : List (ChunkId × Bytes)} {x : ChunkId × Bytes} :
    (∃ batch ∈ uploadBatches writes, x ∈ batch) ↔ x ∈ writes :=
  ⟨fun ⟨_, hbatch, hx⟩ => mem_of_mem_slices hbatch hx, exists_slice_of_mem (by decide)⟩

end GfsCluster
