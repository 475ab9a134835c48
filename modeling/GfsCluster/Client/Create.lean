import Mathlib.Data.List.Flatten
import Mathlib.Data.List.Infix
import GfsCluster.Client.Upload
import GfsCluster.Storage.Refinement

/-! `GFSClient.create`, from the answer of CreateFile on. Every storage server of the plan
gets its chunks from one thread, batch by batch, until a call fails; CommitFile is sent
when no thread failed. Threads share nothing, since each talks to a server of its own. -/

namespace GfsCluster

open Directory Grouping

/-- The chunks of one StoreChunks request. -/
abbrev Batch := List (ChunkId × Bytes)

/-- What becomes of a StoreChunks call. The server answers after what its file system does
with each item, or the call raises, and the server has handled some of the items or none. -/
inductive BatchOutcome
  | replied (fs : ℕ → WriteOutcome)
  | rpcError (handled : ℕ) (fs : ℕ → WriteOutcome)

structure CommitFileResponse where
  ok : Bool
  message : String

inductive CreateError
  | gfsError (message : String)
  | rpcError
  | indexError

def writeItems (batch : Batch) (fs : ℕ → WriteOutcome) : List WriteItem :=
  batch.zipIdx.map fun x => ⟨x.1.1, x.1.2, fs x.2⟩

def StorageServer.answerBatch (s : StorageServer) (batch : Batch) :
    BatchOutcome → Option StoreChunksResponse × StorageServer
  | .replied fs => (some (s.storeChunks (writeItems batch fs)).1, (s.storeChunks (writeItems batch fs)).2)
  | .rpcError handled fs => (none, (s.storeChunks ((writeItems batch fs).take handled)).2)

/-- One thread: the batches sent and whether each was acknowledged, what it raised, and its
server after that. -/
structure UploadRun where
  sent : List (Batch × Bool)
  error : Option CreateError
  server : StorageServer

/-- `_upload`, after `n` batches. -/
def uploadLoop (addr : Addr) (outcome : ℕ → BatchOutcome) : ℕ → StorageServer → List Batch → UploadRun
  | _, s, [] => ⟨[], none, s⟩
  | n, s, batch :: batches =>
    match s.answerBatch batch (outcome n) with
    | (none, s') => ⟨[(batch, false)], some .rpcError, s'⟩
    | (some resp, s') =>
      if resp.ok then
        let u := uploadLoop addr outcome (n + 1) s' batches
        { u with sent := (batch, true) :: u.sent }
      else ⟨[(batch, false)], some (.gfsError
        ("batch write failed on " ++ String.ofList addr ++ ": " ++ resp.message)), s'⟩

/-- What the client runs against: the storage servers, what becomes of their batches, the
order in which `as_completed` yields the threads, and the answer to CommitFile, if any. -/
structure Network where
  servers : Addr → StorageServer
  outcome : Addr → ℕ → BatchOutcome
  order : List (Addr × UploadRun) → List (Addr × UploadRun)
  commit : Option CommitFileResponse

structure CreateRun where
  uploads : List (Addr × UploadRun)
  commitSent : Bool
  result : Except CreateError Unit

namespace Network

variable (net : Network)

def upload (g : Addr × List (ChunkId × Bytes)) : Addr × UploadRun :=
  (g.1, uploadLoop g.1 (net.outcome g.1) 0 (net.servers g.1) (uploadBatches g.2))

/-- The end of `create`. -/
def commitFile : Except CreateError Unit :=
  match net.commit with
  | none => .error .rpcError
  | some resp => if resp.ok then .ok () else .error (.gfsError ("commit failed: " ++ resp.message))

/-- `create`. -/
def create (resp : CreateFileResponse) (data : Bytes) : CreateRun :=
  if resp.ok then
    match uploadPlan (splitChunks data) resp.placements with
    | none => ⟨[], false, .error .indexError⟩
    | some plan =>
      match (net.order (plan.map net.upload)).findSome? (·.2.error) with
      | some e => ⟨plan.map net.upload, false, .error e⟩
      | none => ⟨plan.map net.upload, true, net.commitFile⟩
  else ⟨[], false, .error (.gfsError ("create rejected: " ++ resp.message))⟩

end Network

/-! ### One thread -/

section Thread

variable {addr : Addr} {outcome : ℕ → BatchOutcome} {n : ℕ} {s : StorageServer} {batches : List Batch}

theorem sent_uploadLoop : ((uploadLoop addr outcome n s batches).sent.map Prod.fst) <+: batches := by
  induction batches generalizing n s with
  | nil => exact List.prefix_refl _
  | cons batch batches ih =>
    have hone : [batch] <+: batch :: batches := ⟨batches, rfl⟩
    unfold uploadLoop
    split
    · exact hone
    · split_ifs
      · exact List.prefix_cons_inj batch |>.mpr ih
      · exact hone

/-- A thread that raised has sent a batch that was not acknowledged. -/
theorem exists_unacknowledged {e : CreateError}
    (h : (uploadLoop addr outcome n s batches).error = some e) :
    ∃ batch, (batch, false) ∈ (uploadLoop addr outcome n s batches).sent := by
  induction batches generalizing n s with
  | nil => cases h
  | cons batch batches ih =>
    unfold uploadLoop at h ⊢
    split at h
    · exact ⟨batch, List.mem_singleton_self _⟩
    · split_ifs at h ⊢
      · obtain ⟨batch', hin⟩ := ih h
        exact ⟨batch', List.mem_cons_of_mem _ hin⟩
      · exact ⟨batch, List.mem_singleton_self _⟩

/-- A thread that did not raise has sent all its batches, and all were acknowledged. -/
theorem sent_of_error_none (h : (uploadLoop addr outcome n s batches).error = none) :
    (uploadLoop addr outcome n s batches).sent = batches.map (·, true) := by
  induction batches generalizing n s with
  | nil => rfl
  | cons batch batches ih =>
    unfold uploadLoop at h ⊢
    split at h
    · cases h
    · split_ifs at h ⊢
      rw [List.map_cons, ← ih h]

/-- The map after the chunks were written over it. -/
def writeAll (M : ChunkMap) (xs : Batch) : ChunkMap :=
  xs.foldl (fun M x => Function.update M x.1 (some x.2)) M

theorem writeAll_of_not_mem {M : ChunkMap} {xs : Batch} {c : ChunkId} (h : c ∉ xs.map Prod.fst) :
    writeAll M xs c = M c := by
  induction xs generalizing M with
  | nil => rfl
  | cons x xs ih =>
    rw [List.map_cons, List.mem_cons, not_or] at h
    exact (ih h.2).trans (Function.update_of_ne h.1 _ _)

theorem writeAll_of_mem {M : ChunkMap} {xs : Batch} {c : ChunkId} {b : Bytes}
    (hids : (xs.map Prod.fst).Nodup) (h : (c, b) ∈ xs) : writeAll M xs c = some b := by
  induction xs generalizing M with
  | nil => cases h
  | cons x xs ih =>
    rw [List.map_cons, List.nodup_cons] at hids
    rcases List.mem_cons.mp h with rfl | h
    · exact (writeAll_of_not_mem hids.1).trans (Function.update_self _ _ _)
    · exact ih hids.2 h

theorem held_answerBatch {batch : Batch} {o : BatchOutcome} {resp : StoreChunksResponse}
    {s' : StorageServer} (h : s.answerBatch batch o = (some resp, s')) (hok : resp.ok = true) :
    held s'.dir = writeAll (held s.dir) batch := by
  cases o with
  | rpcError handled fs => cases h
  | replied fs =>
    cases h
    have hitems : (writeItems batch fs).map (fun it => (it.chunkId, it.data)) = batch := by
      rw [writeItems, List.map_map]
      exact List.zipIdx_map_fst 0 batch
    rw [StorageServer.storeChunks, StorageServer.held_storeLoop_of_ok hok, writeAll]
    conv_rhs => rw [← hitems]
    rw [List.foldl_map]

/-- A thread that did not raise leaves every chunk of its batches on its server. -/
theorem held_of_error_none (h : (uploadLoop addr outcome n s batches).error = none) :
    held (uploadLoop addr outcome n s batches).server.dir =
      writeAll (held s.dir) batches.flatten := by
  induction batches generalizing n s with
  | nil => rfl
  | cons batch batches ih =>
    unfold uploadLoop at h ⊢
    split at h
    · cases h
    · rename_i resp s' hanswer
      split_ifs at h ⊢ with hok
      rw [List.flatten_cons, writeAll, List.foldl_append]
      show held (uploadLoop addr outcome (n + 1) s' batches).server.dir = _
      rw [ih h, held_answerBatch hanswer hok]
      rfl

end Thread

/-! ### The whole call -/

namespace CreateRun

variable (run : CreateRun)

/-- The requests sent, each to its server. -/
def sent : List (Addr × Batch) := run.uploads.flatMap fun u => u.2.sent.map fun x => (u.1, x.1)

def writes : List (Addr × ChunkId × Bytes) := run.sent.flatMap fun x => x.2.map (Prod.mk x.1)

/-- Every batch of every server was sent and acknowledged. -/
def Acknowledged (chunks : List Bytes) (placements : List ChunkPlacement) : Prop :=
  ∃ plan, uploadPlan chunks placements = some plan ∧
    ∀ g ∈ plan, ∃ u ∈ run.uploads, u.1 = g.1 ∧ u.2.sent = (uploadBatches g.2).map (·, true)

/-- What is sent goes where the plan says, and CommitFile covers nothing that is not stored. -/
structure CommitsStored (chunks : List Bytes) (resp : CreateFileResponse) : Prop where
  /-- No chunk is sent twice to one server. -/
  once : (run.writes.map fun w => (w.1, w.2.1)).Nodup
  directed : ∀ addr c b, (addr, c, b) ∈ run.writes →
    ∃ p ∈ resp.placements, addr ∈ p.locations ∧ p.chunkId = c ∧ chunks[p.index]? = some b
  batches : ∀ x ∈ run.sent, x.2.length ≤ batchSize
  commits : run.commitSent = true ↔ resp.ok = true ∧ run.Acknowledged chunks resp.placements
  stored : run.commitSent = true → ∀ p ∈ resp.placements, ∀ addr ∈ p.locations,
    ∃ b, chunks[p.index]? = some b ∧ (addr, p.chunkId, b) ∈ run.writes ∧
      ∃ u ∈ run.uploads, u.1 = addr ∧ held u.2.server.dir p.chunkId = some b
  raises : run.commitSent = false → ∃ e, run.result = .error e

end CreateRun

section Plan

variable {chunks : List Bytes} {placements : List ChunkPlacement}
  {plan : List (Addr × List (ChunkId × Bytes))} {net : Network} {resp : CreateFileResponse}
  {data : Bytes}

/-- A placement for every index gives a plan. -/
theorem exists_uploadPlan
    (hindex : (placements.map ChunkPlacement.index).Perm (List.range chunks.length)) :
    ∃ plan, uploadPlan chunks placements = some plan := by
  have hall : placements.all (·.index < chunks.length) = true := by
    simp only [List.all_eq_true, decide_eq_true_eq]
    intro p hp
    exact List.mem_range.mp (hindex.mem_iff.mp (List.mem_map_of_mem hp))
  exact ⟨_, by rw [uploadPlan, if_pos hall]⟩

/-- The plan sends each chunk once to each of its locations. -/
theorem nodup_uploadPlan (h : uploadPlan chunks placements = some plan)
    (hids : (placements.map ChunkPlacement.chunkId).Nodup)
    (hlocs : ∀ p ∈ placements, p.locations.Nodup) :
    ((plan.flatMap fun g => g.2.map (Prod.mk g.1)).map fun w => (w.1, w.2.1)).Nodup := by
  simp only [uploadPlan] at h
  split_ifs at h
  cases h
  rw [((entries_group _).map _).nodup_iff, List.map_flatMap]
  simp only [List.map_map]
  rw [List.nodup_flatMap]
  constructor
  · intro p hp
    refine List.Nodup.map (fun a a' h => ?_) (hlocs p hp)
    exact (Prod.mk.inj h).1
  · refine (List.pairwise_map.mp hids).imp fun hne => ?_
    intro x hx hy
    obtain ⟨a, _, rfl⟩ := List.mem_map.mp hx
    obtain ⟨a', _, hxy⟩ := List.mem_map.mp hy
    exact hne (Prod.mk.inj hxy).2.symm

theorem nodup_ids_of_mem
    (h : ((plan.flatMap fun g => g.2.map (Prod.mk g.1)).map fun w => (w.1, w.2.1)).Nodup)
    {g : Addr × List (ChunkId × Bytes)} (hg : g ∈ plan) : (g.2.map Prod.fst).Nodup := by
  rw [List.map_flatMap, List.nodup_flatMap] at h
  have hgroup := h.1 g hg
  rw [List.map_map] at hgroup
  apply List.Nodup.of_map (Prod.mk g.1)
  rw [List.map_map]
  exact hgroup

/-- What was sent of the plan, each thread's part being a beginning of its batches. -/
theorem writes_sublist (net : Network) (plan : List (Addr × List (ChunkId × Bytes)))
    (commitSent : Bool) (result : Except CreateError Unit) :
    (CreateRun.writes ⟨plan.map net.upload, commitSent, result⟩).Sublist
      (plan.flatMap fun g => g.2.map (Prod.mk g.1)) := by
  rw [CreateRun.writes, CreateRun.sent, List.flatMap_map, List.flatMap_assoc]
  refine List.Sublist.flatMap_right _ fun g _ => ?_
  have hsent : ((net.upload g).2.sent.map fun x => ((net.upload g).1, x.1)).flatMap
        (fun x => x.2.map (Prod.mk x.1)) =
      (((net.upload g).2.sent.map Prod.fst).flatten).map (Prod.mk g.1) := by
    rw [List.flatMap_map, List.map_flatten, List.map_map, List.flatMap_def]
    rfl
  have hbatches : (uploadBatches g.2).flatten = g.2 := Slices.flatten_slices (by decide) g.2
  rw [hsent]
  conv_rhs => rw [← hbatches]
  exact (sent_uploadLoop.flatten.map _).sublist

/-- A thread that did not raise leaves its chunks on its server. -/
theorem held_upload {g : Addr × List (ChunkId × Bytes)} (h : (net.upload g).2.error = none)
    (hids : (g.2.map Prod.fst).Nodup) {c : ChunkId} {b : Bytes} (hin : (c, b) ∈ g.2) :
    held (net.upload g).2.server.dir c = some b := by
  have hbatches : (uploadBatches g.2).flatten = g.2 := Slices.flatten_slices (by decide) g.2
  rw [Network.upload] at h ⊢
  rw [held_of_error_none h, hbatches]
  exact writeAll_of_mem hids hin

/-- The run consists of the threads; CommitFile is sent when none of them raised. -/
theorem create_run (hplan : uploadPlan (splitChunks data) resp.placements = some plan)
    (hok : resp.ok = true) (horder : ∀ us, (net.order us).Perm us) : ∃ commitSent result,
      net.create resp data = ⟨plan.map net.upload, commitSent, result⟩ ∧
      (commitSent = true ∧ (∀ g ∈ plan, (net.upload g).2.error = none) ∨
        commitSent = false ∧ ∃ g ∈ plan, ∃ e, (net.upload g).2.error = some e ∧ result = .error e) := by
  unfold Network.create
  rw [if_pos hok, hplan]
  simp only
  cases hfind : (net.order (plan.map net.upload)).findSome? (·.2.error) with
  | none =>
    refine ⟨true, _, rfl, .inl ⟨rfl, fun g hg => ?_⟩⟩
    exact List.findSome?_eq_none_iff.mp hfind _ ((horder _).mem_iff.mpr (List.mem_map_of_mem hg))
  | some e =>
    obtain ⟨u, hu, he⟩ := List.exists_of_findSome?_eq_some hfind
    obtain ⟨g, hg, rfl⟩ := List.mem_map.mp ((horder _).mem_iff.mp hu)
    exact ⟨false, _, rfl, .inr ⟨rfl, g, hg, e, he, rfl⟩⟩

/-- When CreateFile was rejected, nothing is sent. -/
theorem create_rejected (hok : resp.ok = false) : (net.create resp data).CommitsStored chunks resp := by
  unfold Network.create
  rw [hok]
  exact ⟨List.nodup_nil, nofun, nofun, iff_of_false Bool.false_ne_true fun h => by simp [hok] at h,
    nofun, fun _ => ⟨_, rfl⟩⟩

/-- All batches were acknowledged when no thread raised. -/
theorem acknowledged_iff (hplan : uploadPlan chunks placements = some plan) (commitSent : Bool)
    (result : Except CreateError Unit) :
    CreateRun.Acknowledged ⟨plan.map net.upload, commitSent, result⟩ chunks placements ↔
      ∀ g ∈ plan, (net.upload g).2.error = none := by
  constructor
  · rintro ⟨plan', hplan', hall⟩ g hg
    obtain rfl : plan = plan' := Option.some.inj (hplan.symm.trans hplan')
    obtain ⟨u, hu, hkey, hsent⟩ := hall g hg
    obtain ⟨g', hg', rfl⟩ := List.mem_map.mp hu
    have hsame : g' = g := List.inj_on_of_nodup_map (uploadPlan_keys_nodup hplan) hg' hg hkey
    subst hsame
    by_contra hne
    obtain ⟨e, he⟩ := Option.ne_none_iff_exists'.mp hne
    obtain ⟨batch, hbatch⟩ := exists_unacknowledged he
    have hin : (batch, false) ∈ (uploadBatches g'.2).map (·, true) := hsent ▸ hbatch
    obtain ⟨_, _, hfalse⟩ := List.mem_map.mp hin
    cases hfalse
  · intro hnone
    refine ⟨plan, hplan, fun g hg => ?_⟩
    exact ⟨net.upload g, List.mem_map_of_mem hg, rfl, sent_of_error_none (hnone g hg)⟩

/-- A thread that did not raise has sent each of its chunks. -/
theorem mem_writes {g : Addr × List (ChunkId × Bytes)} (hg : g ∈ plan)
    (h : (net.upload g).2.error = none) {x : ChunkId × Bytes} (hx : x ∈ g.2) (commitSent : Bool)
    (result : Except CreateError Unit) :
    (g.1, x) ∈ CreateRun.writes ⟨plan.map net.upload, commitSent, result⟩ := by
  obtain ⟨batch, hbatch, hin⟩ := mem_uploadBatches.mpr hx
  have hsent : (net.upload g).2.sent = (uploadBatches g.2).map (·, true) := sent_of_error_none h
  have hthread : (g.1, batch) ∈ (net.upload g).2.sent.map fun y => ((net.upload g).1, y.1) := by
    rw [hsent, List.map_map]
    exact List.mem_map.mpr ⟨batch, hbatch, rfl⟩
  have hrequest : (g.1, batch) ∈
      (plan.map net.upload).flatMap fun u => u.2.sent.map fun y => (u.1, y.1) :=
    List.mem_flatMap.mpr ⟨net.upload g, List.mem_map_of_mem hg, hthread⟩
  exact List.mem_flatMap.mpr ⟨(g.1, batch), hrequest, List.mem_map_of_mem hin⟩

end Plan

/-- A reserved file is committed exactly when every batch was acknowledged, and then every chunk
is on each of its locations. -/
theorem Network.create_commits (net : Network) {resp : CreateFileResponse} {data : Bytes}
    (hindex : (resp.placements.map ChunkPlacement.index).Perm
      (List.range (splitChunks data).length))
    (hids : (resp.placements.map ChunkPlacement.chunkId).Nodup)
    (hlocs : ∀ p ∈ resp.placements, p.locations.Nodup) (horder : ∀ us, (net.order us).Perm us) :
    (net.create resp data).CommitsStored (splitChunks data) resp := by
  cases hok : resp.ok with
  | false => exact create_rejected hok
  | true =>
    obtain ⟨plan, hplan⟩ := exists_uploadPlan hindex
    have hnodup := nodup_uploadPlan hplan hids hlocs
    obtain ⟨commitSent, result, hrun, hend⟩ := create_run hplan hok horder
    rw [hrun]
    have hsub := writes_sublist net plan commitSent result
    constructor
    · exact (hsub.map _).nodup hnodup
    · intro addr c b hin
      obtain ⟨g, hg, hx⟩ := List.mem_flatMap.mp (hsub.subset hin)
      obtain ⟨x, hx, he⟩ := List.mem_map.mp hx
      cases he
      obtain ⟨p, hp, haddr, hid, hb⟩ := (mem_uploadPlan hplan).mp ⟨g.2, hg, hx⟩
      exact ⟨p, hp, haddr, hid, hb⟩
    · intro x hx
      obtain ⟨u, hu, hx⟩ := List.mem_flatMap.mp hx
      obtain ⟨g, hg, rfl⟩ := List.mem_map.mp hu
      obtain ⟨y, hy, rfl⟩ := List.mem_map.mp hx
      have hbatch : y.1 ∈ uploadBatches g.2 := sent_uploadLoop.subset (List.mem_map_of_mem hy)
      exact Slices.length_le_of_mem_slices hbatch
    · rw [acknowledged_iff hplan, and_iff_right hok]
      rcases hend with ⟨rfl, hnone⟩ | ⟨rfl, g, hg, e, he, _⟩
      · exact iff_of_true rfl hnone
      · refine iff_of_false Bool.false_ne_true fun hnone => ?_
        rw [hnone g hg] at he
        cases he
    · rintro rfl p hp addr haddr
      rcases hend with ⟨_, hnone⟩ | ⟨hfalse, _⟩
      · obtain ⟨b, hb⟩ := exists_chunk_of_uploadPlan hplan hp
        obtain ⟨ws, hg, hin⟩ := (mem_uploadPlan hplan).mpr ⟨p, hp, haddr, rfl, hb⟩
        refine ⟨b, hb, mem_writes hg (hnone _ hg) hin true result, net.upload (addr, ws),
          List.mem_map_of_mem hg, rfl, ?_⟩
        exact held_upload (hnone _ hg) (nodup_ids_of_mem hnodup hg) hin
      · cases hfalse
    · intro hcommit
      rcases hend with ⟨rfl, _⟩ | ⟨_, _, _, e, _, rfl⟩
      · cases hcommit
      · exact ⟨e, rfl⟩

/-- Two empty servers; on the second one `o` becomes of each write. -/
def twoServers (o : WriteOutcome) : Network where
  servers := fun _ => .start ∅
  outcome := fun addr _ => .replied fun _ => if addr = ['b'] then o else .done
  order := id
  commit := some ⟨true, "committed"⟩

/-- One chunk for both. -/
def onBoth : CreateFileResponse := ⟨true, "ok", [⟨0, ['x'], [['a'], ['b']]⟩]⟩

/-- The file is committed when both writes go through, and not when one of them fails. -/
theorem Network.create_commits_twoServers :
    (((twoServers .done).create onBoth [7]).CommitsStored [[7]] onBoth ∧
      ((twoServers .done).create onBoth [7]).commitSent = true) ∧
    ((twoServers (.renameFails "EIO")).create onBoth [7]).CommitsStored [[7]] onBoth ∧
      ((twoServers (.renameFails "EIO")).create onBoth [7]).commitSent = false := by
  have hall (o : WriteOutcome) :
      ((twoServers o).create onBoth [7]).CommitsStored (splitChunks [7]) onBoth :=
    (twoServers o).create_commits (by decide) (by decide) (by decide) fun us => .refl us
  exact ⟨⟨hall _, by decide⟩, hall _, by decide⟩

end GfsCluster
