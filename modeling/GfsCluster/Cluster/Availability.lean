import GfsCluster.Client.PlainRead
import GfsCluster.Cluster.RoundTrip

/-! When a committed file can be read. The servers that can be reached answer from their disks, and
nothing else moves while a read goes through the replicas: it returns the data of the version unless
some chunk is on no reachable server that is recorded for it, and it names the chunks it lacks. The
replicas on servers that the naming server holds live are asked before the others. -/

namespace GfsCluster

open StepSystem

section LiveFirst

variable {locations live : List Addr} {addr : Addr}

theorem liveFirst_nodup (h : locations.Nodup) : (liveFirst locations live).Nodup := by
  refine List.nodup_append.mpr ⟨h.filter _, h.filter _, ?_⟩
  rintro a ha b hb rfl
  simp only [List.mem_filter, decide_eq_true_eq] at ha hb
  exact hb.2 ha.2

/-- Before an address that is not live stand all that are. -/
theorem live_mem_take {i : ℕ} (hi : (liveFirst locations live)[i]? = some addr) (hdead : addr ∉ live)
    {a : Addr} (ha : a ∈ locations) (hlive : a ∈ live) : a ∈ (liveFirst locations live).take i := by
  have hle : (locations.filter (· ∈ live)).length ≤ i := by
    by_contra hlt
    rw [liveFirst, List.getElem?_append_left (not_le.mp hlt)] at hi
    have hmem := List.mem_of_getElem? hi
    rw [List.mem_filter, decide_eq_true_eq] at hmem
    exact hdead hmem.2
  rw [liveFirst, List.take_append, List.take_of_length_le hle, List.mem_append]
  exact .inl (List.mem_filter.mpr ⟨ha, decide_eq_true hlive⟩)

end LiveFirst

section Placements

variable {d : Db} {live : List Addr} {f : Filename}

theorem placements_ids_nodup (d : Db) (live : List Addr) (f : Filename) :
    ((sortByIndex ((chunkRowsOf d f).map (Cluster.placementOf d live))).map
      ChunkPlacement.chunkId).Nodup := by
  refine ((List.perm_insertionSort _ _).map _).nodup_iff.mpr ?_
  rw [List.map_map]
  exact chunkRowsOf_ids_nodup d f

theorem placements_locations_nodup :
    ∀ p ∈ sortByIndex ((chunkRowsOf d f).map (Cluster.placementOf d live)), p.locations.Nodup := by
  intro p hp
  obtain ⟨r, _, rfl⟩ := List.mem_map.mp (mem_sortByIndex.mp hp)
  exact liveFirst_nodup (d.locations_nodup r.chunkId)

/-- A server that is not live is asked for a chunk only after every live one that is recorded for it
was asked in an earlier round, and none of them returned it, whatever the servers answer. -/
theorem asks_liveFirst {pool : Pool} (hpool : pool.Honest) {d₁ : Db} {i : ℕ} {r : FetchRound}
    {addr : Addr} {c : ChunkId}
    (hr : (fetchChunksRounds pool (sortByIndex
      (getFileResponse (getFile d₁ d f) live).placements)).1[i]? = some r)
    (hask : (addr, c) ∈ r.asks) (hdead : addr ∉ live) :
    let rounds := (fetchChunksRounds pool (sortByIndex
      (getFileResponse (getFile d₁ d f) live).placements)).1
    ∃ p ∈ (getFileResponse (getFile d₁ d f) live).placements, p.chunkId = c ∧
      (∀ b, ¬ Answered (rounds.take i) p b) ∧ ∀ a ∈ d.locations c, a ∈ live →
        ∃ j r', j < i ∧ rounds[j]? = some r' ∧ (a, c) ∈ r'.asks := by
  rcases Cluster.getFileResponse_cases f d₁ d live with ⟨_, hresp⟩ | ⟨F, _, _, _, hresp⟩
  · rw [hresp] at hr
    simp [fetchChunksRounds, sortByIndex] at hr
  · rw [hresp] at hr ⊢
    have hin := inOrder_fetchChunksRounds hpool (placements_ids_nodup d live f)
      placements_locations_nodup
    obtain ⟨p, hp, hpc, hget, hnot⟩ := (hin i r hr addr c).mp hask
    refine ⟨p, mem_sortByIndex.mp hp, hpc, hnot, fun a ha hlive => ?_⟩
    obtain ⟨row, _, hrow⟩ := List.mem_map.mp (mem_sortByIndex.mp hp)
    have hlocs : p.locations = liveFirst (d.locations c) live := by
      rw [← hpc, ← hrow]
      rfl
    rw [hlocs] at hget
    obtain ⟨j, hj⟩ := List.mem_iff_getElem?.mp (live_mem_take hget hdead ha hlive)
    have hlt : j < i := by
      have := (List.getElem?_eq_some_iff.mp hj).1
      rw [List.length_take] at this
      omega
    rw [List.getElem?_take_of_lt hlt, ← hlocs] at hj
    have hround := List.getElem?_eq_getElem (hlt.trans (List.getElem?_eq_some_iff.mp hr).1)
    refine ⟨j, _, hlt, hround, (hin j _ hround a c).mpr ⟨p, hp, hpc, hj, fun b hb => hnot b ?_⟩⟩
    rw [← Nat.min_eq_left hlt.le, ← List.take_take] at hb
    exact hb.of_take

/-- A chunk whose first replica is on a server that is not live. -/
def deadFirst : Db where
  files := [⟨['f'], 1, 1, .committed, 0⟩]
  chunks := [⟨['x'], ['f'], 0⟩]
  replicas := [⟨['x'], ['a']⟩, ⟨['x'], ['b']⟩]
  files_key := by decide
  chunks_key := by decide
  replicas_key := by decide
  chunks_fk := by decide
  replicas_fk := by decide

/-- Where no server has the chunk, the dead one is asked in the second round. -/
theorem asks_liveFirst_deadFirst :
    let resp := getFileResponse (getFile deadFirst deadFirst ['f']) [['b']]
    let rounds := (fetchChunksRounds (Holdings.pool fun _ _ => none) (sortByIndex resp.placements)).1
    ∃ r p, rounds[1]? = some r ∧ (['a'], ['x']) ∈ r.asks ∧ p ∈ resp.placements ∧
      (∀ b, ¬ Answered (rounds.take 1) p b) := by
  intro resp rounds
  have hresp : resp = ⟨true, "ok", 1, [⟨0, ['x'], [['b'], ['a']]⟩]⟩ := by rfl
  have hround : ∃ r, rounds[1]? = some r ∧ (['a'], ['x']) ∈ r.asks := by
    refine ⟨⟨[⟨['a'], [['x']]⟩], [(⟨['a'], [['x']]⟩, [])]⟩, ?_, by decide⟩
    show (fetchChunksRounds _ _).1[1]? = _
    rw [hresp]
    unfold fetchChunksRounds
    rw [if_neg (by decide), fetchRounds, if_neg (by decide), dif_neg (by decide),
      fetchRounds, if_neg (by decide), dif_neg (by decide)]
    rfl
  obtain ⟨r, hr, hask⟩ := hround
  obtain ⟨p, hp, _, hnot, _⟩ :=
    asks_liveFirst (Holdings.reads_pool _).honest hr hask (by decide)
  exact ⟨r, p, hr, hask, hp, hnot⟩

end Placements

namespace Cluster

variable {cfg : Settings} {s : Cluster} {k : ℕ} {F : FileRow} {failed : Finset Addr} {pool : Pool}
  {o₁ o₂ : RowOrder} {live : List Addr} {p : ChunkPlacement}

/-- The chunks that `_get_chunk` can get: those on the disks of the servers that have not failed. -/
def onDisks (s : Cluster) (failed : Finset Addr) : Holdings :=
  fun addr c => if addr ∈ failed then none else s.file addr c

/-- Chunk `i` of the file is on no recorded server that can be reached. -/
def Lost (s : Cluster) (failed : Finset Addr) (f : Filename) (i : ℕ) : Prop :=
  ∃ r ∈ s.naming.db.chunks, r.filename = f ∧ r.idx = i ∧
    ∀ addr ∈ s.naming.db.locations r.chunkId, s.onDisks failed addr r.chunkId = none

instance (f : Filename) (i : ℕ) : Decidable (s.Lost failed f i) :=
  inferInstanceAs (Decidable (∃ r ∈ s.naming.db.chunks, _))

/-- The indices that a read lacks. -/
def lostIndices (s : Cluster) (failed : Finset Addr) (F : FileRow) : List ℕ :=
  (List.range F.numChunks.toNat).filter (s.Lost failed F.filename ·)

/-- The placements of the file's version, as `read` sorts them. -/
def sortedPlacements (s : Cluster) (o : RowOrder) (live : List Addr) (f : Filename) :
    List ChunkPlacement :=
  sortByIndex ((chunkRowsOf (o.view s.naming.db) f).map (placementOf (o.view s.naming.db) live))

section Version

variable (hv : s.naming.VersionOf F k) (hc : s.naming.Consistent cfg)
include hv hc

theorem map_index_sortedPlacements (o : RowOrder) (live : List Addr) :
    (s.sortedPlacements o live F.filename).map ChunkPlacement.index =
      List.range F.numChunks.toNat := by
  have hperm := placement_indices hv o live hc
  rw [hv.numChunks] at hperm
  refine List.Perm.eq_of_pairwise (fun a b _ _ => le_antisymm) ?_ List.pairwise_le_range ?_
  · exact List.pairwise_map.mpr (sortByIndex_sorted _)
  · exact ((List.perm_insertionSort _ _).map _).trans hperm

/-- A chunk is lost exactly if the plain fetch does not get it. -/
theorem plainChunk_eq_none_iff_lost (hp : p ∈ s.sortedPlacements o₂ live F.filename) :
    plainChunk (s.onDisks failed) p = none ↔ s.Lost failed F.filename p.index := by
  obtain ⟨r, hr, rfl⟩ := List.mem_map.mp (mem_sortByIndex.mp hp)
  rw [mem_chunkRowsOf, o₂.mem_chunks] at hr
  have hmem : ∀ addr, addr ∈ (placementOf (o₂.view s.naming.db) live r).locations ↔
      addr ∈ s.naming.db.locations r.chunkId := fun addr =>
    mem_liveFirst.trans (o₂.locations_perm _ r.chunkId).mem_iff
  rw [plainChunk, List.findSome?_eq_none_iff]
  constructor
  · intro hnone
    exact ⟨r, hr.1, hr.2, rfl, fun addr haddr => hnone addr ((hmem addr).mpr haddr)⟩
  · rintro ⟨r', hr', hname, hidx, hnone⟩ addr haddr
    have hnd : ((s.naming.db.chunks.filter (·.filename = F.filename)).map ChunkRow.idx).Nodup :=
      (hv.indices hc).nodup_iff.mpr List.nodup_range
    have hrow : r' = r := List.inj_on_of_nodup_map hnd
      (List.mem_filter.mpr ⟨hr', decide_eq_true hname⟩)
      (List.mem_filter.mpr ⟨hr.1, decide_eq_true hr.2⟩) hidx
    subst hrow
    exact hnone addr ((hmem addr).mp haddr)

theorem map_index_missing (failed : Finset Addr) (o : RowOrder) (live : List Addr) :
    ((s.sortedPlacements o live F.filename).filter
      (plainChunk (s.onDisks failed) · = none)).map ChunkPlacement.index = s.lostIndices failed F := by
  rw [lostIndices, ← map_index_sortedPlacements hv hc o live, List.filter_map]
  congr 1
  refine List.filter_congr fun p hp => ?_
  rw [Function.comp_apply, decide_eq_decide]
  exact plainChunk_eq_none_iff_lost hv hc hp

end Version

/-- What a server holds of a chunk of the version is its payload. -/
theorem plainChunk_payload (hs : Reachable cfg anyStep s) (hk : (s.calls k).phase ≠ .idle)
    (hi : ⟨p.chunkId, k, p.index⟩ ∈ s.naming.issued) {b : Bytes}
    (hb : plainChunk (s.onDisks failed) p = some b) : b = s.payloadOf k p.chunkId := by
  obtain ⟨addr, _, hheld⟩ := List.exists_of_findSome?_eq_some hb
  unfold onDisks at hheld
  split_ifs at hheld
  exact (payload_of_steps hs .refl hi hk (hs.carried.files _ _ _ hheld)).symm

/-- The plain fetch of a version. -/
theorem plainFetch_version (hs : Reachable cfg anyStep s) (hv : s.naming.VersionOf F k)
    (o : RowOrder) (live : List Addr) :
    (plainFetch (s.onDisks failed) (s.sortedPlacements o live F.filename)).map List.flatten =
      if s.lostIndices failed F = [] then .ok (s.calls k).data
      else .error (.gfsError ("chunks unavailable after trying every replica: " ++
        ", ".intercalate (((s.lostIndices failed F).map toString).take 10))) := by
  have hk := hs.requests.begun hv.reserved
  have hissued : ∀ p ∈ s.sortedPlacements o live F.filename,
      ⟨p.chunkId, k, p.index⟩ ∈ s.naming.issued := fun p hp =>
    placement_issued hv o live (mem_sortByIndex.mp hp)
  have hmissing := map_index_missing hv hs.consistent failed o live
  have hsort : sortByIndex (s.sortedPlacements o live F.filename) =
      s.sortedPlacements o live F.filename := sortByIndex_sortByIndex _
  split_ifs with hlost
  · rw [hlost, List.map_eq_nil_iff, List.filter_eq_nil_iff] at hmissing
    have hall : List.Forall₂ (fun p b => plainChunk (s.onDisks failed) p = some b)
        (s.sortedPlacements o live F.filename)
        ((s.sortedPlacements o live F.filename).map fun p => s.payloadOf k p.chunkId) := by
      rw [List.forall₂_map_right_iff, List.forall₂_same]
      intro p hp
      obtain ⟨b, hb⟩ := Option.ne_none_iff_exists'.mp (by simpa using hmissing p hp)
      rw [hb, plainChunk_payload hs hk (hissued p hp) hb]
    have hflat := flatten_payloads hs hk hissued (by
      rw [map_index_sortedPlacements hv hs.consistent, hv.numChunks])
    rw [hsort] at hflat
    rw [plainFetch, hsort, mapM_of_forall₂ hall]
    exact congrArg Except.ok hflat
  · have hne : (s.sortedPlacements o live F.filename).filter
        (plainChunk (s.onDisks failed) · = none) ≠ [] := by
      intro hnil
      rw [hnil] at hmissing
      exact hlost hmissing.symm
    obtain ⟨p, hp⟩ := List.exists_mem_of_ne_nil _ hne
    rw [List.mem_filter, decide_eq_true_eq] at hp
    rw [plainFetch, hsort, mapM_of_none hp.1 hp.2]
    refine congrArg (fun t => Except.error (ClientError.gfsError t)) ?_
    unfold plainUnavailable
    dsimp only
    rw [← hmissing, List.map_map]
    rfl

/-- A read of a version while nothing else moves. -/
theorem read_version (hs : Reachable cfg anyStep s) (hv : s.naming.VersionOf F k)
    (hF : F ∈ s.naming.db.files) (hst : F.status = .committed) (hpool : pool.Reads (s.onDisks failed))
    (o₁ o₂ : RowOrder) (live : List Addr) : pool.read (getFileResponse
        (getFile (o₁.view s.naming.db) (o₂.view s.naming.db) F.filename) live) =
      if s.lostIndices failed F = [] then .ok (s.calls k).data
      else .error (.gfsError ("chunks unavailable after trying every replica: " ++
        ", ".intercalate (((s.lostIndices failed F).map toString).take 10))) := by
  rw [← plainFetch_version hs hv o₂ live]
  rcases getFileResponse_cases F.filename (o₁.view s.naming.db) (o₂.view s.naming.db) live with
    ⟨hpend, _⟩ | ⟨_, _, _, _, hresp⟩
  · rw [hpend F ((o₁.mem_files _).mpr hF) rfl] at hst
    cases hst
  · rw [hresp, Pool.read, if_pos rfl]
    have hids := placements_ids_nodup (o₂.view s.naming.db) live F.filename
    rw [fetchChunksRounds_result hpool hids placements_locations_nodup]
    rfl

theorem version_name (hs : Reachable cfg anyStep s) (hv : s.naming.VersionOf F k) :
    (s.calls k).filename = F.filename := by
  have hreq := congrArg CreateFileRequest.filename
    (hs.requests.sent k (hs.requests.begun hv.reserved)).2
  rw [hv.name] at hreq
  exact hreq.symm

/-- A read while nothing else moves: it returns the data of the version exactly if no chunk of it is
lost, and otherwise names the first ten chunks that are. -/
theorem read_available (hs : Reachable cfg anyStep s) (hF : F ∈ s.naming.db.files)
    (hst : F.status = .committed) (hpool : pool.Reads (s.onDisks failed)) (o₁ o₂ : RowOrder)
    (live : List Addr) : ∃ k, s.naming.VersionOf F k ∧ (s.calls k).filename = F.filename ∧
      pool.read (getFileResponse
          (getFile (o₁.view s.naming.db) (o₂.view s.naming.db) F.filename) live) =
        if s.lostIndices failed F = [] then .ok (s.calls k).data
        else .error (.gfsError ("chunks unavailable after trying every replica: " ++
          ", ".intercalate (((s.lostIndices failed F).map toString).take 10))) := by
  obtain ⟨k, hv⟩ := hs.consistent.version F hF
  exact ⟨k, hv, version_name hs hv, read_version hs hv hF hst hpool o₁ o₂ live⟩

/-- Two replicas. If one fails, the other is read, and if both fail, chunk 0 is lost. -/
theorem read_available_failing : ∃ (s : Cluster) (F : FileRow), F ∈ s.naming.db.files ∧
    (∃ k, (s.calls k).filename = F.filename ∧ (s.onDisks {['s']}).pool.read (getFileResponse
      (getFile (RowOrder.table.view s.naming.db) (RowOrder.table.view s.naming.db) F.filename)
        []) = .ok (s.calls k).data) ∧
    (s.onDisks {['s'], ['t']}).pool.read (getFileResponse
      (getFile (RowOrder.table.view s.naming.db) (RowOrder.table.view s.naming.db) F.filename)
        []) = .error (.gfsError "chunks unavailable after trying every replica: 0") := by
  have hrun : (run (guarded (step ⟨2, 60⟩) anyStep) init
      [.naming (.registerStorage ['s']), .naming (.registerStorage ['t']), .createCall 0 ['f'] [7],
        .naming (.create 0 .checkLive), .naming (.create 0 (.selectFile .table)),
        .naming (.create 0 (.place ['c'])), .naming (.create 0 (.reserve 0)), .createReply 0,
        .sendBatch 0 0, .sendBatch 0 1, .storeItem 0, .storeItem 1, .storeReply 0 0 0,
        .storeReply 0 1 0, .commitSend 0, .commitExec 0]).any (fun s =>
      s.naming.db.files.any fun F => F.status == .committed && s.lostIndices {['s']} F == [] &&
        s.lostIndices {['s'], ['t']} F == [0]) = true := by
    decide +kernel
  obtain ⟨s, hs, hp⟩ := exists_of_run hrun
  obtain ⟨F, hF, hp⟩ := List.any_eq_true.mp hp
  simp only [Bool.and_eq_true, beq_iff_eq] at hp
  obtain ⟨⟨hst, hone⟩, htwo⟩ := hp
  refine ⟨s, F, hF, ?_, ?_⟩
  · obtain ⟨k, _, hname, hread⟩ := read_available hs hF hst
      (Holdings.reads_pool (s.onDisks {['s']})) .table .table []
    rw [if_pos hone] at hread
    exact ⟨k, hname, hread⟩
  · obtain ⟨_, _, _, hread⟩ := read_available hs hF hst
      (Holdings.reads_pool (s.onDisks {['s'], ['t']})) .table .table []
    rw [htwo, if_neg (by decide)] at hread
    exact hread

end Cluster

end GfsCluster
