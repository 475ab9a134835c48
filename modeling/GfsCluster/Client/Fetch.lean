import Mathlib.Algebra.Order.BigOperators.Group.List
import Mathlib.Data.List.AList
import Mathlib.Logic.Function.Basic
import GfsCluster.Client.Upload
import GfsCluster.Lib.Lists

/-! The read side of `GFSClient`. `_fetch_chunks_batched` asks in rounds: every chunk
still missing goes to the next of its replicas that was not tried yet. The loop ends
because each round tries at least one new replica. -/

namespace GfsCluster

open Grouping

abbrev Parts := AList fun _ : ChunkId => Bytes

/-- The replicas tried so far for each chunk. -/
abbrev Tried := ChunkId → List Addr

inductive ClientError
  | gfsError (message : String)
  | keyError (chunkId : ChunkId)
  deriving DecidableEq

/-- The turn of one placement in a round. -/
def planOne (parts : Parts) (acc : Tried × List (Addr × List ChunkId)) (p : ChunkPlacement) :
    Tried × List (Addr × List ChunkId) :=
  if p.chunkId ∈ parts then acc
  else match p.locations.find? (· ∉ acc.1 p.chunkId) with
    | none => acc
    | some addr => (Function.update acc.1 p.chunkId (acc.1 p.chunkId ++ [addr]),
        push addr p.chunkId acc.2)

/-- What is tried after the round, and the chunk ids to ask of each server. -/
def planRound (parts : Parts) (tried : Tried) (placements : List ChunkPlacement) :
    Tried × List (Addr × List ChunkId) :=
  placements.foldl (planOne parts) (tried, [])

/-- Replicas that were not tried yet, over all placements. -/
def untried (placements : List ChunkPlacement) (tried : Tried) : ℕ :=
  (placements.map fun p => (p.locations.filter (· ∉ tried p.chunkId)).length).sum

/-- `parts.update(...)`. -/
def updateParts (parts : Parts) (chunks : List (ChunkId × Bytes)) : Parts :=
  chunks.foldl (fun ps x => ps.insert x.1 x.2) parts

def sortByIndex (placements : List ChunkPlacement) : List ChunkPlacement :=
  placements.insertionSort (·.index ≤ ·.index)

/-- The list that `_fetch_chunks_batched` returns. -/
def assemble (placements : List ChunkPlacement) (parts : Parts) : Except ClientError (List Bytes) :=
  (sortByIndex placements).mapM fun p =>
    match parts.lookup p.chunkId with
    | some data => .ok data
    | none => .error (.keyError p.chunkId)

/-- The text of the error raised when no replica is left, with the first ten indices. -/
def unavailable (placements : List ChunkPlacement) (parts : Parts) : String :=
  let missing := (placements.map ChunkPlacement.chunkId).eraseDups.filter (· ∉ parts)
  let index c := ((placements.filter (·.chunkId = c)).getLast?.map ChunkPlacement.index).getD 0
  "chunks unavailable after trying every replica: " ++
    ", ".intercalate ((missing.map fun c => toString (index c)).take 10)

/-! ### One round -/

section Round

variable {parts : Parts} {acc : Tried × List (Addr × List ChunkId)} {p : ChunkPlacement}
  {placements : List ChunkPlacement} {tried : Tried} {addr : Addr} {c : ChunkId}

/-- A placement is passed over when its chunk is there or all its replicas were tried,
and else asks one replica that was not. -/
theorem planOne_cases (parts : Parts) (acc : Tried × List (Addr × List ChunkId))
    (p : ChunkPlacement) : (planOne parts acc p = acc ∧
      (p.chunkId ∈ parts ∨ ∀ addr ∈ p.locations, addr ∈ acc.1 p.chunkId)) ∨
    ∃ addr ∈ p.locations, p.chunkId ∉ parts ∧ addr ∉ acc.1 p.chunkId ∧
      planOne parts acc p = (Function.update acc.1 p.chunkId (acc.1 p.chunkId ++ [addr]),
        push addr p.chunkId acc.2) := by
  unfold planOne
  by_cases hp : p.chunkId ∈ parts
  · exact .inl ⟨if_pos hp, .inl hp⟩
  · rw [if_neg hp]
    cases hf : p.locations.find? (· ∉ acc.1 p.chunkId) with
    | none =>
      refine .inl ⟨rfl, .inr fun addr ha => ?_⟩
      simpa using List.find?_eq_none.mp hf addr ha
    | some addr =>
      refine .inr ⟨addr, List.mem_of_find?_eq_some hf, hp, ?_, rfl⟩
      simpa using List.find?_some hf

theorem tried_subset_planOne : acc.1 c ⊆ (planOne parts acc p).1 c := by
  rcases planOne_cases parts acc p with ⟨he, _⟩ | ⟨addr, _, _, _, he⟩
  · rw [he]
    exact List.Subset.refl _
  · rw [he]
    by_cases hc : c = p.chunkId
    · subst hc
      simp
    · simp [Function.update_of_ne hc]

theorem tried_subset_foldl : acc.1 c ⊆ (placements.foldl (planOne parts) acc).1 c := by
  induction placements generalizing acc with
  | nil => exact List.Subset.refl _
  | cons p placements ih =>
    rw [List.foldl_cons]
    exact List.Subset.trans tried_subset_planOne ih

/-- What is asked in a round is a replica of a missing chunk that was not tried before
and is from then on. -/
theorem asked_of_foldl (h : ∃ ids, (addr, ids) ∈ (placements.foldl (planOne parts) acc).2 ∧ c ∈ ids) :
    (∃ ids, (addr, ids) ∈ acc.2 ∧ c ∈ ids) ∨ (∃ p ∈ placements, p.chunkId = c ∧ addr ∈ p.locations) ∧
      c ∉ parts ∧ addr ∉ acc.1 c ∧ addr ∈ (placements.foldl (planOne parts) acc).1 c := by
  induction placements generalizing acc with
  | nil => exact .inl h
  | cons p placements ih =>
    rw [List.foldl_cons] at h ⊢
    rcases ih h with h | ⟨⟨q, hq, hid, haddr⟩, hc, hnot, hin⟩
    · rcases planOne_cases parts acc p with ⟨he, _⟩ | ⟨addr', haddr', hp, hnot, he⟩
      · rw [he] at h
        exact .inl h
      · rw [he, mem_push] at h
        rcases h with h | ⟨rfl, rfl⟩
        · exact .inl h
        · refine .inr ⟨⟨p, by simp, rfl, haddr'⟩, hp, hnot, tried_subset_foldl ?_⟩
          rw [he]
          simp
    · exact .inr ⟨⟨q, by simp [hq], hid, haddr⟩, hc, fun hin => hnot (tried_subset_planOne hin), hin⟩

/-- What is tried after a round was tried before or is asked in it. -/
theorem tried_of_foldl (h : addr ∈ (placements.foldl (planOne parts) acc).1 c) :
    addr ∈ acc.1 c ∨ ∃ ids, (addr, ids) ∈ (placements.foldl (planOne parts) acc).2 ∧ c ∈ ids := by
  have hkeep : ∀ (placements : List ChunkPlacement) (acc : Tried × List (Addr × List ChunkId)),
      (∃ ids, (addr, ids) ∈ acc.2 ∧ c ∈ ids) →
      ∃ ids, (addr, ids) ∈ (placements.foldl (planOne parts) acc).2 ∧ c ∈ ids := by
    intro placements
    induction placements with
    | nil => exact fun _ h => h
    | cons p placements ih =>
      intro acc h
      apply ih
      rcases planOne_cases parts acc p with ⟨he, _⟩ | ⟨_, _, _, _, he⟩
      · rwa [he]
      · rw [he, mem_push]
        exact .inl h
  induction placements generalizing acc with
  | nil => exact .inl h
  | cons p placements ih =>
    rw [List.foldl_cons] at h ⊢
    rcases ih h with h | h
    · rcases planOne_cases parts acc p with ⟨he, _⟩ | ⟨addr', _, _, _, he⟩
      · rw [he] at h
        exact .inl h
      · rw [he] at h
        by_cases hc : c = p.chunkId
        · subst hc
          simp only [Function.update_self, List.mem_append, List.mem_singleton] at h
          rcases h with h | rfl
          · exact .inl h
          · refine .inr (hkeep placements _ ?_)
            rw [he, mem_push]
            exact .inr ⟨rfl, rfl⟩
        · simp only [Function.update_of_ne hc] at h
          exact .inl h
    · exact .inr h

theorem foldl_asked_ne_nil (h : acc.2 ≠ []) : (placements.foldl (planOne parts) acc).2 ≠ [] := by
  induction placements generalizing acc with
  | nil => exact h
  | cons p placements ih =>
    rw [List.foldl_cons]
    apply ih
    rcases planOne_cases parts acc p with ⟨he, _⟩ | ⟨_, _, _, _, he⟩
    · rwa [he]
    · rw [he]
      exact push_ne_nil _ _ _

/-- A round that asks nothing has no replica left for any missing chunk. -/
theorem exhausted_of_planRound (h : (planRound parts tried placements).2 = []) :
    ∀ p ∈ placements, p.chunkId ∉ parts → ∀ addr ∈ p.locations, addr ∈ tried p.chunkId := by
  unfold planRound at h
  induction placements with
  | nil => simp
  | cons p placements ih =>
    rw [List.foldl_cons] at h
    rcases planOne_cases parts (tried, []) p with ⟨he, hskip⟩ | ⟨_, _, _, _, he⟩
    · rw [he] at h
      intro q hq hmiss
      rcases List.mem_cons.mp hq with rfl | hq
      · exact hskip.resolve_left hmiss
      · exact ih h q hq hmiss
    · rw [he] at h
      exact absurd h (foldl_asked_ne_nil (push_ne_nil _ _ _))

theorem exists_asked (h : (planRound parts tried placements).2 ≠ []) :
    ∃ addr c ids, (addr, ids) ∈ (planRound parts tried placements).2 ∧ c ∈ ids := by
  by_contra hnone
  apply h
  suffices ∀ (placements : List ChunkPlacement) (acc : Tried × List (Addr × List ChunkId)),
      acc.2 = [] ∨ (∃ addr c ids, (addr, ids) ∈ acc.2 ∧ c ∈ ids) →
      (placements.foldl (planOne parts) acc).2 = [] ∨
        ∃ addr c ids, (addr, ids) ∈ (placements.foldl (planOne parts) acc).2 ∧ c ∈ ids from
    (this placements (tried, []) (.inl rfl)).resolve_right hnone
  intro placements
  induction placements with
  | nil => exact fun _ => id
  | cons p placements ih =>
    intro acc hacc
    apply ih
    rcases planOne_cases parts acc p with ⟨he, _⟩ | ⟨addr, _, _, _, he⟩
    · rwa [he]
    · rw [he]
      obtain ⟨ids, hids⟩ := mem_push.mpr (.inr ⟨rfl, rfl⟩ :
        (∃ ids, (addr, ids) ∈ acc.2 ∧ p.chunkId ∈ ids) ∨ addr = addr ∧ p.chunkId = p.chunkId)
      exact .inr ⟨addr, p.chunkId, ids, hids⟩

theorem untried_planRound_lt (h : (planRound parts tried placements).2 ≠ []) :
    untried placements (planRound parts tried placements).1 < untried placements tried := by
  have hfilter : ∀ p : ChunkPlacement,
      p.locations.filter (· ∉ (planRound parts tried placements).1 p.chunkId) =
        (p.locations.filter (· ∉ tried p.chunkId)).filter
          (· ∉ (planRound parts tried placements).1 p.chunkId) := by
    intro p
    rw [List.filter_filter]
    refine List.filter_congr fun addr _ => ?_
    rw [Bool.eq_iff_iff]
    simp only [decide_eq_true_eq, Bool.and_eq_true]
    have hsub : (tried, ([] : List (Addr × List ChunkId))).1 p.chunkId ⊆
        (planRound parts tried placements).1 p.chunkId := tried_subset_foldl
    exact ⟨fun hn => ⟨hn, fun ht => hn (hsub ht)⟩, And.left⟩
  obtain ⟨addr, c, ids, hids, hc⟩ := exists_asked h
  obtain ⟨_, hnil, _⟩ | ⟨⟨p, hp, rfl, haddr⟩, _, hnot, hin⟩ := asked_of_foldl ⟨ids, hids, hc⟩
  · cases hnil
  · refine List.sum_lt_sum _ _ (fun q _ => ?_) ⟨p, hp, ?_⟩
    · rw [hfilter q]
      exact List.length_filter_le _ _
    · rw [hfilter p, List.length_filter_lt_length_iff_exists]
      refine ⟨addr, List.mem_filter.mpr ⟨haddr, by simpa using hnot⟩, ?_⟩
      rw [decide_eq_true_eq, not_not]
      exact hin

end Round

/-! ### The loop -/

/-- How servers answer: the chunks that come back for a batch of ids asked of an address
in a round. A failed call answers with nothing. -/
abbrev Serve := ℕ → Addr → List ChunkId → List (ChunkId × Bytes)

/-- The answers of one round. -/
def answers (serve : Serve) (round : ℕ) (asked : List (Addr × List ChunkId)) :
    List (ChunkId × Bytes) :=
  asked.flatMap fun g => (chunkIdBatches g.2).flatMap (serve round g.1)

def fetchLoop (serve : Serve) (placements : List ChunkPlacement) (round : ℕ) (parts : Parts)
    (tried : Tried) : Except ClientError (List Bytes) :=
  if placements.length ≤ parts.entries.length then assemble placements parts
  else if h : (planRound parts tried placements).2 = [] then
    .error (.gfsError (unavailable placements parts))
  else fetchLoop serve placements (round + 1)
    (updateParts parts (answers serve round (planRound parts tried placements).2))
    (planRound parts tried placements).1
termination_by untried placements tried
decreasing_by exact untried_planRound_lt h

/-- `_fetch_chunks_batched`. -/
def fetchChunksBatched (serve : Serve) (placements : List ChunkPlacement) :
    Except ClientError (List Bytes) :=
  if placements = [] then .ok [] else fetchLoop serve placements 0 ∅ fun _ => []

/-- `GFSClient.read`, from the answer of GetFile on. -/
def read (resp : GetFileResponse) (serve : Serve) : Except ClientError Bytes :=
  if resp.ok then (fetchChunksBatched serve (sortByIndex resp.placements)).map List.flatten
  else .error (.gfsError resp.message)

/-- `GFSClient.size`, from the answer of GetFileSize on. -/
def size (resp : GetFileSizeResponse) : Except ClientError (ℤ × ℤ) :=
  if resp.ok then .ok (resp.size, resp.numChunks) else .error (.gfsError resp.message)

section Loop

variable {serve : Serve} {placements : List ChunkPlacement} {round : ℕ} {parts : Parts}
  {tried : Tried} {payload : ChunkId → Bytes}

/-- Whatever a server answers for a chunk of the file is the payload of that chunk. -/
def Sound (serve : Serve) (placements : List ChunkPlacement) (payload : ChunkId → Bytes) : Prop :=
  ∀ round addr ids x, x ∈ serve round addr ids →
    x.1 ∈ ids ∧ (x.1 ∈ placements.map ChunkPlacement.chunkId → x.2 = payload x.1)

/-- The address answers whenever it is asked for the chunk. -/
def Answers (serve : Serve) (addr : Addr) (c : ChunkId) : Prop :=
  ∀ round ids, c ∈ ids → ∃ b, (c, b) ∈ serve round addr ids

/-- Collected parts are payloads of the file's chunks. -/
def PartsOk (placements : List ChunkPlacement) (payload : ChunkId → Bytes) (parts : Parts) : Prop :=
  ∀ c b, parts.lookup c = some b →
    c ∈ placements.map ChunkPlacement.chunkId ∧ b = payload c

theorem mem_answers {asked : List (Addr × List ChunkId)} {x : ChunkId × Bytes} :
    x ∈ answers serve round asked ↔
      ∃ addr ids, (addr, ids) ∈ asked ∧ ∃ batch ∈ chunkIdBatches ids, x ∈ serve round addr batch := by
  simp only [answers, List.mem_flatMap, Prod.exists]

theorem lookup_updateParts {chunks : List (ChunkId × Bytes)} {c : ChunkId} {b : Bytes}
    (h : (updateParts parts chunks).lookup c = some b) :
    parts.lookup c = some b ∨ (c, b) ∈ chunks := by
  induction chunks generalizing parts with
  | nil => exact .inl h
  | cons x chunks ih =>
    rcases ih h with h | h
    · by_cases hc : c = x.1
      · subst hc
        rw [AList.lookup_insert, Option.some.injEq] at h
        exact .inr (by simp [← h])
      · rw [AList.lookup_insert_ne hc] at h
        exact .inl h
    · exact .inr (List.mem_cons_of_mem _ h)

theorem mem_updateParts {chunks : List (ChunkId × Bytes)} {c : ChunkId} :
    c ∈ updateParts parts chunks ↔ c ∈ parts ∨ ∃ b, (c, b) ∈ chunks := by
  induction chunks generalizing parts with
  | nil => simp [updateParts]
  | cons x chunks ih =>
    obtain ⟨c', b'⟩ := x
    show c ∈ updateParts (parts.insert c' b') chunks ↔ _
    rw [ih, AList.mem_insert]
    simp only [List.mem_cons, Prod.mk.injEq, exists_or, exists_and_left]
    tauto

theorem PartsOk.update (h : PartsOk placements payload parts)
    (hserve : Sound serve placements payload) :
    PartsOk placements payload
      (updateParts parts (answers serve round (planRound parts tried placements).2)) := by
  intro c b hb
  rcases lookup_updateParts hb with hb | hb
  · exact h c b hb
  · obtain ⟨addr, ids, hask, batch, hbatch, hx⟩ := mem_answers.mp hb
    obtain ⟨hin, hval⟩ := hserve round addr batch _ hx
    have hids : c ∈ ids := Slices.mem_of_mem_slices hbatch hin
    obtain ⟨_, hnil, _⟩ | ⟨⟨p, hp, hid, _⟩, _⟩ := asked_of_foldl ⟨ids, hask, hids⟩
    · cases hnil
    · have hc : c ∈ placements.map ChunkPlacement.chunkId := hid ▸ List.mem_map_of_mem hp
      exact ⟨hc, hval hc⟩

/-- As many parts as placements are all of them. -/
theorem mem_of_full (h : PartsOk placements payload parts) (hfull : placements.length ≤ parts.entries.length)
    {p : ChunkPlacement} (hp : p ∈ placements) : parts.lookup p.chunkId = some (payload p.chunkId) := by
  have hsub : parts.keys ⊆ placements.map ChunkPlacement.chunkId := by
    intro c hc
    obtain ⟨b, hb⟩ := Option.isSome_iff_exists.mp (AList.lookup_isSome.mpr (AList.mem_keys.mpr hc))
    exact (h c b hb).1
  have hperm := (List.subperm_of_subset parts.keys_nodup hsub).perm_of_length_le
    (by simpa [AList.keys, List.keys] using hfull)
  have hmem : p.chunkId ∈ parts := AList.mem_keys.mp (hperm.mem_iff.mpr (List.mem_map_of_mem hp))
  obtain ⟨b, hb⟩ := Option.isSome_iff_exists.mp (AList.lookup_isSome.mpr hmem)
  rw [hb, (h _ b hb).2]

theorem assemble_ok (h : PartsOk placements payload parts)
    (hfull : placements.length ≤ parts.entries.length) :
    assemble placements parts =
      .ok ((sortByIndex placements).map fun p => payload p.chunkId) := by
  refine Lists.mapM_ok fun p hp => ?_
  rw [mem_of_full h hfull ((List.perm_insertionSort _ _).mem_iff.mp hp)]

/-- A loop that returns has the payloads in index order. -/
theorem fetchLoop_sound (hserve : Sound serve placements payload) (hparts : PartsOk placements payload parts)
    {bs : List Bytes} (h : fetchLoop serve placements round parts tried = .ok bs) :
    bs = (sortByIndex placements).map fun p => payload p.chunkId := by
  fun_induction fetchLoop serve placements round parts tried with
  | case1 round parts tried hfull =>
    rw [assemble_ok hparts hfull] at h
    cases h
    rfl
  | case2 => cases h
  | case3 round parts tried _ hne ih => exact ih (hparts.update hserve) h

/-- A loop whose every chunk has a replica that answers returns. -/
theorem fetchLoop_returns (hids : (placements.map ChunkPlacement.chunkId).Nodup)
    (hserve : Sound serve placements payload) (hparts : PartsOk placements payload parts)
    (hgood : ∀ p ∈ placements, p.chunkId ∉ parts →
      ∃ addr ∈ p.locations, Answers serve addr p.chunkId ∧ addr ∉ tried p.chunkId) :
    ∃ bs, fetchLoop serve placements round parts tried = .ok bs := by
  fun_induction fetchLoop serve placements round parts tried with
  | case1 round parts tried hfull => exact ⟨_, assemble_ok hparts hfull⟩
  | case2 round parts tried hshort hnone =>
    -- some chunk is missing, and its replica that answers would have been asked
    exfalso
    apply hshort
    have hall : placements.map ChunkPlacement.chunkId ⊆ parts.keys := by
      intro c hc
      obtain ⟨p, hp, rfl⟩ := List.mem_map.mp hc
      by_contra hmiss
      have hmiss' : p.chunkId ∉ parts := fun hin => hmiss (AList.mem_keys.mpr hin)
      obtain ⟨addr, haddr, _, hnot⟩ := hgood p hp hmiss'
      exact hnot (exhausted_of_planRound hnone p hp hmiss' addr haddr)
    simpa [AList.keys, List.keys] using (List.subperm_of_subset hids hall).length_le
  | case3 round parts tried _ hne ih =>
    refine ih (hparts.update hserve) fun p hp hmiss => ?_
    rw [mem_updateParts, not_or] at hmiss
    obtain ⟨addr, haddr, hans, hnot⟩ := hgood p hp hmiss.1
    refine ⟨addr, haddr, hans, fun htried => ?_⟩
    rcases tried_of_foldl htried with htried | ⟨ids, hask, hid⟩
    · exact hnot htried
    · obtain ⟨batch, hbatch, hin⟩ := Slices.exists_slice_of_mem (n := batchSize) (by decide) hid
      obtain ⟨b, hb⟩ := hans round batch hin
      exact hmiss.2 ⟨b, mem_answers.mpr ⟨addr, ids, hask, batch, hbatch, hb⟩⟩

end Loop

/-! ### Servers that answer alike -/

section Alike

variable {serve serve' : Serve} {placements : List ChunkPlacement}

/-- The two answer alike whenever they are asked for chunks of the file only. -/
def Alike (placements : List ChunkPlacement) (serve serve' : Serve) : Prop :=
  ∀ round addr ids, (∀ c ∈ ids, c ∈ placements.map ChunkPlacement.chunkId) →
    serve round addr ids = serve' round addr ids

theorem Alike.answers (h : Alike placements serve serve') (round : ℕ) (parts : Parts) (tried : Tried) :
    answers serve round (planRound parts tried placements).2 =
      answers serve' round (planRound parts tried placements).2 := by
  refine List.flatMap_congr fun g hg => List.flatMap_congr fun batch hbatch => ?_
  refine h round g.1 batch fun c hc => ?_
  have hin : c ∈ g.2 := Slices.mem_of_mem_slices hbatch hc
  rcases asked_of_foldl ⟨g.2, hg, hin⟩ with ⟨_, hnil, _⟩ | ⟨⟨p, hp, hid, _⟩, _⟩
  · cases hnil
  · exact hid ▸ List.mem_map_of_mem hp

theorem Alike.fetchLoop (h : Alike placements serve serve') (round : ℕ) (parts : Parts) (tried : Tried) :
    fetchLoop serve placements round parts tried = fetchLoop serve' placements round parts tried := by
  fun_induction GfsCluster.fetchLoop serve placements round parts tried with
  | case1 round parts tried hfull => rw [GfsCluster.fetchLoop, if_pos hfull]
  | case2 round parts tried hshort hnone =>
    rw [GfsCluster.fetchLoop, if_neg hshort, dif_pos hnone]
  | case3 round parts tried hshort hne ih =>
    conv_rhs => rw [GfsCluster.fetchLoop]
    rw [ih, if_neg hshort, dif_neg hne, h.answers]

end Alike

/-! ### read -/

section Read

variable {resp : GetFileResponse} {serve : Serve} {payload : ChunkId → Bytes} {data : Bytes}

theorem mem_sortByIndex {placements : List ChunkPlacement} {p : ChunkPlacement} :
    p ∈ sortByIndex placements ↔ p ∈ placements :=
  (List.perm_insertionSort _ _).mem_iff

theorem sortByIndex_sorted (placements : List ChunkPlacement) :
    (sortByIndex placements).Pairwise (·.index ≤ ·.index) := by
  have htotal : Std.Total fun p q : ChunkPlacement => p.index ≤ q.index :=
    ⟨fun p q => le_total p.index q.index⟩
  have htrans : IsTrans ChunkPlacement fun p q => p.index ≤ q.index :=
    ⟨fun _ _ _ => le_trans⟩
  exact List.pairwise_insertionSort _ _

theorem sortByIndex_sortByIndex (placements : List ChunkPlacement) :
    sortByIndex (sortByIndex placements) = sortByIndex placements :=
  (sortByIndex_sorted placements).insertionSort_eq

/-- Placements with the indices of `chunks`, each with its payload, give `chunks` back. -/
theorem map_payload_sortByIndex {placements : List ChunkPlacement} {chunks : List Bytes}
    (hidx : (placements.map ChunkPlacement.index).Perm (List.range chunks.length))
    (hpay : ∀ p ∈ placements, chunks[p.index]? = some (payload p.chunkId)) :
    ((sortByIndex placements).map fun p => payload p.chunkId) = chunks := by
  have hsorted : (sortByIndex placements).map ChunkPlacement.index = List.range chunks.length := by
    have hperm : ((sortByIndex placements).map ChunkPlacement.index).Perm
        (List.range chunks.length) := ((List.perm_insertionSort _ _).map _).trans hidx
    refine hperm.eq_of_pairwise (fun a b _ _ => le_antisymm) ?_ List.pairwise_le_range
    exact List.pairwise_map.mpr (sortByIndex_sorted placements)
  calc ((sortByIndex placements).map fun p => payload p.chunkId)
      = (sortByIndex placements).map fun p => chunks[p.index]?.getD [] := by
        refine List.map_congr_left fun p hp => ?_
        rw [hpay p (mem_sortByIndex.mp hp)]
        rfl
    _ = ((sortByIndex placements).map ChunkPlacement.index).map fun i => chunks[i]?.getD [] := by
        rw [List.map_map]
        rfl
    _ = chunks := by
        rw [hsorted]
        refine List.ext_getElem (by simp) fun i h₁ h₂ => ?_
        simp [h₂]

theorem Sound.sorted (h : Sound serve resp.placements payload) :
    Sound serve (sortByIndex resp.placements) payload := by
  intro round addr ids x hx
  refine ⟨(h round addr ids x hx).1, fun hc => (h round addr ids x hx).2 ?_⟩
  obtain ⟨p, hp, hid⟩ := List.mem_map.mp hc
  exact hid ▸ List.mem_map_of_mem (mem_sortByIndex.mp hp)

theorem PartsOk.empty (placements : List ChunkPlacement) (payload : ChunkId → Bytes) :
    PartsOk placements payload ∅ := by
  intro c b hb
  simp at hb

/-- A read that returns has all chunks of the answer, in index order. -/
theorem read_sound (hserve : Sound serve resp.placements payload) (h : read resp serve = .ok data) :
    resp.ok = true ∧
      data = ((sortByIndex resp.placements).map fun p => payload p.chunkId).flatten := by
  unfold read at h
  split_ifs at h with hok
  refine ⟨hok, ?_⟩
  unfold fetchChunksBatched at h
  split_ifs at h with hnil
  · rw [hnil]
    cases h
    rfl
  · cases hloop : fetchLoop serve (sortByIndex resp.placements) 0 ∅ fun _ => [] with
    | error e =>
      rw [hloop] at h
      cases h
    | ok bs =>
      have hbs := fetchLoop_sound hserve.sorted (PartsOk.empty _ payload) hloop
      rw [hloop] at h
      cases h
      rw [hbs, sortByIndex_sortByIndex]

/-- A read asks for chunks of the answer only. -/
theorem read_congr {serve' : Serve} (h : Alike resp.placements serve serve') :
    read resp serve = read resp serve' := by
  have hsorted : Alike (sortByIndex resp.placements) serve serve' := fun round addr ids hids =>
    h round addr ids fun c hc => ((List.perm_insertionSort _ _).map _).mem_iff.mp (hids c hc)
  rw [read, read, fetchChunksBatched, fetchChunksBatched, hsorted.fetchLoop]

/-- A read returns when every chunk of the answer has a replica that answers. -/
theorem read_returns (hok : resp.ok = true) (hids : (resp.placements.map ChunkPlacement.chunkId).Nodup)
    (hserve : Sound serve resp.placements payload)
    (hgood : ∀ p ∈ resp.placements, ∃ addr ∈ p.locations, Answers serve addr p.chunkId) :
    read resp serve =
      .ok ((sortByIndex resp.placements).map fun p => payload p.chunkId).flatten := by
  have hret : ∃ data, read resp serve = .ok data := by
    unfold read fetchChunksBatched
    rw [if_pos hok]
    split_ifs with hnil
    · exact ⟨_, rfl⟩
    · have hids' : ((sortByIndex resp.placements).map ChunkPlacement.chunkId).Nodup :=
        ((List.perm_insertionSort _ _).map _).nodup_iff.mpr hids
      have hfetched : ∃ bs, fetchLoop serve (sortByIndex resp.placements) 0 ∅ (fun _ => []) = .ok bs :=
        fetchLoop_returns hids' hserve.sorted (PartsOk.empty _ payload) fun p hp _ => by
          obtain ⟨addr, haddr, hans⟩ := hgood p (mem_sortByIndex.mp hp)
          exact ⟨addr, haddr, hans, List.not_mem_nil⟩
      obtain ⟨bs, hbs⟩ := hfetched
      rw [hbs]
      exact ⟨_, rfl⟩
  obtain ⟨data, hdata⟩ := hret
  rw [hdata, (read_sound hserve hdata).2]

end Read

end GfsCluster
