import GfsCluster.Client.Fetch

/-! The rounds of `_fetch_chunks_batched`: which chunks are asked of which replica, in
which calls, and what comes back. The thread pool runs the calls of a round in parallel,
so their results arrive in any order. -/

namespace GfsCluster

open Grouping

/-- One `_get_chunks` future. -/
structure GetCall where
  addr : Addr
  chunkIds : List ChunkId
  deriving DecidableEq

/-- A round: the calls submitted, and the chunks each of them returned, in the order of
`as_completed`. -/
structure FetchRound where
  calls : List GetCall
  completed : List (GetCall × List (ChunkId × Bytes))

/-- What the pool makes of the calls submitted in a round. -/
abbrev Pool := ℕ → List GetCall → List (GetCall × List (ChunkId × Bytes))

/-- Every call completes once, and returns nothing but chunks it asked for: a call that
fails returns no chunk. -/
def Pool.Honest (pool : Pool) : Prop :=
  ∀ round calls, ((pool round calls).map Prod.fst).Perm calls ∧
    ∀ r ∈ pool round calls, ∀ x ∈ r.2, x.1 ∈ r.1.chunkIds

/-- The futures submitted for what a round asks of each server. -/
def getCalls (asked : List (Addr × List ChunkId)) : List GetCall :=
  asked.flatMap fun g => (chunkIdBatches g.2).map (GetCall.mk g.1)

def Pool.round (pool : Pool) (round : ℕ) (asked : List (Addr × List ChunkId)) : FetchRound :=
  ⟨getCalls asked, pool round (getCalls asked)⟩

/-- The chunks that come back in a round. -/
def FetchRound.chunks (r : FetchRound) : List (ChunkId × Bytes) := r.completed.flatMap Prod.snd

/-- The loop, with its rounds. -/
def fetchRounds (pool : Pool) (placements : List ChunkPlacement) (round : ℕ) (parts : Parts)
    (tried : Tried) : List FetchRound × Except ClientError (List Bytes) :=
  if placements.length ≤ parts.entries.length then ([], assemble placements parts)
  else if h : (planRound parts tried placements).2 = [] then
    ([], .error (.gfsError (unavailable placements parts)))
  else Prod.map (pool.round round (planRound parts tried placements).2 :: ·) id
    (fetchRounds pool placements (round + 1)
      (updateParts parts (pool.round round (planRound parts tried placements).2).chunks)
      (planRound parts tried placements).1)
termination_by untried placements tried
decreasing_by exact untried_planRound_lt h

/-- `_fetch_chunks_batched`, with its rounds. -/
def fetchChunksRounds (pool : Pool) (placements : List ChunkPlacement) :
    List FetchRound × Except ClientError (List Bytes) :=
  if placements = [] then ([], .ok []) else fetchRounds pool placements 0 ∅ fun _ => []

/-! ### The pool of servers that answer as they do -/

/-- Calls that complete in the order they were submitted. -/
def Serve.pool (serve : Serve) : Pool :=
  fun round calls => calls.map fun call => (call, serve round call.addr call.chunkIds)

theorem chunks_serve (serve : Serve) (round : ℕ) (asked : List (Addr × List ChunkId)) :
    ((Serve.pool serve).round round asked).chunks = answers serve round asked := by
  simp only [FetchRound.chunks, Pool.round, Serve.pool, getCalls, answers, List.flatMap_map,
    List.map_flatMap, List.flatMap_assoc, List.map_map]
  rfl

theorem fetchRounds_serve (serve : Serve) (placements : List ChunkPlacement) (round : ℕ)
    (parts : Parts) (tried : Tried) :
    (fetchRounds (Serve.pool serve) placements round parts tried).2 =
      fetchLoop serve placements round parts tried := by
  fun_induction fetchLoop serve placements round parts tried with
  | case1 round parts tried hfull => rw [fetchRounds, if_pos hfull]
  | case2 round parts tried hshort hnone => rw [fetchRounds, if_neg hshort, dif_pos hnone]
  | case3 round parts tried hshort hne ih =>
    rw [fetchRounds, if_neg hshort, dif_neg hne, chunks_serve]
    exact ih

/-- The result is the one of the loop that keeps no record. -/
theorem fetchChunksRounds_serve (serve : Serve) (placements : List ChunkPlacement) :
    (fetchChunksRounds (Serve.pool serve) placements).2 = fetchChunksBatched serve placements := by
  unfold fetchChunksRounds fetchChunksBatched
  split_ifs with hnil
  · rfl
  · exact fetchRounds_serve serve placements 0 ∅ _

/-! ### One round -/

section Round

variable {pool : Pool} {placements : List ChunkPlacement} {parts : Parts} {tried : Tried}
  {asked : List (Addr × List ChunkId)} {addr : Addr} {c : ChunkId}

/-- The chunk of the placement is missing, and has a replica that was not tried. -/
def Wants (parts : Parts) (tried : Tried) (p : ChunkPlacement) : Prop :=
  p.chunkId ∉ parts ∧ ∃ addr ∈ p.locations, addr ∉ tried p.chunkId

instance (parts : Parts) (tried : Tried) (p : ChunkPlacement) : Decidable (Wants parts tried p) :=
  inferInstanceAs (Decidable (_ ∧ _))

/-- The server and the chunk of each id in the calls. -/
def GetCall.asks (call : GetCall) : List (Addr × ChunkId) := call.chunkIds.map (call.addr, ·)

def FetchRound.asks (r : FetchRound) : List (Addr × ChunkId) := r.calls.flatMap GetCall.asks

/-- The ids that a loop over placements adds to its calls. -/
theorem ids_foldl_planOne (hids : (placements.map ChunkPlacement.chunkId).Nodup)
    (acc : Tried × List (Addr × List ChunkId)) :
    ((placements.foldl (planOne parts) acc).2.flatMap Prod.snd).Perm
      (acc.2.flatMap Prod.snd ++
        (placements.filter (Wants parts acc.1)).map ChunkPlacement.chunkId) := by
  induction placements generalizing acc with
  | nil => simp
  | cons p placements ih =>
    rw [List.map_cons, List.nodup_cons] at hids
    rw [List.foldl_cons]
    rcases planOne_cases parts acc p with ⟨he, hskip⟩ | ⟨addr, haddr, hmiss, hnew, he⟩
    · have hwants : ¬ Wants parts acc.1 p := by
        rintro ⟨hmiss, addr, haddr, hnew⟩
        exact hnew (hskip.resolve_left hmiss addr haddr)
      rw [he, List.filter_cons_of_neg (by simpa using hwants)]
      exact ih hids.2 acc
    · have hwants : Wants parts acc.1 p := ⟨hmiss, addr, haddr, hnew⟩
      -- the turn of `p` leaves what the other chunks want as it is
      have hrest : placements.filter (Wants parts (planOne parts acc p).1) =
          placements.filter (Wants parts acc.1) := by
        refine List.filter_congr fun q hq => ?_
        have hne : q.chunkId ≠ p.chunkId := fun h => hids.1 (h ▸ List.mem_map_of_mem hq)
        rw [he, decide_eq_decide]
        simp only [Wants, Function.update_of_ne hne]
      rw [List.filter_cons_of_pos (by simpa using hwants), List.map_cons]
      have hpush := flatMap_push addr p.chunkId acc.2
      have hrun := ih hids.2 (planOne parts acc p)
      rw [hrest] at hrun
      rw [he] at hrun ⊢
      exact hrun.trans ((hpush.append_right _).trans List.perm_middle.symm)

/-- A round asks for each chunk that wants it once, and for no other. -/
theorem ids_planRound (hids : (placements.map ChunkPlacement.chunkId).Nodup) :
    ((planRound parts tried placements).2.flatMap Prod.snd).Perm
      ((placements.filter (Wants parts tried)).map ChunkPlacement.chunkId) := by
  unfold planRound
  simpa using ids_foldl_planOne hids (tried, [])

theorem ids_getCalls (asked : List (Addr × List ChunkId)) :
    (getCalls asked).flatMap GetCall.chunkIds = asked.flatMap Prod.snd := by
  rw [getCalls, List.flatMap_assoc]
  refine List.flatMap_congr fun g _ => ?_
  rw [List.flatMap_map]
  show (chunkIdBatches g.2).flatMap id = g.2
  rw [List.flatMap_id]
  exact Slices.flatten_slices (by decide) g.2

theorem map_snd_asks (r : FetchRound) : r.asks.map Prod.snd = r.calls.flatMap GetCall.chunkIds := by
  rw [FetchRound.asks, List.map_flatMap]
  refine List.flatMap_congr fun call _ => ?_
  simp [GetCall.asks]

theorem mem_asks {r : FetchRound} :
    (addr, c) ∈ r.asks ↔ ∃ call ∈ r.calls, call.addr = addr ∧ c ∈ call.chunkIds := by
  simp only [FetchRound.asks, GetCall.asks, List.mem_flatMap, List.mem_map, Prod.mk.injEq]
  constructor
  · rintro ⟨call, hcall, c', hc, rfl, rfl⟩
    exact ⟨call, hcall, rfl, hc⟩
  · rintro ⟨call, hcall, rfl, hc⟩
    exact ⟨call, hcall, c, hc, rfl, rfl⟩

theorem mem_asks_round {round : ℕ} :
    (addr, c) ∈ (pool.round round asked).asks ↔ ∃ ids, (addr, ids) ∈ asked ∧ c ∈ ids := by
  rw [mem_asks]
  simp only [Pool.round, getCalls, List.mem_flatMap, List.mem_map]
  constructor
  · rintro ⟨_, ⟨g, hg, batch, hbatch, rfl⟩, rfl, hc⟩
    exact ⟨g.2, hg, Slices.mem_of_mem_slices hbatch hc⟩
  · rintro ⟨ids, hg, hc⟩
    obtain ⟨batch, hbatch, hin⟩ := Slices.exists_slice_of_mem (n := batchSize) (by decide) hc
    exact ⟨⟨addr, batch⟩, ⟨(addr, ids), hg, batch, hbatch, rfl⟩, rfl, hin⟩

/-- Tried after a round is what was tried before and what the round asks. -/
theorem mem_tried_planRound (pool : Pool) (round : ℕ) :
    addr ∈ (planRound parts tried placements).1 c ↔ addr ∈ tried c ∨
      (addr, c) ∈ (pool.round round (planRound parts tried placements).2).asks := by
  rw [mem_asks_round]
  constructor
  · exact tried_of_foldl
  · rintro (h | h)
    · exact tried_subset_foldl h
    · obtain ⟨_, hnil, _⟩ | ⟨_, _, _, hin⟩ := asked_of_foldl h
      · cases hnil
      · exact hin

theorem length_getCalls {call : GetCall} (h : call ∈ getCalls asked) :
    call.chunkIds.length ≤ batchSize := by
  obtain ⟨g, _, hcall⟩ := List.mem_flatMap.mp h
  obtain ⟨batch, hbatch, rfl⟩ := List.mem_map.mp hcall
  exact Slices.length_le_of_mem_slices hbatch

end Round

/-! ### The run -/

/-- The chunk of the placement came back as `b` from one of its replicas. -/
def Answered (rounds : List FetchRound) (p : ChunkPlacement) (b : Bytes) : Prop :=
  ∃ r ∈ rounds, ∃ x ∈ r.completed,
    x.1.addr ∈ p.locations ∧ p.chunkId ∈ x.1.chunkIds ∧ (p.chunkId, b) ∈ x.2

/-- The chunk of the placement did not come back yet, and one of its replicas was not asked
for it. -/
def Pending (rounds : List FetchRound) (p : ChunkPlacement) : Prop :=
  (∀ b, ¬ Answered rounds p b) ∧
    ∃ addr ∈ p.locations, (addr, p.chunkId) ∉ rounds.flatMap FetchRound.asks

/-- What a round does after the rounds `before`. -/
structure RoundOk (placements : List ChunkPlacement) (before : List FetchRound) (r : FetchRound) :
    Prop where
  completes : (r.completed.map Prod.fst).Perm r.calls
  batch : ∀ call ∈ r.calls, call.chunkIds.length ≤ batchSize
  /-- No id is in two calls, or twice in one. -/
  once : (r.calls.flatMap GetCall.chunkIds).Nodup
  pending : ∀ p ∈ placements, p.chunkId ∈ r.calls.flatMap GetCall.chunkIds ↔ Pending before p
  replica : ∀ addr c, (addr, c) ∈ r.asks → ∃ p ∈ placements, p.chunkId = c ∧ addr ∈ p.locations
  new : ∀ x ∈ r.asks, x ∉ before.flatMap FetchRound.asks

/-- What holds of a whole fetch: its rounds, and what it returns or raises. -/
structure Fetched (placements : List ChunkPlacement) (rounds : List FetchRound)
    (result : Except ClientError (List Bytes)) : Prop where
  ends : rounds.length ≤ (placements.map fun p => p.locations.length).sum
  /-- No server is asked twice for one chunk. -/
  once : (rounds.flatMap FetchRound.asks).Nodup
  round : ∀ i r, rounds[i]? = some r → RoundOk placements (rounds.take i) r
  returns : (∃ bs, result = .ok bs) ↔ ∀ p ∈ placements, ∃ b, Answered rounds p b
  inOrder : ∀ bs, result = .ok bs → List.Forall₂ (Answered rounds) (sortByIndex placements) bs
  raises : ∀ e, result = .error e → (∃ message, e = .gfsError message) ∧
    ∃ p ∈ placements, (∀ b, ¬ Answered rounds p b) ∧
      ∀ addr ∈ p.locations, (addr, p.chunkId) ∈ rounds.flatMap FetchRound.asks

/-- The variables of the loop record the rounds so far. -/
structure Tracks (placements : List ChunkPlacement) (past : List FetchRound) (parts : Parts)
    (tried : Tried) : Prop where
  triedIff : ∀ addr c, addr ∈ tried c ↔ (addr, c) ∈ past.flatMap FetchRound.asks
  keys : ∀ c ∈ parts, c ∈ placements.map ChunkPlacement.chunkId
  came : ∀ p ∈ placements, ∀ b, parts.lookup p.chunkId = some b → Answered past p b
  answered : ∀ p ∈ placements, ∀ b, Answered past p b → p.chunkId ∈ parts
  once : (past.flatMap FetchRound.asks).Nodup
  round : ∀ i r, past[i]? = some r → RoundOk placements (past.take i) r

section Run

variable {pool : Pool} {placements : List ChunkPlacement} {past : List FetchRound} {parts : Parts}
  {tried : Tried} {round : ℕ}

theorem answered_append {rounds rounds' : List FetchRound} {p : ChunkPlacement} {b : Bytes} :
    Answered (rounds ++ rounds') p b ↔ Answered rounds p b ∨ Answered rounds' p b := by
  simp only [Answered, List.mem_append, or_and_right, exists_or]

theorem Tracks.start (placements : List ChunkPlacement) : Tracks placements [] ∅ fun _ => [] where
  triedIff := by simp
  keys := by simp
  came := by simp
  answered := by simp [Answered]
  once := List.nodup_nil
  round := by simp

theorem Tracks.mem_parts (h : Tracks placements past parts tried) {p : ChunkPlacement}
    (hp : p ∈ placements) : p.chunkId ∈ parts ↔ ∃ b, Answered past p b := by
  constructor
  · intro hin
    obtain ⟨b, hb⟩ := Option.isSome_iff_exists.mp (AList.lookup_isSome.mpr hin)
    exact ⟨b, h.came p hp b hb⟩
  · rintro ⟨b, hb⟩
    exact h.answered p hp b hb

theorem Tracks.wants_iff (h : Tracks placements past parts tried) {p : ChunkPlacement}
    (hp : p ∈ placements) : Wants parts tried p ↔ Pending past p := by
  unfold Wants Pending
  rw [h.mem_parts hp]
  simp only [h.triedIff, not_exists]

/-- The next round. -/
theorem Tracks.roundOk (h : Tracks placements past parts tried) (hpool : pool.Honest)
    (hids : (placements.map ChunkPlacement.chunkId).Nodup) :
    RoundOk placements past (pool.round round (planRound parts tried placements).2) where
  completes := (hpool _ _).1
  batch := fun call hcall => length_getCalls hcall
  once := by
    show ((getCalls _).flatMap GetCall.chunkIds).Nodup
    rw [ids_getCalls, (ids_planRound hids).nodup_iff]
    exact (List.filter_sublist.map ChunkPlacement.chunkId).nodup hids
  pending := by
    intro p hp
    show p.chunkId ∈ (getCalls _).flatMap GetCall.chunkIds ↔ _
    rw [ids_getCalls, (ids_planRound hids).mem_iff, ← h.wants_iff hp]
    simp only [List.mem_map, List.mem_filter, decide_eq_true_eq]
    constructor
    · rintro ⟨q, ⟨hq, hwants⟩, hid⟩
      exact List.inj_on_of_nodup_map hids hq hp hid ▸ hwants
    · exact fun hwants => ⟨p, ⟨hp, hwants⟩, rfl⟩
  replica := by
    intro addr c hask
    obtain ⟨_, hnil, _⟩ | ⟨⟨p, hp, hid, haddr⟩, _⟩ := asked_of_foldl (mem_asks_round.mp hask)
    · cases hnil
    · exact ⟨p, hp, hid, haddr⟩
  new := by
    rintro ⟨addr, c⟩ hask hpast
    obtain ⟨_, hnil, _⟩ | ⟨_, _, hnot, _⟩ := asked_of_foldl (mem_asks_round.mp hask)
    · cases hnil
    · exact hnot ((h.triedIff addr c).mpr hpast)

/-- What comes back in a round is an answer of a replica. -/
theorem RoundOk.answered {before : List FetchRound} {r : FetchRound} (h : RoundOk placements before r)
    (hids : (placements.map ChunkPlacement.chunkId).Nodup)
    (hasked : ∀ x ∈ r.completed, ∀ y ∈ x.2, y.1 ∈ x.1.chunkIds) {c : ChunkId} {b : Bytes}
    (hb : (c, b) ∈ r.chunks) :
    c ∈ placements.map ChunkPlacement.chunkId ∧
      ∀ p ∈ placements, p.chunkId = c → Answered [r] p b := by
  obtain ⟨x, hx, hin⟩ := List.mem_flatMap.mp hb
  have hc : c ∈ x.1.chunkIds := hasked x hx _ hin
  have hcall : x.1 ∈ r.calls := h.completes.mem_iff.mp (List.mem_map_of_mem hx)
  obtain ⟨q, hq, hid, haddr⟩ := h.replica _ _ (mem_asks.mpr ⟨x.1, hcall, rfl, hc⟩)
  refine ⟨hid ▸ List.mem_map_of_mem hq, fun p hp hpc => ?_⟩
  have hpq : q = p := List.inj_on_of_nodup_map hids hq hp (hid.trans hpc.symm)
  subst hpq
  subst hid
  exact ⟨r, List.mem_singleton_self r, x, hx, haddr, hc, hin⟩

/-- One round keeps the record. -/
theorem Tracks.next (h : Tracks placements past parts tried) (hpool : pool.Honest)
    (hids : (placements.map ChunkPlacement.chunkId).Nodup) :
    let r := pool.round round (planRound parts tried placements).2
    Tracks placements (past ++ [r]) (updateParts parts r.chunks) (planRound parts tried placements).1 := by
  intro r
  have hr : RoundOk placements past r := h.roundOk hpool hids
  have hback : ∀ c b, (c, b) ∈ r.chunks → c ∈ placements.map ChunkPlacement.chunkId ∧
      ∀ p ∈ placements, p.chunkId = c → Answered [r] p b :=
    fun c b hb => hr.answered hids (hpool _ _).2 hb
  constructor
  · intro addr c
    rw [mem_tried_planRound pool round, h.triedIff]
    simp [r]
  · intro c hc
    rcases mem_updateParts.mp hc with hc | ⟨b, hb⟩
    · exact h.keys c hc
    · exact (hback c b hb).1
  · intro p hp b hb
    rw [answered_append]
    rcases lookup_updateParts hb with hb | hb
    · exact .inl (h.came p hp b hb)
    · exact .inr ((hback _ b hb).2 p hp rfl)
  · intro p hp b hb
    rw [mem_updateParts]
    rcases answered_append.mp hb with hb | ⟨_, hr', x, hx, _, _, hin⟩
    · exact .inl (h.answered p hp b hb)
    · rw [List.mem_singleton.mp hr'] at hx
      exact .inr ⟨b, List.mem_flatMap.mpr ⟨x, hx, hin⟩⟩
  · rw [List.flatMap_append, List.flatMap_singleton]
    refine h.once.append ?_ fun x hpast hask => hr.new x hask hpast
    apply List.Nodup.of_map Prod.snd
    rw [map_snd_asks]
    exact hr.once
  · intro i r' hi
    rcases Lists.getElem?_concat_eq_some.mp hi with hi | ⟨rfl, rfl⟩
    · have hlt : i < past.length := (List.getElem?_eq_some_iff.mp hi).1
      rw [List.take_append_of_le_length hlt.le]
      exact h.round i r' hi
    · rwa [List.take_left']
      rfl

/-- A round for each replica at most. -/
theorem length_fetchRounds (pool : Pool) (placements : List ChunkPlacement) (round : ℕ)
    (parts : Parts) (tried : Tried) :
    (fetchRounds pool placements round parts tried).1.length ≤ untried placements tried := by
  fun_induction fetchRounds pool placements round parts tried with
  | case1 => exact Nat.zero_le _
  | case2 => exact Nat.zero_le _
  | case3 round parts tried _ hne ih =>
    exact Nat.succ_le_of_lt (lt_of_le_of_lt ih (untried_planRound_lt hne))

/-- The loop ends with every part there, or with no replica left to ask, and its variables
record its rounds. -/
theorem fetchRounds_ends (round : ℕ) (hpool : pool.Honest)
    (hids : (placements.map ChunkPlacement.chunkId).Nodup)
    (h : Tracks placements past parts tried) :
    ∃ parts' tried', Tracks placements
        (past ++ (fetchRounds pool placements round parts tried).1) parts' tried' ∧
      (placements.length ≤ parts'.entries.length ∧
          (fetchRounds pool placements round parts tried).2 = assemble placements parts' ∨
        ¬ placements.length ≤ parts'.entries.length ∧ (planRound parts' tried' placements).2 = [] ∧
          (fetchRounds pool placements round parts tried).2 =
            .error (.gfsError (unavailable placements parts'))) := by
  fun_induction fetchRounds pool placements round parts tried generalizing past with
  | case1 round parts tried hfull =>
    rw [List.append_nil]
    exact ⟨parts, tried, h, .inl ⟨hfull, rfl⟩⟩
  | case2 round parts tried hshort hnone =>
    rw [List.append_nil]
    exact ⟨parts, tried, h, .inr ⟨hshort, hnone, rfl⟩⟩
  | case3 round parts tried _ _ ih =>
    have hend := ih (h.next hpool hids)
    rwa [List.append_assoc] at hend

/-- With a part for each placement nothing is missing. -/
theorem Tracks.all_parts (h : Tracks placements past parts tried)
    (hfull : placements.length ≤ parts.entries.length) :
    assemble placements parts =
      .ok ((sortByIndex placements).map fun p => (parts.lookup p.chunkId).getD []) ∧
    ∀ p ∈ placements, Answered past p ((parts.lookup p.chunkId).getD []) := by
  have hok : PartsOk placements (fun c => (parts.lookup c).getD []) parts := by
    intro c b hb
    have hin : c ∈ parts := AList.lookup_isSome.mp (by rw [hb]; rfl)
    refine ⟨h.keys c hin, ?_⟩
    simp only [hb, Option.getD_some]
  refine ⟨assemble_ok hok hfull, fun p hp => ?_⟩
  exact h.came p hp _ (mem_of_full hok hfull hp)

/-- With parts too few, some chunk did not come back. -/
theorem exists_missing (hids : (placements.map ChunkPlacement.chunkId).Nodup)
    (hshort : ¬ placements.length ≤ parts.entries.length) : ∃ p ∈ placements, p.chunkId ∉ parts := by
  by_contra! hall
  apply hshort
  have hsub : placements.map ChunkPlacement.chunkId ⊆ parts.keys := by
    intro c hc
    obtain ⟨p, hp, rfl⟩ := List.mem_map.mp hc
    exact AList.mem_keys.mp (hall p hp)
  simpa [AList.keys, List.keys] using (List.subperm_of_subset hids hsub).length_le

end Run

/-- A fetch asks each replica of a chunk at most once, in rounds that hold each pending
chunk once. It returns the chunks in index order when all came back, and raises when every
replica of some chunk was asked in vain. -/
theorem fetchChunksRounds_fetched {pool : Pool} {placements : List ChunkPlacement}
    (hpool : pool.Honest) (hids : (placements.map ChunkPlacement.chunkId).Nodup) :
    Fetched placements (fetchChunksRounds pool placements).1 (fetchChunksRounds pool placements).2 := by
  have hrun : fetchChunksRounds pool placements = fetchRounds pool placements 0 ∅ fun _ => [] := by
    unfold fetchChunksRounds
    split_ifs with hnil
    · subst hnil
      rw [fetchRounds, List.length_nil, if_pos (Nat.zero_le _)]
      rfl
    · rfl
  obtain ⟨parts, tried, htracks, hend⟩ :=
    fetchRounds_ends 0 hpool hids (Tracks.start placements)
  rw [List.nil_append, ← hrun] at htracks
  rw [← hrun] at hend
  have hends := length_fetchRounds pool placements 0 ∅ fun _ => []
  rw [← hrun] at hends
  rcases hend with ⟨hfull, hresult⟩ | ⟨hshort, hnone, hresult⟩
  · obtain ⟨hok, hall⟩ := htracks.all_parts hfull
    rw [hok] at hresult
    refine ⟨by simpa [untried] using hends, htracks.once, htracks.round,
      ⟨fun _ p hp => ⟨_, hall p hp⟩, fun _ => ⟨_, hresult⟩⟩, fun bs hbs => ?_, fun e he => ?_⟩
    · rw [hresult] at hbs
      cases hbs
      rw [List.forall₂_map_right_iff, List.forall₂_same]
      exact fun p hp => hall p (mem_sortByIndex.mp hp)
    · rw [hresult] at he
      cases he
  · obtain ⟨p, hp, hmiss⟩ := exists_missing hids hshort
    have hnot : ∀ b, ¬ Answered (fetchChunksRounds pool placements).1 p b :=
      fun b hb => hmiss (htracks.answered p hp b hb)
    refine ⟨by simpa [untried] using hends, htracks.once, htracks.round,
      ⟨fun ⟨bs, hbs⟩ => ?_, fun hall => ?_⟩, fun bs hbs => ?_, fun e he => ⟨?_, p, hp, hnot, ?_⟩⟩
    · rw [hresult] at hbs
      cases hbs
    · obtain ⟨b, hb⟩ := hall p hp
      exact absurd hb (hnot b)
    · rw [hresult] at hbs
      cases hbs
    · rw [hresult] at he
      cases he
      exact ⟨_, rfl⟩
    · intro addr haddr
      exact (htracks.triedIff _ _).mp (exhausted_of_planRound hnone p hp hmiss addr haddr)

theorem Serve.honest_pool {serve : Serve}
    (hserve : ∀ round addr ids, ∀ x ∈ serve round addr ids, x.1 ∈ ids) : (Serve.pool serve).Honest := by
  intro round calls
  constructor
  · rw [Serve.pool, List.map_map]
    exact .of_eq (List.map_id calls)
  · intro r hr x hx
    obtain ⟨call, _, rfl⟩ := List.mem_map.mp hr
    exact hserve _ _ _ x hx

/-- Two chunks on `b`, the first of them on `a` too. -/
def halfDown : List ChunkPlacement := [⟨1, ['x'], [['a'], ['b']]⟩, ⟨0, ['y'], [['b']]⟩]

/-- Only `b` is up. -/
def onlyB : Serve := fun _ addr ids => if addr = ['b'] then ids.map fun c => (c, [3]) else []

/-- The replica on `a` is asked in vain, and the one on `b` in the second round. -/
theorem fetchChunksRounds_fetched_halfDown :
    Fetched halfDown (fetchChunksRounds (Serve.pool onlyB) halfDown).1
      (fetchChunksRounds (Serve.pool onlyB) halfDown).2 ∧
    (fetchChunksRounds (Serve.pool onlyB) halfDown).2 = .ok [[3], [3]] := by
  constructor
  · refine fetchChunksRounds_fetched (Serve.honest_pool fun round addr ids x hx => ?_) (by decide)
    unfold onlyB at hx
    split_ifs at hx
    · obtain ⟨c, hc, rfl⟩ := List.mem_map.mp hx
      exact hc
    · cases hx
  · rw [fetchChunksRounds_serve]
    unfold fetchChunksBatched
    rw [if_neg (by decide), fetchLoop, if_neg (by decide), dif_neg (by decide),
      fetchLoop, if_neg (by decide), dif_neg (by decide), fetchLoop, if_pos (by decide)]
    decide

end GfsCluster
