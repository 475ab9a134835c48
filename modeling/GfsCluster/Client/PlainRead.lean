import GfsCluster.Client.FetchRounds

/-! The batched fetch against the plain one. Round by round the loop asks every chunk that did not
come back yet of its next replica, so that it does what a loop over the chunks would do that asks
the replicas of one chunk after the other with `_get_chunk`. -/

namespace GfsCluster

open Grouping

/-! ### Which replica is asked -/

section Round

variable {parts : Parts} {acc : Tried × List (Addr × List ChunkId)} {tried : Tried}
  {placements : List ChunkPlacement} {addr : Addr} {c : ChunkId}

/-- The loop over the placements asks each missing chunk of the first replica that was not tried. -/
theorem asked_foldl_iff (hids : (placements.map ChunkPlacement.chunkId).Nodup) :
    (∃ ids, (addr, ids) ∈ (placements.foldl (planOne parts) acc).2 ∧ c ∈ ids) ↔
      (∃ ids, (addr, ids) ∈ acc.2 ∧ c ∈ ids) ∨ ∃ p ∈ placements, p.chunkId = c ∧ c ∉ parts ∧
        p.locations.find? (· ∉ acc.1 c) = some addr := by
  induction placements generalizing acc with
  | nil => simp
  | cons p placements ih =>
    rw [List.map_cons, List.nodup_cons] at hids
    have hother : ∀ q ∈ placements, q.chunkId ≠ p.chunkId := fun q hq he =>
      hids.1 (he ▸ List.mem_map_of_mem hq)
    -- what is tried for the chunks to come does not change
    have hlater : (∃ q ∈ placements, q.chunkId = c ∧ c ∉ parts ∧
        q.locations.find? (· ∉ (planOne parts acc p).1 c) = some addr) ↔
        ∃ q ∈ placements, q.chunkId = c ∧ c ∉ parts ∧
          q.locations.find? (· ∉ acc.1 c) = some addr := by
      refine exists_congr fun q => and_congr_right fun hq => and_congr_right fun hqc => ?_
      have hsame : (planOne parts acc p).1 c = acc.1 c := by
        rcases planOne_cases parts acc p with ⟨he, _⟩ | ⟨_, _, _, _, he⟩
        · rw [he]
        · rw [he]
          exact Function.update_of_ne (hqc ▸ hother q hq) ..
      rw [hsame]
    rw [List.foldl_cons, ih hids.2, hlater]
    have hone : (∃ ids, (addr, ids) ∈ (planOne parts acc p).2 ∧ c ∈ ids) ↔
        (∃ ids, (addr, ids) ∈ acc.2 ∧ c ∈ ids) ∨
          p.chunkId = c ∧ c ∉ parts ∧ p.locations.find? (· ∉ acc.1 c) = some addr := by
      unfold planOne
      by_cases hp : p.chunkId ∈ parts
      · rw [if_pos hp]
        constructor
        · exact .inl
        · rintro (h | ⟨rfl, hc, _⟩)
          · exact h
          · exact absurd hp hc
      · rw [if_neg hp]
        cases hf : p.locations.find? (· ∉ acc.1 p.chunkId) with
        | none =>
          constructor
          · exact .inl
          · rintro (h | ⟨rfl, _, hc⟩)
            · exact h
            · rw [hf] at hc
              cases hc
        | some a =>
          simp only [mem_push]
          refine or_congr_right ?_
          constructor
          · rintro ⟨rfl, rfl⟩
            exact ⟨rfl, hp, hf⟩
          · rintro ⟨rfl, _, hc⟩
            exact ⟨Option.some.inj (hc.symm.trans hf), rfl⟩
    rw [hone]
    simp only [List.mem_cons, or_and_right, exists_or, exists_eq_left, or_assoc]

theorem asked_planRound_iff (hids : (placements.map ChunkPlacement.chunkId).Nodup) :
    (∃ ids, (addr, ids) ∈ (planRound parts tried placements).2 ∧ c ∈ ids) ↔
      ∃ p ∈ placements, p.chunkId = c ∧ c ∉ parts ∧
        p.locations.find? (· ∉ tried c) = some addr := by
  rw [planRound, asked_foldl_iff hids]
  simp

end Round

/-- In round `i` the replicas asked are the `i`-th ones of the chunks that did not come back
before. -/
def InOrder (placements : List ChunkPlacement) (rounds : List FetchRound) : Prop :=
  ∀ i r, rounds[i]? = some r → ∀ addr c, (addr, c) ∈ r.asks ↔
    ∃ p ∈ placements, p.chunkId = c ∧ p.locations[i]? = some addr ∧
      ∀ b, ¬ Answered (rounds.take i) p b

section Run

variable {pool : Pool} {placements : List ChunkPlacement} {past : List FetchRound} {parts : Parts}
  {tried : Tried} {round : ℕ}

/-- Of a chunk that did not come back, one replica was tried in each round. -/
def TriedUpTo (placements : List ChunkPlacement) (past : List FetchRound) (parts : Parts)
    (tried : Tried) : Prop :=
  ∀ p ∈ placements, p.chunkId ∉ parts →
    ∀ addr, addr ∈ tried p.chunkId ↔ addr ∈ p.locations.take past.length

theorem find?_tried (hlocs : ∀ p ∈ placements, p.locations.Nodup)
    (h : TriedUpTo placements past parts tried) {p : ChunkPlacement} (hp : p ∈ placements)
    (hmiss : p.chunkId ∉ parts) :
    p.locations.find? (· ∉ tried p.chunkId) = p.locations[past.length]? := by
  rw [← Lists.find?_not_mem_take (hlocs p hp)]
  congr 1
  funext addr
  rw [decide_eq_decide, h p hp hmiss addr]

theorem Tracks.asks_round (h : Tracks placements past parts tried)
    (hids : (placements.map ChunkPlacement.chunkId).Nodup)
    (hlocs : ∀ p ∈ placements, p.locations.Nodup) (hup : TriedUpTo placements past parts tried)
    {addr : Addr} {c : ChunkId} :
    (addr, c) ∈ (pool.round round (planRound parts tried placements).2).asks ↔
      ∃ p ∈ placements, p.chunkId = c ∧ p.locations[past.length]? = some addr ∧
        ∀ b, ¬ Answered past p b := by
  rw [mem_asks_round, asked_planRound_iff hids]
  refine exists_congr fun p => and_congr_right fun hp => and_congr_right fun hpc => ?_
  subst hpc
  have hmiss : p.chunkId ∉ parts ↔ ∀ b, ¬ Answered past p b := by
    rw [h.mem_parts hp, not_exists]
  constructor
  · rintro ⟨hnot, hfind⟩
    rw [find?_tried hlocs hup hp hnot] at hfind
    exact ⟨hfind, hmiss.mp hnot⟩
  · rintro ⟨hget, hnot⟩
    refine ⟨hmiss.mpr hnot, ?_⟩
    rw [find?_tried hlocs hup hp (hmiss.mpr hnot)]
    exact hget

theorem TriedUpTo.next (h : Tracks placements past parts tried)
    (hids : (placements.map ChunkPlacement.chunkId).Nodup)
    (hlocs : ∀ p ∈ placements, p.locations.Nodup) (hup : TriedUpTo placements past parts tried) :
    let r := pool.round round (planRound parts tried placements).2
    TriedUpTo placements (past ++ [r]) (updateParts parts r.chunks)
      (planRound parts tried placements).1 := by
  intro r p hp hmiss addr
  have hbefore : p.chunkId ∉ parts := fun hin => hmiss (mem_updateParts.mpr (.inl hin))
  have hnot : ∀ b, ¬ Answered past p b := by
    rwa [h.mem_parts hp, not_exists] at hbefore
  rw [mem_tried_planRound pool round, hup p hp hbefore addr, h.asks_round hids hlocs hup,
    List.length_append, List.length_singleton, List.take_add_one, List.mem_append, Option.mem_toList]
  refine or_congr_right ?_
  constructor
  · rintro ⟨q, hq, hid, hget, _⟩
    rwa [← List.inj_on_of_nodup_map hids hq hp hid]
  · intro hget
    exact ⟨p, hp, rfl, hget, hnot⟩

theorem inOrder_fetchRounds (round : ℕ) (hpool : pool.Honest)
    (hids : (placements.map ChunkPlacement.chunkId).Nodup)
    (hlocs : ∀ p ∈ placements, p.locations.Nodup) (h : Tracks placements past parts tried)
    (hup : TriedUpTo placements past parts tried) (hin : InOrder placements past) :
    InOrder placements (past ++ (fetchRounds pool placements round parts tried).1) := by
  fun_induction fetchRounds pool placements round parts tried generalizing past with
  | case1 => rwa [List.append_nil]
  | case2 => rwa [List.append_nil]
  | case3 round parts tried _ _ ih =>
    have hnext := ih (h.next hpool hids) (hup.next h hids hlocs) ?_
    · rwa [List.append_assoc] at hnext
    · intro i r hi addr c
      rcases Lists.getElem?_concat_eq_some.mp hi with hi | ⟨rfl, rfl⟩
      · have hlt : i < past.length := (List.getElem?_eq_some_iff.mp hi).1
        rw [List.take_append_of_le_length hlt.le]
        exact hin i r hi addr c
      · rw [List.take_left' rfl]
        exact h.asks_round hids hlocs hup

end Run

theorem fetchChunksRounds_eq (pool : Pool) (placements : List ChunkPlacement) :
    fetchChunksRounds pool placements = fetchRounds pool placements 0 ∅ fun _ => [] := by
  unfold fetchChunksRounds
  split_ifs with hnil
  · subst hnil
    rw [fetchRounds, List.length_nil, if_pos (Nat.zero_le _)]
    rfl
  · rfl

/-- Replicas are asked in the order of the locations, whatever the servers answer. -/
theorem inOrder_fetchChunksRounds {pool : Pool} {placements : List ChunkPlacement}
    (hpool : pool.Honest) (hids : (placements.map ChunkPlacement.chunkId).Nodup)
    (hlocs : ∀ p ∈ placements, p.locations.Nodup) :
    InOrder placements (fetchChunksRounds pool placements).1 := by
  have hin := inOrder_fetchRounds 0 hpool hids hlocs (Tracks.start placements)
    (fun p _ _ addr => by simp) (fun i r hi => by simp at hi)
  rwa [List.nil_append, ← fetchChunksRounds_eq] at hin

/-! ### The plain fetch -/

/-- What `_get_chunk` returns when it asks an address for a chunk: nothing where the server does not
have the chunk or cannot be reached. -/
abbrev Holdings := Addr → ChunkId → Option Bytes

/-- One chunk: its replicas are asked one after the other. -/
def plainChunk (holds : Holdings) (p : ChunkPlacement) : Option Bytes :=
  p.locations.findSome? (holds · p.chunkId)

/-- The indices of the chunks that no replica returned, as the error text lists them. -/
def plainUnavailable (holds : Holdings) (placements : List ChunkPlacement) : String :=
  let missing := placements.filter (plainChunk holds · = none)
  "chunks unavailable after trying every replica: " ++
    ", ".intercalate ((missing.map fun p => toString p.index).take 10)

/-- All chunks, one after the other in index order. -/
def plainFetch (holds : Holdings) (placements : List ChunkPlacement) :
    Except ClientError (List Bytes) :=
  match (sortByIndex placements).mapM (plainChunk holds) with
  | some bs => .ok bs
  | none => .error (.gfsError (plainUnavailable holds placements))

/-- `GFSClient.read`, from the answer of GetFile on, with the calls of a round run by the pool. -/
def Pool.read (pool : Pool) (resp : GetFileResponse) : Except ClientError Bytes :=
  if resp.ok then (fetchChunksRounds pool (sortByIndex resp.placements)).2.map List.flatten
  else .error (.gfsError resp.message)

/-- The servers hold the same chunks all the time: each call returns what `_get_chunk` would for each
of its chunks, in whatever order the calls complete. -/
def Pool.Reads (pool : Pool) (holds : Holdings) : Prop :=
  ∀ round calls, ((pool round calls).map Prod.fst).Perm calls ∧ ∀ r ∈ pool round calls,
    r.2 = r.1.chunkIds.filterMap fun c => (holds r.1.addr c).map (c, ·)

theorem Pool.Reads.honest {pool : Pool} {holds : Holdings} (h : pool.Reads holds) : pool.Honest := by
  intro round calls
  refine ⟨(h round calls).1, fun r hr x hx => ?_⟩
  rw [(h round calls).2 r hr, List.mem_filterMap] at hx
  obtain ⟨c, hc, hx⟩ := hx
  obtain ⟨b, _, rfl⟩ := Option.map_eq_some_iff.mp hx
  exact hc

section Plain

variable {pool : Pool} {holds : Holdings} {placements : List ChunkPlacement}
  {rounds : List FetchRound} {p : ChunkPlacement} {b : Bytes}

/-- The rounds are those of a pool whose servers hold these chunks. -/
def ReadRounds (holds : Holdings) (rounds : List FetchRound) : Prop :=
  ∀ r ∈ rounds, (r.completed.map Prod.fst).Perm r.calls ∧
    ∀ x ∈ r.completed, x.2 = x.1.chunkIds.filterMap fun c => (holds x.1.addr c).map (c, ·)

theorem readRounds_fetchRounds (hpool : pool.Reads holds) (round : ℕ) (parts : Parts) (tried : Tried) :
    ReadRounds holds (fetchRounds pool placements round parts tried).1 := by
  fun_induction fetchRounds pool placements round parts tried with
  | case1 => exact fun r hr => by cases hr
  | case2 => exact fun r hr => by cases hr
  | case3 round parts tried _ _ ih =>
    intro r hr
    rcases List.mem_cons.mp hr with rfl | hr
    · exact hpool _ _
    · exact ih r hr

/-- A chunk comes back from the replica asked exactly if that replica holds it. -/
theorem answered_of_asked (hread : ReadRounds holds rounds) {r : FetchRound} (hr : r ∈ rounds)
    {addr : Addr} (haddr : addr ∈ p.locations) (hask : (addr, p.chunkId) ∈ r.asks)
    (hb : holds addr p.chunkId = some b) : Answered rounds p b := by
  obtain ⟨call, hcall, rfl, hc⟩ := mem_asks.mp hask
  obtain ⟨hperm, hall⟩ := hread r hr
  obtain ⟨x, hx, rfl⟩ := List.mem_map.mp (hperm.mem_iff.mpr hcall)
  refine ⟨r, hr, x, hx, haddr, hc, ?_⟩
  rw [hall x hx, List.mem_filterMap]
  exact ⟨p.chunkId, hc, by rw [hb]; rfl⟩

theorem holds_of_answered (hread : ReadRounds holds rounds) (h : Answered rounds p b) :
    ∃ (i : ℕ) (r : FetchRound) (addr : Addr), rounds[i]? = some r ∧
      (addr, p.chunkId) ∈ r.asks ∧ holds addr p.chunkId = some b := by
  obtain ⟨r, hr, x, hx, _, hc, hb⟩ := h
  obtain ⟨hperm, hall⟩ := hread r hr
  obtain ⟨i, hi⟩ := List.mem_iff_getElem?.mp hr
  refine ⟨i, r, x.1.addr, hi, mem_asks.mpr ⟨x.1, ?_, rfl, hc⟩, ?_⟩
  · exact hperm.mem_iff.mp (List.mem_map_of_mem hx)
  · rw [hall x hx, List.mem_filterMap] at hb
    obtain ⟨c, _, hb⟩ := hb
    obtain ⟨d, hd, he⟩ := Option.map_eq_some_iff.mp hb
    cases he
    exact hd

theorem Answered.of_take {i : ℕ} (h : Answered (rounds.take i) p b) : Answered rounds p b := by
  obtain ⟨r, hr, h⟩ := h
  exact ⟨r, List.mem_of_mem_take hr, h⟩

/-- Before the replica asked in round `i`, those before it were asked in vain. -/
theorem none_before (hread : ReadRounds holds rounds) (hin : InOrder placements rounds)
    (hp : p ∈ placements) {i : ℕ} (hi : i ≤ rounds.length)
    (hnot : ∀ b, ¬ Answered (rounds.take i) p b) : ∀ a ∈ p.locations.take i, holds a p.chunkId = none := by
  intro a ha
  obtain ⟨j, hj⟩ := List.mem_iff_getElem?.mp ha
  have hjlt : j < i := by
    have := (List.getElem?_eq_some_iff.mp hj).1
    rw [List.length_take] at this
    omega
  rw [List.getElem?_take_of_lt hjlt] at hj
  by_contra hsome
  obtain ⟨d, hd⟩ := Option.ne_none_iff_exists'.mp hsome
  have hround : rounds[j]? = some rounds[j] := List.getElem?_eq_getElem (hjlt.trans_le hi)
  have htake : (rounds.take i).take j = rounds.take j := by
    rw [List.take_take, Nat.min_eq_left hjlt.le]
  have hask : (a, p.chunkId) ∈ (rounds[j]).asks := by
    refine (hin j _ hround a p.chunkId).mpr ⟨p, hp, rfl, hj, fun d' hd' => ?_⟩
    rw [← htake] at hd'
    exact hnot d' hd'.of_take
  have hmem : rounds[j] ∈ rounds.take i := by
    refine List.mem_of_getElem? (i := j) ?_
    rw [List.getElem?_take_of_lt hjlt]
    exact hround
  exact hnot d (answered_of_asked (fun r hr => hread r (List.mem_of_mem_take hr)) hmem
    (List.mem_of_getElem? hj) hask hd)

/-- What comes back is what the plain fetch gets. -/
theorem plainChunk_of_answered (hread : ReadRounds holds rounds) (hin : InOrder placements rounds)
    (hids : (placements.map ChunkPlacement.chunkId).Nodup) (hp : p ∈ placements)
    (h : Answered rounds p b) : plainChunk holds p = some b := by
  obtain ⟨i, r, addr, hi, hask, hb⟩ := holds_of_answered hread h
  obtain ⟨q, hq, hid, hget, hnot⟩ := (hin i r hi addr p.chunkId).mp hask
  have hqp : q = p := List.inj_on_of_nodup_map hids hq hp hid
  subst hqp
  have hlt := (List.getElem?_eq_some_iff.mp hi).1
  have hnone := none_before hread hin hq hlt.le hnot
  obtain ⟨hlen, hat⟩ := List.getElem?_eq_some_iff.mp hget
  have hsplit : q.locations = q.locations.take i ++ addr :: q.locations.drop (i + 1) := by
    rw [← hat, List.getElem_cons_drop, List.take_append_drop]
  rw [plainChunk, hsplit, List.findSome?_append,
    List.findSome?_eq_none_iff.mpr hnone, Option.none_or, List.findSome?_cons, hb]

/-- Where all replicas were asked and nothing came back, the plain fetch gets nothing either. -/
theorem plainChunk_of_exhausted (hread : ReadRounds holds rounds) (hnot : ∀ b, ¬ Answered rounds p b)
    (hall : ∀ addr ∈ p.locations, (addr, p.chunkId) ∈ rounds.flatMap FetchRound.asks) :
    plainChunk holds p = none := by
  rw [plainChunk, List.findSome?_eq_none_iff]
  intro addr haddr
  by_contra hsome
  obtain ⟨d, hd⟩ := Option.ne_none_iff_exists'.mp hsome
  obtain ⟨r, hr, hask⟩ := List.mem_flatMap.mp (hall addr haddr)
  exact hnot d (answered_of_asked hread hr haddr hask hd)

/-- The error text lists the chunks that are missing, in the order of the placements. -/
theorem unavailable_eq_plain {parts : Parts} (hids : (placements.map ChunkPlacement.chunkId).Nodup)
    (hparts : ∀ p ∈ placements, p.chunkId ∉ parts ↔ plainChunk holds p = none) :
    unavailable placements parts = plainUnavailable holds placements := by
  have hmissing : (placements.map ChunkPlacement.chunkId).eraseDups.filter (· ∉ parts) =
      (placements.filter (plainChunk holds · = none)).map ChunkPlacement.chunkId := by
    rw [Lists.eraseDups_of_nodup hids, List.filter_map]
    congr 1
    refine List.filter_congr fun p hp => ?_
    rw [Function.comp_apply, decide_eq_decide]
    exact hparts p hp
  have hindex : ∀ p ∈ placements.filter (plainChunk holds · = none),
      ((placements.filter (·.chunkId = p.chunkId)).getLast?.map
        ChunkPlacement.index).getD 0 = p.index := by
    intro p hp
    rw [Lists.filter_key hids (List.mem_of_mem_filter hp)]
    rfl
  have htexts : ((placements.filter (plainChunk holds · = none)).map ChunkPlacement.chunkId).map
      (fun c => toString (((placements.filter (·.chunkId = c)).getLast?.map
        ChunkPlacement.index).getD 0)) =
      (placements.filter (plainChunk holds · = none)).map fun p => toString p.index := by
    rw [List.map_map]
    refine List.map_congr_left fun p hp => ?_
    exact congrArg toString (hindex p hp)
  unfold unavailable plainUnavailable
  dsimp only
  rw [hmissing, htexts]

theorem mapM_of_forall₂ {ps : List ChunkPlacement} {bs : List Bytes}
    (h : List.Forall₂ (fun p b => plainChunk holds p = some b) ps bs) :
    ps.mapM (plainChunk holds) = some bs := by
  induction h with
  | nil => rfl
  | cons hp _ ih => rw [List.mapM_cons, hp, ih]; rfl

theorem mapM_of_none {ps : List ChunkPlacement} (hp : p ∈ ps) (hnone : plainChunk holds p = none) :
    ps.mapM (plainChunk holds) = none := by
  induction ps with
  | nil => cases hp
  | cons q ps ih =>
    rw [List.mapM_cons]
    rcases List.mem_cons.mp hp with rfl | hp
    · rw [hnone]
      rfl
    · rw [ih hp]
      cases plainChunk holds q <;> rfl

/-- A chunk that did not come back before round `i` has no holder among the replicas asked by then. -/
theorem not_answered_iff (hread : ReadRounds holds rounds) (hin : InOrder placements rounds)
    (hids : (placements.map ChunkPlacement.chunkId).Nodup) (hp : p ∈ placements) {i : ℕ}
    (hi : i ≤ rounds.length) : (∀ b, ¬ Answered (rounds.take i) p b) ↔
      ∀ a ∈ p.locations.take i, holds a p.chunkId = none := by
  constructor
  · exact none_before hread hin hp hi
  · intro hnone b hb
    obtain ⟨j, r, addr, hj, hask, hheld⟩ :=
      holds_of_answered (fun r hr => hread r (List.mem_of_mem_take hr)) hb
    have hlt : j < i := by
      have := (List.getElem?_eq_some_iff.mp hj).1
      rw [List.length_take] at this
      omega
    rw [List.getElem?_take_of_lt hlt] at hj
    obtain ⟨q, hq, hid, hget, _⟩ := (hin j r hj addr p.chunkId).mp hask
    rw [List.inj_on_of_nodup_map hids hq hp hid] at hget
    have hmem : addr ∈ p.locations.take i := by
      refine List.mem_of_getElem? (i := j) ?_
      rwa [List.getElem?_take_of_lt hlt]
    rw [hnone addr hmem] at hheld
    cases hheld

/-- In the end a chunk has come back or all its replicas were asked. -/
theorem plainChunk_eq_none_iff (hpool : pool.Reads holds)
    (hids : (placements.map ChunkPlacement.chunkId).Nodup)
    (hlocs : ∀ p ∈ placements, p.locations.Nodup) : ∃ parts tried,
    Tracks placements (fetchChunksRounds pool placements).1 parts tried ∧
    (∀ p ∈ placements, p.chunkId ∉ parts ↔ plainChunk holds p = none) ∧
    (placements.length ≤ parts.entries.length ∧
        (fetchChunksRounds pool placements).2 = assemble placements parts ∨
      ¬ placements.length ≤ parts.entries.length ∧ (fetchChunksRounds pool placements).2 =
          .error (.gfsError (unavailable placements parts))) := by
  have hread : ReadRounds holds (fetchChunksRounds pool placements).1 := by
    rw [fetchChunksRounds_eq]
    exact readRounds_fetchRounds hpool 0 ∅ _
  have hin := inOrder_fetchChunksRounds hpool.honest hids hlocs
  obtain ⟨parts, tried, htracks, hend⟩ :=
    fetchRounds_ends 0 hpool.honest hids (Tracks.start placements)
  rw [List.nil_append, ← fetchChunksRounds_eq] at htracks
  rw [← fetchChunksRounds_eq] at hend
  refine ⟨parts, tried, htracks, fun p hp => ⟨fun hmiss => ?_, fun hnone hmem => ?_⟩, ?_⟩
  · have hnot : ∀ b, ¬ Answered (fetchChunksRounds pool placements).1 p b := by
      rwa [htracks.mem_parts hp, not_exists] at hmiss
    rcases hend with ⟨hfull, _⟩ | ⟨_, hnone, _⟩
    · exact absurd ((htracks.all_parts hfull).2 p hp) (hnot _)
    · refine plainChunk_of_exhausted hread hnot fun addr haddr => ?_
      exact (htracks.triedIff _ _).mp (exhausted_of_planRound hnone p hp hmiss addr haddr)
  · obtain ⟨b, hb⟩ := (htracks.mem_parts hp).mp hmem
    rw [plainChunk_of_answered hread hin hids hp hb] at hnone
    cases hnone
  · exact hend.imp_right fun h => ⟨h.1, h.2.2⟩

end Plain

/-- The batched fetch returns and raises what the plain one does. -/
theorem fetchChunksRounds_result {pool : Pool} {holds : Holdings} {placements : List ChunkPlacement}
    (hpool : pool.Reads holds) (hids : (placements.map ChunkPlacement.chunkId).Nodup)
    (hlocs : ∀ p ∈ placements, p.locations.Nodup) :
    (fetchChunksRounds pool placements).2 = plainFetch holds placements := by
  have hread : ReadRounds holds (fetchChunksRounds pool placements).1 := by
    rw [fetchChunksRounds_eq]
    exact readRounds_fetchRounds hpool 0 ∅ _
  have hin := inOrder_fetchChunksRounds hpool.honest hids hlocs
  obtain ⟨parts, tried, htracks, hplain, ⟨hfull, hresult⟩ | ⟨hshort, hresult⟩⟩ :=
    plainChunk_eq_none_iff hpool hids hlocs
  · obtain ⟨hok, hall⟩ := htracks.all_parts hfull
    have hforall : List.Forall₂ (fun p b => plainChunk holds p = some b) (sortByIndex placements)
        ((sortByIndex placements).map fun p => (parts.lookup p.chunkId).getD []) := by
      rw [List.forall₂_map_right_iff, List.forall₂_same]
      intro p hp
      have hmem := mem_sortByIndex.mp hp
      exact plainChunk_of_answered hread hin hids hmem (hall p hmem)
    rw [hresult, hok, plainFetch, mapM_of_forall₂ hforall]
  · obtain ⟨p, hp, hmiss⟩ := exists_missing hids hshort
    have hnone := mapM_of_none (mem_sortByIndex.mpr hp) ((hplain p hp).mp hmiss)
    rw [hresult, plainFetch, hnone, unavailable_eq_plain hids hplain]

/-- The batched fetch does what the plain one does, and asks in its round `i` the `i`-th replicas of
those chunks that no earlier replica holds. -/
theorem fetchChunksRounds_eq_plain {pool : Pool} {holds : Holdings} {placements : List ChunkPlacement}
    (hpool : pool.Reads holds) (hids : (placements.map ChunkPlacement.chunkId).Nodup)
    (hlocs : ∀ p ∈ placements, p.locations.Nodup) :
    (fetchChunksRounds pool placements).2 = plainFetch holds placements ∧
      ∀ i r, (fetchChunksRounds pool placements).1[i]? = some r → ∀ addr c, (addr, c) ∈ r.asks ↔
        ∃ p ∈ placements, p.chunkId = c ∧ p.locations[i]? = some addr ∧
          ∀ a ∈ p.locations.take i, holds a c = none := by
  refine ⟨fetchChunksRounds_result hpool hids hlocs, fun i r hi addr c => ?_⟩
  have hread : ReadRounds holds (fetchChunksRounds pool placements).1 := by
    rw [fetchChunksRounds_eq]
    exact readRounds_fetchRounds hpool 0 ∅ _
  have hin := inOrder_fetchChunksRounds hpool.honest hids hlocs
  rw [hin i r hi addr c]
  refine exists_congr fun p => and_congr_right fun hp => and_congr_right fun hpc =>
    and_congr_right fun _ => ?_
  subst hpc
  exact not_answered_iff hread hin hids hp (List.getElem?_eq_some_iff.mp hi).1.le

/-- The servers hold these chunks, and the calls of a round complete last to first. -/
def Holdings.pool (holds : Holdings) : Pool :=
  fun _ calls => calls.reverse.map fun call =>
    (call, call.chunkIds.filterMap fun c => (holds call.addr c).map (c, ·))

theorem Holdings.reads_pool (holds : Holdings) : holds.pool.Reads holds := by
  intro round calls
  constructor
  · rw [Holdings.pool, List.map_map]
    exact (List.Perm.of_eq (List.map_id _)).trans (List.reverse_perm calls)
  · intro r hr
    obtain ⟨call, _, rfl⟩ := List.mem_map.mp hr
    rfl

/-- The chunk on `a` and `b` is held by `b` only, and the other one by nobody. -/
def halfLost : Holdings := fun addr c => if addr = ['b'] ∧ c = ['x'] then some [3] else none

/-- The second round asks `b` for the chunk that `a` does not have. -/
theorem fetchChunksRounds_eq_plain_halfLost :
    (fetchChunksRounds halfLost.pool halfDown).2 = .error (.gfsError
      "chunks unavailable after trying every replica: 0") ∧
    ∀ r, (fetchChunksRounds halfLost.pool halfDown).1[1]? = some r →
      ∀ addr c, (addr, c) ∈ r.asks ↔ (addr, c) = (['b'], ['x']) := by
  obtain ⟨hresult, hasks⟩ := fetchChunksRounds_eq_plain (Holdings.reads_pool halfLost)
    (show (halfDown.map ChunkPlacement.chunkId).Nodup by decide) (by decide)
  constructor
  · rw [hresult]
    decide
  · intro r hr addr c
    rw [hasks 1 r hr addr c]
    simp [halfDown, halfLost, and_comm, eq_comm]

end GfsCluster
