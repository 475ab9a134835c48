import GfsCluster.Lib.Inodes
import GfsCluster.Lib.StepSystem
import GfsCluster.Storage.Server

/-! A storage server whose requests run side by side. A handler goes from one system call to
the next, or to its turn at the counters; handlers of all requests, and the scrub that runs
once after the start, interleave in any way. An `OSError` may be raised by any system call. -/

namespace GfsCluster

open Inodes StepSystem

abbrev DataDir := Volume Str UInt8

/-- The temp file of a chunk, the same for every request. -/
def temp (c : ChunkId) : Str := path c ++ tmpSuffix

namespace DataDir

variable (d : DataDir)

/-- `os.path.getsize`, or -1 for a new chunk. -/
def oldSize (c : ChunkId) : ℤ :=
  match d.content (path c) with
  | some data => data.length
  | none => -1

/-- `os.path.getsize`, where there is such a file. -/
def size (f : Str) : ℕ := ((d.content f).map List.length).getD 0

def chunkFiles : List Str := d.names.keys.filter (chunkSuffix <:+ ·)

def chunkBytes : ℕ := (d.chunkFiles.map d.size).sum

/-- `held_chunk_ids`. -/
def heldChunkIds : List ChunkId := d.chunkFiles.map fun f => f.take (f.length - 6)

end DataDir

/-! ### Handlers -/

/-- Where a write of one chunk is. -/
inductive StorePhase
  | probing
  | probed (oldSize : ℤ)
  | writing (oldSize : ℤ) (inode written : ℕ)
  | renamed (oldSize : ℤ)
  deriving DecidableEq

inductive RemovePhase
  | probing
  | probed (oldSize : ℤ)
  | removed (oldSize : ℤ)
  deriving DecidableEq

inductive ReadPhase
  | opening
  | reading (inode : ℕ) (data : Bytes)
  deriving DecidableEq

/-- What a handler comes to: a write that is not acknowledged says at which chunk. -/
inductive HandlerResult
  | stored
  | storeFailed (c : ChunkId)
  | unavailable
  | deleted
  | raised
  | read (chunks : List (ChunkId × Option Bytes))
  deriving DecidableEq

/-- The items of a write request from the current one on, and the ids still to read with what
was read so far. -/
inductive Handler
  | storing (items : List (ChunkId × Bytes)) (phase : StorePhase)
  | deleting (c : ChunkId) (phase : RemovePhase)
  | reading (ids : List ChunkId) (chunks : List (ChunkId × Option Bytes)) (phase : ReadPhase)
  | done (result : HandlerResult)
  deriving DecidableEq

inductive HandlerAction
  | probe
  | creat
  | write (n : ℕ)
  | rename
  | remove
  | count
  | openRead
  | read (n : ℕ)
  | readEnd
  | ioError

inductive Request
  | storeChunk (c : ChunkId) (data : Bytes)
  | storeChunks (items : List (ChunkId × Bytes))
  | replicateChunk (c : ChunkId) (source : Option Bytes)
  | deleteChunk (c : ChunkId)
  | getChunk (c : ChunkId)
  | getChunks (ids : List ChunkId)

def Request.ids : Request → List ChunkId
  | .storeChunk c _ | .replicateChunk c _ | .deleteChunk c | .getChunk c => [c]
  | .storeChunks items => items.map Prod.fst
  | .getChunks ids => ids

/-- The id is a name: joined to the data directory it stays in it, under `path`. One with a slash
may lead anywhere, and one with a zero character to no file at all. -/
def Plain (c : ChunkId) : Prop := '/' ∉ c ∧ '\x00' ∉ c

instance (c : ChunkId) : Decidable (Plain c) := inferInstanceAs (Decidable (_ ∧ _))

/-- A request as it comes from the naming server and the clients, who make up plain ids only. -/
structure ChunkRequest where
  request : Request
  plain : ∀ c ∈ request.ids, Plain c

namespace Handler

def storeNext : List (ChunkId × Bytes) → Handler
  | [] => .done .stored
  | items => .storing items .probing

def readNext (chunks : List (ChunkId × Option Bytes)) : List ChunkId → Handler
  | [] => .done (.read chunks)
  | ids => .reading ids chunks .opening

/-- A step of a handler: the handler and the disk after it, and what it adds to the counters. -/
structure Effect where
  handler : Handler
  disk : DataDir
  count : ℤ
  bytes : ℤ

/-- The body of `StoreChunk`, and of the loop of `StoreChunks`. -/
def storeStep (d : DataDir) (c : ChunkId) (data : Bytes) (rest : List (ChunkId × Bytes)) :
    StorePhase → HandlerAction → Option Effect
  | .probing, .probe => some ⟨.storing ((c, data) :: rest) (.probed (d.oldSize c)), d, 0, 0⟩
  | .probed old, .creat =>
    some ⟨.storing ((c, data) :: rest) (.writing old (d.creat (temp c)).1 0),
      (d.creat (temp c)).2, 0, 0⟩
  | .writing old i n, .write m =>
    if 0 < m ∧ n + m ≤ data.length then
      some ⟨.storing ((c, data) :: rest) (.writing old i (n + m)),
        d.writeAt i n ((data.drop n).take m), 0, 0⟩
    else none
  | .writing old _ n, .rename =>
    if n = data.length then
      match d.rename (temp c) (path c) with
      | some d' => some ⟨.storing ((c, data) :: rest) (.renamed old), d', 0, 0⟩
      | none => some ⟨.done (.storeFailed c), d, 0, 0⟩
    else none
  | .renamed old, .count =>
    some ⟨storeNext rest, d, if old = -1 then 1 else 0, data.length - max old 0⟩
  | .probing, .ioError | .probed _, .ioError | .writing _ _ _, .ioError =>
    some ⟨.done (.storeFailed c), d, 0, 0⟩
  | _, _ => none

/-- `DeleteChunk`. -/
def deleteStep (d : DataDir) (c : ChunkId) : RemovePhase → HandlerAction → Option Effect
  | .probing, .probe =>
    match d.content (path c) with
    | some data => some ⟨.deleting c (.probed data.length), d, 0, 0⟩
    | none => some ⟨.done .deleted, d, 0, 0⟩
  | .probed old, .remove =>
    match d.remove (path c) with
    | some d' => some ⟨.deleting c (.removed old), d', 0, 0⟩
    | none => some ⟨.done .deleted, d, 0, 0⟩
  | .removed old, .count => some ⟨.done .deleted, d, -1, -old⟩
  | .probing, .ioError | .probed _, .ioError => some ⟨.done .raised, d, 0, 0⟩
  | _, _ => none

/-- `GetChunk`, and the loop of `GetChunks`. A read goes on until it finds the end of the file. -/
def readStep (d : DataDir) (c : ChunkId) (rest : List ChunkId)
    (chunks : List (ChunkId × Option Bytes)) : ReadPhase → HandlerAction → Option Effect
  | .opening, .openRead =>
    match d.names.lookup (path c) with
    | some i => some ⟨.reading (c :: rest) chunks (.reading i []), d, 0, 0⟩
    | none => some ⟨readNext (chunks ++ [(c, none)]) rest, d, 0, 0⟩
  | .reading i data, .read n =>
    if 0 < n ∧ data.length < (d.contents i).length then
      some ⟨.reading (c :: rest) chunks (.reading i (data ++ ((d.contents i).drop data.length).take n)),
        d, 0, 0⟩
    else none
  | .reading i data, .readEnd =>
    if (d.contents i).length ≤ data.length then
      some ⟨readNext (chunks ++ [(c, some data)]) rest, d, 0, 0⟩
    else none
  | _, .ioError => some ⟨readNext (chunks ++ [(c, none)]) rest, d, 0, 0⟩
  | _, _ => none

def step (d : DataDir) : Handler → HandlerAction → Option Effect
  | .storing ((c, data) :: rest) phase, a => storeStep d c data rest phase a
  | .deleting c phase, a => deleteStep d c phase a
  | .reading (c :: rest) chunks phase, a => readStep d c rest chunks phase a
  | _, _ => none

end Handler

/-- The handler of a request, `ReplicateChunk` from the answer of its source on. -/
def Request.handler : Request → Handler
  | .storeChunk c data => .storeNext [(c, data)]
  | .storeChunks items => .storeNext items
  | .replicateChunk c (some data) => .storeNext [(c, data)]
  | .replicateChunk _ none => .done .unavailable
  | .deleteChunk c => .deleting c .probing
  | .getChunk c => .readNext [] [c]
  | .getChunks ids => .readNext [] ids

/-! ### The server -/

/-- Where the scrub is, once it knows what the naming server expects: `todo` are the orphans it has
yet to remove. -/
inductive SyncPhase
  | idle
  | removing (orphans todo : List ChunkId)
  | sizing (count : ℕ) (todo : List ChunkId) (total : ℕ)
  | counted (total : ℕ)
  deriving DecidableEq

structure StorageServicer where
  disk : DataDir
  chunkCount : ℤ
  totalBytes : ℤ
  handlers : List Handler
  scrub : SyncPhase

inductive ServicerAction
  | receive (r : ChunkRequest)
  | handle (k : ℕ) (a : HandlerAction)
  | scrubList (expected : List ChunkId)
  | scrubRemove (c : ChunkId)
  | scrubSync
  | scrubSize
  | scrubCount
  | scrubTotal
  | scrubError

namespace StorageServicer

/-- The server starts with its counters read off the disk. -/
def start (d : DataDir) : StorageServicer where
  disk := d
  chunkCount := d.heldChunkIds.length
  totalBytes := (d.heldChunkIds.map fun c => d.size (path c)).sum
  handlers := []
  scrub := .idle

def step (s : StorageServicer) : ServicerAction → Option StorageServicer
  | .receive r => some { s with handlers := s.handlers ++ [r.request.handler] }
  | .handle k a =>
    (s.handlers[k]?).bind fun h => (h.step s.disk a).map fun e =>
      { s with
        disk := e.disk
        chunkCount := s.chunkCount + e.count
        totalBytes := s.totalBytes + e.bytes
        handlers := s.handlers.set k e.handler }
  -- `_cleanup_orphans_once`
  | .scrubList expected =>
    match s.scrub with
    | .idle =>
      let orphans := s.disk.heldChunkIds.filter (· ∉ expected)
      some { s with scrub := if orphans = [] then .idle else .removing orphans orphans }
    | _ => none
  | .scrubRemove c =>
    match s.scrub with
    | .removing orphans todo =>
      if c ∈ todo then
        some { s with
          disk := (s.disk.remove (path c)).getD s.disk
          scrub := .removing orphans (todo.erase c) }
      else none
    | _ => none
  -- `_sync_counters_from_disk`
  | .scrubSync =>
    match s.scrub with
    | .removing _ [] =>
      some { s with scrub := .sizing s.disk.heldChunkIds.length s.disk.heldChunkIds 0 }
    | _ => none
  | .scrubSize =>
    match s.scrub with
    | .sizing count (c :: todo) total =>
      some { s with scrub := .sizing count todo (total + s.disk.size (path c)) }
    | _ => none
  | .scrubCount =>
    match s.scrub with
    | .sizing count [] total => some { s with chunkCount := count, scrub := .counted total }
    | _ => none
  | .scrubTotal =>
    match s.scrub with
    | .counted total => some { s with totalBytes := total, scrub := .idle }
    | _ => none
  -- an `OSError` of `os.remove`, `os.listdir` or `os.path.getsize` ends the thread
  | .scrubError =>
    match s.scrub with
    | .removing _ _ | .sizing _ _ _ => some { s with scrub := .idle }
    | _ => none

end StorageServicer

/-! ### What a step can do -/

namespace Handler

/-- The steps of a handler, one constructor for each way it can go on. -/
inductive Moves (d : DataDir) : Handler → HandlerAction → Effect → Prop
  | probe (c : ChunkId) (data : Bytes) (rest : List (ChunkId × Bytes)) :
      Moves d (.storing ((c, data) :: rest) .probing) .probe
        ⟨.storing ((c, data) :: rest) (.probed (d.oldSize c)), d, 0, 0⟩
  | creat (c : ChunkId) (data : Bytes) (rest : List (ChunkId × Bytes)) (old : ℤ) :
      Moves d (.storing ((c, data) :: rest) (.probed old)) .creat
        ⟨.storing ((c, data) :: rest) (.writing old (d.creat (temp c)).1 0), (d.creat (temp c)).2, 0, 0⟩
  | write {c : ChunkId} {data : Bytes} {rest : List (ChunkId × Bytes)} {old : ℤ} {i n m : ℕ}
      (hm : 0 < m ∧ n + m ≤ data.length) :
      Moves d (.storing ((c, data) :: rest) (.writing old i n)) (.write m)
        ⟨.storing ((c, data) :: rest) (.writing old i (n + m)),
          d.writeAt i n ((data.drop n).take m), 0, 0⟩
  | rename {c : ChunkId} {data : Bytes} {rest : List (ChunkId × Bytes)} {old : ℤ} {i n j : ℕ}
      (hn : n = data.length) (hj : d.names.lookup (temp c) = some j) :
      Moves d (.storing ((c, data) :: rest) (.writing old i n)) .rename
        ⟨.storing ((c, data) :: rest) (.renamed old), d.move (temp c) (path c) j hj, 0, 0⟩
  | renameFails {c : ChunkId} {data : Bytes} {rest : List (ChunkId × Bytes)} {old : ℤ} {i n : ℕ}
      (hn : n = data.length) (hnone : d.names.lookup (temp c) = none) :
      Moves d (.storing ((c, data) :: rest) (.writing old i n)) .rename ⟨.done (.storeFailed c), d, 0, 0⟩
  | count (c : ChunkId) (data : Bytes) (rest : List (ChunkId × Bytes)) (old : ℤ) :
      Moves d (.storing ((c, data) :: rest) (.renamed old)) .count
        ⟨storeNext rest, d, if old = -1 then 1 else 0, data.length - max old 0⟩
  | storeError {c : ChunkId} {data : Bytes} {rest : List (ChunkId × Bytes)} {phase : StorePhase}
      (hphase : ∀ old, phase ≠ .renamed old) :
      Moves d (.storing ((c, data) :: rest) phase) .ioError ⟨.done (.storeFailed c), d, 0, 0⟩
  | probeDelete {c : ChunkId} {data : Bytes} (hc : d.content (path c) = some data) :
      Moves d (.deleting c .probing) .probe ⟨.deleting c (.probed data.length), d, 0, 0⟩
  | remove {c : ChunkId} (old : ℤ) (hc : path c ∈ d.names) :
      Moves d (.deleting c (.probed old)) .remove ⟨.deleting c (.removed old), d.unlink (path c), 0, 0⟩
  | gone {c : ChunkId} {phase : RemovePhase} {a : HandlerAction}
      (hphase : phase = .probing ∨ ∃ old, phase = .probed old) (hc : d.names.lookup (path c) = none) :
      Moves d (.deleting c phase) a ⟨.done .deleted, d, 0, 0⟩
  | countDelete (c : ChunkId) (old : ℤ) :
      Moves d (.deleting c (.removed old)) .count ⟨.done .deleted, d, -1, -old⟩
  | deleteError {c : ChunkId} {phase : RemovePhase} (hphase : ∀ old, phase ≠ .removed old) :
      Moves d (.deleting c phase) .ioError ⟨.done .raised, d, 0, 0⟩
  | openRead {c : ChunkId} {rest : List ChunkId} {chunks : List (ChunkId × Option Bytes)} {i : ℕ}
      (hi : d.names.lookup (path c) = some i) :
      Moves d (.reading (c :: rest) chunks .opening) .openRead
        ⟨.reading (c :: rest) chunks (.reading i []), d, 0, 0⟩
  | read {c : ChunkId} {rest : List ChunkId} {chunks : List (ChunkId × Option Bytes)} {i : ℕ}
      {data : Bytes} (n : ℕ) :
      Moves d (.reading (c :: rest) chunks (.reading i data)) (.read n)
        ⟨.reading (c :: rest) chunks (.reading i (data ++ ((d.contents i).drop data.length).take n)),
          d, 0, 0⟩
  | readEnd {c : ChunkId} {rest : List ChunkId} {chunks : List (ChunkId × Option Bytes)} {i : ℕ}
      {data : Bytes} (hend : (d.contents i).length ≤ data.length) :
      Moves d (.reading (c :: rest) chunks (.reading i data)) .readEnd
        ⟨readNext (chunks ++ [(c, some data)]) rest, d, 0, 0⟩
  | missing {c : ChunkId} {rest : List ChunkId} {chunks : List (ChunkId × Option Bytes)}
      {phase : ReadPhase} {a : HandlerAction}
      (hmissing : a = .ioError ∨ phase = .opening ∧ d.names.lookup (path c) = none) :
      Moves d (.reading (c :: rest) chunks phase) a ⟨readNext (chunks ++ [(c, none)]) rest, d, 0, 0⟩

variable {d : DataDir} {h : Handler} {a : HandlerAction} {e : Effect}

theorem moves_of_storeStep {c : ChunkId} {data : Bytes} {rest : List (ChunkId × Bytes)}
    {phase : StorePhase} (hs : storeStep d c data rest phase a = some e) :
    Moves d (.storing ((c, data) :: rest) phase) a e := by
  unfold storeStep at hs
  split at hs
  · cases hs
    exact .probe c data rest
  · cases hs
    exact .creat c data rest _
  · split_ifs at hs with hm
    cases hs
    exact .write hm
  · split_ifs at hs with hn
    split at hs
    · rename_i d' hd'
      obtain ⟨j, hj, rfl⟩ := Volume.rename_eq_some.mp hd'
      cases hs
      exact .rename hn hj
    · rename_i hnone
      cases hs
      exact .renameFails hn (Volume.rename_eq_none.mp hnone)
  · cases hs
    exact .count c data rest _
  all_goals first
    | (cases hs; exact .storeError fun _ => by simp)
    | cases hs

theorem moves_of_deleteStep {c : ChunkId} {phase : RemovePhase}
    (hs : deleteStep d c phase a = some e) : Moves d (.deleting c phase) a e := by
  unfold deleteStep at hs
  split at hs
  · split at hs
    · cases hs
      exact .probeDelete (by assumption)
    · cases hs
      exact .gone (.inl rfl) (Option.map_eq_none_iff.mp (by assumption))
  · split at hs
    · rename_i d' hd'
      obtain ⟨hin, rfl⟩ := Volume.remove_eq_some.mp hd'
      cases hs
      exact .remove _ hin
    · rename_i hnone
      cases hs
      exact .gone (.inr ⟨_, rfl⟩) (AList.lookup_eq_none.mpr (Volume.remove_eq_none.mp hnone))
  · cases hs
    exact .countDelete c _
  all_goals first
    | (cases hs; exact .deleteError fun _ => by simp)
    | cases hs

theorem moves_of_readStep {c : ChunkId} {rest : List ChunkId} {chunks : List (ChunkId × Option Bytes)}
    {phase : ReadPhase} (hs : readStep d c rest chunks phase a = some e) :
    Moves d (.reading (c :: rest) chunks phase) a e := by
  unfold readStep at hs
  split at hs
  · split at hs
    · cases hs
      exact .openRead (by assumption)
    · cases hs
      exact .missing (.inr ⟨rfl, by assumption⟩)
  · split_ifs at hs
    cases hs
    exact .read _
  · split_ifs at hs with hend
    cases hs
    exact .readEnd hend
  · cases hs
    exact .missing (.inl rfl)
  · cases hs

theorem moves_of_step (hs : h.step d a = some e) : Moves d h a e := by
  unfold step at hs
  split at hs
  · exact moves_of_storeStep hs
  · exact moves_of_deleteStep hs
  · exact moves_of_readStep hs
  · cases hs

end Handler

theorem Request.handler_cases (r : Request) : (∃ items, r.handler = .storeNext items) ∨
    (∃ ids, r.handler = .readNext [] ids) ∨ (∃ c, r.handler = .deleting c .probing) ∨
    r.handler = .done .unavailable := by
  cases r with
  | storeChunk c data => exact .inl ⟨[(c, data)], rfl⟩
  | storeChunks items => exact .inl ⟨items, rfl⟩
  | replicateChunk c source =>
    cases source with
    | none => exact .inr (.inr (.inr rfl))
    | some data => exact .inl ⟨[(c, data)], rfl⟩
  | deleteChunk c => exact .inr (.inr (.inl ⟨c, rfl⟩))
  | getChunk c => exact .inr (.inl ⟨[c], rfl⟩)
  | getChunks ids => exact .inr (.inl ⟨ids, rfl⟩)

namespace StorageServicer

variable {s s' : StorageServicer} {a : ServicerAction}

/-- The steps of the scrub. -/
inductive ScrubMoves (s : StorageServicer) : ServicerAction → StorageServicer → Prop
  | list {sync : SyncPhase} (expected : List ChunkId) (hs : s.scrub = .idle)
      (hsync : sync = .idle ∨ ∃ orphans, sync = .removing orphans orphans) :
      ScrubMoves s (.scrubList expected) { s with scrub := sync }
  | remove {orphans todo : List ChunkId} {d : DataDir} (c : ChunkId)
      (hs : s.scrub = .removing orphans todo) (hc : c ∈ todo)
      (hd : d = s.disk ∨ d = s.disk.unlink (path c)) :
      ScrubMoves s (.scrubRemove c) { s with disk := d, scrub := .removing orphans (todo.erase c) }
  | sync {orphans : List ChunkId} (hs : s.scrub = .removing orphans []) :
      ScrubMoves s .scrubSync
        { s with scrub := .sizing s.disk.heldChunkIds.length s.disk.heldChunkIds 0 }
  | size {count total : ℕ} {c : ChunkId} {todo : List ChunkId}
      (hs : s.scrub = .sizing count (c :: todo) total) :
      ScrubMoves s .scrubSize { s with scrub := .sizing count todo (total + s.disk.size (path c)) }
  | count {count total : ℕ} (hs : s.scrub = .sizing count [] total) :
      ScrubMoves s .scrubCount { s with chunkCount := count, scrub := .counted total }
  | total {total : ℕ} (hs : s.scrub = .counted total) :
      ScrubMoves s .scrubTotal { s with totalBytes := total, scrub := .idle }
  | error (hs : s.scrub ≠ .idle) (hcounted : ∀ total, s.scrub ≠ .counted total) :
      ScrubMoves s .scrubError { s with scrub := .idle }

theorem ScrubMoves.frame (hm : ScrubMoves s a s') :
    s'.handlers = s.handlers ∧ (s'.disk = s.disk ∨ ∃ c, s'.disk = s.disk.unlink (path c)) := by
  cases hm with
  | remove c hs hc hd => exact ⟨rfl, hd.imp_right fun h => ⟨c, h⟩⟩
  | _ => exact ⟨rfl, .inl rfl⟩

/-- A step takes in a request, moves one handler on, or is one of the scrub. -/
theorem cases_of_step (hs : s.step a = some s') :
    (∃ r, a = .receive r ∧ s' = { s with handlers := s.handlers ++ [r.request.handler] }) ∨
    (∃ k b h e, a = .handle k b ∧ s.handlers[k]? = some h ∧ Handler.Moves s.disk h b e ∧
      s' = ⟨e.disk, s.chunkCount + e.count, s.totalBytes + e.bytes, s.handlers.set k e.handler,
        s.scrub⟩) ∨
    ScrubMoves s a s' := by
  cases a with
  | receive r =>
    cases hs
    exact .inl ⟨r, rfl, rfl⟩
  | handle k b =>
    simp only [step, Option.bind_eq_some_iff, Option.map_eq_some_iff] at hs
    obtain ⟨h, hk, e, he, rfl⟩ := hs
    exact .inr (.inl ⟨k, b, h, e, rfl, hk, Handler.moves_of_step he, rfl⟩)
  | scrubList expected =>
    simp only [step] at hs
    split at hs
    · cases hs
      refine .inr (.inr (.list expected (by assumption) ?_))
      split_ifs
      · exact .inl rfl
      · exact .inr ⟨_, rfl⟩
    · cases hs
  | scrubRemove c =>
    simp only [step] at hs
    split at hs
    · split_ifs at hs with hc
      cases hs
      refine .inr (.inr (.remove c (by assumption) hc ?_))
      cases hrem : s.disk.remove (path c) with
      | none => exact .inl rfl
      | some d => exact .inr (Volume.remove_eq_some.mp hrem).2
    · cases hs
  | scrubSync =>
    simp only [step] at hs
    split at hs <;> cases hs
    exact .inr (.inr (.sync (by assumption)))
  | scrubSize =>
    simp only [step] at hs
    split at hs <;> cases hs
    exact .inr (.inr (.size (by assumption)))
  | scrubCount =>
    simp only [step] at hs
    split at hs <;> cases hs
    exact .inr (.inr (.count (by assumption)))
  | scrubTotal =>
    simp only [step] at hs
    split at hs <;> cases hs
    exact .inr (.inr (.total (by assumption)))
  | scrubError =>
    simp only [step] at hs
    split at hs
    all_goals
      rename_i hp
      cases hs
    all_goals exact .inr (.inr (.error (by simp [hp]) (by simp [hp])))

end StorageServicer

end GfsCluster
