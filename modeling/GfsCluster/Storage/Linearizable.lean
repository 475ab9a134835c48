import GfsCluster.Lib.Service
import GfsCluster.Storage.Writers

/-! The storage server next to a map from chunk ids to bytes that serves every item of a request at
once. Where the writes of one chunk open its temp file one after the other, clients cannot tell the
two apart, whatever else runs side by side: a write happens when its temp file is renamed, a delete
when the file is removed, and a read when the file is opened. -/

namespace GfsCluster

open Inodes StepSystem Service

/-! ### At once -/

/-- What is left of a request. A read that has the data of a chunk may fail before it has handed
it out. -/
inductive ChunkCall
  | storing (items : List (ChunkId × Bytes))
  | deleting (c : ChunkId)
  | reading (ids : List ChunkId) (chunks : List (ChunkId × Option Bytes))
  | delivering (c : ChunkId) (data : Bytes) (ids : List ChunkId) (chunks : List (ChunkId × Option Bytes))
  | done (result : HandlerResult)
  deriving DecidableEq

namespace ChunkCall

def store : List (ChunkId × Bytes) → ChunkCall
  | [] => .done .stored
  | items => .storing items

def read (chunks : List (ChunkId × Option Bytes)) : List ChunkId → ChunkCall
  | [] => .done (.read chunks)
  | ids => .reading ids chunks

/-- The next item, as one step on the map. -/
def exec (M : ChunkMap) : ChunkCall → Option (ChunkMap × ChunkCall)
  | .storing ((c, data) :: rest) => some (Function.update M c (some data), store rest)
  | .deleting c => some (Function.update M c none, .done .deleted)
  | .reading (c :: rest) chunks =>
    match M c with
    | some data => some (M, .delivering c data rest chunks)
    | none => some (M, read (chunks ++ [(c, none)]) rest)
  | .delivering c data rest chunks => some (M, read (chunks ++ [(c, some data)]) rest)
  | _ => none

/-- The item is refused, and the map stays as it is. -/
def fail : ChunkCall → Option ChunkCall
  | .storing ((c, _) :: _) => some (.done (.storeFailed c))
  | .deleting _ => some (.done .raised)
  | .reading (c :: rest) chunks | .delivering c _ rest chunks => some (read (chunks ++ [(c, none)]) rest)
  | _ => none

def result : ChunkCall → Option HandlerResult
  | .done r => some r
  | _ => none

end ChunkCall

def Request.call : Request → ChunkCall
  | .storeChunk c data => .store [(c, data)]
  | .storeChunks items => .store items
  | .replicateChunk c (some data) => .store [(c, data)]
  | .replicateChunk _ none => .done .unavailable
  | .deleteChunk c => .deleting c
  | .getChunk c => .read [] [c]
  | .getChunks ids => .read [] ids

structure ChunkStore where
  chunks : ChunkMap
  calls : List ChunkCall

inductive ChunkAction
  | receive (r : ChunkRequest)
  | exec (k : ℕ)
  | fail (k : ℕ)
  | scrub (c : ChunkId)

/-- What reaches a storage server from outside: requests, and what its scrub takes away. -/
inductive StorageInput
  | request (r : ChunkRequest)
  | scrub (c : ChunkId)

namespace ChunkStore

def step (x : ChunkStore) : ChunkAction → Option ChunkStore
  | .receive r => some { x with calls := x.calls ++ [r.request.call] }
  | .exec k =>
    (x.calls[k]?).bind fun q => (q.exec x.chunks).map fun e => ⟨e.1, x.calls.set k e.2⟩
  | .fail k => (x.calls[k]?).bind fun q => q.fail.map fun q' => { x with calls := x.calls.set k q' }
  | .scrub c => some { x with chunks := Function.update x.chunks c none }

def service : Server ChunkStore ChunkAction StorageInput ℕ HandlerResult where
  step := step
  input
    | .receive r => some (.request r)
    | .scrub c => some (.scrub c)
    | .exec _ | .fail _ => none
  answer x k := (x.calls[k]?).bind ChunkCall.result

end ChunkStore

/-! ### The server, seen as one -/

def DataDir.chunkMap (d : DataDir) : ChunkMap := fun c => d.content (path c)

namespace Handler

def result : Handler → Option HandlerResult
  | .done r => some r
  | _ => none

/-- A write is over with its rename, and a delete with the removal of the file; a read has its data
once it has the file open. -/
def call (d : DataDir) : Handler → ChunkCall
  | .storing (_ :: rest) (.renamed _) => .store rest
  | .storing items _ => .store items
  | .deleting _ (.removed _) => .done .deleted
  | .deleting c _ => .deleting c
  | .reading (c :: rest) chunks (.reading i _) => .delivering c (d.contents i) rest chunks
  | .reading ids chunks _ => .read chunks ids
  | .done r => .done r

end Handler

namespace StorageServicer

def service : Server StorageServicer ServicerAction StorageInput ℕ HandlerResult where
  step := step
  input
    | .receive r => some (.request r)
    | .scrubRemove c => some (.scrub c)
    | _ => none
  answer s k := (s.handlers[k]?).bind Handler.result

def store (s : StorageServicer) : ChunkStore :=
  ⟨s.disk.chunkMap, s.handlers.map (·.call s.disk)⟩

end StorageServicer

/-! ### What is open stays as it is -/

namespace DataDir

/-- Nobody writes the inode any more. -/
structure Settled (d : DataDir) (i : ℕ) : Prop where
  lt : i < d.fresh
  not_temp : ∀ c, d.names.lookup (temp c) ≠ some i

theorem settled_of_path {d : DataDir} {c : ChunkId} {i : ℕ} (h : d.names.lookup (path c) = some i) :
    d.Settled i :=
  ⟨d.lt_fresh _ i h, fun c' ht => path_ne_temp c c' (d.inj _ _ i h ht)⟩

/-- A chunk whose name keeps its inode keeps its data, if only unsettled inodes are written. -/
theorem chunkMap_congr {d d' : DataDir} {c : ChunkId}
    (hnames : d'.names.lookup (path c) = d.names.lookup (path c))
    (hcontents : ∀ i, d.Settled i → d'.contents i = d.contents i) :
    d'.chunkMap c = d.chunkMap c := by
  rw [chunkMap, chunkMap, Volume.content, Volume.content, hnames]
  cases hl : d.names.lookup (path c) with
  | none => rfl
  | some i => rw [Option.map_some, Option.map_some, hcontents i (settled_of_path hl)]

theorem nodup_heldChunkIds (d : DataDir) : d.heldChunkIds.Nodup := by
  refine List.Nodup.map_on (fun f hf g hg he => ?_) (d.names.keys_nodup.filter _)
  have hf' := path_take (of_decide_eq_true (List.mem_filter.mp hf).2)
  have hg' := path_take (of_decide_eq_true (List.mem_filter.mp hg).2)
  rw [← hf', he, hg']

theorem mem_heldChunkIds {d : DataDir} {c : ChunkId} : c ∈ d.heldChunkIds ↔ d.chunkMap c ≠ none := by
  rw [chunkMap, Volume.content, Ne, Option.map_eq_none_iff, AList.lookup_eq_none, not_not]
  simp only [heldChunkIds, chunkFiles, List.mem_map, List.mem_filter, decide_eq_true_eq]
  constructor
  · rintro ⟨f, ⟨hf, hsuffix⟩, rfl⟩
    rw [path_take hsuffix]
    exact hf
  · intro hc
    exact ⟨path c, ⟨hc, chunkSuffix_path c⟩, by simp [path, chunkSuffix]⟩

theorem chunkMap_unlink (d : DataDir) (c : ChunkId) :
    chunkMap (d.unlink (path c)) = Function.update d.chunkMap c none := by
  funext c'
  by_cases hc : c' = c
  · subst hc
    rw [Function.update_self, chunkMap, Volume.content, Volume.lookup_unlink_self]
    rfl
  · rw [Function.update_of_ne hc]
    exact chunkMap_congr (Volume.lookup_unlink_ne fun he => hc (path_injective he)) fun _ _ => rfl

theorem chunkMap_move (d : DataDir) (c : ChunkId) (i : ℕ) (h : d.names.lookup (temp c) = some i) :
    chunkMap (d.move (temp c) (path c) i h) = Function.update d.chunkMap c (some (d.contents i)) := by
  funext c'
  by_cases hc : c' = c
  · subst hc
    rw [Function.update_self, chunkMap, Volume.content, Volume.lookup_move_dst]
    rfl
  · rw [Function.update_of_ne hc]
    exact chunkMap_congr (Volume.lookup_move_ne (path_ne_temp c' c) fun he => hc (path_injective he))
      fun _ _ => rfl

end DataDir

namespace Handler

theorem call_storeNext (d : DataDir) (items : List (ChunkId × Bytes)) :
    (storeNext items).call d = .store items := by
  cases items <;> rfl

theorem call_readNext (d : DataDir) (chunks : List (ChunkId × Option Bytes)) (ids : List ChunkId) :
    (readNext chunks ids).call d = .read chunks ids := by
  cases ids <;> rfl

/-- Of the disk, a call depends on the file that it reads. -/
theorem call_congr {d d' : DataDir} {h : Handler}
    (hreads : ∀ c i got, h.Reads c i got → d'.contents i = d.contents i) : h.call d' = h.call d := by
  cases h with
  | reading ids chunks phase =>
    cases ids with
    | nil => rfl
    | cons c rest =>
      cases phase with
      | opening => rfl
      | reading i got => rw [call, call, hreads c i got (.intro _ _)]
  | storing items phase => cases items <;> cases phase <;> rfl
  | deleting c phase => cases phase <;> rfl
  | done r => rfl

theorem result_call (d : DataDir) {h : Handler} {r : HandlerResult} (hr : h.result = some r) :
    (h.call d).result = some r := by
  cases h with
  | done r' => exact hr
  | _ => cases hr

end Handler

theorem Request.call_handler (d : DataDir) (r : Request) : r.handler.call d = r.call := by
  cases r with
  | storeChunks items => exact Handler.call_storeNext d items
  | getChunks ids => exact Handler.call_readNext d [] ids
  | replicateChunk c source => cases source <;> rfl
  | _ => rfl

/-- The temp files are each written by one request at most, and whatever is read is settled. -/
structure Tidy (d : DataDir) (hs : List Handler) : Prop where
  owned : ∃ own, Owned own d hs
  alone : ∀ c, Alone c d hs
  reads : ∀ h ∈ hs, ∀ c i got, h.Reads c i got → d.Settled i ∧ got <+: d.contents i

namespace Tidy

variable {d d' : DataDir} {hs : List Handler} {h : Handler} {k i : ℕ} {a : HandlerAction}
  {e : Handler.Effect}

theorem settled_of_moves (ht : Tidy d hs) (hh : h ∈ hs) (hm : Handler.Moves d h a e)
    (hi : d.Settled i) : e.disk.contents i = d.contents i ∧ e.disk.Settled i := by
  cases hm with
  | creat c b rest old =>
    have hne : i ≠ (d.creat (temp c)).1 := Volume.ne_creat_of_lookup_ne hi.lt (hi.not_temp c)
    refine ⟨Volume.contents_creat_ne hne, hi.lt.trans_le Volume.fresh_creat, fun c' hl => ?_⟩
    by_cases hc : c' = c
    · subst hc
      rw [Volume.lookup_creat_self, Option.some.injEq] at hl
      exact hne hl.symm
    · rw [Volume.lookup_creat_ne fun he => hc (temp_injective he)] at hl
      exact hi.not_temp c' hl
  | @write c b rest old j n m hm =>
    obtain ⟨hj, _⟩ := (ht.alone c).writes _ hh b j n (.intro _ _)
    refine ⟨Volume.contents_writeAt_ne ?_, hi.lt, hi.not_temp⟩
    rintro rfl
    exact hi.not_temp c hj
  | @rename c b rest old j n j' hn hj =>
    refine ⟨rfl, hi.lt, fun c' hl => ?_⟩
    by_cases hc : c' = c
    · subst hc
      rw [Volume.lookup_move_src (path_ne_temp c' c').symm] at hl
      cases hl
    · rw [Volume.lookup_move_ne (fun he => hc (temp_injective he)) (path_ne_temp c c').symm] at hl
      exact hi.not_temp c' hl
  | @remove c old hin =>
    exact ⟨rfl, hi.lt, fun c' hl => hi.not_temp c' (Volume.lookup_of_unlink hl)⟩
  | _ => exact ⟨rfl, hi⟩

/-- What a read has open, and got so far, after its own step. -/
theorem reads_of_moves (ht : Tidy d hs) (hh : h ∈ hs) (hm : Handler.Moves d h a e) {c : ChunkId}
    {got : Bytes} (hr : e.handler.Reads c i got) : d.Settled i ∧ got <+: d.contents i := by
  cases hm with
  | openRead hi =>
    cases hr
    exact ⟨DataDir.settled_of_path hi, List.nil_prefix⟩
  | @read c' rest chunks j got' n =>
    cases hr
    obtain ⟨hsettled, hgot⟩ := ht.reads _ hh c i got' (.intro _ _)
    exact ⟨hsettled, Lists.append_take_prefix hgot n⟩
  | count c' b rest old => exact absurd hr.opened (Handler.not_opened_storeNext _)
  | readEnd | missing => exact absurd hr.opened (Handler.not_opened_readNext _ _)
  | _ => cases hr

theorem of_moves (ht : Tidy d hs) (hk : hs[k]? = some h) (hm : Handler.Moves d h a e)
    (hapart : ∀ c, a = .creat → h.storingTo = some c → ∀ g ∈ hs, g.writingTo ≠ some c) :
    Tidy e.disk (hs.set k e.handler) where
  owned := by
    obtain ⟨own, ho⟩ := ht.owned
    obtain ⟨own', _, ho'⟩ := ho.of_moves hk hm
    exact ⟨own', ho'⟩
  alone c := by
    obtain ⟨own, ho⟩ := ht.owned
    exact (ht.alone c).of_moves ho hk hm (hapart c)
  reads := by
    have hh := List.mem_of_getElem? hk
    have hkeep : ∀ i got, d.Settled i ∧ got <+: d.contents i →
        e.disk.Settled i ∧ got <+: e.disk.contents i := by
      rintro i got ⟨hi, hgot⟩
      obtain ⟨hcontents, hsettled⟩ := ht.settled_of_moves hh hm hi
      exact ⟨hsettled, hcontents ▸ hgot⟩
    refine Lists.forall_mem_set (fun g hg c i got hr => ?_) fun c i got hr => ?_
    · exact hkeep i got (ht.reads g hg c i got hr)
    · exact hkeep i got (ht.reads_of_moves hh hm hr)

theorem unlink (ht : Tidy d hs) (c : ChunkId) : Tidy (d.unlink (path c)) hs where
  owned := by
    obtain ⟨own, ho⟩ := ht.owned
    exact ⟨own, ho.unlink c⟩
  alone c' := (ht.alone c').unlink c
  reads h hh c' i got hr := by
    obtain ⟨hi, hgot⟩ := ht.reads h hh c' i got hr
    exact ⟨⟨hi.lt, fun c'' hl => hi.not_temp c'' (Volume.lookup_of_unlink hl)⟩, hgot⟩

theorem receive (ht : Tidy d hs) (r : Request) : Tidy d (hs ++ [r.handler]) where
  owned := by
    obtain ⟨own, ho⟩ := ht.owned
    exact ⟨own, ho.receive r⟩
  alone c := (ht.alone c).receive r
  reads := Lists.forall_mem_concat ht.reads fun c i got hr =>
    absurd hr.opened (r.handler_new.2.1 c i)

theorem start (d : DataDir) : Tidy d [] where
  owned := Owned.exists_start d [] rfl
  alone c := ⟨by simp, by rintro _ _ _ _ ⟨⟩⟩
  reads := by simp

/-! ### One step -/

theorem chunkMap_of_settled (ht : Tidy d hs) (hh : h ∈ hs) (hm : Handler.Moves d h a e)
    (hnames : ∀ c, e.disk.names.lookup (path c) = d.names.lookup (path c)) :
    e.disk.chunkMap = d.chunkMap :=
  funext fun c => DataDir.chunkMap_congr (hnames c) fun _ hi => (ht.settled_of_moves hh hm hi).1

/-- A handler's step is none of its call, or the call's next item, or the refusal of it. -/
theorem call_of_moves (ht : Tidy d hs) (hh : h ∈ hs) (hm : Handler.Moves d h a e) :
    (e.disk.chunkMap = d.chunkMap ∧ e.handler.call e.disk = h.call d) ∨
    (h.call d).exec d.chunkMap = some (e.disk.chunkMap, e.handler.call e.disk) ∨
    (a = .ioError ∧ e.disk.chunkMap = d.chunkMap ∧ (h.call d).fail = some (e.handler.call e.disk)) := by
  have hmap := ht.chunkMap_of_settled hh hm
  cases hm with
  | probe | probeDelete | countDelete | read => exact .inl ⟨rfl, rfl⟩
  | creat c b rest old => exact .inl ⟨hmap fun c' => Volume.lookup_creat_ne (path_ne_temp c' c), rfl⟩
  | write hm => exact .inl ⟨hmap fun _ => rfl, rfl⟩
  | count c b rest old => exact .inl ⟨rfl, Handler.call_storeNext d rest⟩
  | @rename c b rest old i n j hn hj =>
    obtain ⟨htemp, _, hcontents⟩ := (ht.alone c).writes _ hh b i n (.intro _ _)
    obtain rfl : i = j := Option.some.inj (htemp.symm.trans hj)
    rw [hn, List.take_length] at hcontents
    refine .inr (.inl ?_)
    rw [DataDir.chunkMap_move, hcontents]
    rfl
  | renameFails hn hnone =>
    obtain ⟨htemp, _⟩ := (ht.alone _).writes _ hh _ _ _ (.intro _ _)
    rw [hnone] at htemp
    cases htemp
  | storeError hphase =>
    refine .inr (.inr ⟨rfl, rfl, ?_⟩)
    rename_i phase
    cases phase with
    | renamed old => exact absurd rfl (hphase old)
    | _ => rfl
  | @remove c old hin =>
    refine .inr (.inl ?_)
    rw [DataDir.chunkMap_unlink]
    rfl
  | @gone c phase a hphase hnone =>
    have hsame : Function.update d.chunkMap c none = d.chunkMap := by
      refine Function.update_eq_iff.mpr ⟨?_, fun _ _ => rfl⟩
      rw [DataDir.chunkMap, Volume.content, hnone]
      rfl
    have hcall : (Handler.deleting c phase).call d = .deleting c := by
      rcases hphase with rfl | ⟨old, rfl⟩ <;> rfl
    refine .inr (.inl ?_)
    rw [hcall, ChunkCall.exec, hsame]
    rfl
  | deleteError hphase =>
    refine .inr (.inr ⟨rfl, rfl, ?_⟩)
    rename_i phase
    cases phase with
    | removed old => exact absurd rfl (hphase old)
    | _ => rfl
  | @openRead c rest chunks i hi =>
    have hdata : d.chunkMap c = some (d.contents i) := by
      rw [DataDir.chunkMap, Volume.content, hi]
      rfl
    refine .inr (.inl ?_)
    simp only [Handler.call, ChunkCall.read, ChunkCall.exec, hdata]
  | @readEnd c rest chunks i got hend =>
    obtain ⟨_, hgot⟩ := ht.reads _ hh c i got (.intro _ _)
    obtain rfl := hgot.eq_of_length_le hend
    refine .inr (.inl ?_)
    rw [Handler.call_readNext]
    rfl
  | @missing c rest chunks phase a hmissing =>
    rw [Handler.call_readNext]
    rcases hmissing with rfl | ⟨rfl, hnone⟩
    · refine .inr (.inr ⟨rfl, rfl, ?_⟩)
      cases phase <;> rfl
    · have hdata : d.chunkMap c = none := by
        rw [DataDir.chunkMap, Volume.content, hnone]
        rfl
      refine .inr (.inl ?_)
      simp only [Handler.call, ChunkCall.read, ChunkCall.exec, hdata]

/-- The others' calls are where they were. -/
theorem calls_of_moves (ht : Tidy d hs) (hk : hs[k]? = some h) (hm : Handler.Moves d h a e) :
    (hs.set k e.handler).map (·.call e.disk) =
      (hs.map (·.call d)).set k (e.handler.call e.disk) := by
  rw [List.map_set]
  congr 1
  refine List.map_congr_left fun g hg => Handler.call_congr fun c i got hr => ?_
  exact (ht.settled_of_moves (List.mem_of_getElem? hk) hm (ht.reads g hg c i got hr).1).1

end Tidy

namespace StorageServicer

variable {s s' s₀ : StorageServicer} {a : ServicerAction}

theorem tidy_of_step (ht : Tidy s.disk s.handlers) (hapart : WritesApart s a)
    (hs : s.step a = some s') : Tidy s'.disk s'.handlers := by
  rcases cases_of_step hs with ⟨r, rfl, rfl⟩ | ⟨k, b, h, e, rfl, hk, hm, rfl⟩ | hscrub
  · exact ht.receive r.request
  · exact ht.of_moves hk hm fun c hb => hapart c k h (hb ▸ rfl) hk
  · obtain ⟨hhandlers, hdisk⟩ := hscrub.frame
    rw [hhandlers]
    rcases hdisk with hdisk | ⟨c, hdisk⟩
    · rwa [hdisk]
    · rw [hdisk]
      exact ht.unlink c

theorem store_of_handle {k : ℕ} {b : HandlerAction} (ht : Tidy s.disk s.handlers)
    (hs : s.step (.handle k b) = some s') :
    s'.store = s.store ∨ s.store.step (.exec k) = some s'.store ∨
      b = .ioError ∧ s.store.step (.fail k) = some s'.store := by
  obtain ⟨h, e, hk, hm, rfl⟩ : ∃ h e, s.handlers[k]? = some h ∧ Handler.Moves s.disk h b e ∧
      s' = ⟨e.disk, s.chunkCount + e.count, s.totalBytes + e.bytes, s.handlers.set k e.handler,
        s.scrub⟩ := by
    rcases cases_of_step hs with ⟨r, ha, _⟩ | ⟨k', b', h, e, ha, hk, hm, hs'⟩ | hscrub
    · cases ha
    · cases ha
      exact ⟨h, e, hk, hm, hs'⟩
    · cases hscrub
  have hh : h ∈ s.handlers := List.mem_of_getElem? hk
  have hcall : s.store.calls[k]? = some (h.call s.disk) := by
    rw [store, List.getElem?_map, hk]
    rfl
  have hstore : store ⟨e.disk, s.chunkCount + e.count, s.totalBytes + e.bytes,
      s.handlers.set k e.handler, s.scrub⟩ =
        ⟨e.disk.chunkMap, s.store.calls.set k (e.handler.call e.disk)⟩ :=
    congrArg (ChunkStore.mk e.disk.chunkMap) (ht.calls_of_moves hk hm)
  rw [hstore]
  rcases ht.call_of_moves hh hm with ⟨hmap, hsame⟩ | hexec | ⟨hb, hmap, hfail⟩
  · refine .inl ?_
    obtain ⟨hlt, hget⟩ := List.getElem?_eq_some_iff.mp hcall
    rw [hmap, hsame, ← hget, List.set_getElem_self]
    rfl
  · refine .inr (.inl ?_)
    rw [ChunkStore.step, hcall, Option.bind_some]
    show (ChunkCall.exec s.disk.chunkMap _).map _ = _
    rw [hexec]
    rfl
  · refine .inr (.inr ⟨hb, ?_⟩)
    rw [ChunkStore.step, hcall, Option.bind_some, hfail, hmap]
    rfl

/-- What the scrub takes away is gone, whether or not there was something. -/
theorem store_of_scrubRemove {c : ChunkId} (hs : s.step (.scrubRemove c) = some s') :
    s'.store = ⟨Function.update s.disk.chunkMap c none, s.store.calls⟩ := by
  simp only [step] at hs
  split at hs
  · split_ifs at hs
    cases hs
    by_cases hin : path c ∈ s.disk.names
    · rw [Volume.remove, if_pos hin, Option.getD_some, store, DataDir.chunkMap_unlink]
      rfl
    · have hnone : s.disk.chunkMap c = none := by
        rw [DataDir.chunkMap, Volume.content, AList.lookup_eq_none.mpr hin]
        rfl
      rw [Volume.remove, if_neg hin, Option.getD_none, store, ← hnone, Function.update_eq_self]
      rfl
  · cases hs

/-- A scrub's other steps leave the files alone. -/
theorem store_of_scrubMoves (hm : ScrubMoves s a s') (ha : ∀ c, a ≠ .scrubRemove c) :
    s'.store = s.store := by
  cases hm with
  | remove c => exact absurd rfl (ha c)
  | _ => rfl

/-- A scrub leaves the calls where they are. -/
theorem calls_of_scrubMoves (hs : s.step a = some s') (hm : ScrubMoves s a s') :
    s'.store.calls = s.store.calls := by
  by_cases hremove : ∃ c, a = .scrubRemove c
  · obtain ⟨c, rfl⟩ := hremove
    rw [store_of_scrubRemove hs]
  · rw [store_of_scrubMoves hm fun c hc => hremove ⟨c, hc⟩]

theorem follows : Follows service WritesApart ChunkStore.service
    fun s x => x = s.store ∧ Tidy s.disk s.handlers where
  answer := by
    rintro s x k r ⟨rfl, _⟩ hr
    obtain ⟨h, hk, hr⟩ := Option.bind_eq_some_iff.mp hr
    simp only [ChunkStore.service, store, List.getElem?_map, hk, Option.map_some, Option.bind_some]
    exact h.result_call s.disk hr
  step := by
    rintro s x a s' ⟨rfl, ht⟩ hapart hs
    replace hs : s.step a = some s' := hs
    have ht' := tidy_of_step ht hapart hs
    cases a with
    | receive r =>
      cases hs
      refine .inr ⟨.receive r, _, rfl, rfl, ?_, ht'⟩
      simp [store, r.request.call_handler]
    | handle k b =>
      rcases store_of_handle ht hs with hsame | hstep | ⟨_, hstep⟩
      · exact .inl ⟨rfl, hsame.symm, ht'⟩
      · exact .inr ⟨.exec k, _, hstep, rfl, rfl, ht'⟩
      · exact .inr ⟨.fail k, _, hstep, rfl, rfl, ht'⟩
    | scrubRemove c => exact .inr ⟨.scrub c, _, rfl, rfl, (store_of_scrubRemove hs).symm, ht'⟩
    | _ =>
      refine .inl ⟨rfl, ?_, ht'⟩
      rcases cases_of_step hs with ⟨r, ha, _⟩ | ⟨k, b, h, e, ha, _⟩ | hscrub
      · cases ha
      · cases ha
      · exact (store_of_scrubMoves hscrub (by simp)).symm

/-- Where writes of one chunk open its temp file one after the other, every history of requests,
scrubs and answers is one of a map that serves each item at once, and the map holds at any time
what is on the disk. -/
theorem linearizable (h₀ : s₀.handlers = []) {o : Observed StorageServicer StorageInput ℕ HandlerResult}
    (h : Steps service.observe (Serving WritesApart) (.start s₀) o) :
    ∃ p, Steps ChunkStore.service.observe anyStep (.start ⟨s₀.disk.chunkMap, []⟩) p ∧
      p.history = o.history ∧ p.server.chunks = o.server.disk.chunkMap := by
  have hstart : (⟨s₀.disk.chunkMap, []⟩ : ChunkStore) = s₀.store ∧ Tidy s₀.disk s₀.handlers := by
    rw [store, h₀]
    exact ⟨rfl, Tidy.start s₀.disk⟩
  obtain ⟨p, hp, ⟨hstore, _⟩, _, hhistory⟩ := follows.histories hstart h
  exact ⟨p, hp, hhistory, congrArg ChunkStore.chunks hstore⟩

/-- Two writes of a chunk, a read that has the chunk of the first open while the second replaces it,
and a delete. -/
theorem linearizable_overlap : ∃ (o : Observed StorageServicer StorageInput ℕ HandlerResult)
    (p : Observed ChunkStore StorageInput ℕ HandlerResult),
    Steps service.observe (Serving WritesApart) (.start (start Volume.empty)) o ∧
      Steps ChunkStore.service.observe anyStep (.start ⟨(start Volume.empty).disk.chunkMap, []⟩) p ∧
      p.history = o.history ∧ o.answered = [0, 2, 1] ∧
      o.server.handlers[1]? = some (.done (.read [(['c'], some [1])])) := by
  have hrun : (run (guarded service.observe (Serving WritesApart)) (.start (start Volume.empty))
      [.step (.receive writeOfC), .step (.receive readOfC),
        .step (.receive ⟨.storeChunks [(['c'], [2, 2])], by decide⟩), .step (.handle 0 .probe),
        .step (.handle 2 .probe), .step (.handle 0 .creat), .step (.handle 0 (.write 1)),
        .step (.handle 0 .rename), .step (.handle 1 .openRead), .step (.handle 2 .creat),
        .step (.handle 2 (.write 2)), .step (.handle 2 .rename), .step (.handle 1 (.read 5)),
        .step (.handle 1 .readEnd), .answer 1, .step (.receive ⟨.deleteChunk ['c'], by decide⟩),
        .step (.handle 3 .probe), .step (.handle 2 .count), .answer 2, .step (.handle 3 .remove),
        .step (.handle 0 .count), .answer 0]).any
      (fun o => o.answered == [0, 2, 1] &&
        o.server.handlers[1]? == some (.done (.read [(['c'], some [1])]))) = true := by
    decide +kernel
  obtain ⟨o, ho, hp⟩ := exists_of_run hrun
  simp only [Bool.and_eq_true, beq_iff_eq] at hp
  obtain ⟨p, hp', hhistory, _⟩ := linearizable rfl ho
  exact ⟨o, p, ho, hp', hhistory, hp⟩

end StorageServicer

end GfsCluster
