import GfsCluster.Storage.Writers

/-! A request that has the server to itself. Its handler goes through its system calls with no
other one in between, and does then what the whole request does at once: a write request leaves
the files and the counters, and is acknowledged, as for some outcome of each of its writes; a
delete and a read do so when no call raises. So a server whose requests come one after the other is
the server that handles each at once. -/

namespace GfsCluster

open Inodes StepSystem

/-- The files of `t`, whatever inodes hold them, and its counters. -/
structure Shows (s : StorageServicer) (t : StorageServer) : Prop where
  files : ∀ f, s.disk.content f = t.dir.lookup f
  chunkCount : s.chunkCount = t.chunkCount
  totalBytes : s.totalBytes = t.totalBytes

namespace Shows

variable {s : StorageServicer} {t : StorageServer} {c : ChunkId} {data : Bytes} {i n m : ℕ}

theorem oldSize (h : Shows s t) (c : ChunkId) : s.disk.oldSize c = t.dir.oldSize (path c) := by
  rw [DataDir.oldSize, Directory.oldSize, h.files]
  cases t.dir.lookup (path c) <;> rfl

end Shows

/-- The server with other files. -/
def StorageServer.withDir (t : StorageServer) (d : Directory) : StorageServer := { t with dir := d }

namespace StorageServer

variable {t t' : StorageServer} {items rest : List (ChunkId × Bytes)} {c : ChunkId} {data : Bytes}

/-- The items without their outcomes. -/
def plain (its : List WriteItem) : List (ChunkId × Bytes) := its.map fun it => (it.chunkId, it.data)

/-- With the first items written, the server is `t'` and goes on with the rest. -/
def Continues (t : StorageServer) (items rest : List (ChunkId × Bytes)) (t' : StorageServer) : Prop :=
  ∃ done, plain done ++ rest = items ∧
    ∀ its, t.storeLoop 0 (done ++ its) = t'.storeLoop done.length its

/-- The server after a write that went through. -/
def written (t : StorageServer) (c : ChunkId) (data : Bytes) : StorageServer where
  dir := (t.dir.writeChunk (path c) data .done).2
  chunkCount := if t.dir.oldSize (path c) = -1 then t.chunkCount + 1 else t.chunkCount
  totalBytes := t.totalBytes + (data.length - max (t.dir.oldSize (path c)) 0)

theorem Continues.next (h : Continues t items ((c, data) :: rest) t') :
    Continues t items rest (t'.written c data) := by
  obtain ⟨done, hitems, hloop⟩ := h
  refine ⟨done ++ [⟨c, data, .done⟩], ?_, fun its => ?_⟩
  · rw [← hitems, plain, plain, List.map_append, List.append_assoc]
    rfl
  · rw [List.append_assoc, hloop, List.length_append]
    rfl

/-- What the request leaves when the write at hand fails. -/
theorem Continues.fails (h : Continues t items ((c, data) :: rest) t') (o : WriteOutcome) {exc : String}
    {d : Directory} (ho : t'.dir.writeChunk (path c) data o = (some exc, d)) :
    ∃ its, plain its = items ∧ (t.storeChunks its).1.ok = false ∧
      (t.storeChunks its).2 = t'.withDir d := by
  obtain ⟨done, hitems, hloop⟩ := h
  refine ⟨done ++ ⟨c, data, o⟩ :: rest.map fun x => ⟨x.1, x.2, .done⟩, ?_, ?_⟩
  · rw [← hitems, plain, plain, List.map_append, List.map_cons, List.map_map]
    simp [Function.comp_def]
  · rw [storeChunks, hloop, storeLoop, ho]
    exact ⟨rfl, rfl⟩

theorem Continues.ends (h : Continues t items [] t') :
    ∃ its, plain its = items ∧ (t.storeChunks its).1.ok = true ∧ (t.storeChunks its).2 = t' := by
  obtain ⟨done, hitems, hloop⟩ := h
  have hall := hloop []
  rw [List.append_nil] at hall hitems
  rw [← storeChunks] at hall
  exact ⟨done, hitems, by rw [hall]; rfl, by rw [hall]; rfl⟩

end StorageServer

/-! ### One write -/

/-- How far the write of one item has come, on a server that is `t` but for this write. -/
def Midway (s : StorageServicer) (t : StorageServer) (c : ChunkId) (data : Bytes) : StorePhase → Prop
  | .probing => Shows s t
  | .probed old => Shows s t ∧ old = t.dir.oldSize (path c)
  | .writing old i n => s.disk.names.lookup (temp c) = some i ∧ n ≤ data.length ∧
    Shows s (t.withDir (t.dir.insert (temp c) (data.take n))) ∧ old = t.dir.oldSize (path c)
  | .renamed old => Shows s (t.withDir (t.dir.writeChunk (path c) data .done).2) ∧
    old = t.dir.oldSize (path c)

namespace Shows

variable {s : StorageServicer} {t : StorageServer} {c : ChunkId} {data : Bytes} {i n m : ℕ}

/-- Only the handlers moved on. -/
theorem same (h : Shows s t) (hs : List Handler) :
    Shows ⟨s.disk, s.chunkCount, s.totalBytes, hs, s.scrub⟩ t :=
  ⟨h.files, h.chunkCount, h.totalBytes⟩

theorem creat (h : Shows s t) (c : ChunkId) (hs : List Handler) :
    Shows ⟨(s.disk.creat (temp c)).2, s.chunkCount, s.totalBytes, hs, s.scrub⟩
      (t.withDir (t.dir.insert (temp c) [])) where
  files f := by
    show (s.disk.creat (temp c)).2.content f = (t.dir.insert (temp c) []).lookup f
    by_cases hf : f = temp c
    · rw [hf, AList.lookup_insert, Volume.content, Volume.lookup_creat_self, Option.map_some,
        Volume.contents_creat_self]
    · rw [Volume.content_creat_ne hf, AList.lookup_insert_ne hf]
      exact h.files f
  chunkCount := h.chunkCount
  totalBytes := h.totalBytes

theorem write (h : Shows s (t.withDir (t.dir.insert (temp c) (data.take n))))
    (hi : s.disk.names.lookup (temp c) = some i) (hm : n + m ≤ data.length) (hs : List Handler) :
    Shows ⟨s.disk.writeAt i n ((data.drop n).take m), s.chunkCount, s.totalBytes, hs, s.scrub⟩
      (t.withDir (t.dir.insert (temp c) (data.take (n + m)))) where
  files f := by
    show (s.disk.writeAt i n ((data.drop n).take m)).content f =
      (t.dir.insert (temp c) (data.take (n + m))).lookup f
    by_cases hf : f = temp c
    · have hcontents : s.disk.contents i = data.take n := by
        have htemp := h.files (temp c)
        rw [Volume.content, hi] at htemp
        exact Option.some.inj (htemp.trans (AList.lookup_insert _))
      have happ := Volume.contents_writeAt_self (d := s.disk) (i := i) ((data.drop n).take m)
      rw [hcontents, List.length_take, Nat.min_eq_left (by omega)] at happ
      rw [hf, AList.lookup_insert, List.take_add, ← happ]
      exact congrArg (Option.map _) hi
    · rw [Volume.content_writeAt_ne hi hf, AList.lookup_insert_ne hf]
      exact (h.files f).trans (AList.lookup_insert_ne hf)
  chunkCount := h.chunkCount
  totalBytes := h.totalBytes

theorem rename (h : Shows s (t.withDir (t.dir.insert (temp c) data)))
    (hi : s.disk.names.lookup (temp c) = some i) (hs : List Handler) :
    Shows ⟨s.disk.move (temp c) (path c) i hi, s.chunkCount, s.totalBytes, hs, s.scrub⟩
      (t.withDir (t.dir.writeChunk (path c) data .done).2) where
  files f := by
    have hbefore : ∀ f, s.disk.content f = (t.dir.insert (temp c) data).lookup f := h.files
    show (s.disk.move (temp c) (path c) i hi).content f = (t.dir.writeChunk (path c) data .done).2.lookup f
    rw [Directory.writeChunk_done]
    by_cases hp : f = path c
    · have htemp := hbefore (temp c)
      rw [Volume.content, hi, AList.lookup_insert] at htemp
      rw [hp, Volume.content_move_dst, AList.lookup_insert]
      exact htemp
    · rw [AList.lookup_insert_ne hp]
      by_cases ht : f = temp c
      · rw [ht, Volume.content, Volume.lookup_move_src (path_ne_temp c c).symm]
        exact ((t.dir.insert (temp c) data).lookup_erase (temp c)).symm
      · rw [Volume.content_move_ne ht hp, hbefore]
        exact (AList.lookup_erase_ne ht).symm
  chunkCount := h.chunkCount
  totalBytes := h.totalBytes

end Shows

/-! ### A whole request -/

/-- Steps of the handler `k` alone. -/
def Only (ok : HandlerAction → Prop) (k : ℕ) (_ : StorageServicer) (a : ServicerAction) : Prop :=
  ∃ b, a = .handle k b ∧ ok b

/-- What a handler keeps while it runs alone. -/
theorem exists_of_only {ok : HandlerAction → Prop} {s s' : StorageServicer} {k : ℕ} {h : Handler}
    {P : StorageServicer → Handler → Prop} (hsteps : Steps StorageServicer.step (Only ok k) s s')
    (hk : s.handlers[k]? = some h) (hP : P s h)
    (hmove : ∀ u g b e hs, P u g → Handler.Moves u.disk g b e → ok b →
      P ⟨e.disk, u.chunkCount + e.count, u.totalBytes + e.bytes, hs, u.scrub⟩ e.handler) :
    ∃ g, s'.handlers[k]? = some g ∧ P s' g := by
  refine hsteps.invariant (P := fun s => ∃ g, s.handlers[k]? = some g ∧ P s g) ⟨h, hk, hP⟩
    fun u a v _ hu ha hstep => ?_
  obtain ⟨g, hg, hPg⟩ := hu
  obtain ⟨b, rfl, hb⟩ := ha
  rcases StorageServicer.cases_of_step hstep with ⟨r, hr, _⟩ | ⟨k', b', g', e, he, hk', hm, rfl⟩ | hscrub
  · cases hr
  · cases he
    obtain rfl := Option.some.inj (hg.symm.trans hk')
    exact ⟨e.handler, List.getElem?_set_self (List.getElem?_eq_some_iff.mp hg).1, hmove u g b e _ hPg hm hb⟩
  · cases hscrub

/-- A write request that has come so far, on a server that was `t` when it came in. -/
def InTurn (t : StorageServer) (items : List (ChunkId × Bytes)) (s : StorageServicer) :
    Handler → Prop
  | .storing ((c, data) :: rest) phase =>
    ∃ t', t.Continues items ((c, data) :: rest) t' ∧ Midway s t' c data phase
  | .done result => ∃ its, StorageServer.plain its = items ∧ Shows s (t.storeChunks its).2 ∧
    ((t.storeChunks its).1.ok = true ↔ result = .stored)
  | _ => False

namespace InTurn

variable {t t' : StorageServer} {items rest : List (ChunkId × Bytes)} {s : StorageServicer}
  {k : ℕ} {h : Handler} {a : HandlerAction} {e : Handler.Effect} {c : ChunkId} {data : Bytes}

/-- The next item, or the end of the request. -/
theorem storeNext (hcont : t.Continues items rest t') (hs : Shows s t') :
    InTurn t items s (.storeNext rest) := by
  cases rest with
  | nil =>
    obtain ⟨its, hits, hok, hend⟩ := hcont.ends
    exact ⟨its, hits, hend ▸ hs, iff_of_true hok rfl⟩
  | cons x rest => exact ⟨t', hcont, hs⟩

/-- The write at hand fails, and the request with it. -/
theorem fails (hcont : t.Continues items ((c, data) :: rest) t') (o : WriteOutcome) {exc : String}
    {d : Directory} (ho : t'.dir.writeChunk (path c) data o = (some exc, d)) (hs : Shows s (t'.withDir d)) :
    InTurn t items s (.done (.storeFailed c)) := by
  obtain ⟨its, hits, hfalse, hend⟩ := hcont.fails o ho
  exact ⟨its, hits, hend ▸ hs, iff_of_false (by simp [hfalse]) nofun⟩

theorem of_moves (ht : InTurn t items s h) (hm : Handler.Moves s.disk h a e) (hs : List Handler) :
    InTurn t items ⟨e.disk, s.chunkCount + e.count, s.totalBytes + e.bytes, hs, s.scrub⟩ e.handler := by
  cases hm with
  | probe =>
    obtain ⟨t', hcont, hshows⟩ := ht
    simp only [add_zero]
    exact ⟨t', hcont, hshows.same hs, hshows.oldSize _⟩
  | creat c =>
    obtain ⟨t', hcont, hshows, hold⟩ := ht
    simp only [add_zero]
    exact ⟨t', hcont, Volume.lookup_creat_self, Nat.zero_le _, hshows.creat c hs, hold⟩
  | write hm =>
    obtain ⟨t', hcont, hi, _, hshows, hold⟩ := ht
    simp only [add_zero]
    exact ⟨t', hcont, hi, hm.2, hshows.write hi hm.2 hs, hold⟩
  | rename hn hj =>
    obtain ⟨t', hcont, hi, _, hshows, hold⟩ := ht
    rw [hn, List.take_length] at hshows
    obtain rfl := Option.some.inj (hi.symm.trans hj)
    simp only [add_zero]
    exact ⟨t', hcont, hshows.rename hj hs, hold⟩
  | renameFails hn hnone =>
    obtain ⟨t', _, hi, _⟩ := ht
    rw [hnone] at hi
    cases hi
  | count c data rest old =>
    obtain ⟨t', hcont, hshows, rfl⟩ := ht
    refine storeNext hcont.next ⟨hshows.files, ?_, ?_⟩
    · show s.chunkCount + _ = (t'.written c data).chunkCount
      rw [hshows.chunkCount]
      simp only [StorageServer.written, StorageServer.withDir]
      split_ifs <;> simp
    · show s.totalBytes + _ = (t'.written c data).totalBytes
      rw [hshows.totalBytes]
      rfl
  | @storeError c data rest phase hphase =>
    simp only [add_zero]
    cases phase with
    | probing =>
      obtain ⟨t', hcont, hshows⟩ := ht
      exact fails hcont (.openFails "") rfl (hshows.same hs)
    | probed old =>
      obtain ⟨t', hcont, hshows, _⟩ := ht
      exact fails hcont (.openFails "") rfl (hshows.same hs)
    | writing old i n =>
      obtain ⟨t', hcont, _, _, hshows, _⟩ := ht
      exact fails hcont (.writeFails n "") rfl (hshows.same hs)
    | renamed old => exact absurd rfl (hphase old)
  | _ => exact ht.elim

end InTurn

/-- A write request that runs alone is one request of the server at once. -/
theorem storeChunks_inTurn {s s' : StorageServicer} {t : StorageServer}
    {items : List (ChunkId × Bytes)} {k : ℕ} {result : HandlerResult} (hs : Shows s t)
    (hk : s.handlers[k]? = some (.storeNext items))
    (h : Steps StorageServicer.step (Only (fun _ => True) k) s s')
    (hdone : s'.handlers[k]? = some (.done result)) :
    ∃ its, StorageServer.plain its = items ∧ Shows s' (t.storeChunks its).2 ∧
      ((t.storeChunks its).1.ok = true ↔ result = .stored) := by
  obtain ⟨g, hg, hturn⟩ := exists_of_only (P := InTurn t items) h hk
    (InTurn.storeNext ⟨[], rfl, fun its => rfl⟩ hs) fun u g b e hs hg hm _ => hg.of_moves hm hs
  rw [hdone, Option.some.injEq] at hg
  subst hg
  exact hturn

/-! ### Deletes and reads -/

/-- A delete that has come so far, on a server that was `t` when it came in. -/
def DeleteInTurn (t : StorageServer) (c : ChunkId) (s : StorageServicer) : Handler → Prop
  | .deleting c' .probing => c' = c ∧ Shows s t
  | .deleting c' (.probed old) => c' = c ∧ Shows s t ∧
    ∃ data, t.dir.lookup (path c) = some data ∧ old = data.length
  | .deleting c' (.removed old) => c' = c ∧ Shows s (t.withDir (t.dir.erase (path c))) ∧
    ∃ data, t.dir.lookup (path c) = some data ∧ old = data.length
  | .done result => result = .deleted ∧ Shows s (t.deleteChunk c).2
  | _ => False

theorem Shows.unlink {s : StorageServicer} {t : StorageServer} (h : Shows s t) (f : Str)
    (hs : List Handler) : Shows ⟨s.disk.unlink f, s.chunkCount, s.totalBytes, hs, s.scrub⟩
      (t.withDir (t.dir.erase f)) where
  files g := by
    show (s.disk.unlink f).content g = (t.dir.erase f).lookup g
    by_cases hg : g = f
    · rw [hg, Volume.content_unlink_self]
      exact (t.dir.lookup_erase f).symm
    · rw [Volume.content_unlink_ne hg, AList.lookup_erase_ne hg]
      exact h.files g
  chunkCount := h.chunkCount
  totalBytes := h.totalBytes

/-- A delete that runs alone, and meets no error, is one request of the server at once. -/
theorem deleteChunk_inTurn {s s' : StorageServicer} {t : StorageServer} {c : ChunkId} {k : ℕ}
    {result : HandlerResult} (hs : Shows s t) (hk : s.handlers[k]? = some (.deleting c .probing))
    (h : Steps StorageServicer.step (Only (· ≠ .ioError) k) s s')
    (hdone : s'.handlers[k]? = some (.done result)) :
    result = .deleted ∧ Shows s' (t.deleteChunk c).2 := by
  obtain ⟨g, hg, hturn⟩ := exists_of_only (P := DeleteInTurn t c) h hk ⟨rfl, hs⟩
    fun u g b e hs hg hm hb => by
      cases hm with
      | probeDelete hc =>
        obtain ⟨rfl, hshows⟩ := hg
        simp only [add_zero]
        exact ⟨rfl, hshows.same hs, _, (hshows.files _).symm.trans hc, rfl⟩
      | remove old hc =>
        obtain ⟨rfl, hshows, hold⟩ := hg
        simp only [add_zero]
        exact ⟨rfl, hshows.unlink _ hs, hold⟩
      | @gone c' phase _ hphase hc =>
        have hnone : u.disk.content (path c') = none := by rw [Volume.content, hc]; rfl
        simp only [add_zero]
        rcases hphase with rfl | ⟨old, rfl⟩
        · obtain ⟨rfl, hshows⟩ := hg
          refine ⟨rfl, ?_⟩
          rw [StorageServer.deleteChunk, ← hshows.files, hnone]
          exact hshows.same hs
        · obtain ⟨rfl, hshows, data, hdata, _⟩ := hg
          rw [← hshows.files, hnone] at hdata
          cases hdata
      | countDelete =>
        obtain ⟨rfl, hshows, data, hdata, rfl⟩ := hg
        refine ⟨rfl, ?_⟩
        rw [StorageServer.deleteChunk, hdata]
        exact ⟨hshows.files, by rw [hshows.chunkCount]; rfl, by rw [hshows.totalBytes]; rfl⟩
      | deleteError => exact absurd rfl hb
      | _ => exact hg.elim
  rw [hdone, Option.some.injEq] at hg
  subst hg
  exact hturn

/-- A read that has come so far, on a server that is `t`. -/
def ReadInTurn (t : StorageServer) (ids : List ChunkId) (s : StorageServicer) : Handler → Prop
  | .reading (c :: rest) chunks phase => Shows s t ∧
    (∃ before, before ++ c :: rest = ids ∧ chunks = before.map fun c => (c, t.dir.lookup (path c))) ∧
    ∀ i data, phase = .reading i data →
      s.disk.names.lookup (path c) = some i ∧ data <+: s.disk.contents i
  | .done result => Shows s t ∧ result = .read (ids.map fun c => (c, t.dir.lookup (path c)))
  | _ => False

namespace ReadInTurn

variable {t : StorageServer} {ids before rest : List ChunkId} {s : StorageServicer} {k : ℕ}
  {h : Handler} {a : HandlerAction} {e : Handler.Effect} {c : ChunkId}

/-- The next chunk, or the end of the request. -/
theorem readNext (hs : Shows s t) (hids : before ++ rest = ids) :
    ReadInTurn t ids s (.readNext (before.map fun c => (c, t.dir.lookup (path c))) rest) := by
  cases rest with
  | nil =>
    rw [List.append_nil] at hids
    exact ⟨hs, by rw [hids]⟩
  | cons c rest => exact ⟨hs, ⟨before, hids, rfl⟩, nofun⟩

/-- What was found of one chunk, and on to the next. -/
theorem found (hs : Shows s t) (hids : before ++ c :: rest = ids) {data : Option Bytes}
    (hdata : s.disk.content (path c) = data) :
    ReadInTurn t ids s
      (.readNext (before.map (fun c => (c, t.dir.lookup (path c))) ++ [(c, data)]) rest) := by
  have hids' : (before ++ [c]) ++ rest = ids := by rw [List.append_assoc, List.singleton_append, hids]
  have hnext := readNext hs hids'
  rwa [List.map_append, List.map_singleton, ← hs.files (path c), hdata] at hnext

theorem of_moves (hr : ReadInTurn t ids s h) (hm : Handler.Moves s.disk h a e) (ha : a ≠ .ioError)
    (hs : List Handler) : ReadInTurn t ids
      ⟨e.disk, s.chunkCount + e.count, s.totalBytes + e.bytes, hs, s.scrub⟩ e.handler := by
  cases hm with
  | openRead hi =>
    obtain ⟨hshows, hbefore, _⟩ := hr
    simp only [add_zero]
    refine ⟨hshows.same hs, hbefore, fun i data heq => ?_⟩
    cases heq
    exact ⟨hi, List.nil_prefix⟩
  | read n =>
    obtain ⟨hshows, hbefore, hreading⟩ := hr
    obtain ⟨hi, hprefix⟩ := hreading _ _ rfl
    simp only [add_zero]
    refine ⟨hshows.same hs, hbefore, fun i data heq => ?_⟩
    cases heq
    exact ⟨hi, Lists.append_take_prefix hprefix n⟩
  | @readEnd c rest chunks i data hend =>
    obtain ⟨hshows, ⟨before, hids, rfl⟩, hreading⟩ := hr
    obtain ⟨hi, hprefix⟩ := hreading _ _ rfl
    have hall : data = s.disk.contents i := hprefix.eq_of_length_le hend
    simp only [add_zero]
    refine found (hshows.same hs) hids ?_
    show s.disk.content (path c) = some data
    rw [Volume.content, hi, hall]
    rfl
  | @missing c rest chunks phase _ hmissing =>
    obtain ⟨hshows, ⟨before, hids, rfl⟩, _⟩ := hr
    obtain ⟨_, hnone⟩ := hmissing.resolve_left ha
    simp only [add_zero]
    refine found (hshows.same hs) hids ?_
    show s.disk.content (path c) = none
    rw [Volume.content, hnone]
    rfl
  | _ => exact hr.elim

end ReadInTurn

/-- A read that runs alone, and meets no error, finds the chunks that the server answers with
at once, and misses those that it misses. -/
theorem getChunks_inTurn {s s' : StorageServicer} {t : StorageServer} {ids : List ChunkId} {k : ℕ}
    {result : HandlerResult} (hs : Shows s t) (hk : s.handlers[k]? = some (.readNext [] ids))
    (h : Steps StorageServicer.step (Only (· ≠ .ioError) k) s s')
    (hdone : s'.handlers[k]? = some (.done result)) :
    Shows s' t ∧ result = .read (ids.map fun c => (c, t.dir.lookup (path c))) := by
  have hstart := ReadInTurn.readNext hs (List.nil_append ids)
  obtain ⟨g, hg, hturn⟩ := exists_of_only (P := ReadInTurn t ids) h hk hstart
    fun u g b e hs hg hm hb => hg.of_moves hm hb hs
  rw [hdone, Option.some.injEq] at hg
  subst hg
  exact hturn

/-! ### One request after the other -/

/-- A delete or a read meets no error. -/
def Request.Unfailing (r : Request) (a : HandlerAction) : Prop :=
  a = .ioError → ∃ items, r.handler = .storeNext items

/-- A request comes in, and its handler alone goes on until it is done. -/
structure Served (s : StorageServicer) (r : ChunkRequest) (result : HandlerResult)
    (s' : StorageServicer) : Prop where
  steps : Steps StorageServicer.step (Only r.request.Unfailing s.handlers.length)
    { s with handlers := s.handlers ++ [r.request.handler] } s'
  done : s'.handlers[s.handlers.length]? = some (.done result)

/-- The request, whatever its writes will come to. -/
def StorageRequest.plain : StorageRequest → Request
  | .storeChunk it => .storeChunk it.chunkId it.data
  | .storeChunks items => .storeChunks (StorageServer.plain items)
  | .getChunk c => .getChunk c
  | .getChunks ids => .getChunks ids
  | .deleteChunk c => .deleteChunk c
  | .replicateChunk c source _ => .replicateChunk c (getChunkFrom source)

/-- The response says what the handler came to. -/
def StorageResponse.Says : StorageResponse → HandlerResult → Prop
  | .storeChunk resp, result => resp.ok = true ↔ result = .stored
  | .storeChunks resp, result => resp.ok = true ↔ result = .stored
  | .replicateChunk resp, result => resp.ok = true ↔ result = .stored
  | .deleteChunk _, result => result = .deleted
  | .getChunk resp, result => ∃ c data, result = .read [(c, data)] ∧ resp.ok = data.isSome ∧
    resp.data = data.getD []
  | .getChunks resp, result => ∃ chunks, result = .read chunks ∧
    resp.chunks = chunks.filterMap (fun x => x.2.map (x.1, ·)) ∧
    resp.missing = (chunks.filter (·.2 = none)).map Prod.fst

/-- A batch of one is a write of its own. -/
theorem StorageServer.storeChunks_single (t : StorageServer) (it : WriteItem) :
    (t.storeChunks [it]).2 = (t.storeChunk it).2 ∧
      ((t.storeChunks [it]).1.ok = true ↔ (t.storeChunk it).1.ok = true) := by
  cases hexc : it.outcome.exc with
  | some exc =>
    rw [storeChunks, storeLoop_of_exc 0 [] hexc, storeChunk_of_exc hexc]
    exact ⟨rfl, .rfl⟩
  | none =>
    rw [storeChunks, storeLoop_of_done 0 [] hexc, storeChunk_response, hexc]
    exact ⟨rfl, iff_of_true rfl rfl⟩

namespace StorageServer

variable (t : StorageServer) {result : HandlerResult}

theorem getChunk_says (c : ChunkId) (h : result = .read [(c, t.dir.lookup (path c))]) :
    (StorageResponse.getChunk (t.getChunk c)).Says result := by
  refine ⟨c, _, h, ?_⟩
  rw [getChunk]
  cases t.dir.lookup (path c) <;> exact ⟨rfl, rfl⟩

theorem getChunks_says (ids : List ChunkId)
    (h : result = .read (ids.map fun c => (c, t.dir.lookup (path c)))) :
    (StorageResponse.getChunks (t.getChunks ids)).Says result := by
  have hloop := t.getLoop_eq ids ([], [])
  refine ⟨_, h, ?_, ?_⟩
  · have hchunks : (t.getChunks ids).chunks = (t.getLoop ([], []) ids).1 := by
      simp only [getChunks, apply_ite GetChunksResponse.chunks, ite_self]
    rw [hchunks, hloop, List.nil_append, List.filterMap_map]
    rfl
  · have hmissing : (t.getChunks ids).missing = (t.getLoop ([], []) ids).2 := by
      simp only [getChunks, apply_ite GetChunksResponse.missing, ite_self]
    rw [hmissing, hloop, List.nil_append, List.filter_map, List.map_map]
    exact (List.map_id _).symm

end StorageServer

namespace Served

variable {s s' : StorageServicer} {t : StorageServer} {r : ChunkRequest} {result : HandlerResult}

/-- The handler of the request, when it comes in. -/
theorem handler_get (s : StorageServicer) (h : Handler) :
    (s.handlers ++ [h])[s.handlers.length]? = some h := List.getElem?_concat_length

theorem storeChunks {items : List (ChunkId × Bytes)} (h : Served s r result s') (hs : Shows s t)
    (hr : r.request.handler = .storeNext items) :
    ∃ its, StorageServer.plain its = items ∧ Shows s' (t.storeChunks its).2 ∧
      ((t.storeChunks its).1.ok = true ↔ result = .stored) :=
  storeChunks_inTurn (hs.same _) (hr ▸ handler_get s _) (h.steps.mono fun _ _ ⟨b, ha, _⟩ => ⟨b, ha, trivial⟩)
    h.done

theorem storeChunk {c : ChunkId} {data : Bytes} (h : Served s r result s') (hs : Shows s t)
    (hr : r.request.handler = .storeNext [(c, data)]) :
    ∃ it : WriteItem, (it.chunkId, it.data) = (c, data) ∧ Shows s' (t.storeChunk it).2 ∧
      ((t.storeChunk it).1.ok = true ↔ result = .stored) := by
  obtain ⟨its, hits, hshows, hok⟩ := h.storeChunks hs hr
  obtain ⟨it, rfl, hit⟩ := List.map_eq_singleton_iff.mp hits
  obtain ⟨hstate, hiff⟩ := t.storeChunks_single it
  exact ⟨it, hit, hstate ▸ hshows, hiff.symm.trans hok⟩

theorem unfailing (h : Served s r result s') (hr : ∀ items, r.request.handler ≠ .storeNext items) :
    Steps StorageServicer.step (Only (· ≠ .ioError) s.handlers.length)
      { s with handlers := s.handlers ++ [r.request.handler] } s' :=
  h.steps.mono fun _ _ ⟨b, ha, hb⟩ => ⟨b, ha, fun he => (hb he).elim hr⟩

theorem getChunks {ids : List ChunkId} (h : Served s r result s') (hs : Shows s t)
    (hr : r.request.handler = .readNext [] ids) :
    Shows s' t ∧ result = .read (ids.map fun c => (c, t.dir.lookup (path c))) := by
  refine getChunks_inTurn (hs.same _) (hr ▸ handler_get s _) (h.unfailing fun items he => ?_) h.done
  rw [hr] at he
  cases ids <;> cases items <;> cases he

/-- What a request that is served alone does, the server does at once. -/
theorem exists_handle (h : Served s r result s') (hs : Shows s t) : ∃ q : StorageRequest,
    q.plain = r.request ∧ (t.handle q).1.Says result ∧ Shows s' (t.handle q).2 := by
  obtain ⟨r, hplain⟩ := r
  cases r with
  | storeChunk c data =>
    obtain ⟨it, hit, hshows, hok⟩ := h.storeChunk hs rfl
    cases hit
    exact ⟨.storeChunk it, rfl, hok, hshows⟩
  | storeChunks items =>
    obtain ⟨its, rfl, hshows, hok⟩ := h.storeChunks hs rfl
    exact ⟨.storeChunks its, rfl, hok, hshows⟩
  | replicateChunk c source =>
    cases source with
    | some data =>
      obtain ⟨it, hit, hshows, hok⟩ := h.storeChunk hs rfl
      cases hit
      exact ⟨.replicateChunk it.chunkId (some ⟨true, "ok", it.data⟩) it.outcome, rfl, hok, hshows⟩
    | none =>
      obtain ⟨g, hg, hshows, rfl⟩ := exists_of_only
        (P := fun u g => Shows u t ∧ g = .done .unavailable) h.steps (handler_get s _)
        ⟨hs.same _, rfl⟩ fun u g b e hs hg hm _ => by
          obtain ⟨_, rfl⟩ := hg
          cases hm
      rw [h.done, Option.some.injEq, Handler.done.injEq] at hg
      subst hg
      exact ⟨.replicateChunk c none .done, rfl, by simp [StorageServer.handle, StorageServer.replicateChunk,
        getChunkFrom, StorageResponse.Says], hshows⟩
  | deleteChunk c =>
    obtain ⟨hresult, hshows⟩ := deleteChunk_inTurn (hs.same _) (handler_get s _)
      (h.unfailing (by rintro (_ | _) ⟨⟩)) h.done
    exact ⟨.deleteChunk c, rfl, hresult, hshows⟩
  | getChunk c =>
    have hone : (Request.getChunk c).handler = .readNext [] [c] := rfl
    obtain ⟨hshows, hresult⟩ := h.getChunks hs hone
    exact ⟨.getChunk c, rfl, t.getChunk_says c hresult, hshows⟩
  | getChunks ids =>
    obtain ⟨hshows, hresult⟩ := h.getChunks hs rfl
    exact ⟨.getChunks ids, rfl, t.getChunks_says ids hresult, hshows⟩

end Served

/-- Requests one after the other, and what they came to. -/
inductive ServedAll : StorageServicer → List (ChunkRequest × HandlerResult) → StorageServicer → Prop
  | nil (s : StorageServicer) : ServedAll s [] s
  | cons {s u s' : StorageServicer} {r : ChunkRequest} {result : HandlerResult}
      {served : List (ChunkRequest × HandlerResult)} (h : Served s r result u)
      (hrest : ServedAll u served s') : ServedAll s ((r, result) :: served) s'

/-- The server answers so to each request at once, for some outcomes of its writes. -/
inductive StorageServer.Answers :
    StorageServer → List (ChunkRequest × HandlerResult) → StorageServer → Prop
  | nil (t : StorageServer) : Answers t [] t
  | cons {t t' : StorageServer} {r : ChunkRequest} {result : HandlerResult}
      {served : List (ChunkRequest × HandlerResult)} (q : StorageRequest) (hq : q.plain = r.request)
      (hresp : (t.handle q).1.Says result) (hrest : Answers (t.handle q).2 served t') :
      Answers t ((r, result) :: served) t'

/-- A server whose requests come one after the other is the one that handles each at once, and keeps
its counters true. -/
theorem ServedAll.answers {s s' : StorageServicer} {t : StorageServer}
    {served : List (ChunkRequest × HandlerResult)} (h : ServedAll s served s') (hs : Shows s t)
    (ht : t.Counted) : ∃ t', t.Answers served t' ∧ Shows s' t' ∧ t'.Counted := by
  induction h generalizing t with
  | nil => exact ⟨t, .nil t, hs, ht⟩
  | cons h _ ih =>
    obtain ⟨q, hq, hresp, hshows⟩ := h.exists_handle hs
    obtain ⟨t', hanswers, hshows', hcounted⟩ := ih hshows ((t.handle_spec q).2.2 ht)
    exact ⟨t', .cons q hq hresp hanswers, hshows', hcounted⟩

end GfsCluster
