import GfsCluster.Storage.Writers

/-! The counters of a storage server. A handler takes the size of the file, renames or removes,
and then adds to the counters what that should have changed; the scrub reads them off the disk
again. Two handlers that take the size of one file before either changes it both count the same
change. As long as none takes it while another is about to change the file, and none renames,
removes or counts while the scrub reads, the counters are right whenever nothing is under way. -/

namespace GfsCluster

open Inodes StepSystem

namespace DataDir

/-- What a file adds to the two counters. -/
def tally (f : Str) (data : Bytes) : ℤ × ℤ := if chunkSuffix <:+ f then (1, data.length) else 0

/-- What it adds by its size, as `oldSize` has it. -/
def tallied (old : ℤ) : ℤ × ℤ := if old = -1 then 0 else (1, old)

variable {d d' : DataDir} {c : ChunkId} {f : Str}

theorem oldSize_congr (h : d'.content (path c) = d.content (path c)) : d'.oldSize c = d.oldSize c := by
  rw [oldSize, oldSize, h]

theorem size_congr (h : d'.content f = d.content f) : d'.size f = d.size f := by
  rw [size, size, h]

theorem weight_congr (h : d'.content f = d.content f) : d'.weight tally f = d.weight tally f := by
  rw [Volume.weight, Volume.weight, h]

@[simp] theorem weight_temp (d : DataDir) (c : ChunkId) : d.weight tally (temp c) = 0 := by
  have hzero : tally (temp c) = fun _ => 0 := funext fun _ => if_neg (not_chunkSuffix_tmp _)
  rw [Volume.weight, hzero]
  cases d.content (temp c) <;> rfl

theorem weight_path (d : DataDir) (c : ChunkId) : d.weight tally (path c) = tallied (d.oldSize c) := by
  rw [Volume.weight, oldSize]
  cases d.content (path c) with
  | none => rfl
  | some data =>
    have hlen : (data.length : ℤ) ≠ -1 := by omega
    simp [tally, tallied, chunkSuffix_path, hlen]

theorem oldSize_of_content {data : Bytes} (h : d.content (path c) = some data) :
    d.oldSize c = data.length := by
  rw [oldSize, h]

theorem neg_one_le_oldSize : -1 ≤ d.oldSize c := by
  unfold oldSize
  split <;> omega

/-- What a write adds to the counters. -/
theorem tallied_store {old : ℤ} (h : -1 ≤ old) (n : ℕ) :
    tallied n = tallied old + (if old = -1 then 1 else 0, n - max old 0) := by
  have hn : (n : ℤ) ≠ -1 := by omega
  by_cases hold : old = -1
  · simp [tallied, hold]
  · have hmax : max old 0 = old := by omega
    simp [tallied, hold, hmax]

theorem tallied_of_mem (h : path c ∈ d.names) : tallied (d.oldSize c) = (1, d.oldSize c) := by
  obtain ⟨data, hdata⟩ := Option.ne_none_iff_exists'.mp fun hnone => Volume.content_eq_none.mp hnone h
  have hlen : (data.length : ℤ) ≠ -1 := by omega
  rw [oldSize_of_content hdata, tallied, if_neg hlen]

/-- A temp file does not count. -/
theorem total_of_temp (h : ∀ g, g ≠ temp c → d'.content g = d.content g) :
    d'.total tally = d.total tally := by
  rw [Volume.total_eq_add tally fun g hg => weight_congr (h g hg), weight_temp, weight_temp,
    sub_zero, add_zero]

theorem total_of_path (h : ∀ g, g ≠ temp c → g ≠ path c → d'.content g = d.content g) :
    d'.total tally = d.total tally - tallied (d.oldSize c) + tallied (d'.oldSize c) := by
  rw [← weight_path, ← weight_path]
  refine Volume.total_eq_add tally fun g hg => ?_
  by_cases ht : g = temp c
  · rw [ht, weight_temp, weight_temp]
  · exact weight_congr (h g ht hg)

/-- The two counts of the `.chunk` files are the total of what each adds. -/
theorem total_tally (d : DataDir) : d.total tally = (↑d.chunkFiles.length, ↑d.chunkBytes) := by
  have hkeys : ∀ fs : List Str, (∀ f ∈ fs, f ∈ d.names) → (fs.map (d.weight tally)).sum =
      (↑(fs.filter (chunkSuffix <:+ ·)).length, ↑((fs.filter (chunkSuffix <:+ ·)).map d.size).sum) := by
    intro fs hfs
    induction fs with
    | nil => rfl
    | cons f fs ih =>
      have hf : ∃ data, d.content f = some data := Option.ne_none_iff_exists'.mp fun hnone =>
        Volume.content_eq_none.mp hnone (hfs f List.mem_cons_self)
      obtain ⟨data, hdata⟩ := hf
      rw [List.map_cons, List.sum_cons, ih fun g hg => hfs g (List.mem_cons_of_mem f hg)]
      by_cases hc : chunkSuffix <:+ f
      · simp [Volume.weight, size, hdata, tally, hc, add_comm]
      · simp [Volume.weight, hdata, tally, hc]
  exact hkeys d.names.keys fun f hf => AList.mem_keys.mpr hf

theorem sum_size_held (d : DataDir) : (d.heldChunkIds.map fun c => d.size (path c)).sum = d.chunkBytes := by
  rw [heldChunkIds, chunkBytes, List.map_map]
  refine congrArg List.sum (List.map_congr_left fun f hf => ?_)
  exact congrArg d.size (path_take (by simpa using (List.mem_filter.mp hf).2))

end DataDir

open DataDir

/-! ### What a handler is about to change -/

namespace Handler

/-- The chunk whose size the handler takes next. -/
def sizing : Handler → Option ChunkId
  | .storing ((c, _) :: _) .probing | .deleting c .probing => some c
  | _ => none

/-- The chunk that it renames onto or removes, and the size it took. -/
def sized : Handler → Option (ChunkId × ℤ)
  | .storing ((c, _) :: _) (.probed old) | .storing ((c, _) :: _) (.writing old _ _)
  | .deleting c (.probed old) => some (c, old)
  | _ => none

def changing (h : Handler) : Option ChunkId := h.sized.map Prod.fst

/-- What it has yet to add to the counters. -/
def owed : Handler → ℤ × ℤ
  | .storing ((_, data) :: _) (.renamed old) => (if old = -1 then 1 else 0, data.length - max old 0)
  | .deleting _ (.removed old) => (-1, -old)
  | _ => 0

/-- It has changed the directory, and not counted that. -/
def Uncounted : Handler → Prop
  | .storing _ (.renamed _) | .deleting _ (.removed _) => True
  | _ => False

theorem changing_eq_some {h : Handler} {c : ChunkId} :
    h.changing = some c ↔ ∃ old, h.sized = some (c, old) := by
  simp [changing]

theorem changing_of_writingTo {h : Handler} {c : ChunkId} (hw : h.writingTo = some c) :
    h.changing = some c := by
  obtain ⟨data, i, n, hw⟩ := writes_of_writingTo hw
  cases hw
  rfl

@[simp] theorem sized_storeNext (items : List (ChunkId × Bytes)) : (storeNext items).sized = none := by
  cases items <;> rfl

@[simp] theorem owed_storeNext (items : List (ChunkId × Bytes)) : (storeNext items).owed = 0 := by
  cases items <;> rfl

@[simp] theorem not_uncounted_storeNext (items : List (ChunkId × Bytes)) :
    ¬ (storeNext items).Uncounted := by
  cases items <;> exact id

@[simp] theorem sized_readNext (chunks : List (ChunkId × Option Bytes)) (ids : List ChunkId) :
    (readNext chunks ids).sized = none := by
  cases ids <;> rfl

@[simp] theorem owed_readNext (chunks : List (ChunkId × Option Bytes)) (ids : List ChunkId) :
    (readNext chunks ids).owed = 0 := by
  cases ids <;> rfl

@[simp] theorem not_uncounted_readNext (chunks : List (ChunkId × Option Bytes)) (ids : List ChunkId) :
    ¬ (readNext chunks ids).Uncounted := by
  cases ids <;> exact id

theorem owed_of_not_uncounted {h : Handler} (hc : ¬ h.Uncounted) : h.owed = 0 := by
  unfold owed
  split
  · exact absurd trivial hc
  · exact absurd trivial hc
  · rfl

variable {d : DataDir} {hs : List Handler} {h : Handler} {a : HandlerAction} {e : Effect}

/-- A handler changes no file but its temp file and, when it renames or removes, its chunk. -/
theorem Moves.content_eq (hm : Moves d h a e) (ha : ∀ c, Alone c d hs) (hh : h ∈ hs) {f : Str}
    (htemp : ∀ c, f ≠ temp c)
    (hpath : a = .rename ∨ a = .remove → ∀ c, h.changing = some c → f ≠ path c) :
    e.disk.content f = d.content f := by
  cases hm with
  | creat c data rest old => exact Volume.content_creat_ne (htemp c)
  | @write c data rest old i n m _ =>
    obtain ⟨hi, _⟩ := (ha c).writes _ hh data i n (.intro _ _)
    exact Volume.content_writeAt_ne hi (htemp c)
  | @rename c data rest old i n j hn hj =>
    exact Volume.content_move_ne (h := hj) (htemp c) (hpath (.inl rfl) c rfl)
  | @remove c => exact Volume.content_unlink_ne (hpath (.inr rfl) c rfl)
  | _ => rfl

/-- A handler about to change a chunk has just taken its size, or goes on with what it took. -/
theorem Moves.sized_eq (hm : Moves d h a e) {c : ChunkId} {old : ℤ}
    (hs : e.handler.sized = some (c, old)) :
    (a = .probe ∧ h.sizing = some c ∧ d.oldSize c = old ∧ e.disk = d) ∨
      (h.sized = some (c, old) ∧ a ≠ .rename ∧ a ≠ .remove) := by
  cases hm with
  | probe =>
    cases hs
    exact .inl ⟨rfl, rfl, rfl, rfl⟩
  | probeDelete hc =>
    cases hs
    exact .inl ⟨rfl, rfl, oldSize_of_content hc, rfl⟩
  | creat | write => exact .inr ⟨hs, nofun, nofun⟩
  | count | readEnd | missing => simp at hs
  | _ => cases hs

theorem Moves.not_uncounted (hm : Moves d h a e) (hrename : a ≠ .rename) (hremove : a ≠ .remove) :
    ¬ e.handler.Uncounted := by
  cases hm with
  | rename => exact absurd rfl hrename
  | remove => exact absurd rfl hremove
  | count | readEnd | missing => simp
  | _ => exact id

theorem Moves.counts_zero (hm : Moves d h a e) (hcount : a ≠ .count) : e.count = 0 ∧ e.bytes = 0 := by
  cases hm with
  | count | countDelete => exact absurd rfl hcount
  | _ => exact ⟨rfl, rfl⟩

/-- While the file still has the size it took, a handler owes the counters what it changes. -/
theorem Moves.total_eq (hm : Moves d h a e) (ha : ∀ c, Alone c d hs) (hh : h ∈ hs)
    (hsized : ∀ c old, h.sized = some (c, old) → d.oldSize c = old) :
    e.disk.total tally + h.owed = d.total tally + e.handler.owed + (e.count, e.bytes) := by
  cases hm with
  | creat c data rest old =>
    rw [total_of_temp fun g hg => Volume.content_creat_ne hg]
    exact (add_zero _).symm
  | @write c data rest old i n m _ =>
    obtain ⟨hi, _⟩ := (ha c).writes _ hh data i n (.intro _ _)
    rw [total_of_temp fun g hg => Volume.content_writeAt_ne hi hg]
    exact (add_zero _).symm
  | @rename c data rest old i n j hn hj =>
    obtain ⟨hi, _, hcontents⟩ := (ha c).writes _ hh data i n (.intro _ _)
    obtain rfl : i = j := Option.some.inj (hi.symm.trans hj)
    have hnew : oldSize (d.move (temp c) (path c) i hj) c = data.length :=
      oldSize_of_content (by rw [Volume.content_move_dst, hcontents, hn, List.take_length])
    have hold := hsized c old rfl
    rw [total_of_path (c := c) fun g ht hp => Volume.content_move_ne (h := hj) ht hp, hnew, hold,
      tallied_store (hold ▸ neg_one_le_oldSize) data.length, ← add_assoc, sub_add_cancel]
    rfl
  | @remove c old hc =>
    have hnew : oldSize (d.unlink (path c)) c = -1 := by
      rw [oldSize, Volume.content_unlink_self]
    have hold := hsized c old rfl
    have hgone : tallied (-1) = 0 := rfl
    have hremoved : -tallied old = (-1, -old) := by
      rw [← hold, tallied_of_mem hc]
      rfl
    rw [total_of_path (c := c) fun g _ hp => Volume.content_unlink_ne hp, hnew, hold, hgone,
      sub_eq_add_neg, hremoved, add_zero]
    rfl
  | count => rw [owed_storeNext, add_zero]; rfl
  | countDelete c old => rw [show Handler.owed (.done .deleted) = 0 from rfl, add_zero]; rfl
  | @storeError c data rest phase hphase =>
    cases phase with
    | renamed old => exact absurd rfl (hphase old)
    | _ => exact (add_zero _).symm
  | @deleteError c phase hphase =>
    cases phase with
    | removed old => exact absurd rfl (hphase old)
    | _ => exact (add_zero _).symm
  | gone hphase => rcases hphase with rfl | ⟨_, rfl⟩ <;> exact (add_zero _).symm
  | readEnd | missing =>
    rw [owed_readNext]
    exact (add_zero _).symm
  | _ => exact (add_zero _).symm

end Handler

/-- A request that has just come in changes nothing yet. -/
theorem Request.handler_idle (r : Request) :
    r.handler.sized = none ∧ r.handler.owed = 0 ∧ ¬ r.handler.Uncounted := by
  rcases r.handler_cases with ⟨items, hr⟩ | ⟨ids, hr⟩ | ⟨c, hr⟩ | hr
  · simp [hr]
  · simp [hr]
  · exact hr ▸ ⟨rfl, rfl, id⟩
  · exact hr ▸ ⟨rfl, rfl, id⟩

namespace StorageServicer

/-- The scrub has listed the files, and not yet set both counters. -/
def Scanning (s : StorageServicer) : Prop :=
  match s.scrub with
  | .sizing _ _ _ | .counted _ => True
  | _ => False

/-- No size is taken, by a write or a delete, while another handler is between taking the size of
the same chunk and its rename or remove; the scrub removes no chunk then, lists the files when
every rename and remove is counted, and sets the counters before the next one; and no error ends it
once it has come to remove a file. -/
def TakesTurns (s : StorageServicer) : ServicerAction → Prop
  | .handle k a =>
    (∀ h c, s.handlers[k]? = some h → a = .probe → h.sizing = some c →
      ∀ g ∈ s.handlers, g.changing ≠ some c) ∧
    (s.Scanning → a ≠ .rename ∧ a ≠ .remove ∧ a ≠ .count)
  | .scrubRemove c => ∀ g ∈ s.handlers, g.changing ≠ some c
  | .scrubSync => ∀ g ∈ s.handlers, ¬ g.Uncounted
  | .scrubError => ∃ orphans, s.scrub = .removing orphans orphans
  | _ => True

/-- No handler and no scrub is in progress. -/
def Quiescent (s : StorageServicer) : Prop := (∀ h ∈ s.handlers, ∃ r, h = .done r) ∧ s.scrub = .idle

/-- The counters are those of the directory. -/
def Exact (s : StorageServicer) : Prop :=
  s.chunkCount = s.disk.chunkFiles.length ∧ s.totalBytes = s.disk.chunkBytes

/-- The counters do not drift, whatever a run does whose steps meet `ok`. -/
def NoDrift (ok : StorageServicer → ServicerAction → Prop) (d : DataDir) : Prop :=
  ∀ s, Steps step ok (start d) s → s.Quiescent → s.Exact

/-! ### The invariant -/

/-- At most one handler is about to change a chunk, which has the size it took. -/
structure Steady (s : StorageServicer) : Prop where
  owned : ∃ own, Owned own s.disk s.handlers
  alone : ∀ c, Alone c s.disk s.handlers
  one : ∀ c, Lists.AtMostOne (fun h : Handler => h.changing = some c) s.handlers
  sized : ∀ h ∈ s.handlers, ∀ c old, h.sized = some (c, old) → s.disk.oldSize c = old

/-- The counters are those of the directory but for what the handlers have yet to add. -/
def Balanced (s : StorageServicer) : Prop :=
  (s.chunkCount, s.totalBytes) + (s.handlers.map Handler.owed).sum = s.disk.total tally

/-- What the counters hold, by where the scrub is. -/
def Tallies (s : StorageServicer) : Prop :=
  match s.scrub with
  | .idle => s.Balanced
  | .removing orphans todo => todo.length ≤ orphans.length ∧ (todo = orphans → s.Balanced)
  | .sizing count todo total => (∀ h ∈ s.handlers, ¬ h.Uncounted) ∧
    s.disk.total tally = (↑count, ↑(total + (todo.map fun c => s.disk.size (path c)).sum))
  | .counted total => (∀ h ∈ s.handlers, ¬ h.Uncounted) ∧ s.disk.total tally = (s.chunkCount, ↑total)

variable {s s' : StorageServicer} {a : ServicerAction} {k : ℕ} {h : Handler} {b : HandlerAction}
  {e : Handler.Effect} {d : DataDir}

/-- A handler moves on. -/
theorem Steady.of_moves (h₀ : s.Steady) (hk : s.handlers[k]? = some h)
    (hm : Handler.Moves s.disk h b e)
    (hturn : ∀ c, b = .probe → h.sizing = some c → ∀ g ∈ s.handlers, g.changing ≠ some c)
    (count bytes : ℤ) : Steady ⟨e.disk, count, bytes, s.handlers.set k e.handler, s.scrub⟩ := by
  have hh := List.mem_of_getElem? hk
  obtain ⟨own, ho⟩ := h₀.owned
  have hapart : ∀ c, b = .creat → h.storingTo = some c → ∀ g ∈ s.handlers, g.writingTo ≠ some c := by
    intro c hb hc g hg hgc
    have hhc : h.changing = some c ∧ h.writingTo = none := by
      cases hm with
      | creat =>
        cases hc
        exact ⟨rfl, rfl⟩
      | gone | missing => cases hc
      | _ => cases hb
    obtain ⟨j, hj⟩ := List.getElem?_of_mem hg
    obtain rfl := h₀.one c j k g h hj hk (Handler.changing_of_writingTo hgc) hhc.1
    rw [hj, Option.some.injEq] at hk
    rw [hk, hhc.2] at hgc
    cases hgc
  obtain ⟨own', _, ho'⟩ := ho.of_moves hk hm
  refine ⟨⟨own', ho'⟩, fun c => (h₀.alone c).of_moves ho hk hm (hapart c), fun c => ?_,
    fun g hg c old hgs => ?_⟩
  · by_cases hc : e.handler.changing = some c
    · obtain ⟨old, hold⟩ := Handler.changing_eq_some.mp hc
      rcases hm.sized_eq hold with ⟨hb, hsizing, _⟩ | ⟨hsame, _⟩
      · exact Lists.AtMostOne.set_of_forall (hturn c hb hsizing)
      · exact (h₀.one c).set hk fun _ => Handler.changing_eq_some.mpr ⟨old, hsame⟩
    · exact (h₀.one c).set_of_not hc
  · rcases Lists.getElem?_of_mem_set hg with rfl | ⟨j, hkj, hj⟩
    · rcases hm.sized_eq hgs with ⟨_, _, hold, hdisk⟩ | ⟨hsame, hrename, hremove⟩
      · show oldSize e.disk c = old
        rw [hdisk, hold]
      · rw [← h₀.sized h hh c old hsame]
        exact oldSize_congr (hm.content_eq h₀.alone hh (path_ne_temp c) fun hb =>
          (hb.elim hrename hremove).elim)
    · -- the handler that moves is not about to change this chunk
      rw [← h₀.sized g (List.mem_of_getElem? hj) c old hgs]
      refine oldSize_congr (hm.content_eq h₀.alone hh (path_ne_temp c) fun _ c' hc' hp => ?_)
      obtain rfl := path_injective hp
      exact hkj (h₀.one c k j h g hk hj hc' (Handler.changing_eq_some.mpr ⟨old, hgs⟩))

theorem Steady.receive (h₀ : s.Steady) (r : ChunkRequest) :
    Steady { s with handlers := s.handlers ++ [r.request.handler] } := by
  obtain ⟨hsized, _⟩ := r.request.handler_idle
  obtain ⟨own, ho⟩ := h₀.owned
  exact ⟨⟨own, ho.receive r.request⟩, fun c => (h₀.alone c).receive r.request,
    fun c => (h₀.one c).concat (by simp [Handler.changing, hsized]),
    Lists.forall_mem_concat h₀.sized (by simp [hsized])⟩

/-- The scrub removes a file that no handler is about to change. -/
theorem Steady.unlink (h₀ : s.Steady) {c : ChunkId} (hturn : ∀ g ∈ s.handlers, g.changing ≠ some c)
    (count bytes : ℤ) (sync : SyncPhase) :
    Steady ⟨s.disk.unlink (path c), count, bytes, s.handlers, sync⟩ := by
  obtain ⟨own, ho⟩ := h₀.owned
  refine ⟨⟨own, ho.unlink c⟩, fun c' => (h₀.alone c').unlink c, h₀.one, fun g hg c' old hgs => ?_⟩
  have hne : path c' ≠ path c := fun he =>
    hturn g hg (Handler.changing_eq_some.mpr ⟨old, path_injective he ▸ hgs⟩)
  rw [← h₀.sized g hg c' old hgs]
  exact oldSize_congr (Volume.content_unlink_ne hne)

theorem Steady.step (h₀ : s.Steady) (hturn : s.TakesTurns a) (hs : s.step a = some s') : s'.Steady := by
  rcases cases_of_step hs with ⟨r, rfl, rfl⟩ | ⟨k, b, h, e, rfl, hk, hm, rfl⟩ | hscrub
  · exact h₀.receive r
  · exact h₀.of_moves hk hm (fun c => hturn.1 h c hk) _ _
  · cases hscrub with
    | remove c _ _ hd =>
      rcases hd with rfl | rfl
      · exact ⟨h₀.owned, h₀.alone, h₀.one, h₀.sized⟩
      · exact h₀.unlink hturn _ _ _
    | _ => exact ⟨h₀.owned, h₀.alone, h₀.one, h₀.sized⟩

theorem sum_owed {hs : List Handler} (h : ∀ h ∈ hs, ¬ h.Uncounted) : (hs.map Handler.owed).sum = 0 := by
  refine List.sum_eq_zero fun x hx => ?_
  obtain ⟨g, hg, rfl⟩ := List.mem_map.mp hx
  exact Handler.owed_of_not_uncounted (h g hg)

/-- While the scrub reads the files, a handler changes none of them. -/
theorem Steady.frozen (h₀ : s.Steady) (hcounted : ∀ g ∈ s.handlers, ¬ g.Uncounted)
    (hk : s.handlers[k]? = some h) (hm : Handler.Moves s.disk h b e)
    (hb : b ≠ .rename ∧ b ≠ .remove ∧ b ≠ .count) :
    (∀ g ∈ s.handlers.set k e.handler, ¬ g.Uncounted) ∧ e.count = 0 ∧
      e.disk.total tally = s.disk.total tally ∧ ∀ c, e.disk.size (path c) = s.disk.size (path c) := by
  have hh := List.mem_of_getElem? hk
  obtain ⟨hrename, hremove, hcount⟩ := hb
  obtain ⟨hzero, hbytes⟩ := hm.counts_zero hcount
  have hnot := hm.not_uncounted hrename hremove
  have htotal := hm.total_eq h₀.alone hh (h₀.sized h hh)
  rw [Handler.owed_of_not_uncounted hnot, Handler.owed_of_not_uncounted (hcounted h hh), hzero, hbytes,
    add_zero, add_zero] at htotal
  refine ⟨Lists.forall_mem_set hcounted hnot, hzero, htotal.trans (add_zero _), fun c => ?_⟩
  exact size_congr (hm.content_eq h₀.alone hh (path_ne_temp c) fun hb' =>
    (hb'.elim hrename hremove).elim)

theorem Balanced.of_moves (hbal : s.Balanced) (h₀ : s.Steady) (hk : s.handlers[k]? = some h)
    (hm : Handler.Moves s.disk h b e) : Balanced ⟨e.disk, s.chunkCount + e.count,
      s.totalBytes + e.bytes, s.handlers.set k e.handler, s.scrub⟩ := by
  have hh := List.mem_of_getElem? hk
  have htotal := hm.total_eq h₀.alone hh (h₀.sized h hh)
  calc (s.chunkCount + e.count, s.totalBytes + e.bytes) +
        ((s.handlers.set k e.handler).map Handler.owed).sum
      = (s.chunkCount, s.totalBytes) + (e.count, e.bytes) +
        ((s.handlers.map Handler.owed).sum - h.owed + e.handler.owed) := by
        rw [Lists.sum_map_set Handler.owed hk]
        rfl
    _ = (s.chunkCount, s.totalBytes) + (s.handlers.map Handler.owed).sum + e.handler.owed +
        (e.count, e.bytes) - h.owed := by abel
    _ = e.disk.total tally := by
      rw [show (s.chunkCount, s.totalBytes) + (s.handlers.map Handler.owed).sum = s.disk.total tally
        from hbal, ← htotal, add_sub_cancel_right]

theorem Balanced.receive (hbal : s.Balanced) (r : ChunkRequest) :
    Balanced { s with handlers := s.handlers ++ [r.request.handler] } := by
  obtain ⟨_, howed, _⟩ := r.request.handler_idle
  simp only [Balanced, List.map_append, List.sum_append, List.map_cons, List.map_nil,
    List.sum_singleton, howed, add_zero] at hbal ⊢
  exact hbal

theorem Tallies.of_moves (ht : s.Tallies) (h₀ : s.Steady) (hk : s.handlers[k]? = some h)
    (hm : Handler.Moves s.disk h b e) (hturn : s.Scanning → b ≠ .rename ∧ b ≠ .remove ∧ b ≠ .count) :
    Tallies ⟨e.disk, s.chunkCount + e.count, s.totalBytes + e.bytes, s.handlers.set k e.handler,
      s.scrub⟩ := by
  cases hsync : s.scrub with
  | idle =>
    simp only [Tallies, hsync] at ht ⊢
    exact hsync ▸ ht.of_moves h₀ hk hm
  | removing orphans todo =>
    simp only [Tallies, hsync] at ht ⊢
    exact ⟨ht.1, fun he => hsync ▸ (ht.2 he).of_moves h₀ hk hm⟩
  | sizing count todo total =>
    simp only [Tallies, hsync] at ht ⊢
    obtain ⟨hcounted, _, htotal, hsize⟩ := h₀.frozen ht.1 hk hm (hturn (by simp [Scanning, hsync]))
    refine ⟨hcounted, ?_⟩
    simp only [htotal, hsize]
    exact ht.2
  | counted total =>
    simp only [Tallies, hsync] at ht ⊢
    obtain ⟨hcounted, hzero, htotal, _⟩ := h₀.frozen ht.1 hk hm (hturn (by simp [Scanning, hsync]))
    refine ⟨hcounted, ?_⟩
    rw [htotal, hzero, add_zero]
    exact ht.2

theorem Tallies.receive (ht : s.Tallies) (r : ChunkRequest) :
    Tallies { s with handlers := s.handlers ++ [r.request.handler] } := by
  obtain ⟨_, _, hnot⟩ := r.request.handler_idle
  cases hsync : s.scrub with
  | idle =>
    simp only [Tallies, hsync] at ht ⊢
    exact hsync ▸ ht.receive r
  | removing orphans todo =>
    simp only [Tallies, hsync] at ht ⊢
    exact ⟨ht.1, fun he => hsync ▸ (ht.2 he).receive r⟩
  | sizing count todo total =>
    simp only [Tallies, hsync] at ht ⊢
    exact ⟨Lists.forall_mem_concat ht.1 hnot, ht.2⟩
  | counted total =>
    simp only [Tallies, hsync] at ht ⊢
    exact ⟨Lists.forall_mem_concat ht.1 hnot, ht.2⟩

theorem Tallies.scrub (ht : s.Tallies) (hturn : s.TakesTurns a) (hm : ScrubMoves s a s') :
    s'.Tallies := by
  cases hm with
  | list expected hs hsync =>
    rcases hsync with rfl | ⟨orphans, rfl⟩
    · simp only [Tallies, hs] at ht ⊢
      exact ht
    · simp only [Tallies, hs] at ht ⊢
      exact ⟨le_rfl, fun _ => ht⟩
  | @remove orphans todo d c hs hc hd =>
    simp only [Tallies, hs] at ht ⊢
    have hlt : (todo.erase c).length < orphans.length := by
      have hlen := List.length_erase_of_mem hc
      have hpos := List.length_pos_of_mem hc
      omega
    refine ⟨hlt.le, fun he => ?_⟩
    rw [he] at hlt
    exact absurd hlt (lt_irrefl _)
  | error hs hcounted =>
    obtain ⟨orphans, hp⟩ := hturn
    simp only [Tallies, hp] at ht ⊢
    exact ht.2 trivial
  | sync hs =>
    refine ⟨hturn, ?_⟩
    rw [total_tally, sum_size_held, zero_add, heldChunkIds, List.length_map]
  | size hs =>
    simp only [Tallies, hs, List.map_cons, List.sum_cons] at ht ⊢
    rw [add_assoc]
    exact ht
  | count hs =>
    simp only [Tallies, hs, List.map_nil, List.sum_nil, add_zero] at ht ⊢
    exact ht
  | total hs =>
    simp only [Tallies, hs] at ht ⊢
    rw [Balanced, sum_owed ht.1, add_zero]
    exact ht.2.symm

theorem Tallies.step (ht : s.Tallies) (h₀ : s.Steady) (hturn : s.TakesTurns a)
    (hs : s.step a = some s') : s'.Tallies := by
  rcases cases_of_step hs with ⟨r, rfl, rfl⟩ | ⟨k, b, h, e, rfl, hk, hm, rfl⟩ | hscrub
  · exact ht.receive r
  · exact ht.of_moves h₀ hk hm hturn.2
  · exact ht.scrub hturn hscrub

theorem steady_start (d : DataDir) : (start d).Steady where
  owned := Owned.exists_start d [] rfl
  alone c := ⟨by simp [start], by rintro _ _ _ _ ⟨⟩⟩
  one c := by rintro _ _ _ _ ⟨⟩
  sized := by simp [start]

theorem tallies_start (d : DataDir) : (start d).Tallies := by
  show ((↑d.heldChunkIds.length, ↑(d.heldChunkIds.map fun c => d.size (path c)).sum) : ℤ × ℤ) + 0 =
    d.total tally
  rw [add_zero, total_tally, sum_size_held, heldChunkIds, List.length_map]

/-- The counters do not drift while handlers and scrub take turns. -/
theorem noDrift_of_turns (d : DataDir) : NoDrift TakesTurns d := by
  intro s h hq
  have hinv := Steps.invariant (P := fun s => s.Steady ∧ s.Tallies) h ⟨steady_start d, tallies_start d⟩
    fun t a u _ ht hok hs => ⟨ht.1.step hok hs, ht.2.step ht.1 hok hs⟩
  obtain ⟨hdone, hidle⟩ := hq
  have hcounted : ∀ g ∈ s.handlers, ¬ g.Uncounted := by
    intro g hg
    obtain ⟨r, rfl⟩ := hdone g hg
    exact id
  have htotal := hinv.2
  simp only [Tallies, hidle, Balanced] at htotal
  rw [sum_owed hcounted, add_zero, total_tally, Prod.mk.injEq] at htotal
  exact htotal

/-- Two writes of a new chunk, one after the other but for the size, which both take first: both
count the file. -/
def miscount : List ServicerAction :=
  [.receive writeOfC, .receive writeOfC, .handle 0 .probe, .handle 1 .probe, .handle 0 .creat,
    .handle 0 (.write 1), .handle 0 .rename, .handle 0 .count,
    .handle 1 .creat, .handle 1 (.write 1), .handle 1 .rename, .handle 1 .count]

theorem not_noDrift : ¬ NoDrift anyStep Volume.empty := by
  intro h
  have hrun : (run (guarded step anyStep) (start Volume.empty) miscount).any (fun s =>
      s.handlers = [.done .stored, .done .stored] ∧ s.scrub = .idle ∧
        s.chunkCount ≠ s.disk.chunkFiles.length) = true := by
    decide +kernel
  obtain ⟨s, hs, hp⟩ := exists_of_run hrun
  obtain ⟨hdone, hidle, hcount⟩ := of_decide_eq_true hp
  have hquiescent : s.Quiescent := ⟨by simp [hdone], hidle⟩
  exact hcount (h s hs hquiescent).1

end StorageServicer

end GfsCluster
