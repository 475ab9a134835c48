import Mathlib.Logic.Function.Basic
import GfsCluster.Lib.StepSystem
import GfsCluster.Storage.Server

/-! The storage server refines a map from chunk ids to bytes. A request is one operation on
the map, answered by what the map holds; a write that fails leaves the map alone, although
a temp file may stay behind. The two write paths keep the same counters, and after any
run these are the number and the total size of the chunk files. -/

namespace GfsCluster

open StepSystem

/-! ### File names -/

theorem path_injective : Function.Injective path := fun _ _ h => List.append_cancel_right h

theorem chunkSuffix_path (c : ChunkId) : chunkSuffix <:+ path c := List.suffix_append _ _

/-- A temp file is not a chunk file. -/
theorem not_chunkSuffix_tmp (file : Str) : ¬chunkSuffix <:+ file ++ tmpSuffix := by
  rintro ⟨front, h⟩
  have hlast := congrArg List.getLast? h
  simp [chunkSuffix, tmpSuffix] at hlast

theorem path_ne_tmp (c : ChunkId) (file : Str) : path c ≠ file ++ tmpSuffix := by
  intro h
  exact not_chunkSuffix_tmp file (h ▸ chunkSuffix_path c)

theorem path_take {f : Str} (h : chunkSuffix <:+ f) : path (f.take (f.length - 6)) = f := by
  obtain ⟨front, rfl⟩ := h
  simp [path, chunkSuffix]

/-! ### The directory as a map -/

abbrev ChunkMap := ChunkId → Option Bytes

namespace Directory

variable (d : Directory)

/-- What the directory holds under a chunk id. -/
def held : ChunkMap := fun c => d.lookup (path c)

/-- The directory's `.chunk` files. -/
def chunkFiles : List (Sigma fun _ : Str => Bytes) := d.entries.filter (chunkSuffix <:+ ·.1)

/-- One for a chunk file. -/
def fileWeight (f : Str) (_ : Bytes) : ℕ := if chunkSuffix <:+ f then 1 else 0

/-- The size of a chunk file. -/
def byteWeight (f : Str) (data : Bytes) : ℕ := if chunkSuffix <:+ f then data.length else 0

theorem total_fileWeight : Tally.total fileWeight d = d.chunkFiles.length := by
  have h : ∀ es : List (Sigma fun _ : Str => Bytes),
      Tally.sum fileWeight es = (es.filter (chunkSuffix <:+ ·.1)).length := by
    intro es
    induction es with
    | nil => rfl
    | cons e es ih =>
      rw [Tally.sum, ih, List.filter_cons, fileWeight]
      by_cases he : chunkSuffix <:+ e.1
      · simp [he, Nat.add_comm]
      · simp [he]
  exact h d.entries

/-- Bytes in files. -/
def sizeSum (es : List (Sigma fun _ : Str => Bytes)) : ℕ := es.foldr (fun e n => e.2.length + n) 0

theorem total_byteWeight : Tally.total byteWeight d = sizeSum d.chunkFiles := by
  have h : ∀ es : List (Sigma fun _ : Str => Bytes),
      Tally.sum byteWeight es = sizeSum (es.filter (chunkSuffix <:+ ·.1)) := by
    intro es
    induction es with
    | nil => rfl
    | cons e es ih =>
      rw [Tally.sum, ih, List.filter_cons, byteWeight]
      by_cases he : chunkSuffix <:+ e.1
      · simp [he, sizeSum]
      · simp [he]
  exact h d.entries

variable {d} {c : ChunkId} {data : Bytes} {w : Str → Bytes → ℕ}

theorem oldSize_of_none {file : Str} (h : d.lookup file = none) : d.oldSize file = -1 := by
  rw [oldSize, h]

theorem oldSize_of_some {file : Str} (h : d.lookup file = some data) :
    d.oldSize file = data.length := by
  rw [oldSize, h]

/-- Writing a temp file changes no chunk and no total of chunk files. -/
theorem held_insert_tmp (file : Str) : held (d.insert (file ++ tmpSuffix) data) = d.held :=
  funext fun c => AList.lookup_insert_ne (path_ne_tmp c file)

theorem total_insert_tmp {file : Str} (hw : ∀ b, w (file ++ tmpSuffix) b = 0) :
    Tally.total w (d.insert (file ++ tmpSuffix) data) = Tally.total w d := by
  rw [Tally.total_insert, hw, Nat.zero_add, Tally.total_erase_of_zero w hw]

/-- The write through a temp file that goes through. -/
theorem writeChunk_done (d : Directory) (file : Str) (data : Bytes) :
    d.writeChunk file data .done =
      (none, ((d.insert (file ++ tmpSuffix) data).erase (file ++ tmpSuffix)).insert file data) := by
  rw [writeChunk, replace, AList.lookup_insert]

theorem held_writeChunk_done :
    held (d.writeChunk (path c) data .done).2 = Function.update d.held c (some data) := by
  funext c'
  rw [writeChunk_done, held]
  by_cases hc : c' = c
  · subst hc
    rw [Function.update_self, AList.lookup_insert]
  · rw [Function.update_of_ne hc, AList.lookup_insert_ne fun h => hc (path_injective h),
      AList.lookup_erase_ne (path_ne_tmp c' (path c)), AList.lookup_insert_ne (path_ne_tmp c' (path c)),
      held]

/-- The weight of the old file, where there was one, gives way to that of the new one. -/
theorem total_writeChunk_done (hw : ∀ b, w (path c ++ tmpSuffix) b = 0) :
    Tally.total w (d.writeChunk (path c) data .done).2 + ((d.held c).map (w (path c))).getD 0 =
      Tally.total w d + w (path c) data := by
  set d₁ := (d.insert (path c ++ tmpSuffix) data).erase (path c ++ tmpSuffix)
  have htotal : Tally.total w d₁ = Tally.total w d := by
    rw [Tally.total_erase_of_zero w hw, total_insert_tmp hw]
  have hheld : d₁.lookup (path c) = d.held c := by
    rw [AList.lookup_erase_ne (path_ne_tmp c (path c)), AList.lookup_insert_ne (path_ne_tmp c (path c)),
      held]
  have hdir : (d.writeChunk (path c) data .done).2 = d₁.insert (path c) data := by
    rw [writeChunk_done]
  rw [hdir, Tally.total_insert, ← htotal, ← hheld]
  cases hl : d₁.lookup (path c) with
  | none =>
    rw [Tally.total_erase_of_none w hl]
    simp [Nat.add_comm]
  | some old =>
    rw [← Tally.total_erase w hl]
    simp only [Option.map_some, Option.getD_some]
    omega

/-- The write that raises. -/
theorem writeChunk_fails {o : WriteOutcome} {exc : String}
    (h : (d.writeChunk (path c) data o).1 = some exc) :
    held (d.writeChunk (path c) data o).2 = d.held ∧
      ∀ w : Str → Bytes → ℕ, (∀ b, w (path c ++ tmpSuffix) b = 0) →
        Tally.total w (d.writeChunk (path c) data o).2 = Tally.total w d := by
  cases o with
  | done =>
    rw [writeChunk_done] at h
    cases h
  | openFails _ => exact ⟨rfl, fun _ _ => rfl⟩
  | writeFails _ _ => exact ⟨held_insert_tmp _, fun _ hw => total_insert_tmp hw⟩
  | renameFails _ => exact ⟨held_insert_tmp _, fun _ hw => total_insert_tmp hw⟩

end Directory

/-! ### One item -/

/-- The text of the exception, if one is raised. -/
def WriteOutcome.exc : WriteOutcome → Option String
  | .done => none
  | .openFails exc | .writeFails _ exc | .renameFails exc => some exc

theorem Directory.writeChunk_exc (d : Directory) (file : Str) (data : Bytes) (o : WriteOutcome) :
    (d.writeChunk file data o).1 = o.exc := by
  cases o <;> rfl

namespace WriteItem

def goesThrough (it : WriteItem) : Bool := it.outcome.exc.isNone

/-- What an item write does to the map. -/
def apply (M : ChunkMap) (it : WriteItem) : ChunkMap :=
  if it.goesThrough then Function.update M it.chunkId (some it.data) else M

end WriteItem

namespace StorageServer

open Directory

/-- The counters are the number and the total size of the chunk files. -/
structure Counted (s : StorageServer) : Prop where
  chunkCount : s.chunkCount = (chunkFiles s.dir).length
  totalBytes : s.totalBytes = sizeSum (chunkFiles s.dir)

variable {s : StorageServer} {it : WriteItem} {c : ChunkId} {exc : String}

theorem counted_iff : s.Counted ↔ s.chunkCount = Tally.total fileWeight s.dir ∧
    s.totalBytes = Tally.total byteWeight s.dir := by
  rw [total_fileWeight, total_byteWeight]
  exact ⟨fun h => ⟨h.1, h.2⟩, fun h => ⟨h.1, h.2⟩⟩

/-- The counters that a server starts with. -/
theorem counted_start (d : Directory) : (start d).Counted := by
  have hscan (count : ℤ → ChunkId → ℤ)
      (hcount : ∀ total c data, d.lookup (path c) = some data → count total c = total + data.length) :
      ∀ es : List (Sigma fun _ : Str => Bytes), (∀ e ∈ es, e ∈ d.entries) → ∀ n : ℤ,
        ((es.keys.filter (chunkSuffix <:+ ·)).map fun f => f.take (f.length - 6)).foldl count n =
          n + sizeSum (es.filter (chunkSuffix <:+ ·.1)) := by
    intro es
    induction es with
    | nil => simp [sizeSum]
    | cons e es ih =>
      intro hes n
      have hrest := ih fun e' he' => hes e' (List.mem_cons_of_mem _ he')
      rw [List.keys_cons, List.filter_cons, List.filter_cons]
      by_cases he : chunkSuffix <:+ e.1
      · have hl : d.lookup (path (e.1.take (e.1.length - 6))) = some e.2 := by
          rw [path_take he]
          exact AList.mem_lookup_iff.mpr (hes e (by simp))
        simp only [he, decide_true, if_true, List.map_cons, List.foldl_cons, hcount _ _ _ hl, hrest]
        simp only [sizeSum, List.foldr_cons, Nat.cast_add]
        exact add_assoc _ _ _
      · simp only [he, decide_false, Bool.false_eq_true, if_false]
        exact hrest n
  constructor
  · simp [start, heldChunkIds, chunkFiles, AList.keys, List.keys, List.filter_map, Function.comp_def]
  · refine (hscan _ (fun total c data hl => ?_) d.entries (fun _ he => he) 0).trans (zero_add _)
    simp only [hl]

/-! The equations of an item write. -/

theorem storeChunk_of_exc (h : it.outcome.exc = some exc) : s.storeChunk it = (⟨false, exc⟩,
    { s with dir := (s.dir.writeChunk (path it.chunkId) it.data it.outcome).2 }) := by
  have hexc := (writeChunk_exc s.dir (path it.chunkId) it.data it.outcome).trans h
  rw [storeChunk]
  cases hw : s.dir.writeChunk (path it.chunkId) it.data it.outcome with
  | mk r d =>
    rw [hw] at hexc
    obtain rfl : r = some exc := hexc
    rfl

/-- Both write paths count in this way: `StoreChunk` case by case, `StoreChunks` with a maximum. -/
theorem storeChunk_of_done (h : it.outcome.exc = none) : s.storeChunk it = (⟨true, "stored"⟩,
    ⟨(s.dir.writeChunk (path it.chunkId) it.data it.outcome).2,
      if s.dir.oldSize (path it.chunkId) = -1 then s.chunkCount + 1 else s.chunkCount,
      s.totalBytes + (it.data.length - max (s.dir.oldSize (path it.chunkId)) 0)⟩) := by
  have hexc := (writeChunk_exc s.dir (path it.chunkId) it.data it.outcome).trans h
  rw [storeChunk]
  cases hw : s.dir.writeChunk (path it.chunkId) it.data it.outcome with
  | mk r d =>
    rw [hw] at hexc
    obtain rfl : r = none := hexc
    cases hl : s.dir.lookup (path it.chunkId) with
    | none => simp [oldSize_of_none hl]
    | some old =>
      have hne : (old.length : ℤ) ≠ -1 := by omega
      simp [oldSize_of_some hl, hne]

/-- One item write: what it does to the map, and that the counters follow. -/
theorem storeChunk_spec (s : StorageServer) (it : WriteItem) :
    held (s.storeChunk it).2.dir = it.apply (held s.dir) ∧
      (s.Counted → (s.storeChunk it).2.Counted) := by
  have hfile : ∀ b, fileWeight (path it.chunkId ++ tmpSuffix) b = 0 := fun b =>
    if_neg (not_chunkSuffix_tmp _)
  have hbyte : ∀ b, byteWeight (path it.chunkId ++ tmpSuffix) b = 0 := fun b =>
    if_neg (not_chunkSuffix_tmp _)
  simp only [counted_iff]
  cases hexc : it.outcome.exc with
  | some exc =>
    obtain ⟨hheld, htotal⟩ := writeChunk_fails
      ((writeChunk_exc s.dir (path it.chunkId) it.data it.outcome).trans hexc)
    rw [storeChunk_of_exc hexc, WriteItem.apply, WriteItem.goesThrough, hexc]
    refine ⟨hheld, fun hs => ?_⟩
    simp only [htotal _ hfile, htotal _ hbyte]
    exact hs
  | none =>
    have hdone : it.outcome = .done := by
      cases ho : it.outcome with
      | done => rfl
      | _ => rw [ho] at hexc; cases hexc
    rw [storeChunk_of_done hexc, WriteItem.apply, WriteItem.goesThrough, hexc, hdone]
    refine ⟨held_writeChunk_done, fun ⟨hcount, hbytes⟩ => ?_⟩
    have hf := @total_writeChunk_done s.dir it.chunkId it.data _ hfile
    have hb := @total_writeChunk_done s.dir it.chunkId it.data _ hbyte
    have hone : ∀ b, fileWeight (path it.chunkId) b = 1 := fun b => if_pos (chunkSuffix_path _)
    have hlen : ∀ b, byteWeight (path it.chunkId) b = b.length := fun b => if_pos (chunkSuffix_path _)
    simp only [held, hone, hlen] at hf hb
    cases hl : s.dir.lookup (path it.chunkId) with
    | none =>
      simp only [hl, Option.map_none, Option.getD_none] at hf hb
      simp only [oldSize_of_none hl, if_true]
      omega
    | some old =>
      simp only [hl, Option.map_some, Option.getD_some, hone, hlen] at hf hb
      have hne : (old.length : ℤ) ≠ -1 := by omega
      simp only [oldSize_of_some hl, if_neg hne]
      omega

/-! ### A batch -/

/-- `StoreChunk` on one item after the other, up to the first that fails: how many were
applied, and the server after that. -/
def storeInTurn : StorageServer → List WriteItem → ℕ × StorageServer
  | s, [] => (0, s)
  | s, it :: items =>
    if (s.storeChunk it).1.ok then
      ((storeInTurn (s.storeChunk it).2 items).1 + 1, (storeInTurn (s.storeChunk it).2 items).2)
    else (0, (s.storeChunk it).2)

/-- What `StoreChunks` answers when `applied` of the items went through, after `stored` others. -/
def batchResponse (items : List WriteItem) (stored applied : ℕ) : StoreChunksResponse :=
  match (items[applied]?).bind fun it => it.outcome.exc.map (it, ·) with
  | none => ⟨true, "stored " ++ toString (stored + applied), stored + applied⟩
  | some (it, exc) => ⟨false, "chunk " ++ String.ofList (it.chunkId.take 8) ++ "…: " ++ exc,
      stored + applied⟩

theorem batchResponse_stored (items : List WriteItem) (stored applied : ℕ) :
    (batchResponse items stored applied).stored = stored + applied := by
  rw [batchResponse]
  split <;> rfl

/-- One turn of the loop is one `StoreChunk`. -/
theorem storeLoop_of_exc (stored : ℕ) (items : List WriteItem) (h : it.outcome.exc = some exc) :
    storeLoop stored s (it :: items) =
      (⟨false, "chunk " ++ String.ofList (it.chunkId.take 8) ++ "…: " ++ exc, stored⟩,
        (s.storeChunk it).2) := by
  have hexc := (writeChunk_exc s.dir (path it.chunkId) it.data it.outcome).trans h
  rw [storeChunk_of_exc h, storeLoop]
  cases hw : s.dir.writeChunk (path it.chunkId) it.data it.outcome with
  | mk r d =>
    rw [hw] at hexc
    obtain rfl : r = some exc := hexc
    rfl

theorem storeLoop_of_done (stored : ℕ) (items : List WriteItem) (h : it.outcome.exc = none) :
    storeLoop stored s (it :: items) = storeLoop (stored + 1) (s.storeChunk it).2 items := by
  have hexc := (writeChunk_exc s.dir (path it.chunkId) it.data it.outcome).trans h
  rw [storeChunk_of_done h, storeLoop]
  cases hw : s.dir.writeChunk (path it.chunkId) it.data it.outcome with
  | mk r d =>
    rw [hw] at hexc
    obtain rfl : r = none := hexc
    rfl

theorem storeLoop_eq (items : List WriteItem) (stored : ℕ) (s : StorageServer) :
    storeLoop stored s items = (batchResponse items stored (items.takeWhile (·.goesThrough)).length,
      (storeInTurn s items).2) ∧
    (storeInTurn s items).1 = (items.takeWhile (·.goesThrough)).length := by
  induction items generalizing stored s with
  | nil => simp [storeLoop, batchResponse, storeInTurn]
  | cons it items ih =>
    cases hexc : it.outcome.exc with
    | some exc =>
      rw [storeLoop_of_exc stored items hexc, storeInTurn, storeChunk_of_exc hexc,
        List.takeWhile_cons_of_neg (by simp [WriteItem.goesThrough, hexc])]
      simp [batchResponse, hexc]
    | none =>
      obtain ⟨hloop, hcount⟩ := ih (stored + 1) (s.storeChunk it).2
      have hok : (s.storeChunk it).1.ok = true := by rw [storeChunk_of_done hexc]
      rw [storeLoop_of_done stored items hexc, hloop, storeInTurn, if_pos hok, hcount,
        List.takeWhile_cons_of_pos (by simp [WriteItem.goesThrough, hexc])]
      have hnumber : ∀ n, stored + 1 + n = stored + (n + 1) := fun n => by omega
      simp only [batchResponse, List.length_cons, List.getElem?_cons_succ, hnumber, and_self]

/-- A batch that is answered ok was written whole. -/
theorem held_storeLoop_of_ok {items : List WriteItem} {stored : ℕ} {s : StorageServer}
    (h : (storeLoop stored s items).1.ok = true) :
    held (storeLoop stored s items).2.dir =
      items.foldl (fun (M : ChunkMap) it => Function.update M it.chunkId (some it.data))
        (held s.dir) := by
  induction items generalizing stored s with
  | nil => rfl
  | cons it items ih =>
    cases hexc : it.outcome.exc with
    | some exc =>
      rw [storeLoop_of_exc stored items hexc] at h
      cases h
    | none =>
      rw [storeLoop_of_done stored items hexc] at h ⊢
      rw [ih h, List.foldl_cons, (storeChunk_spec s it).1]
      have hgo : it.goesThrough = true := by simp [WriteItem.goesThrough, hexc]
      rw [WriteItem.apply, if_pos hgo]

theorem storeInTurn_spec (items : List WriteItem) (s : StorageServer) :
    held (storeInTurn s items).2.dir =
        (items.takeWhile (·.goesThrough)).foldl WriteItem.apply (held s.dir) ∧
      (s.Counted → (storeInTurn s items).2.Counted) := by
  induction items generalizing s with
  | nil => exact ⟨rfl, id⟩
  | cons it items ih =>
    obtain ⟨hheld, hcounted⟩ := storeChunk_spec s it
    cases hexc : it.outcome.exc with
    | some exc =>
      have hno : it.goesThrough = false := by simp [WriteItem.goesThrough, hexc]
      have hok : (s.storeChunk it).1.ok = false := by rw [storeChunk_of_exc hexc]
      rw [storeInTurn, hok, List.takeWhile_cons_of_neg (by simp [hno])]
      refine ⟨?_, hcounted⟩
      simpa [WriteItem.apply, hno] using hheld
    | none =>
      have hok : (s.storeChunk it).1.ok = true := by rw [storeChunk_of_done hexc]
      obtain ⟨hheld', hcounted'⟩ := ih (s.storeChunk it).2
      rw [storeInTurn, if_pos hok,
        List.takeWhile_cons_of_pos (by simp [WriteItem.goesThrough, hexc]), List.foldl_cons, ← hheld]
      exact ⟨hheld', fun hs => hcounted' (hcounted hs)⟩

/-! ### Reads and deletes -/

theorem getLoop_eq (s : StorageServer) (ids : List ChunkId)
    (acc : List (ChunkId × Bytes) × List ChunkId) : s.getLoop acc ids =
      (acc.1 ++ ids.filterMap fun c => (held s.dir c).map (c, ·),
        acc.2 ++ ids.filter fun c => held s.dir c = none) := by
  induction ids generalizing acc with
  | nil => simp [getLoop]
  | cons c ids ih =>
    obtain ⟨chunks, missing⟩ := acc
    rw [getLoop]
    cases hl : s.dir.lookup (path c) with
    | none => simp [ih, held, hl]
    | some data => simp [ih, held, hl]

theorem deleteChunk_spec (s : StorageServer) (c : ChunkId) :
    held (s.deleteChunk c).2.dir = Function.update (held s.dir) c none ∧
      (s.Counted → (s.deleteChunk c).2.Counted) := by
  rw [deleteChunk]
  cases hl : s.dir.lookup (path c) with
  | none =>
    refine ⟨?_, id⟩
    rw [eq_comm, Function.update_eq_self_iff, eq_comm]
    exact hl
  | some old =>
    constructor
    · funext c'
      by_cases hc : c' = c
      · subst hc
        simp [held]
      · rw [Function.update_of_ne hc]
        exact AList.lookup_erase_ne fun h => hc (path_injective h)
    · simp only [counted_iff]
      rintro ⟨hcount, hbytes⟩
      have hf := Tally.total_erase fileWeight hl
      have hb := Tally.total_erase byteWeight hl
      simp only [fileWeight, byteWeight, if_pos (chunkSuffix_path c)] at hf hb
      constructor <;> omega

end StorageServer

/-! ### Requests -/

namespace StorageRequest

/-- What a request does to the map. -/
def apply (M : ChunkMap) : StorageRequest → ChunkMap
  | .storeChunk it => it.apply M
  | .storeChunks items => (items.takeWhile (·.goesThrough)).foldl WriteItem.apply M
  | .deleteChunk c => Function.update M c none
  | .replicateChunk c source outcome =>
    match getChunkFrom source with
    | some data => WriteItem.apply M ⟨c, data, outcome⟩
    | none => M
  | .getChunk _ | .getChunks _ => M

/-- What the map answers to a request. -/
def answer (M : ChunkMap) : StorageRequest → StorageResponse
  | .storeChunk it => .storeChunk (match it.outcome.exc with
    | none => ⟨true, "stored"⟩
    | some exc => ⟨false, exc⟩)
  | .storeChunks items => .storeChunks
    (StorageServer.batchResponse items 0 (items.takeWhile (·.goesThrough)).length)
  | .getChunk c => .getChunk (match M c with
    | some data => ⟨true, "ok", data⟩
    | none => ⟨false, "chunk not found", []⟩)
  | .getChunks ids =>
    let chunks := ids.filterMap fun c => (M c).map (c, ·)
    let missing := ids.filter fun c => M c = none
    .getChunks (if missing = [] then ⟨true, "ok", chunks, missing⟩
      else ⟨false, toString missing.length ++ " chunks missing", chunks, missing⟩)
  | .deleteChunk _ => .deleteChunk ⟨true, "deleted"⟩
  | .replicateChunk _ source outcome => .replicateChunk (match getChunkFrom source, outcome.exc with
    | none, _ => ⟨false, "source chunk unavailable"⟩
    | some _, none => ⟨true, "stored"⟩
    | some _, some exc => ⟨false, exc⟩)

end StorageRequest

namespace StorageServer

open Directory

/-- The response to one item write. -/
theorem storeChunk_response (s : StorageServer) (it : WriteItem) :
    (s.storeChunk it).1 = match it.outcome.exc with
      | none => ⟨true, "stored"⟩
      | some exc => ⟨false, exc⟩ := by
  cases hexc : it.outcome.exc with
  | none => rw [storeChunk_of_done hexc]
  | some exc => rw [storeChunk_of_exc hexc]

/-- What one request does: it answers what the map answers, does to the directory what it
does to the map, and the counters follow. -/
theorem handle_spec (s : StorageServer) (r : StorageRequest) :
    (s.handle r).1 = r.answer (held s.dir) ∧ held (s.handle r).2.dir = r.apply (held s.dir) ∧
      (s.Counted → (s.handle r).2.Counted) := by
  cases r with
  | storeChunk it => exact ⟨congrArg _ (storeChunk_response s it), storeChunk_spec s it⟩
  | storeChunks items =>
    rw [handle, storeChunks, (storeLoop_eq items 0 s).1]
    exact ⟨rfl, storeInTurn_spec items s⟩
  | getChunk c => exact ⟨rfl, rfl, id⟩
  | getChunks ids =>
    refine ⟨?_, rfl, id⟩
    simp only [handle, getChunks, getLoop_eq, List.nil_append, StorageRequest.answer]
  | deleteChunk c => exact ⟨rfl, deleteChunk_spec s c⟩
  | replicateChunk c source outcome =>
    cases hsource : getChunkFrom source with
    | none => simp [handle, replicateChunk, StorageRequest.answer, StorageRequest.apply, hsource]
    | some data =>
      have hresp := storeChunk_response s ⟨c, data, outcome⟩
      simp only [handle, replicateChunk, StorageRequest.answer, StorageRequest.apply, hsource]
      refine ⟨?_, storeChunk_spec s ⟨c, data, outcome⟩⟩
      rw [hresp]
      cases outcome.exc <;> rfl

theorem deleteChunk_idempotent (s : StorageServer) (c : ChunkId) :
    (s.deleteChunk c).2.deleteChunk c = s.deleteChunk c := by
  have hgone := congrFun (deleteChunk_spec s c).1 c
  rw [Function.update_self] at hgone
  rw [deleteChunk, show (s.deleteChunk c).2.dir.lookup (path c) = none from hgone]
  rfl

end StorageServer

/-! ### Runs -/

/-- A storage server and the map that its directory is to represent. -/
structure ServerAndMap where
  server : StorageServer
  map : ChunkMap

namespace ServerAndMap

open Directory

def start (d : Directory) : ServerAndMap := ⟨.start d, held d⟩

def step (s : ServerAndMap) (r : StorageRequest) : Option ServerAndMap :=
  some ⟨(s.server.handle r).2, r.apply s.map⟩

/-- The directory represents the map, every request answers what the map does, a batch is
its items in turn, and the counters are those of the directory. -/
structure Agrees (s : ServerAndMap) : Prop where
  represents : held s.server.dir = s.map
  answers : ∀ r, (s.server.handle r).1 = r.answer s.map
  in_turn : ∀ items, (s.server.storeChunks items).1.stored = (s.server.storeInTurn items).1 ∧
    (s.server.storeChunks items).2 = (s.server.storeInTurn items).2
  delete_idempotent : ∀ c, (s.server.deleteChunk c).2.deleteChunk c = s.server.deleteChunk c
  counted : s.server.Counted

variable {d : Directory} {s t : ServerAndMap}

/-- The invariant of a run. -/
def Represented (s : ServerAndMap) : Prop := held s.server.dir = s.map ∧ s.server.Counted

theorem represented_step {r : StorageRequest} (h : s.Represented) (hs : s.step r = some t) :
    t.Represented := by
  cases hs
  obtain ⟨_, hheld, hcounted⟩ := s.server.handle_spec r
  exact ⟨hheld.trans (by rw [h.1]), hcounted h.2⟩

theorem represented_of_requests (h : Steps step anyStep (start d) s) : s.Represented :=
  h.invariant ⟨rfl, StorageServer.counted_start d⟩ fun _ _ _ _ hrep _ hs => represented_step hrep hs

/-- After every sequence of requests, whatever the file system did with each write, the
server answers as the map does, and so does every further request. -/
theorem agrees_of_requests (h : Steps step anyStep (start d) s) : s.Agrees := by
  obtain ⟨hrep, hcounted⟩ := represented_of_requests h
  refine ⟨hrep, fun r => hrep ▸ (s.server.handle_spec r).1, fun items => ?_,
    s.server.deleteChunk_idempotent, hcounted⟩
  obtain ⟨hloop, hcount⟩ := StorageServer.storeLoop_eq items 0 s.server
  rw [StorageServer.storeChunks, hloop, hcount, StorageServer.batchResponse_stored, Nat.zero_add]
  exact ⟨rfl, rfl⟩

def oneChunk : Directory := AList.singleton ['c', '.', 'c', 'h', 'u', 'n', 'k'] [1]

/-- A batch that writes the one chunk twice, and whose last item fails at the rename. -/
theorem agrees_of_requests_batch : ∃ s, Steps step anyStep (start oneChunk) s ∧ s.Agrees ∧
    s.server.chunkCount = 1 ∧ s.server.totalBytes = 3 ∧
    s.server.getChunks [['c'], ['e']] =
      ⟨false, "1 chunks missing", [(['c'], [4, 5, 6])], [['e']]⟩ := by
  have hrun : Steps step anyStep (start oneChunk) _ := Steps.single (a := .storeChunks
    [⟨['c'], [2, 3], .done⟩, ⟨['c'], [4, 5, 6], .done⟩, ⟨['e'], [7], .renameFails "disk full"⟩])
    trivial rfl
  exact ⟨_, hrun, agrees_of_requests hrun, by decide, by decide, by decide⟩

end ServerAndMap

end GfsCluster
