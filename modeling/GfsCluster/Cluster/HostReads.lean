import GfsCluster.Cluster.RoundTrip
import GfsCluster.Cluster.Simulation

/-! Reads from storage servers as they are. A GetChunks handler reads one chunk file after the other,
each by several system calls, while others write, delete and scrub: what it answers for a chunk is what
was on the disk at some point since the request was sent, so a read is one of the cluster whose servers
do everything at once. -/

namespace GfsCluster

open Inodes StepSystem

namespace ChunkCall

variable {b : HandlerAction} {M M' : ChunkMap} {q q' : ChunkCall}

/-- What is yet to be stored. -/
def items : ChunkCall → List (ChunkId × Bytes)
  | .storing items => items
  | _ => []

@[simp] theorem items_store (items : List (ChunkId × Bytes)) : (store items).items = items := by
  cases items <;> rfl

theorem Harmless.items_eq (h : q.Harmless) : q.items = [] := by
  cases q with
  | storing | deleting => exact h.elim
  | _ => rfl

/-- A call that has plain ids left names no chunk file otherwise. -/
theorem Goes.plain (h : q.Goes b M M' q') (hM : ∀ c data, M c = some data → Plain c)
    (hq : ∀ x ∈ q.items, Plain x.1) :
    (∀ c data, M' c = some data → Plain c) ∧ ∀ x ∈ q'.items, Plain x.1 := by
  cases q with
  | storing items =>
    cases items with
    | nil => rcases h with h | ⟨_, _, h⟩ <;> cases h
    | cons x rest =>
      obtain ⟨hx, hrest⟩ := List.forall_mem_cons.mp hq
      rcases h with h | ⟨_, rfl, h⟩
      · cases h
        refine ⟨fun c data hc => ?_, by simpa using hrest⟩
        by_cases hxc : c = x.1
        · rwa [hxc]
        · rw [Function.update_of_ne hxc] at hc
          exact hM c data hc
      · cases h
        exact ⟨hM, by simp [items]⟩
  | deleting c =>
    rcases h with h | ⟨_, rfl, h⟩
    · cases h
      refine ⟨fun c' data hc => ?_, by simp [items]⟩
      by_cases hcc : c' = c
      · rw [hcc, Function.update_self] at hc
        cases hc
      · rw [Function.update_of_ne hcc] at hc
        exact hM c' data hc
    · cases h
      exact ⟨hM, by simp [items]⟩
  | _ =>
    obtain ⟨rfl, hharm⟩ := h.harmless trivial
    exact ⟨hM, by simp [hharm.items_eq]⟩

end ChunkCall

theorem Request.items_call (r : Request) : ∀ x ∈ r.call.items, x.1 ∈ r.ids := by
  cases r with
  | storeChunk c data => simp [call, ids]
  | storeChunks items => exact fun x hx => List.mem_map_of_mem (by simpa [call] using hx)
  | replicateChunk c source =>
    cases source with
    | none => simp [call, ChunkCall.items]
    | some data => simp [call, ids]
  | deleteChunk c => simp [call, ChunkCall.items]
  | getChunk c => simp [call, (ChunkCall.harmless_read _ _).items_eq]
  | getChunks ids => simp [call, (ChunkCall.harmless_read _ _).items_eq]

/-- What a handler that reads does while no error is raised. -/
def HandlerAction.reads : HandlerAction → Bool
  | .openRead | .read _ | .readEnd => true
  | _ => false

namespace StorageServicer

variable {u : StorageServicer} {i : ℕ} {b : HandlerAction}

def setHandler (u : StorageServicer) (i : ℕ) (g : Handler) : StorageServicer :=
  { u with handlers := u.handlers.set i g }

theorem setHandler_self {g : Handler} (hi : u.handlers[i]? = some g) : u.setHandler i g = u := by
  rw [setHandler, ← (List.getElem?_eq_some_iff.mp hi).2, List.set_getElem_self]

/-- Handler `i` reads, and nothing else is done. -/
def ReadsOnly (i : ℕ) (_ : StorageServicer) (a : ServicerAction) : Prop :=
  ∃ b, a = .handle i b ∧ b.reads = true

section

variable (hi : i < u.handlers.length)

include hi

theorem steps_setHandler {g g' : Handler} (hb : b.reads = true)
    (hg : g.step u.disk b = some ⟨g', u.disk, 0, 0⟩) :
    Steps step (ReadsOnly i) (u.setHandler i g) (u.setHandler i g') :=
  .single ⟨b, rfl, hb⟩ (by simp [step, setHandler, hi, hg])

/-- One more chunk is read to its end, or found missing. -/
theorem steps_readOne (chunks : List (ChunkId × Option Bytes)) (c : ChunkId) (rest : List ChunkId) :
    Steps step (ReadsOnly i) (u.setHandler i (.readNext chunks (c :: rest)))
      (u.setHandler i (.readNext (chunks ++ [(c, u.disk.content (path c))]) rest)) := by
  cases hc : u.disk.names.lookup (path c) with
  | none =>
    refine steps_setHandler hi (b := .openRead) rfl ?_
    simp [Handler.readNext, Handler.step, Handler.readStep, Volume.content, hc]
  | some j =>
    have hopen : Steps step (ReadsOnly i) (u.setHandler i (.readNext chunks (c :: rest)))
        (u.setHandler i (.reading (c :: rest) chunks (.reading j []))) := by
      refine steps_setHandler hi (b := .openRead) rfl ?_
      simp [Handler.readNext, Handler.step, Handler.readStep, hc]
    have hread : Steps step (ReadsOnly i) (u.setHandler i (.reading (c :: rest) chunks (.reading j [])))
        (u.setHandler i (.reading (c :: rest) chunks (.reading j (u.disk.contents j)))) := by
      by_cases hnil : u.disk.contents j = []
      · rw [hnil]
        exact .refl
      · have hpos := List.length_pos_iff.mpr hnil
        refine steps_setHandler hi (b := .read (u.disk.contents j).length) rfl ?_
        simp [Handler.step, Handler.readStep, hpos]
    refine (hopen.trans hread).trans (steps_setHandler hi (b := .readEnd) rfl ?_)
    simp [Handler.step, Handler.readStep, Volume.content, hc]

/-- A handler that has come to the end of a chunk can read all that are left. -/
theorem steps_readAll (chunks : List (ChunkId × Option Bytes)) (ids : List ChunkId) :
    Steps step (ReadsOnly i) (u.setHandler i (.readNext chunks ids))
      (u.setHandler i (.done (.read (chunks ++ ids.map fun c => (c, u.disk.content (path c)))))) := by
  induction ids generalizing chunks with
  | nil =>
    rw [List.map_nil, List.append_nil]
    exact .refl
  | cons c rest ih =>
    have hrest := ih (chunks ++ [(c, u.disk.content (path c))])
    rw [List.append_assoc, List.singleton_append] at hrest
    exact (steps_readOne hi chunks c rest).trans hrest

end

end StorageServicer
namespace Hosts

variable {cfg : Settings} {h t : Hosts} {s : Cluster} {f : Filename} {k : ℕ} {resp : GetFileResponse}
  {serve : Serve} {failed : Finset Addr} {ok : Cluster → ClusterAction → Prop}

/-! ### What servers answer -/

/-- The progress of a GetChunks call for `ids`, where what was found for a chunk is as in `seen`. -/
inductive ReadSoFar (ids : List ChunkId) (seen : ChunkId × Option Bytes → Prop) : ChunkCall → Prop
  | reading (chunks : List (ChunkId × Option Bytes)) (rest : List ChunkId)
      (hids : chunks.map Prod.fst ++ rest = ids) (hseen : ∀ x ∈ chunks, seen x) :
    ReadSoFar ids seen (.read chunks rest)
  | delivering (chunks : List (ChunkId × Option Bytes)) (c : ChunkId) (data : Bytes)
      (rest : List ChunkId) (hids : chunks.map Prod.fst ++ c :: rest = ids) (hseen : ∀ x ∈ chunks, seen x)
      (hdata : seen (c, some data)) : ReadSoFar ids seen (.delivering c data rest chunks)

theorem ReadSoFar.goes {ids : List ChunkId} {seen : ChunkId × Option Bytes → Prop} {b : HandlerAction}
    {q q' : ChunkCall} {M M' : ChunkMap} (hread : ReadSoFar ids seen q) (hgoes : q.Goes b M M' q')
    (hM : ∀ c, seen (c, M c)) (hnone : b = .ioError → ∀ c, seen (c, none)) : ReadSoFar ids seen q' := by
  have hnext : ∀ {chunks c o rest}, chunks.map Prod.fst ++ c :: rest = ids → (∀ x ∈ chunks, seen x) →
      seen (c, o) → ReadSoFar ids seen (.read (chunks ++ [(c, o)]) rest) := by
    intro chunks c o rest hids hseen ho
    refine .reading _ rest (by simpa using hids) fun x hx => ?_
    rcases List.mem_append.mp hx with hx | hx
    · exact hseen x hx
    · rwa [List.mem_singleton.mp hx]
  cases hread with
  | delivering chunks c data rest hids hseen hdata =>
    rcases hgoes with hexec | ⟨hb, _, hfail⟩
    · cases hexec
      exact hnext hids hseen hdata
    · cases hfail
      exact hnext hids hseen (hnone hb c)
  | reading chunks rest hids hseen =>
    cases rest with
    | nil => rcases hgoes with h | ⟨_, _, h⟩ <;> cases h
    | cons c rest =>
      rcases hgoes with hexec | ⟨hb, _, hfail⟩
      · simp only [ChunkCall.read, ChunkCall.exec] at hexec
        split at hexec
        · rename_i data hdata
          cases hexec
          exact .delivering chunks c data rest hids hseen (hdata ▸ hM c)
        · rename_i hdata
          cases hexec
          exact hnext hids hseen (hdata ▸ hM c)
      · cases hfail
        exact hnext hids hseen (hnone hb c)

/-- What a step does to the calls that handlers serve and to the chunk files. -/
inductive ServerStep (h : Hosts) : HostAction → Hosts → Prop
  | idle {a : HostAction} {t : Hosts} (hcall : t.call = h.call) (hchunks : t.chunks = h.chunks) :
    ServerStep h a t
  | receive {a : HostAction} {t : Hosts} (addr : Addr) (r : ChunkRequest)
      (hcall : t.call = Function.update h.call (addr, (h.servers addr).handlers.length)
        (some r.request.call)) (hchunks : t.chunks = h.chunks) : ServerStep h a t
  | handle {t : Hosts} (addr : Addr) (k : ℕ) (b : HandlerAction) {q q' : ChunkCall} {M : ChunkMap}
      (hq : h.call (addr, k) = some q) (hgoes : q.Goes b (h.chunks addr) M q')
      (hcall : t.call = Function.update h.call (addr, k) (some q'))
      (hchunks : t.chunks = Function.update h.chunks addr M) : ServerStep h (.handle addr k b) t
  | scrub {t : Hosts} (addr : Addr) (c : ChunkId) (hcall : t.call = h.call)
      (hchunks : t.chunks = Function.update h.chunks addr (Function.update (h.chunks addr) c none)) :
    ServerStep h (.scrub addr (.scrubRemove c)) t
  | restart {t : Hosts} (addr : Addr) (hgone : ∀ x, x.1 = addr → t.call x = none)
      (hcall : ∀ x, x.1 ≠ addr → t.call x = h.call x) (hchunks : t.chunks = h.chunks) :
    ServerStep h (.restart addr) t

theorem serverStep_of_scrub {addr : Addr} {u : StorageServicer} {b : ServicerAction}
    (hs : (h.servers addr).step b = some u) (hreceive : ∀ r, b ≠ .receive r)
    (hhandle : ∀ k b', b ≠ .handle k b') : ServerStep h (.scrub addr b) (h.setServer addr u) := by
  have hmoves := scrubMoves_of_step hs hreceive hhandle
  have hcall := call_setServer_of_eq (StorageServicer.calls_of_scrubMoves hs hmoves)
  by_cases hremove : ∃ c, b = .scrubRemove c
  · obtain ⟨c, rfl⟩ := hremove
    refine .scrub addr c hcall ?_
    rw [chunks_setServer, StorageServicer.store_of_scrubRemove hs]
    rfl
  · exact .idle hcall (chunks_of_store (StorageServicer.store_of_scrubMoves hmoves fun c hc =>
      hremove ⟨c, hc⟩))

theorem serverStep_of_step {a : HostAction} (hv : h.Valid) (hs : h.step cfg a = some t) :
    ServerStep h a t := by
  cases case_of_step hs with
  | remote | lose => exact .idle rfl rfl
  | receive i m u hi hm hplain hu =>
    obtain ⟨hcall, hchunks, _⟩ := receive_spec hv hu
    exact .receive _ _ hcall hchunks
  | get addr r u hreads hu =>
    obtain ⟨hcall, hchunks, _⟩ := receive_spec hv hu
    exact .receive addr r hcall hchunks
  | handle addr k b u hu =>
    rcases goes_of_handle hv hu with ⟨hcall, hchunks⟩ | ⟨q, q', M, hq, hgoes, hcall, hchunks⟩
    · exact .idle hcall hchunks
    · exact .handle addr k b hq hgoes hcall hchunks
  | reply i m k result hi hk =>
    unfold answer
    split <;> exact .idle rfl rfl
  | scrubList addr expected u hp hu =>
    have hmoves := scrubMoves_of_step hu (by simp) (by simp)
    have hstore := StorageServicer.store_of_scrubMoves hmoves (by simp)
    exact .idle (call_setServer_of_eq (congrArg ChunkStore.calls hstore)) (chunks_of_store hstore)
  | scrub addr b u hb hu =>
    exact serverStep_of_scrub hu (by rintro r rfl; cases hb) (by rintro k b' rfl; cases hb)
  | restart addr =>
    refine .restart addr ?_ (fun x hx => call_setServer_of_ne hx) ?_
    · rintro ⟨_, k⟩ rfl
      exact call_setServer_start _ k
    · exact (chunks_setServer h addr _).trans (Function.update_eq_self addr h.chunks)

/-- Other steps leave a handler's call where it is, unless its server starts again. -/
theorem call_of_step {a : HostAction} {addr : Addr} {i : ℕ} {q : ChunkCall} (hv : h.Valid)
    (hq : h.call (addr, i) = some q) (hs : h.step cfg a = some t) (ha : a ≠ .restart addr) :
    t.call (addr, i) = some q ∨ ∃ b q' M, a = .handle addr i b ∧ q.Goes b (h.chunks addr) M q' ∧
      t.call (addr, i) = some q' := by
  cases serverStep_of_step hv hs with
  | idle hcall => exact .inl (by rw [hcall, hq])
  | receive addr' r hcall =>
    refine .inl ?_
    rw [hcall, Function.update_of_ne, hq]
    intro he
    rw [he, h.call_length addr'] at hq
    cases hq
  | handle addr' k b hq₀ hgoes hcall =>
    rw [hcall]
    by_cases hx : (addr, i) = (addr', k)
    · obtain ⟨rfl, rfl⟩ := Prod.mk.inj hx
      obtain rfl := Option.some.inj (hq.symm.trans hq₀)
      exact .inr ⟨b, _, _, rfl, hgoes, Function.update_self ..⟩
    · exact .inl (by rw [Function.update_of_ne hx, hq])
  | scrub addr' c hcall => exact .inl (by rw [hcall, hq])
  | restart addr' _ hcall =>
    have hne : addr ≠ addr' := fun he => ha (he ▸ rfl)
    exact .inl (by rw [hcall _ hne, hq])

/-- Chunk files have plain names, and what is yet to be stored has plain ids. -/
structure Named (h : Hosts) : Prop where
  chunks : ∀ addr c data, h.chunks addr c = some data → Plain c
  calls : ∀ x q, h.call x = some q → ∀ y ∈ q.items, Plain y.1

theorem Named.init : Named init where
  chunks _ _ _ h := by cases h
  calls _ _ h := by simp [call, Hosts.init, StorageServicer.store, StorageServicer.start] at h

theorem Named.of_step {a : HostAction} (hn : h.Named) (hv : h.Valid) (hs : h.step cfg a = some t) :
    t.Named := by
  cases serverStep_of_step hv hs with
  | idle hcall hchunks => exact ⟨hchunks ▸ hn.chunks, hcall ▸ hn.calls⟩
  | receive addr r hcall hchunks =>
    refine ⟨hchunks ▸ hn.chunks, fun x q hq => ?_⟩
    by_cases hx : x = (addr, (h.servers addr).handlers.length)
    · rw [hcall, hx, Function.update_self, Option.some.injEq] at hq
      subst hq
      exact fun y hy => r.plain y.1 (r.request.items_call y hy)
    · rw [hcall, Function.update_of_ne hx] at hq
      exact hn.calls x q hq
  | handle addr k b hq hgoes hcall hchunks =>
    obtain ⟨hM, hitems⟩ := hgoes.plain (hn.chunks addr) (hn.calls _ _ hq)
    constructor
    · intro addr'
      by_cases ha : addr' = addr
      · rwa [hchunks, ha, Function.update_self]
      · rw [hchunks, Function.update_of_ne ha]
        exact hn.chunks addr'
    · intro x q₀ hq₀
      by_cases hx : x = (addr, k)
      · rw [hcall, hx, Function.update_self, Option.some.injEq] at hq₀
        exact hq₀ ▸ hitems
      · rw [hcall, Function.update_of_ne hx] at hq₀
        exact hn.calls x q₀ hq₀
  | scrub addr c hcall hchunks =>
    refine ⟨fun addr' c' data hc' => ?_, hcall ▸ hn.calls⟩
    by_cases ha : addr' = addr
    · rw [hchunks, ha, Function.update_self, Function.update_apply] at hc'
      split_ifs at hc'
      exact hn.chunks addr c' data hc'
    · rw [hchunks, Function.update_of_ne ha] at hc'
      exact hn.chunks addr' c' data hc'
  | restart addr hgone hcall hchunks =>
    refine ⟨hchunks ▸ hn.chunks, fun x q hq => ?_⟩
    by_cases hx : x.1 = addr
    · rw [hgone x hx] at hq
      cases hq
    · rw [hcall x hx] at hq
      exact hn.calls x q hq

theorem Named.steps (hn : h.Named) (hok : Cluster.OfFront ok) (hfollow : h.Follows s)
    (hrun : Steps (step cfg) (Within ok) h t) : t.Named := by
  refine hrun.invariant (P := Named) hn fun t a u ht hn _ hs => ?_
  obtain ⟨s', _, hfol⟩ := hfollow.steps hok ht
  exact hn.of_step hfol.1 hs

/-- A GetChunks request for `ids` that reaches `addr` after `h` is answered with `items`. Where `sound`,
no OSError is raised for it. -/
inductive GetsChunks (cfg : Settings) (ok : Hosts → HostAction → Prop) (sound : Prop) (h : Hosts)
    (addr : Addr) (ids : List ChunkId) (items : List (ChunkId × Option Bytes)) : Prop
  | answer (h₁ h₂ h₃ : Hosts) (i : ℕ) (hids : ∀ c ∈ ids, Plain c) (hs₁ : Steps (step cfg) ok h h₁)
      (hi : i = (h₁.servers addr).handlers.length) (hok : ok h₁ (.get addr ⟨.getChunks ids, hids⟩))
      (hget : h₁.step cfg (.get addr ⟨.getChunks ids, hids⟩) = some h₂)
      (hs₂ : Steps (step cfg) (fun h a => ok h a ∧ a ≠ .restart addr ∧
        (sound → a ≠ .handle addr i .ioError)) h₂ h₃)
      (hdone : (h₃.servers addr).handlers[i]? = some (.done (.read items)))

/-- What is answered for a chunk is what was on the disk at some point after the request was sent, or
nothing because of an error. -/
theorem GetsChunks.items_seen {addr : Addr} {ids : List ChunkId} {items : List (ChunkId × Option Bytes)}
    {sound : Prop} (hgets : GetsChunks cfg (Within ok) sound h addr ids items) (hok : Cluster.OfFront ok)
    (hfollow : h.Follows s) : items.map Prod.fst = ids ∧ ∀ x ∈ items,
      (∃ t, Steps (step cfg) (Within ok) h t ∧ t.chunks addr x.1 = x.2) ∨ x.2 = none ∧ ¬ sound := by
  obtain ⟨h₁, h₂, h₃, i, hids, hs₁, rfl, hwithin, hget, hs₂, hdone⟩ := hgets
  set i := (h₁.servers addr).handlers.length
  set seen : ChunkId × Option Bytes → Prop := fun x =>
    (∃ t, Steps (step cfg) (Within ok) h t ∧ t.chunks addr x.1 = x.2) ∨ x.2 = none ∧ ¬ sound with hseen
  obtain ⟨s₁, _, hfol₁⟩ := hfollow.steps hok hs₁
  have hcall₂ : h₂.call (addr, i) = some (.read [] ids) := by
    cases case_of_step hget with
    | get _ _ u _ hu =>
      rw [(receive_spec hfol₁.1 hu).1]
      exact Function.update_self ..
  -- the call of the handler, and the run so far, which the chunks that it looks at are taken from
  have hinv : Steps (step cfg) (Within ok) h h₃ ∧ ∃ q, h₃.call (addr, i) = some q ∧ ReadSoFar ids seen q := by
    refine hs₂.invariant (P := fun t => Steps (step cfg) (Within ok) h t ∧
      ∃ q, t.call (addr, i) = some q ∧ ReadSoFar ids seen q) ?_ ?_
    · exact ⟨.tail hs₁ hwithin hget, _, hcall₂, .reading [] ids rfl (by simp)⟩
    · rintro t a u _ ⟨hrun, q, hq, hread⟩ ⟨hw, hrestart, herror⟩ hstep
      obtain ⟨s', _, hfol⟩ := hfollow.steps hok hrun
      refine ⟨.tail hrun hw hstep, ?_⟩
      rcases call_of_step hfol.1 hq hstep hrestart with hq' | ⟨b, q', M, rfl, hgoes, hq'⟩
      · exact ⟨q, hq', hread⟩
      · refine ⟨q', hq', hread.goes hgoes (fun c => .inl ⟨t, hrun, rfl⟩) ?_⟩
        rintro rfl c
        exact .inr ⟨rfl, fun hsound => herror hsound rfl⟩
  obtain ⟨_, q, hq, hread⟩ := hinv
  obtain rfl : q = .done (.read items) := by
    simp only [call, StorageServicer.store, List.getElem?_map, hdone, Option.map_some,
      Option.some.injEq] at hq
    exact hq.symm
  generalize hdoneq : ChunkCall.done (.read items) = q at hread
  cases hread with
  | reading chunks rest hids hall =>
    cases rest with
    | nil =>
      cases hdoneq
      exact ⟨by simpa using hids, hall⟩
    | cons c rest => cases hdoneq
  | delivering => cases hdoneq

/-! ### Reads -/

/-- A GetFile request for `f` that is sent in `h` is answered by `resp` in `t`. -/
inductive GetsFile (cfg : Settings) (ok : Hosts → HostAction → Prop) (h : Hosts) (f : Filename)
    (t : Hosts) : GetFileResponse → Prop
  | answer (h₁ h₂ : Hosts) (o₁ o₂ : RowOrder) (hs₁ : Steps (step cfg) ok h h₁)
      (hs₂ : Steps (step cfg) ok h₁ h₂) (hs₃ : Steps (step cfg) ok h₂ t) :
    GetsFile cfg ok h f t (getFileResponse
      (getFile (o₁.view h₁.cluster.naming.db) (o₂.view h₂.cluster.naming.db) f)
      (t.cluster.naming.registry.liveServers t.cluster.naming.now))

/-- A GetFileSize request for `f` that is sent in `h` is answered by `resp`. -/
inductive GetsSize (cfg : Settings) (ok : Hosts → HostAction → Prop) (h : Hosts) (f : Filename) :
    GetFileSizeResponse → Prop
  | answer (h₁ h₂ : Hosts) (o₁ o₂ : RowOrder) (hs₁ : Steps (step cfg) ok h h₁)
      (hs₂ : Steps (step cfg) ok h₁ h₂) : GetsSize cfg ok h f (getFileSizeResponse
        (getFile (o₁.view h₁.cluster.naming.db) (o₂.view h₂.cluster.naming.db) f))

theorem GetsFile.steps {ok : Hosts → HostAction → Prop} (hget : GetsFile cfg ok h f t resp) :
    Steps (step cfg) ok h t := by
  obtain ⟨h₁, h₂, o₁, o₂, hs₁, hs₂, hs₃⟩ := hget
  exact (hs₁.trans hs₂).trans hs₃

theorem GetsFile.follows (hok : Cluster.OfFront ok) (hget : GetsFile cfg (Within ok) h f t resp)
    (hfollow : h.Follows s) : ∃ s', Cluster.GetsFile cfg ok s f s' resp ∧ t.Follows s' := by
  obtain ⟨h₁, h₂, o₁, o₂, hs₁, hs₂, hs₃⟩ := hget
  obtain ⟨s₁, hst₁, hfol₁⟩ := hfollow.steps hok hs₁
  obtain ⟨s₂, hst₂, hfol₂⟩ := hfol₁.steps hok hs₂
  obtain ⟨s₃, hst₃, hfol₃⟩ := hfol₂.steps hok hs₃
  refine ⟨s₃, ?_, hfol₃⟩
  rw [← hfol₁.2.naming, ← hfol₂.2.naming, ← hfol₃.2.naming]
  exact .answer s₁ s₂ o₁ o₂ hst₁ hst₂ hst₃

theorem GetsSize.follows (hok : Cluster.OfFront ok) {resp : GetFileSizeResponse}
    (hget : GetsSize cfg (Within ok) h f resp) (hfollow : h.Follows s) :
    Cluster.GetsSize cfg ok s f resp := by
  obtain ⟨h₁, h₂, o₁, o₂, hs₁, hs₂⟩ := hget
  obtain ⟨s₁, hst₁, hfol₁⟩ := hfollow.steps hok hs₁
  obtain ⟨s₂, hst₂, hfol₂⟩ := hfol₁.steps hok hs₂
  rw [← hfol₁.2.naming, ← hfol₂.2.naming]
  exact .answer s₁ s₂ o₁ o₂ hst₁ hst₂

/-- The chunks that a server found. -/
def found (items : List (ChunkId × Option Bytes)) : List (ChunkId × Bytes) :=
  items.filterMap fun x => x.2.map (x.1, ·)

theorem mem_found {items : List (ChunkId × Option Bytes)} {x : ChunkId × Bytes} :
    x ∈ found items ↔ (x.1, some x.2) ∈ items := by
  simp only [found, List.mem_filterMap, Option.map_eq_some_iff]
  constructor
  · rintro ⟨⟨c, o⟩, hin, b, rfl, rfl⟩
    exact hin
  · exact fun h => ⟨_, h, _, rfl, rfl⟩

/-- The GetChunks calls of a read that begins in `h`. A call fails, or comes back with chunks that a
handler of the server has found; from a server that does not fail it comes back with all of them. -/
structure ServedBy (cfg : Settings) (ok : Hosts → HostAction → Prop) (failed : Finset Addr) (h : Hosts)
    (serve : Serve) : Prop where
  answered : ∀ round addr ids, serve round addr ids = [] ∨
    ∃ items, GetsChunks cfg ok False h addr ids items ∧ serve round addr ids ⊆ found items
  complete : ∀ round addr ids, addr ∉ failed → (∀ c ∈ ids, Plain c) →
    ∃ items, GetsChunks cfg ok True h addr ids items ∧ serve round addr ids = found items

/-- What `serve` gives, but for ids that are not plain, which no server is asked for. -/
def plainly (s : Cluster) (serve : Serve) : Serve := fun round addr ids =>
  if ∀ c ∈ ids, Plain c then serve round addr ids else ids.filterMap fun c => (s.file addr c).map (c, ·)

theorem alike_plainly {placements : List ChunkPlacement} (hplain : ∀ p ∈ placements, Plain p.chunkId) :
    Alike placements serve (plainly s serve) := by
  intro round addr ids hids
  refine (if_pos fun c hc => ?_).symm
  obtain ⟨p, hp, rfl⟩ := List.mem_map.mp (hids c hc)
  exact hplain p hp

/-- What was seen of a chunk the cluster has seen of it. -/
theorem Follows.seen {addr : Addr} {c : ChunkId} {o : Option Bytes} (hok : Cluster.OfFront ok)
    (hfollow : h.Follows s) (hseen : ∃ t, Steps (step cfg) (Within ok) h t ∧ t.chunks addr c = o) :
    ∃ s', Steps (Cluster.step cfg) ok s s' ∧ s'.file addr c = o := by
  obtain ⟨t, ht, rfl⟩ := hseen
  obtain ⟨s', hs', hfol⟩ := hfollow.steps hok ht
  exact ⟨s', hs', congrFun (hfol.2.files addr) c⟩

theorem ServedBy.honest (hserved : ServedBy cfg (Within ok) failed h serve) (hok : Cluster.OfFront ok)
    (hfollow : h.Follows s) : Cluster.Honest cfg ok s (plainly s serve) := by
  intro round addr ids x hx
  unfold plainly at hx
  split_ifs at hx
  · rcases hserved.answered round addr ids with hnil | ⟨items, hgets, hsub⟩
    · rw [hnil] at hx
      cases hx
    · obtain ⟨hids, hitems⟩ := hgets.items_seen hok hfollow
      have hin := mem_found.mp (hsub hx)
      refine ⟨hids ▸ List.mem_map_of_mem (f := Prod.fst) hin, hfollow.seen hok ?_⟩
      exact (hitems _ hin).resolve_right fun h => Option.some_ne_none _ h.1
  · obtain ⟨c, hc, hx⟩ := List.mem_filterMap.mp hx
    obtain ⟨b, hb, rfl⟩ := Option.map_eq_some_iff.mp hx
    exact ⟨hc, s, .refl, hb⟩

theorem ServedBy.answering (hserved : ServedBy cfg (Within ok) failed h serve) (hok : Cluster.OfFront ok)
    (hfollow : h.Follows s) : Cluster.Answering cfg ok failed s (plainly s serve) := by
  intro round addr ids hnot c hc
  unfold plainly
  split_ifs with hall
  · obtain ⟨items, hgets, hserve⟩ := hserved.complete round addr ids hnot hall
    obtain ⟨hids, hitems⟩ := hgets.items_seen hok hfollow
    rw [← hids] at hc
    obtain ⟨⟨c, o⟩, hin, rfl⟩ := List.mem_map.mp hc
    obtain ⟨s', hs', hfile⟩ := hfollow.seen hok ((hitems _ hin).resolve_right fun h => h.2 trivial)
    refine ⟨s', hs', fun b hb => ?_⟩
    rw [hfile] at hb
    rw [hserve, mem_found]
    exact hb ▸ hin
  · refine ⟨s, .refl, fun b hb => ?_⟩
    exact List.mem_filterMap.mpr ⟨c, hc, by rw [hb]; rfl⟩

/-! ### Servers that answer now -/

/-- Requests to read are admitted, and what their handlers do. -/
structure AdmitsReads (ok : Hosts → HostAction → Prop) : Prop where
  get : ∀ h addr r, ok h (.get addr r)
  handle : ∀ h addr k b, b.reads = true → ok h (.handle addr k b)

theorem admitsReads_meets : AdmitsReads (Meets ok) := ⟨fun _ _ _ => trivial, fun _ _ _ _ _ => trivial⟩

theorem admitsReads_within : AdmitsReads (Within ok) where
  get _ _ _ := ⟨trivial, trivial⟩
  handle h addr k b hb := by
    refine ⟨fun c k' g he => ?_, trivial⟩
    cases he
    cases hb

theorem setServer_setServer (h : Hosts) (addr : Addr) (u u' : StorageServicer) :
    (h.setServer addr u).setServer addr u' = h.setServer addr u' := by
  simp [setServer]

@[simp] theorem servers_setServer (h : Hosts) (addr : Addr) (u : StorageServicer) :
    (h.setServer addr u).servers addr = u := Function.update_self ..

/-- A server can answer with what it has on its disk now. -/
theorem getsChunks_now {ok : Hosts → HostAction → Prop} (hok : AdmitsReads ok) (sound : Prop) (h : Hosts)
    (addr : Addr) {ids : List ChunkId} (hids : ∀ c ∈ ids, Plain c) :
    GetsChunks cfg ok sound h addr ids (ids.map fun c => (c, h.chunks addr c)) := by
  set i := (h.servers addr).handlers.length with hi
  set u : StorageServicer :=
    { h.servers addr with handlers := (h.servers addr).handlers ++ [.readNext [] ids] } with hu
  have hlt : i < u.handlers.length := by simp [hu, hi]
  have hself : u.setHandler i (.readNext [] ids) = u := StorageServicer.setHandler_self (by simp [hu, hi])
  have hreads := StorageServicer.steps_readAll hlt [] ids
  rw [hself, List.nil_append] at hreads
  refine .answer h (h.setServer addr u) (h.setServer addr (u.setHandler i _)) i hids .refl hi
    (hok.get h addr _) rfl (hreads.project (h.setServer addr) ?_) ?_
  · rintro v a v' ⟨b, rfl, hb⟩ hstep
    refine .single ⟨hok.handle _ addr i b hb, by simp, ?_⟩ ?_
    · rintro - he
      cases he
      cases hb
    · show (((h.setServer addr v).servers addr).step (.handle i b)).map
        ((h.setServer addr v).setServer addr) = _
      rw [servers_setServer, hstep, Option.map_some, setServer_setServer]
  · rw [servers_setServer]
    simp only [StorageServicer.setHandler, List.getElem?_set_self hlt]
    rfl

/-- The servers answer from their disks as they are in `h`, or not at all. -/
def serveDisks (h : Hosts) (failed : Finset Addr) : Serve := fun _ addr ids =>
  if addr ∉ failed ∧ ∀ c ∈ ids, Plain c then found (ids.map fun c => (c, h.chunks addr c)) else []

theorem servedBy_serveDisks {ok : Hosts → HostAction → Prop} (hok : AdmitsReads ok) :
    ServedBy cfg ok failed h (h.serveDisks failed) where
  answered round addr ids := by
    unfold serveDisks
    split_ifs with hids
    · exact .inr ⟨_, getsChunks_now hok False h addr hids.2, List.Subset.refl _⟩
    · exact .inl rfl
  complete round addr ids hnot hids :=
    ⟨_, getsChunks_now hok True h addr hids, if_pos ⟨hnot, hids⟩⟩

end Hosts

end GfsCluster
