import GfsCluster.Cluster.Hosts
import GfsCluster.Cluster.Payload

/-! The requests under way to storage servers that take many steps for them, as the cluster sees them
whose servers do everything at once: which request it is when its handler has come so far, and which
steps the cluster takes when the handler goes on. -/

namespace GfsCluster

open Inodes StepSystem

/-! ### Requests and their handlers -/

/-- What a request is in the cluster when its handler has come so far: nothing, where it has done what
it can do. -/
def Message.servedBy : Message → ChunkCall → Option Message
  | .storeChunks call addr chunks _, .storing rest =>
    some (.storeChunks call addr chunks (chunks.length - rest.length))
  | .storeChunks call addr chunks _, .done .stored => some (.storeChunks call addr chunks chunks.length)
  | .deleteChunk addr c, .deleting _ => some (.deleteChunk addr c)
  | .replicateChunk ticket addr c source, .reading _ _ => some (.replicateChunk ticket addr c source)
  | .replicateChunk ticket addr c _, .delivering _ data _ _ => some (.replicateData ticket addr c data)
  | .replicateChunk ticket addr c _, .done (.read [(_, some data)]) =>
    some (.replicateData ticket addr c data)
  | .replicateData ticket addr c data, .storing _ => some (.replicateData ticket addr c data)
  | _, _ => none

/-- How far the handler of a request can have come. -/
inductive Message.Serves : Message → ChunkCall → Prop
  | storing (call : ℕ) (addr : Addr) (stored : ℕ) (before : List (ChunkId × Bytes)) (x : ChunkId × Bytes)
      (rest : List (ChunkId × Bytes)) :
    Serves (.storeChunks call addr (before ++ x :: rest) stored) (.storing (x :: rest))
  | stored (call : ℕ) (addr : Addr) (chunks : List (ChunkId × Bytes)) (stored : ℕ) :
    Serves (.storeChunks call addr chunks stored) (.done .stored)
  | storeFailed (call : ℕ) (addr : Addr) (chunks : List (ChunkId × Bytes)) (stored : ℕ) (c : ChunkId) :
    Serves (.storeChunks call addr chunks stored) (.done (.storeFailed c))
  | deleting (addr : Addr) (c : ChunkId) : Serves (.deleteChunk addr c) (.deleting c)
  | deleted (addr : Addr) (c : ChunkId) (result : HandlerResult) :
    Serves (.deleteChunk addr c) (.done result)
  | reading (ticket : ℕ) (addr : Addr) (c : ChunkId) (source : Addr) :
    Serves (.replicateChunk ticket addr c source) (.reading [c] [])
  | delivering (ticket : ℕ) (addr : Addr) (c : ChunkId) (source : Addr) (data : Bytes) :
    Serves (.replicateChunk ticket addr c source) (.delivering c data [] [])
  | read (ticket : ℕ) (addr : Addr) (c : ChunkId) (source : Addr) (data : Option Bytes) :
    Serves (.replicateChunk ticket addr c source) (.done (.read [(c, data)]))
  | copying (ticket : ℕ) (addr : Addr) (c : ChunkId) (data : Bytes) :
    Serves (.replicateData ticket addr c data) (.storing [(c, data)])
  | copied (ticket : ℕ) (addr : Addr) (c : ChunkId) (data : Bytes) (result : HandlerResult) :
    Serves (.replicateData ticket addr c data) (.done result)

namespace ChunkCall

/-- The next item is served, or refused because of an error. -/
def Goes (b : HandlerAction) (M : ChunkMap) (q : ChunkCall) (M' : ChunkMap) (q' : ChunkCall) : Prop :=
  q.exec M = some (M', q') ∨ b = .ioError ∧ M' = M ∧ q.fail = some q'

/-- The call changes no chunk any more. -/
def Harmless : ChunkCall → Prop
  | .reading _ _ | .delivering _ _ _ _ | .done _ => True
  | .storing _ | .deleting _ => False

variable {b : HandlerAction} {M M' : ChunkMap} {q q' : ChunkCall} {m : Message}

theorem harmless_read (chunks : List (ChunkId × Option Bytes)) (ids : List ChunkId) :
    (read chunks ids).Harmless := by
  cases ids <;> trivial

theorem Goes.harmless (h : q.Goes b M M' q') (hq : q.Harmless) : M' = M ∧ q'.Harmless := by
  cases q with
  | storing items => exact hq.elim
  | deleting c => exact hq.elim
  | done result => rcases h with h | ⟨_, _, h⟩ <;> cases h
  | delivering c data ids chunks =>
    rcases h with h | ⟨_, rfl, h⟩
    · cases h
      exact ⟨rfl, harmless_read _ _⟩
    · cases h
      exact ⟨rfl, harmless_read _ _⟩
  | reading ids chunks =>
    cases ids with
    | nil => rcases h with h | ⟨_, _, h⟩ <;> cases h
    | cons c rest =>
      rcases h with h | ⟨_, rfl, h⟩
      · simp only [exec] at h
        split at h
        · cases h
          exact ⟨rfl, trivial⟩
        · cases h
          exact ⟨rfl, harmless_read _ _⟩
      · cases h
        exact ⟨rfl, harmless_read _ _⟩

end ChunkCall

namespace Message

variable {m : Message} {q : ChunkCall}

/-- A request that comes in is served from its first item on. -/
theorem serves_request (m : Message) (hm : m.answered = false) :
    m.Serves m.request.call ∧ m.servedBy m.request.call = some m := by
  cases m with
  | storeChunks call addr chunks stored =>
    obtain rfl : stored = 0 := by simpa [answered] using hm
    cases chunks with
    | nil => exact ⟨.stored call addr [] 0, rfl⟩
    | cons x rest =>
      refine ⟨.storing call addr 0 [] x rest, ?_⟩
      simp [request, Request.call, ChunkCall.store, servedBy]
  | deleteChunk addr c => exact ⟨.deleting addr c, rfl⟩
  | replicateChunk ticket addr c source => exact ⟨.reading ticket addr c source, rfl⟩
  | replicateData ticket addr c data => exact ⟨.copying ticket addr c data, rfl⟩

end Message

namespace Cluster

/-- Storage servers act, or a request is lost. -/
def ByServers : ClusterAction → Prop
  | .storeItem _ | .deleteExec _ | .copyFetch _ | .copyStore _ | .drop _ | .scrubList _
  | .scrubStop _ => True
  | _ => False

/-- A condition on what the naming server and the clients do, and on what scrubs remove. -/
structure OfFront (ok : Cluster → ClusterAction → Prop) : Prop where
  servers : ∀ s a, ByServers a → ok s a
  congr : ∀ s s' a, s'.naming = s.naming → s'.calls = s.calls → ok s a → ok s' a
  reply : ∀ s k j i i', ok s (.storeReply k j i) → ok s (.storeReply k j i')

variable {cfg : Settings} {s s' : Cluster} {ok : Cluster → ClusterAction → Prop}

theorem scrubs_setScrub (s : Cluster) (addr : Addr) (p : ScrubPhase) :
    (s.setScrub addr p).scrubs addr = p := Function.update_self ..

theorem scrubs_setScrub_of_ne (s : Cluster) {addr addr' : Addr} (p : ScrubPhase) (h : addr' ≠ addr) :
    (s.setScrub addr p).scrubs addr' = s.scrubs addr' := Function.update_of_ne h ..

theorem ofFront_anyStep : OfFront anyStep := ⟨fun _ _ _ => trivial, by tauto, by tauto⟩

theorem OfFront.step {a : ClusterAction} (hok : OfFront ok) (hs : s.step cfg a = some s')
    (ha : ByServers a) : Steps (Cluster.step cfg) ok s s' :=
  .single (hok.servers s a ha) hs

/-- Requests under way may be lost, any of them. -/
theorem steps_drop (hok : OfFront ok) {net : List Message} (h : net.Sublist s.net) :
    Steps (step cfg) ok s { s with net := net } := by
  suffices hpre : ∀ l l' : List Message, l'.Sublist l → ∀ pre,
      Steps (step cfg) ok { s with net := pre ++ l } { s with net := pre ++ l' } from
    hpre s.net net h []
  intro l l' h
  induction h with
  | slnil => exact fun pre => .refl
  | @cons l₁ l₂ m _ ih =>
    intro pre
    have hdrop : ({ s with net := pre ++ m :: l₂ } : Cluster).step cfg (.drop pre.length) =
        some { s with net := pre ++ l₂ } := by
      simp [step, List.eraseIdx_append_of_length_le]
    exact (hok.step hdrop trivial).trans (ih pre)
  | @cons_cons l₁ l₂ m _ ih =>
    intro pre
    simpa using ih (pre ++ [m])

/-- The action neither sees nor changes what the storage servers do, but for new requests to them. -/
def WithoutServers : ClusterAction → Prop
  | .naming _ | .createCall _ _ _ | .createReply _ | .sendBatch _ _ | .uploadFail _ _ | .commitSend _
  | .commitExec _ | .commitLost _ | .commitReply _ | .clientStop _ => True
  | _ => False

theorem Free.mono {b : NamingAction} {t : Cluster} (h : s.Free b) (hn : t.naming = s.naming)
    (hcopies : s.copies ⊆ t.copies) : t.Free b := by
  unfold Free at h ⊢
  rw [hn]
  split at h
  · exact h
  · exact h
  · split at h
    · exact hcopies h
    · exact h
  · trivial

/-- Such an action is possible next to whatever else the storage servers have done. -/
theorem step_withoutServers {a : ClusterAction} {t : Cluster} (hs : s.step cfg a = some t)
    (ha : WithoutServers a) (disks : Addr → Disk) (scrubs : Addr → ScrubPhase)
    (net : List Message) {copies : List ℕ} (hcopies : s.copies ⊆ copies) (scrubbed : List (Addr × ChunkId)) :
    ∃ new, t.net = s.net ++ new ∧ t.copies = s.copies ∧ t.scrubs = s.scrubs ∧
      step cfg { s with
        disks := disks, scrubs := scrubs, net := net, copies := copies, scrubbed := scrubbed } a =
        some { t with
          disks := disks, scrubs := scrubs, net := net ++ new, copies := copies, scrubbed := scrubbed } := by
  cases case_of_step hs with
  | naming b n out hfree hn =>
    have hfree' : Free { s with
        disks := disks, scrubs := scrubs, net := net, copies := copies, scrubbed := scrubbed } b :=
      hfree.mono rfl hcopies
    refine ⟨out.map StorageRpc.message, rfl, rfl, rfl, ?_⟩
    simp only [step, if_pos hfree']
    simp [hn]
  | createCall k f data n out hp hn => exact ⟨[], by simp, rfl, rfl, by simp [step, hp, hn]⟩
  | createReply k resp hp hresp =>
    exact ⟨[], by simp [setPhase], rfl, rfl, by simp [step, hp, hresp, setPhase]⟩
  | sendBatch k j us addr batch rest hp hj =>
    exact ⟨[.storeChunks k addr batch 0], rfl, rfl, rfl, by simp [step, hp, hj, setPhase]⟩
  | uploadFail k j us addr todo hp hj =>
    exact ⟨[], by simp [setPhase], rfl, rfl, by simp [step, hp, hj, setPhase]⟩
  | commitSend k us hp hdone =>
    refine ⟨[], by simp [setPhase, setCommit], rfl, rfl, ?_⟩
    simp only [step, hp]
    rw [if_pos hdone]
    simp [setPhase, setCommit]
  | commitExec k n out hc hn => exact ⟨[], by simp [setCommit], rfl, rfl, by simp [step, hc, hn, setCommit]⟩
  | commitLost k hc => exact ⟨[], by simp [setCommit], rfl, rfl, by simp [step, hc, setCommit]⟩
  | commitReply k ok hp hc => exact ⟨[], by simp [setPhase], rfl, rfl, by simp [step, hp, hc, setPhase]⟩
  | clientStop k hp =>
    refine ⟨[], by simp [setPhase], rfl, rfl, ?_⟩
    rcases hp with hp | ⟨us, hp⟩ | hp
    all_goals simp [step, hp, setPhase]
  | _ => exact ha.elim

/-- The cluster has come from `s` to `s'` for a server that goes on with a request: the server's
chunks are now those of `M`, and the request is where its call `q` is. -/
structure CaughtUp (cfg : Settings) (ok : Cluster → ClusterAction → Prop) (s : Cluster) (m : Message)
    (N₁ N₂ : List Message) (M : ChunkMap) (q : ChunkCall) (s' : Cluster) : Prop where
  steps : Steps (step cfg) ok s s'
  naming : s'.naming = s.naming
  calls : s'.calls = s.calls
  acked : s'.acked = s.acked
  scrubs : s'.scrubs = s.scrubs
  copies : s.copies ⊆ s'.copies
  files : ∀ addr c, s'.file addr c = if addr = m.server then M c else s.file addr c
  net : s'.net = N₁ ++ (m.servedBy q).toList ++ N₂
  copied : ∀ ticket addr c data, m = .replicateData ticket addr c data → q = .done .stored →
    ticket ∈ s'.copies

section

variable {m m₀ : Message} {q q' : ChunkCall} {N₁ N₂ : List Message}

theorem files_self (s : Cluster) (addr addr' : Addr) (c : ChunkId) :
    s.file addr' c = if addr' = addr then s.file addr c else s.file addr' c := by
  split_ifs with ha
  · rw [ha]
  · rfl

theorem files_write (s : Cluster) (addr addr' : Addr) (c c' : ChunkId) (data : Bytes) :
    (s.write addr c data).file addr' c' =
      if addr' = addr then Function.update (s.file addr) c (some data) c' else s.file addr' c' := by
  rw [file_write]
  by_cases ha : addr' = addr
  · subst ha
    simp [Function.update_apply]
  · simp [ha]

theorem files_remove (s : Cluster) (addr addr' : Addr) (c c' : ChunkId) :
    (s.remove addr c).file addr' c' =
      if addr' = addr then Function.update (s.file addr) c none c' else s.file addr' c' := by
  rw [file_remove]
  by_cases ha : addr' = addr
  · subst ha
    simp [Function.update_apply]
  · simp [ha]

/-- The request fails, and what is left of it is lost. -/
theorem caughtUp_of_lost (hok : OfFront ok) (hnet : s.net = N₁ ++ m₀ :: N₂) (hnone : m.servedBy q' = none)
    (hnot : q' ≠ .done .stored) :
    ∃ s', CaughtUp cfg ok s m N₁ N₂ (s.file m.server) q' s' := by
  have hsub : (N₁ ++ N₂).Sublist s.net := by simp [hnet]
  exact ⟨_, steps_drop hok hsub, rfl, rfl, rfl, rfl, fun _ => id, s.files_self m.server, by simp [hnone],
    fun _ _ _ _ _ hq => absurd hq hnot⟩

theorem caughtUp_of_fail (hok : OfFront ok) (hm : m.Serves q) (hfail : q.fail = some q')
    (hnet : s.net = N₁ ++ m₀ :: N₂) :
    ∃ s', CaughtUp cfg ok s m N₁ N₂ (s.file m.server) q' s' := by
  cases hm with
  | storing | deleting | reading | delivering | copying =>
    all_goals
      cases hfail
      exact caughtUp_of_lost hok hnet rfl (by simp [ChunkCall.read])
  | _ => cases hfail

/-- The server has written the next item of a batch. -/
theorem caughtUp_of_storeItem {call stored : ℕ} {addr : Addr} {before rest : List (ChunkId × Bytes)}
    {x : ChunkId × Bytes} (hok : OfFront ok)
    (hnet : s.net = N₁ ++ .storeChunks call addr (before ++ x :: rest)
      ((before ++ x :: rest).length - (x :: rest).length) :: N₂) :
    ∃ s', CaughtUp cfg ok s (.storeChunks call addr (before ++ x :: rest) stored) N₁ N₂
      (Function.update (s.file addr) x.1 (some x.2)) (.store rest) s' := by
  set batch := before ++ x :: rest with hbatch
  have hat : s.net[N₁.length]? = some (.storeChunks call addr batch
      (batch.length - (x :: rest).length)) := by simp [hnet]
  have hitem : batch[batch.length - (x :: rest).length]? = some x := by simp [hbatch]
  have hstep : s.step cfg (.storeItem N₁.length) = some { s.write addr x.1 x.2 with
      net := s.net.set N₁.length
        (.storeChunks call addr batch (batch.length - (x :: rest).length + 1)) } := by
    simp only [step, hat, hitem]
  have hset : ∀ m', s.net.set N₁.length m' = N₁ ++ m' :: N₂ := by simp [hnet]
  have hleft : batch.length - (x :: rest).length + 1 = batch.length - rest.length := by
    simp [hbatch]
    omega
  refine ⟨_, hok.step hstep trivial, rfl, rfl, rfl, rfl, fun _ => id, fun addr' c' => ?_, ?_, by simp⟩
  · exact s.files_write addr addr' x.1 c' x.2
  · rw [hleft, hset]
    cases rest with
    | nil => simp [ChunkCall.store, Message.servedBy]
    | cons y rest => simp [ChunkCall.store, Message.servedBy]

theorem caughtUp_of_exec {M : ChunkMap} (hok : OfFront ok) (hm : m.Serves q)
    (hexec : q.exec (s.file m.server) = some (M, q')) (hnet : s.net = N₁ ++ m₀ :: N₂)
    (hseen : m.servedBy q = some m₀) :
    ∃ s', CaughtUp cfg ok s m N₁ N₂ M q' s' := by
  have hat : s.net[N₁.length]? = some m₀ := by simp [hnet]
  have hset : ∀ m', s.net.set N₁.length m' = N₁ ++ m' :: N₂ := by simp [hnet]
  have herase : s.net.eraseIdx N₁.length = N₁ ++ N₂ := by
    simp [hnet, List.eraseIdx_append_of_length_le]
  cases hm with
  | storing call addr stored before x rest =>
    cases hexec
    cases hseen
    exact caughtUp_of_storeItem hok hnet
  | deleting addr c =>
    cases hexec
    cases hseen
    have hstep : s.step cfg (.deleteExec N₁.length) =
        some { s.remove addr c with net := s.net.eraseIdx N₁.length } := by
      simp only [step, hat]
    refine ⟨_, hok.step hstep trivial, rfl, rfl, rfl, rfl, fun _ => id, fun addr' c' => ?_, ?_,
      by simp⟩
    · exact s.files_remove addr addr' c c'
    · simp [herase, Message.servedBy]
  | reading ticket addr c source =>
    cases hseen
    simp only [ChunkCall.exec] at hexec
    split at hexec
    · rename_i data hdata
      cases hexec
      have hstep : s.step cfg (.copyFetch N₁.length) =
          some { s with net := s.net.set N₁.length (.replicateData ticket addr c data) } := by
        simp only [step, hat]
        rw [show s.file source c = some data from hdata]
      exact ⟨_, hok.step hstep trivial, rfl, rfl, rfl, rfl, fun _ => id, s.files_self source,
        by simp [hset, Message.servedBy], by simp⟩
    · cases hexec
      exact caughtUp_of_lost hok hnet rfl (by simp [ChunkCall.read])
  | delivering ticket addr c source data =>
    cases hexec
    cases hseen
    exact ⟨s, .refl, rfl, rfl, rfl, rfl, fun _ => id, s.files_self source,
      by simp [hnet, Message.servedBy, ChunkCall.read], by simp⟩
  | copying ticket addr c data =>
    cases hexec
    cases hseen
    have hstep : s.step cfg (.copyStore N₁.length) = some { s.write addr c data with
        net := s.net.eraseIdx N₁.length, copies := ticket :: s.copies } := by
      simp only [step, hat]
    refine ⟨_, hok.step hstep trivial, rfl, rfl, rfl, rfl, fun _ => List.mem_cons_of_mem _,
      fun addr' c' => s.files_write addr addr' c c' data,
      by simp [herase, ChunkCall.store, Message.servedBy], fun ticket' addr' c' data' hm' _ => ?_⟩
    cases hm'
    exact List.mem_cons_self
  | _ => cases hexec

theorem caughtUp_of_goes {b : HandlerAction} {M : ChunkMap} (hok : OfFront ok) (hm : m.Serves q)
    (hgoes : q.Goes b (s.file m.server) M q') (hnet : s.net = N₁ ++ m₀ :: N₂)
    (hseen : m.servedBy q = some m₀) :
    ∃ s', CaughtUp cfg ok s m N₁ N₂ M q' s' := by
  rcases hgoes with hexec | ⟨_, rfl, hfail⟩
  · exact caughtUp_of_exec hok hm hexec hnet hseen
  · exact caughtUp_of_fail hok hm hfail hnet

end

end Cluster

namespace ChunkCall

theorem Goes.serves_next {m : Message} {b : HandlerAction} {q q' : ChunkCall} {M M' : ChunkMap}
    (h : q.Goes b M M' q')
    (hm : m.Serves q) : m.Serves q' := by
  cases hm with
  | storing call addr stored before x rest =>
    rcases h with h | ⟨_, _, h⟩
    · cases h
      cases rest with
      | nil => exact .stored call addr _ stored
      | cons y rest =>
        have hnext := Message.Serves.storing call addr stored (before ++ [x]) y rest
        rwa [List.append_assoc, List.singleton_append] at hnext
    · cases h
      exact .storeFailed call addr _ stored _
  | deleting addr c =>
    rcases h with h | ⟨_, _, h⟩
    · cases h
      exact .deleted addr c _
    · cases h
      exact .deleted addr c _
  | reading ticket addr c source =>
    rcases h with h | ⟨_, _, h⟩
    · simp only [exec] at h
      split at h
      · cases h
        exact .delivering ticket addr c source _
      · cases h
        exact .read ticket addr c source none
    · cases h
      exact .read ticket addr c source none
  | delivering ticket addr c source data =>
    rcases h with h | ⟨_, _, h⟩
    · cases h
      exact .read ticket addr c source (some data)
    · cases h
      exact .read ticket addr c source none
  | copying ticket addr c data =>
    rcases h with h | ⟨_, _, h⟩
    · cases h
      exact .copied ticket addr c data _
    · cases h
      exact .copied ticket addr c data _
  | _ => rcases h with h | ⟨_, _, h⟩ <;> cases h

end ChunkCall

/-! ### Requests under way -/

/-- The handler that serves the request. -/
def Delivery.key (d : Delivery) : Option (Addr × ℕ) := d.handler.map (d.message.server, ·)

/-- What the request is in the cluster, where the handlers have come to `call`. -/
def Delivery.seen (call : Addr × ℕ → Option ChunkCall) (d : Delivery) : Option Message :=
  match d.key with
  | none => some d.message
  | some x => (call x).bind d.message.servedBy

/-- Every handler that may still change a chunk serves one request under way. -/
structure Matched (call : Addr × ℕ → Option ChunkCall) (ds : List Delivery) : Prop where
  served : ∀ d ∈ ds, ∀ x, d.key = some x → ∃ q, call x = some q ∧ d.message.Serves q
  distinct : (ds.filterMap Delivery.key).Nodup
  others : ∀ x q, call x = some q → x ∈ ds.filterMap Delivery.key ∨ q.Harmless

/-- The requests are those under way in the cluster, which knows of every copy that is made. -/
structure Mirrored (call : Addr × ℕ → Option ChunkCall) (ds : List Delivery) (copies : List ℕ)
    (net : List Message) : Prop where
  net : net = ds.filterMap (Delivery.seen call)
  copied : ∀ d ∈ ds, ∀ ticket addr c data x, d.message = .replicateData ticket addr c data →
    d.key = some x → call x = some (.done .stored) → ticket ∈ copies

section

variable {d : Delivery} {ds ds' ds₁ ds₂ : List Delivery} {call call' : Addr × ℕ → Option ChunkCall}
  {x : Addr × ℕ} {q q' : ChunkCall} {m : Message} {k : ℕ} {copies : List ℕ} {net : List Message}

namespace Delivery

theorem seen_of_none (h : d.key = none) : d.seen call = some d.message := by rw [seen, h]

theorem seen_of_some (h : d.key = some x) : d.seen call = (call x).bind d.message.servedBy := by
  rw [seen, h]

theorem filterMap_seen_congr (h : ∀ d ∈ ds, ∀ x, d.key = some x → call' x = call x) :
    ds.filterMap (seen call') = ds.filterMap (seen call) := by
  refine List.filterMap_congr fun d hd => ?_
  cases hx : d.key with
  | none => rw [seen_of_none hx, seen_of_none hx]
  | some x => rw [seen_of_some hx, seen_of_some hx, h d hd x hx]

end Delivery

namespace Matched

/-- Requests are answered or lost, and the handlers that are left over change no chunk. -/
theorem shrink (h : Matched call ds) (hsub : ∀ d ∈ ds', ∀ x, d.key = some x → d ∈ ds ∧ call' x = call x)
    (hkeys : (ds'.filterMap Delivery.key).Sublist (ds.filterMap Delivery.key))
    (hothers : ∀ x q, call' x = some q → x ∈ ds'.filterMap Delivery.key ∨ q.Harmless) :
    Matched call' ds' where
  served d hd x hx := by
    obtain ⟨hin, hcall⟩ := hsub d hd x hx
    rw [hcall]
    exact h.served d hin x hx
  distinct := h.distinct.sublist hkeys
  others := hothers

/-- The request of a handler that goes on is served as before. -/
theorem goes {b : HandlerAction} {M M' : ChunkMap} (h : Matched call ds) (hq : call x = some q)
    (hgoes : q.Goes b M M' q') :
    Matched (Function.update call x (some q')) ds where
  served d hd y hy := by
    obtain ⟨qd, hqd, hserves⟩ := h.served d hd y hy
    by_cases hyx : y = x
    · subst hyx
      obtain rfl := Option.some.inj (hq.symm.trans hqd)
      exact ⟨q', Function.update_self .., hgoes.serves_next hserves⟩
    · exact ⟨qd, (Function.update_of_ne hyx ..).trans hqd, hserves⟩
  distinct := h.distinct
  others y qy hqy := by
    by_cases hyx : y = x
    · subst hyx
      rw [Function.update_self, Option.some.injEq] at hqy
      subst hqy
      exact (h.others y q hq).imp_right fun hharm => (hgoes.harmless hharm).2
    · rw [Function.update_of_ne hyx] at hqy
      exact h.others y qy hqy

/-- A handler that is yet to come serves no request. -/
theorem key_ne (h : Matched call ds) (hx : call x = none) : ∀ d ∈ ds, d.key ≠ some x := by
  intro d hd hkey
  obtain ⟨q, hq, _⟩ := h.served d hd x hkey
  rw [hx] at hq
  cases hq

/-- Where a handler serves a request, no other one is served by it. -/
theorem key_ne_of_key (h : Matched call (ds₁ ++ d :: ds₂)) (hx : d.key = some x) :
    ∀ d' ∈ ds₁ ++ ds₂, d'.key ≠ some x := by
  have hnd := h.distinct
  rw [List.filterMap_append, List.filterMap_cons_some hx, List.nodup_middle, List.nodup_cons,
    ← List.filterMap_append] at hnd
  exact fun d' hd' he => hnd.1 (List.mem_filterMap.mpr ⟨d', hd', he⟩)

/-- A request is answered or lost when its handler changes no chunk any more. -/
theorem release (h : Matched call (ds₁ ++ d :: ds₂)) (hds' : ∀ d' ∈ ds', d'.key = none)
    (hd : ∀ x q, d.key = some x → call x = some q → q.Harmless) : Matched call (ds₁ ++ ds' ++ ds₂) := by
  have hkeys : (ds₁ ++ ds' ++ ds₂).filterMap Delivery.key =
      ds₁.filterMap Delivery.key ++ ds₂.filterMap Delivery.key := by
    rw [List.filterMap_append, List.filterMap_append, List.filterMap_eq_nil_iff.mpr hds', List.append_nil]
  have hall : (ds₁ ++ d :: ds₂).filterMap Delivery.key =
      ds₁.filterMap Delivery.key ++ d.key.toList ++ ds₂.filterMap Delivery.key := by
    rw [List.filterMap_append, List.filterMap_cons]
    cases d.key <;> simp
  refine h.shrink (fun d' hd' x hx => ⟨?_, rfl⟩) ?_ fun x q hq => ?_
  · rw [List.mem_append, List.mem_append] at hd'
    rcases hd' with (hd' | hd') | hd'
    · exact List.mem_append_left _ hd'
    · rw [hds' d' hd'] at hx
      cases hx
    · exact List.mem_append_right _ (List.mem_cons_of_mem _ hd')
  · rw [hkeys, hall, List.append_assoc]
    exact (List.sublist_append_right _ _).append_left _
  · rcases h.others x q hq with hx | hharm
    · rw [hall, List.append_assoc, List.mem_append, List.mem_append, or_left_comm] at hx
      rcases hx with hx | hx
      · exact .inr (hd x q (Option.mem_toList.mp hx) hq)
      · exact .inl (by rwa [hkeys, List.mem_append])
    · exact .inr hharm

/-- A request comes in. -/
theorem receive (h : Matched call (ds₁ ++ ⟨m, none⟩ :: ds₂)) (hx : call (m.server, k) = none)
    (hserves : m.Serves q) :
    Matched (Function.update call (m.server, k) (some q)) (ds₁ ++ ⟨m, some k⟩ :: ds₂) := by
  have hnone : Delivery.key ⟨m, none⟩ = none := rfl
  have hsome : Delivery.key ⟨m, some k⟩ = some (m.server, k) := rfl
  have hkeys : ((ds₁ ++ ⟨m, some k⟩ :: ds₂).filterMap Delivery.key).Perm
      ((m.server, k) :: (ds₁ ++ ⟨m, none⟩ :: ds₂).filterMap Delivery.key) := by
    rw [List.filterMap_append, List.filterMap_cons_some hsome, List.filterMap_append,
      List.filterMap_cons_none hnone]
    exact List.perm_middle
  have hne := h.key_ne hx
  refine ⟨fun d hd x hdx => ?_, ?_, fun x qx hqx => ?_⟩
  · rw [List.mem_append, List.mem_cons, or_left_comm] at hd
    rcases hd with rfl | hd
    · obtain rfl := Option.some.inj (hsome.symm.trans hdx)
      exact ⟨q, Function.update_self .., hserves⟩
    · have hin : d ∈ ds₁ ++ ⟨m, none⟩ :: ds₂ := by
        rw [List.mem_append, List.mem_cons]
        exact hd.imp_right .inr
      have hxk : x ≠ (m.server, k) := by
        rintro rfl
        exact hne d hin hdx
      rw [Function.update_of_ne hxk]
      exact h.served d hin x hdx
  · rw [hkeys.nodup_iff, List.nodup_cons]
    refine ⟨fun hin => ?_, h.distinct⟩
    obtain ⟨d, hd, hdx⟩ := List.mem_filterMap.mp hin
    exact hne d hd hdx
  · rw [hkeys.mem_iff, List.mem_cons, or_assoc]
    by_cases hxk : x = (m.server, k)
    · exact .inl hxk
    · rw [Function.update_of_ne hxk] at hqx
      exact .inr (h.others x qx hqx)

end Matched

namespace Mirrored

/-- Requests of which the cluster sees nothing come or go. -/
theorem shrink (h : Mirrored call ds copies net)
    (hsub : ∀ d ∈ ds', ∀ x, d.key = some x → d ∈ ds ∧ call' x = call x) :
    Mirrored call' ds' copies (ds'.filterMap (Delivery.seen call)) where
  net := (Delivery.filterMap_seen_congr fun d hd x hx => (hsub d hd x hx).2).symm
  copied d hd ticket addr c data x hm hx hdone := by
    obtain ⟨hin, hcall⟩ := hsub d hd x hx
    exact h.copied d hin ticket addr c data x hm hx (hcall.symm.trans hdone)

theorem release (h : Mirrored call (ds₁ ++ d :: ds₂) copies net) (hds' : ∀ d' ∈ ds', d'.key = none) :
    Mirrored call (ds₁ ++ ds' ++ ds₂) copies ((ds₁ ++ ds' ++ ds₂).filterMap (Delivery.seen call)) := by
  refine h.shrink fun d' hd' x hx => ⟨?_, rfl⟩
  rw [List.mem_append, List.mem_append] at hd'
  rcases hd' with (hd' | hd') | hd'
  · exact List.mem_append_left _ hd'
  · rw [hds' d' hd'] at hx
    cases hx
  · exact List.mem_append_right _ (List.mem_cons_of_mem _ hd')

theorem receive (h : Mirrored call (ds₁ ++ ⟨m, none⟩ :: ds₂) copies net)
    (hm : Matched call (ds₁ ++ ⟨m, none⟩ :: ds₂)) (hx : call (m.server, k) = none)
    (hseen : m.servedBy q = some m)
    (hnot : ∀ ticket addr c data, m = .replicateData ticket addr c data → q ≠ .done .stored) :
    Mirrored (Function.update call (m.server, k) (some q)) (ds₁ ++ ⟨m, some k⟩ :: ds₂) copies net := by
  have hnone : Delivery.key ⟨m, none⟩ = none := rfl
  have hsome : Delivery.key ⟨m, some k⟩ = some (m.server, k) := rfl
  have hold : ∀ d ∈ ds₁ ++ ⟨m, none⟩ :: ds₂, ∀ x, d.key = some x →
      Function.update call (m.server, k) (some q) x = call x := by
    intro d hd x hdx
    refine Function.update_of_ne ?_ ..
    rintro rfl
    exact hm.key_ne hx d hd hdx
  constructor
  · have hself : Delivery.seen (Function.update call (m.server, k) (some q)) ⟨m, some k⟩ = some m := by
      rw [Delivery.seen_of_some hsome, Function.update_self, Option.bind_some, hseen]
    rw [h.net, ← Delivery.filterMap_seen_congr hold, List.filterMap_append, List.filterMap_append,
      List.filterMap_cons_some hself, List.filterMap_cons_some (Delivery.seen_of_none hnone)]
  · intro d hd ticket addr c data x hmd hdx hdone
    rw [List.mem_append, List.mem_cons, or_left_comm] at hd
    rcases hd with rfl | hd
    · obtain rfl := Option.some.inj (hsome.symm.trans hdx)
      rw [Function.update_self, Option.some.injEq] at hdone
      exact absurd hdone (hnot ticket addr c data hmd)
    · have hin : d ∈ ds₁ ++ ⟨m, none⟩ :: ds₂ := by
        rw [List.mem_append, List.mem_cons]
        exact hd.imp_right .inr
      exact h.copied d hin ticket addr c data x hmd hdx ((hold d hin x hdx).symm.trans hdone)

/-- A request goes on, and the cluster has followed. -/
theorem goes {cfg : Settings} {ok : Cluster → ClusterAction → Prop} {s s' : Cluster} {M : ChunkMap}
    (h : Mirrored call (ds₁ ++ d :: ds₂) s.copies net) (hm : Matched call (ds₁ ++ d :: ds₂))
    (hx : d.key = some x) (hcaught : Cluster.CaughtUp cfg ok s d.message
      (ds₁.filterMap (Delivery.seen call)) (ds₂.filterMap (Delivery.seen call)) M q' s') :
    Mirrored (Function.update call x (some q')) (ds₁ ++ d :: ds₂) s'.copies s'.net := by
  have hother : ∀ d' ∈ ds₁ ++ ds₂, ∀ y, d'.key = some y → Function.update call x (some q') y = call y := by
    intro d' hd' y hy
    refine Function.update_of_ne ?_ ..
    rintro rfl
    exact hm.key_ne_of_key hx d' hd' hy
  constructor
  · have hself : d.seen (Function.update call x (some q')) = d.message.servedBy q' := by
      rw [Delivery.seen_of_some hx, Function.update_self, Option.bind_some]
    have h₁ := Delivery.filterMap_seen_congr fun d' hd' => hother d' (List.mem_append_left ds₂ hd')
    have h₂ := Delivery.filterMap_seen_congr fun d' hd' => hother d' (List.mem_append_right ds₁ hd')
    rw [hcaught.net, List.filterMap_append, List.filterMap_cons, h₁, h₂, hself]
    cases d.message.servedBy q' <;> simp
  · intro d' hd' ticket addr c data y hmd hy hdone
    have hd := hd'
    rw [List.mem_append, List.mem_cons, or_left_comm, ← List.mem_append] at hd
    rcases hd with rfl | hd
    · obtain rfl := Option.some.inj (hx.symm.trans hy)
      rw [Function.update_self, Option.some.injEq] at hdone
      exact hcaught.copied ticket addr c data hmd hdone
    · rw [hother d' hd y hy] at hdone
      exact hcaught.copies (h.copied d' hd' ticket addr c data y hmd hy hdone)

end Mirrored

end

end GfsCluster
