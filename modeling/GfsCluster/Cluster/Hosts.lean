import GfsCluster.Cluster.Step
import GfsCluster.Storage.Linearizable

/-! The cluster with its storage servers as they are: a server has many requests at work at once,
writes a chunk file by one system call after the other, and may stop at any point. A request under
way is served by a handler of its server, and has come back only when the handler is done. What no
storage server takes part in is as in the cluster whose servers do everything at once. -/

namespace GfsCluster

open Inodes

namespace Message

/-- The server that serves the request next. The target of ReplicateChunk asks the source first. -/
def server : Message → Addr
  | .storeChunks _ addr _ _ => addr
  | .deleteChunk addr _ => addr
  | .replicateChunk _ _ _ source => source
  | .replicateData _ addr _ _ => addr

/-- What that server is asked for. -/
def request : Message → Request
  | .storeChunks _ _ chunks _ => .storeChunks chunks
  | .deleteChunk _ c => .deleteChunk c
  | .replicateChunk _ _ c _ => .getChunk c
  | .replicateData _ _ c data => .replicateChunk c (some data)

/-- StoreChunks on its way back. -/
def answered : Message → Bool
  | .storeChunks _ _ _ stored => stored ≠ 0
  | _ => false

end Message

/-- A request under way, and the handler that serves it. -/
structure Delivery where
  message : Message
  handler : Option ℕ

/-- Of `cluster` this is the naming server, the calls, and how far the query of a scrub is; its disks
and its requests under way are not used. -/
structure Hosts where
  cluster : Cluster
  servers : Addr → StorageServicer
  deliveries : List Delivery

/-- GetChunk or GetChunks. -/
def Request.reads : Request → Bool
  | .getChunk _ | .getChunks _ => true
  | _ => false

/-- The scrub goes on after its listing. -/
def ServicerAction.scrubs : ServicerAction → Bool
  | .scrubRemove _ | .scrubSync | .scrubSize | .scrubCount | .scrubTotal | .scrubError => true
  | .receive _ | .handle _ _ | .scrubList _ => false

inductive HostAction
  | remote (a : ClusterAction)
  | receive (i : ℕ)
  | get (addr : Addr) (r : ChunkRequest)
  | handle (addr : Addr) (k : ℕ) (b : HandlerAction)
  | reply (i : ℕ)
  | lose (i : ℕ)
  | scrubList (addr : Addr)
  | scrub (addr : Addr) (b : ServicerAction)
  | restart (addr : Addr)

namespace Hosts

def init : Hosts := ⟨.init, fun _ => .start Volume.empty, []⟩

variable (cfg : Settings) (h : Hosts)

/-- What the naming server and the clients see. -/
def front : Cluster := { h.cluster with net := h.deliveries.map Delivery.message }

/-- No storage server takes part. -/
def Remote : ClusterAction → Prop
  | .storeReply _ _ i => (h.deliveries[i]?).bind Delivery.handler = none
  | .storeItem _ | .deleteExec _ | .copyFetch _ | .copyStore _ | .drop _ | .scrubList _
  | .scrubRemove _ _ | .scrubStop _ => False
  | .naming _ | .createCall _ _ _ | .createReply _ | .sendBatch _ _ | .uploadFail _ _ | .commitSend _
  | .commitExec _ | .commitLost _ | .commitReply _ | .clientStop _ | .scrubQuery _ _ => True

instance (a : ClusterAction) : Decidable (h.Remote a) :=
  match a with
  | .storeReply _ _ _ => inferInstanceAs (Decidable (_ = _))
  | .storeItem _ | .deleteExec _ | .copyFetch _ | .copyStore _ | .drop _ | .scrubList _
  | .scrubRemove _ _ | .scrubStop _ => .isFalse id
  | .naming _ | .createCall _ _ _ | .createReply _ | .sendBatch _ _ | .uploadFail _ _ | .commitSend _
  | .commitExec _ | .commitLost _ | .commitReply _ | .clientStop _ | .scrubQuery _ _ => .isTrue trivial

/-- The requests under way when the cluster has taken a step: an answer has arrived, or there are
new requests. -/
def deliveriesAfter (c : Cluster) : ClusterAction → List Delivery
  | .storeReply _ _ i => h.deliveries.eraseIdx i
  | _ => h.deliveries ++ (c.net.drop h.deliveries.length).map (Delivery.mk · none)

def setServer (addr : Addr) (s : StorageServicer) : Hosts :=
  { h with servers := Function.update h.servers addr s }

/-- The handler of the request is done. -/
def answer (i : ℕ) : Message → HandlerResult → Hosts
  | .storeChunks call addr chunks _, .stored =>
    { h with deliveries := h.deliveries.set i ⟨.storeChunks call addr chunks chunks.length, none⟩ }
  | .replicateChunk ticket addr c _, .read [(_, some data)] =>
    { h with deliveries := h.deliveries.set i ⟨.replicateData ticket addr c data, none⟩ }
  | .replicateData ticket _ _ _, .stored => { h with
      cluster := { h.cluster with copies := ticket :: h.cluster.copies }
      deliveries := h.deliveries.eraseIdx i }
  | _, _ => { h with deliveries := h.deliveries.eraseIdx i }

/-- A request or an answer is lost on its way, or the target of ReplicateChunk stops waiting for
the source. -/
def losable (d : Delivery) : Bool :=
  match d.handler, d.message with
  | none, _ | some _, .replicateChunk _ _ _ _ => true
  | some k, m => ((h.servers m.server).handlers[k]?).any fun g => g.result.isSome

def step : HostAction → Option Hosts
  | .remote a =>
    if h.Remote a then (h.front.step cfg a).map fun c =>
      { h with cluster := c, deliveries := h.deliveriesAfter c a }
    else none
  | .receive i =>
    match h.deliveries[i]? with
    | some ⟨m, none⟩ =>
      if hm : m.answered = false ∧ ∀ c ∈ m.request.ids, Plain c then
        ((h.servers m.server).step (.receive ⟨m.request, hm.2⟩)).map fun s =>
          { h.setServer m.server s with
            deliveries := h.deliveries.set i ⟨m, some (h.servers m.server).handlers.length⟩ }
      else none
    | _ => none
  | .get addr r =>
    if r.request.reads = true then ((h.servers addr).step (.receive r)).map (h.setServer addr) else none
  | .handle addr k b => ((h.servers addr).step (.handle k b)).map (h.setServer addr)
  | .reply i =>
    match h.deliveries[i]? with
    | some ⟨m, some k⟩ =>
      match (h.servers m.server).handlers[k]? with
      | some (.done result) => some (h.answer i m result)
      | _ => none
    | _ => none
  | .lose i =>
    match h.deliveries[i]? with
    | some d =>
      if h.losable d = true then some { h with deliveries := h.deliveries.eraseIdx i } else none
    | none => none
  | .scrubList addr =>
    match h.cluster.scrubs addr with
    | .queried expected => ((h.servers addr).step (.scrubList expected)).map fun s =>
        { h.setServer addr s with cluster := h.cluster.setScrub addr (.removing []) }
    | _ => none
  | .scrub addr b =>
    if b.scrubs = true then ((h.servers addr).step b).map (h.setServer addr) else none
  -- the process dies with its handlers, and starts again on the same directory; what has yet to come
  -- in, and what another server reads for a copy, may still come in or be lost
  | .restart addr => some { h.setServer addr (.start (h.servers addr).disk) with
      cluster := h.cluster.setScrub addr .idle
      deliveries := h.deliveries.filter fun d => d.handler = none ∨ d.message.server ≠ addr }

/-- The ways through `step`, each with all that it does. -/
inductive StepCase : HostAction → Hosts → Prop
  | remote (a : ClusterAction) (c : Cluster) (hremote : h.Remote a) (hc : h.front.step cfg a = some c) :
    StepCase (.remote a) { h with cluster := c, deliveries := h.deliveriesAfter c a }
  | receive (i : ℕ) (m : Message) (u : StorageServicer) (hi : h.deliveries[i]? = some ⟨m, none⟩)
      (hm : m.answered = false) (hplain : ∀ c ∈ m.request.ids, Plain c)
      (hu : (h.servers m.server).step (.receive ⟨m.request, hplain⟩) = some u) :
    StepCase (.receive i) { h.setServer m.server u with
      deliveries := h.deliveries.set i ⟨m, some (h.servers m.server).handlers.length⟩ }
  | get (addr : Addr) (r : ChunkRequest) (u : StorageServicer) (hreads : r.request.reads = true)
      (hu : (h.servers addr).step (.receive r) = some u) : StepCase (.get addr r) (h.setServer addr u)
  | handle (addr : Addr) (k : ℕ) (b : HandlerAction) (u : StorageServicer)
      (hu : (h.servers addr).step (.handle k b) = some u) :
    StepCase (.handle addr k b) (h.setServer addr u)
  | reply (i : ℕ) (m : Message) (k : ℕ) (result : HandlerResult)
      (hi : h.deliveries[i]? = some ⟨m, some k⟩)
      (hk : (h.servers m.server).handlers[k]? = some (.done result)) :
    StepCase (.reply i) (h.answer i m result)
  | lose (i : ℕ) (d : Delivery) (hi : h.deliveries[i]? = some d) (hlose : h.losable d = true) :
    StepCase (.lose i) { h with deliveries := h.deliveries.eraseIdx i }
  | scrubList (addr : Addr) (expected : List ChunkId) (u : StorageServicer)
      (hp : h.cluster.scrubs addr = .queried expected)
      (hu : (h.servers addr).step (.scrubList expected) = some u) :
    StepCase (.scrubList addr)
      { h.setServer addr u with cluster := h.cluster.setScrub addr (.removing []) }
  | scrub (addr : Addr) (b : ServicerAction) (u : StorageServicer) (hb : b.scrubs = true)
      (hu : (h.servers addr).step b = some u) : StepCase (.scrub addr b) (h.setServer addr u)
  | restart (addr : Addr) :
    StepCase (.restart addr) { h.setServer addr (.start (h.servers addr).disk) with
      cluster := h.cluster.setScrub addr .idle
      deliveries := h.deliveries.filter fun d => d.handler = none ∨ d.message.server ≠ addr }

theorem case_of_step {cfg : Settings} {h t : Hosts} {a : HostAction} (hs : h.step cfg a = some t) :
    StepCase cfg h a t := by
  cases a with
  | remote a =>
    simp only [step] at hs
    split_ifs at hs with hremote
    obtain ⟨c, hc, rfl⟩ := Option.map_eq_some_iff.mp hs
    exact .remote a c hremote hc
  | receive i =>
    simp only [step] at hs
    split at hs
    · rename_i m hi
      split_ifs at hs with hm
      obtain ⟨u, hu, rfl⟩ := Option.map_eq_some_iff.mp hs
      exact .receive i m u hi hm.1 hm.2 hu
    · cases hs
  | get addr r =>
    simp only [step] at hs
    split_ifs at hs with hreads
    obtain ⟨u, hu, rfl⟩ := Option.map_eq_some_iff.mp hs
    exact .get addr r u hreads hu
  | handle addr k b =>
    obtain ⟨u, hu, rfl⟩ := Option.map_eq_some_iff.mp hs
    exact .handle addr k b u hu
  | reply i =>
    simp only [step] at hs
    split at hs
    · rename_i m k hi
      split at hs <;> cases hs
      exact .reply i m k _ hi ‹_›
    · cases hs
  | lose i =>
    simp only [step] at hs
    split at hs
    · rename_i d hi
      split_ifs at hs with hlose
      cases hs
      exact .lose i d hi hlose
    · cases hs
  | scrubList addr =>
    simp only [step] at hs
    split at hs
    · rename_i expected hp
      obtain ⟨u, hu, rfl⟩ := Option.map_eq_some_iff.mp hs
      exact .scrubList addr expected u hp hu
    · cases hs
  | scrub addr b =>
    simp only [step] at hs
    split_ifs at hs with hb
    obtain ⟨u, hu, rfl⟩ := Option.map_eq_some_iff.mp hs
    exact .scrub addr b u hb hu
  | restart addr =>
    cases hs
    exact .restart addr

/-- A step that the naming server or a client takes, or by which a scrub removes a chunk, is one that
`ok` admits in the cluster. -/
def Meets (ok : Cluster → ClusterAction → Prop) (h : Hosts) : HostAction → Prop
  | .remote a => ok h.front a
  | .scrub addr (.scrubRemove c) => ok h.front (.scrubRemove addr c)
  | _ => True

instance (ok : Cluster → ClusterAction → Prop) [∀ s a, Decidable (ok s a)] (h : Hosts) (a : HostAction) :
    Decidable (h.Meets ok a) :=
  match a with
  | .remote a => inferInstanceAs (Decidable (ok h.front a))
  | .scrub addr (.scrubRemove c) => inferInstanceAs (Decidable (ok h.front (.scrubRemove addr c)))
  | .scrub _ (.receive _) | .scrub _ (.handle _ _) | .scrub _ (.scrubList _) | .scrub _ .scrubSync
  | .scrub _ .scrubSize | .scrub _ .scrubCount | .scrub _ .scrubTotal | .scrub _ .scrubError
  | .receive _ | .get _ _ | .handle _ _ _ | .reply _ | .lose _ | .scrubList _ | .restart _ =>
    .isTrue trivial

/-- On every server, no two writes of one chunk have its temp file open at once. -/
def WritesApart (h : Hosts) : HostAction → Prop
  | .handle addr k b => StorageServicer.WritesApart (h.servers addr) (.handle k b)
  | _ => True

instance (h : Hosts) (a : HostAction) : Decidable (h.WritesApart a) :=
  match a with
  | .handle addr k b =>
    inferInstanceAs (Decidable (StorageServicer.WritesApart (h.servers addr) (.handle k b)))
  | .remote _ | .receive _ | .get _ _ | .reply _ | .lose _ | .scrubList _ | .scrub _ _ | .restart _ =>
    .isTrue trivial

/-- A step that `ok` admits, and with which no two writes of one chunk have its temp file open. -/
def Within (ok : Cluster → ClusterAction → Prop) (h : Hosts) (a : HostAction) : Prop :=
  h.WritesApart a ∧ h.Meets ok a

instance (ok : Cluster → ClusterAction → Prop) [∀ s a, Decidable (ok s a)] (h : Hosts) (a : HostAction) :
    Decidable (h.Within ok a) :=
  inferInstanceAs (Decidable (_ ∧ _))

end Hosts

end GfsCluster
