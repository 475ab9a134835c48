import GfsCluster.Cluster.Deliveries

/-! Every run of the cluster with its storage servers as they are is one of the cluster whose servers
do everything at once, as long as no two writes of one chunk have its temp file open together on a
server. A chunk is written when its temp file is renamed, deleted when the file is removed, and read
for a copy when the file is opened; a request whose handler has failed stays under way no longer. -/

namespace GfsCluster

open Inodes StepSystem

/-! ### Handlers of the servers -/

namespace Hosts

variable {cfg : Settings} {h h' : Hosts} {addr : Addr} {u : StorageServicer} {x : Addr × ℕ}
  {q q' : ChunkCall} {M : ChunkMap}

/-- How far the handlers of all servers have come. -/
def call (h : Hosts) (x : Addr × ℕ) : Option ChunkCall := (h.servers x.1).store.calls[x.2]?

def chunks (h : Hosts) (addr : Addr) : ChunkMap := (h.servers addr).store.chunks

theorem chunks_setServer (h : Hosts) (addr : Addr) (u : StorageServicer) :
    (h.setServer addr u).chunks = Function.update h.chunks addr u.store.chunks := by
  funext addr'
  by_cases ha : addr' = addr
  · subst ha
    simp [chunks, setServer]
  · simp [chunks, setServer, ha]

theorem call_setServer_of_eq (hu : u.store.calls = (h.servers addr).store.calls) :
    (h.setServer addr u).call = h.call := by
  funext x
  obtain ⟨addr', k⟩ := x
  by_cases ha : addr' = addr
  · subst ha
    simp [call, setServer, hu]
  · simp [call, setServer, ha]

theorem call_setServer_set {k : ℕ} (hk : h.call (addr, k) = some q)
    (hu : u.store.calls = (h.servers addr).store.calls.set k q') :
    (h.setServer addr u).call = Function.update h.call (addr, k) (some q') := by
  have hlt : k < (h.servers addr).store.calls.length := (List.getElem?_eq_some_iff.mp hk).1
  funext x
  obtain ⟨addr', k'⟩ := x
  by_cases ha : addr' = addr
  · subst ha
    by_cases hkk : k' = k
    · subst hkk
      simp [call, setServer, hu, hlt]
    · simp [call, setServer, hu, hkk, List.getElem?_set_ne (Ne.symm hkk)]
  · simp [call, setServer, ha]

theorem call_setServer_concat (hu : u.store.calls = (h.servers addr).store.calls ++ [q]) :
    (h.setServer addr u).call =
      Function.update h.call (addr, (h.servers addr).handlers.length) (some q) := by
  have hlen : (h.servers addr).handlers.length = (h.servers addr).store.calls.length := by
    simp [StorageServicer.store]
  funext x
  obtain ⟨addr', k⟩ := x
  by_cases ha : addr' = addr
  · subst ha
    by_cases hk : k = (h.servers addr').handlers.length
    · subst hk
      simp [call, setServer, hu, hlen]
    · simp only [call, setServer, Function.update_self, hu, Function.update_apply, Prod.mk.injEq,
        true_and, hk, if_false]
      rw [hlen] at hk
      rcases Nat.lt_or_gt_of_ne hk with hlt | hgt
      · rw [List.getElem?_append_left hlt]
      · rw [List.getElem?_eq_none (by simp; omega), List.getElem?_eq_none (by omega)]
  · simp [call, setServer, ha]

theorem call_setServer_of_ne {x : Addr × ℕ} (hx : x.1 ≠ addr) :
    (h.setServer addr u).call x = h.call x := by
  simp [call, setServer, hx]

theorem call_setServer_start (d : DataDir) (k : ℕ) :
    (h.setServer addr (.start d)).call (addr, k) = none := by
  simp [call, setServer, StorageServicer.store, StorageServicer.start]

/-- Nobody serves a request under a number that is yet to be given. -/
theorem call_length (h : Hosts) (addr : Addr) : h.call (addr, (h.servers addr).handlers.length) = none := by
  simp [call, StorageServicer.store]

end Hosts

namespace Hosts

/-- Nothing on the servers goes unaccounted for. -/
structure Valid (h : Hosts) : Prop where
  tidy : ∀ addr, Tidy (h.servers addr).disk (h.servers addr).handlers
  matched : Matched h.call h.deliveries

/-- A scrub in the cluster has yet to remove what the one on the server has. -/
def ScrubsAs (p : ScrubPhase) (sync : SyncPhase) (p' : ScrubPhase) : Prop :=
  match p with
  | .removing _ => ∀ orphans todo, sync = .removing orphans todo → ∃ l, p' = .removing l ∧ l.Perm todo
  | p => sync = .idle ∧ p' = p

/-- The cluster `s` has all that the hosts have. -/
structure Simulates (h : Hosts) (s : Cluster) : Prop where
  naming : s.naming = h.cluster.naming
  calls : s.calls = h.cluster.calls
  acked : s.acked = h.cluster.acked
  copies : h.cluster.copies ⊆ s.copies
  files : ∀ addr, s.file addr = h.chunks addr
  requests : Mirrored h.call h.deliveries s.copies s.net
  scrubs : ∀ addr, ScrubsAs (h.cluster.scrubs addr) (h.servers addr).scrub (s.scrubs addr)

variable {cfg : Settings} {h t : Hosts} {s : Cluster} {addr : Addr} {u : StorageServicer}
  {x : Addr × ℕ} {q q' : ChunkCall} {M : ChunkMap} {ok : Cluster → ClusterAction → Prop}

/-- The cluster admits what is admitted where the hosts are. -/
theorem Simulates.admits {a : ClusterAction} (hsim : h.Simulates s) (hok : Cluster.OfFront ok)
    (ha : ok h.front a) : ok s a :=
  hok.congr h.front s a hsim.naming hsim.calls ha

theorem tidy_setServer (hv : h.Valid) (hu : Tidy u.disk u.handlers) (addr' : Addr) :
    Tidy ((h.setServer addr u).servers addr').disk ((h.setServer addr u).servers addr').handlers := by
  by_cases ha : addr' = addr
  · subst ha
    simpa [setServer] using hu
  · simpa [setServer, ha] using hv.tidy addr'

theorem scrub_setServer (hu : u.scrub = (h.servers addr).scrub) (addr' : Addr) :
    ((h.setServer addr u).servers addr').scrub = (h.servers addr').scrub := by
  by_cases ha : addr' = addr
  · subst ha
    simpa [setServer] using hu
  · simp [setServer, ha]

/-! ### A handler goes on -/

theorem goes_of_handle (hv : h.Valid) {k : ℕ} {b : HandlerAction}
    (hs : (h.servers addr).step (.handle k b) = some u) :
    ((h.setServer addr u).call = h.call ∧ (h.setServer addr u).chunks = h.chunks) ∨
    ∃ q q' M, h.call (addr, k) = some q ∧ q.Goes b (h.chunks addr) M q' ∧
      (h.setServer addr u).call = Function.update h.call (addr, k) (some q') ∧
      (h.setServer addr u).chunks = Function.update h.chunks addr M := by
  rcases StorageServicer.store_of_handle (hv.tidy addr) hs with hsame | hstep | ⟨hb, hstep⟩
  · refine .inl ⟨call_setServer_of_eq (congrArg ChunkStore.calls hsame), ?_⟩
    rw [chunks_setServer, hsame]
    exact Function.update_eq_self addr h.chunks
  · simp only [ChunkStore.step, Option.bind_eq_some_iff, Option.map_eq_some_iff] at hstep
    obtain ⟨q, hq, ⟨M, q'⟩, hexec, hstore⟩ := hstep
    refine .inr ⟨q, q', M, hq, .inl hexec, call_setServer_set hq (congrArg ChunkStore.calls hstore).symm,
      ?_⟩
    rw [chunks_setServer, ← hstore]
  · simp only [ChunkStore.step, Option.bind_eq_some_iff, Option.map_eq_some_iff] at hstep
    obtain ⟨q, hq, q', hfail, hstore⟩ := hstep
    refine .inr ⟨q, q', _, hq, .inr ⟨hb, rfl, hfail⟩,
      call_setServer_set hq (congrArg ChunkStore.calls hstore).symm, ?_⟩
    rw [chunks_setServer, ← hstore]
    rfl

theorem scrub_of_handle {k : ℕ} {b : HandlerAction} (hs : (h.servers addr).step (.handle k b) = some u) :
    u.scrub = (h.servers addr).scrub := by
  rcases StorageServicer.cases_of_step hs with ⟨r, ha, _⟩ | ⟨k', b', g, e, _, _, _, rfl⟩ | hscrub
  · cases ha
  · rfl
  · cases hscrub

theorem valid_of_handle (hv : h.Valid) {k : ℕ} {b : HandlerAction}
    (hapart : h.WritesApart (.handle addr k b)) (hs : (h.servers addr).step (.handle k b) = some u) :
    (h.setServer addr u).Valid := by
  refine ⟨tidy_setServer hv (StorageServicer.tidy_of_step (hv.tidy addr) hapart hs), ?_⟩
  rcases goes_of_handle hv hs with ⟨hcall, _⟩ | ⟨q, q', M, hq, hgoes, hcall, _⟩
  · rw [hcall]
    exact hv.matched
  · rw [hcall]
    exact hv.matched.goes hq hgoes

/-- The request of a handler that can go on is still under way in the cluster. -/
theorem servedBy_of_goes {m : Message} {b : HandlerAction} {M' : ChunkMap} (hm : m.Serves q)
    (hgoes : q.Goes b M M' q') :
    ∃ m₀, m.servedBy q = some m₀ := by
  cases hm with
  | storing | deleting | reading | delivering | copying => exact ⟨_, rfl⟩
  | _ => rcases hgoes with h | ⟨_, _, h⟩ <;> cases h

/-- A handler that serves a request goes on, and the cluster with it. -/
theorem simulates_served {k : ℕ} {b : HandlerAction} {d : Delivery} (hok : Cluster.OfFront ok)
    (hv : h.Valid) (hsim : h.Simulates s) (hd : d ∈ h.deliveries) (hx : d.key = some (addr, k))
    (hq : h.call (addr, k) = some q) (hgoes : q.Goes b (h.chunks addr) M q')
    (hcall : (h.setServer addr u).call = Function.update h.call (addr, k) (some q'))
    (hchunks : (h.setServer addr u).chunks = Function.update h.chunks addr M)
    (hscrub : u.scrub = (h.servers addr).scrub) :
    ∃ s', Steps (Cluster.step cfg) ok s s' ∧ (h.setServer addr u).Simulates s' := by
  obtain ⟨ds₁, ds₂, hds⟩ := List.append_of_mem hd
  have hserver : d.message.server = addr := by
    obtain ⟨k', _, he⟩ := Option.map_eq_some_iff.mp hx
    exact congrArg Prod.fst he
  have hmatched := hv.matched
  have hrequests := hsim.requests
  rw [hds] at hmatched hrequests
  obtain ⟨qd, hqd, hserves⟩ := hv.matched.served d hd _ hx
  obtain rfl := Option.some.inj (hq.symm.trans hqd)
  obtain ⟨m₀, hseen⟩ := servedBy_of_goes hserves hgoes
  have hd₀ : d.seen h.call = some m₀ := by rw [Delivery.seen_of_some hx, hq, Option.bind_some, hseen]
  have hnet := hrequests.net
  rw [List.filterMap_append, List.filterMap_cons_some hd₀] at hnet
  rw [← hserver, ← hsim.files] at hgoes
  obtain ⟨s', hcaught⟩ : ∃ s', Cluster.CaughtUp cfg ok s d.message _ _ M q' s' :=
    Cluster.caughtUp_of_goes hok hserves hgoes hnet hseen
  refine ⟨s', hcaught.steps, hcaught.naming.trans hsim.naming, hcaught.calls.trans hsim.calls,
    hcaught.acked.trans hsim.acked, fun t ht => hcaught.copies (hsim.copies ht), fun addr' => ?_, ?_, ?_⟩
  · funext c
    rw [hcaught.files, hchunks, hserver, hsim.files]
    by_cases ha : addr' = addr
    · subst ha
      simp
    · simp [ha]
  · rw [hcall]
    show Mirrored _ h.deliveries _ _
    rw [hds]
    exact hrequests.goes hmatched hx hcaught
  · intro addr'
    rw [scrub_setServer hscrub, hcaught.scrubs]
    exact hsim.scrubs addr'

/-- Of a handler that serves no request under way, a reader or one whose request is lost, the cluster
sees nothing. -/
theorem simulates_harmless {k : ℕ} {b : HandlerAction} (hsim : h.Simulates s) (hharm : q.Harmless)
    (hkey : (addr, k) ∉ h.deliveries.filterMap Delivery.key) (hgoes : q.Goes b (h.chunks addr) M q')
    (hcall : (h.setServer addr u).call = Function.update h.call (addr, k) (some q'))
    (hchunks : (h.setServer addr u).chunks = Function.update h.chunks addr M)
    (hscrub : u.scrub = (h.servers addr).scrub) : (h.setServer addr u).Simulates s := by
  obtain ⟨rfl, _⟩ := hgoes.harmless hharm
  have hother : ∀ d ∈ h.deliveries, ∀ x, d.key = some x → d ∈ h.deliveries ∧
      (h.setServer addr u).call x = h.call x := by
    intro d hd x hx
    rw [hcall]
    refine ⟨hd, Function.update_of_ne ?_ ..⟩
    rintro rfl
    exact hkey (List.mem_filterMap.mpr ⟨d, hd, hx⟩)
  refine ⟨hsim.naming, hsim.calls, hsim.acked, hsim.copies, fun addr' => ?_, ?_, fun addr' => ?_⟩
  · rw [hchunks, hsim.files]
    exact congrFun (Function.update_eq_self addr h.chunks).symm addr'
  · rw [hsim.requests.net]
    exact hsim.requests.shrink hother
  · rw [scrub_setServer hscrub]
    exact hsim.scrubs addr'

theorem simulates_goes (hok : Cluster.OfFront ok) (hv : h.Valid) (hsim : h.Simulates s) {k : ℕ}
    {b : HandlerAction} (hq : h.call (addr, k) = some q) (hgoes : q.Goes b (h.chunks addr) M q')
    (hcall : (h.setServer addr u).call = Function.update h.call (addr, k) (some q'))
    (hchunks : (h.setServer addr u).chunks = Function.update h.chunks addr M)
    (hscrub : u.scrub = (h.servers addr).scrub) :
    ∃ s', Steps (Cluster.step cfg) ok s s' ∧ (h.setServer addr u).Simulates s' := by
  by_cases hkey : (addr, k) ∈ h.deliveries.filterMap Delivery.key
  · obtain ⟨d, hd, hx⟩ := List.mem_filterMap.mp hkey
    exact simulates_served hok hv hsim hd hx hq hgoes hcall hchunks hscrub
  · have hharm := (hv.matched.others _ _ hq).resolve_left hkey
    exact ⟨s, .refl, simulates_harmless hsim hharm hkey hgoes hcall hchunks hscrub⟩

theorem simulates_of_handle (hok : Cluster.OfFront ok) (hv : h.Valid) (hsim : h.Simulates s) {k : ℕ}
    {b : HandlerAction} (hs : (h.servers addr).step (.handle k b) = some u) :
    ∃ s', Steps (Cluster.step cfg) ok s s' ∧ (h.setServer addr u).Simulates s' := by
  have hscrub := scrub_of_handle hs
  rcases goes_of_handle hv hs with ⟨hcall, hchunks⟩ | ⟨q, q', M, hq, hgoes, hcall, hchunks⟩
  · refine ⟨s, .refl, hsim.naming, hsim.calls, hsim.acked, hsim.copies, ?_, ?_, fun addr' => ?_⟩
    · rw [hchunks]
      exact hsim.files
    · rw [hcall]
      exact hsim.requests
    · rw [scrub_setServer hscrub]
      exact hsim.scrubs addr'
  · exact simulates_goes hok hv hsim hq hgoes hcall hchunks hscrub

/-! ### Requests come in -/

/-- A server's step that no request under way is touched by, nor any chunk. -/
theorem untouched (hv : h.Valid) (hsim : h.Simulates s) (hu : Tidy u.disk u.handlers)
    (hcall : ∀ d ∈ h.deliveries, ∀ x, d.key = some x → (h.setServer addr u).call x = h.call x)
    (hothers : ∀ x q, (h.setServer addr u).call x = some q →
      x ∈ h.deliveries.filterMap Delivery.key ∨ q.Harmless)
    (hchunks : (h.setServer addr u).chunks = h.chunks) (hscrub : u.scrub = (h.servers addr).scrub) :
    (h.setServer addr u).Valid ∧ (h.setServer addr u).Simulates s := by
  have hsub : ∀ d ∈ h.deliveries, ∀ x, d.key = some x → d ∈ h.deliveries ∧
      (h.setServer addr u).call x = h.call x := fun d hd x hx => ⟨hd, hcall d hd x hx⟩
  refine ⟨⟨tidy_setServer hv hu, hv.matched.shrink hsub (.refl _) hothers⟩, hsim.naming, hsim.calls,
    hsim.acked, hsim.copies, ?_, ?_, fun addr' => ?_⟩
  · rw [hchunks]
    exact hsim.files
  · rw [hsim.requests.net]
    exact hsim.requests.shrink hsub
  · rw [scrub_setServer hscrub]
    exact hsim.scrubs addr'

/-- A request that a server takes in has a handler of its own. -/
theorem receive_spec {r : ChunkRequest} (hv : h.Valid) (hs : (h.servers addr).step (.receive r) = some u) :
    (h.setServer addr u).call =
        Function.update h.call (addr, (h.servers addr).handlers.length) (some r.request.call) ∧
      (h.setServer addr u).chunks = h.chunks ∧ u.scrub = (h.servers addr).scrub ∧
      Tidy u.disk u.handlers := by
  simp only [StorageServicer.step, Option.some.injEq] at hs
  subst hs
  refine ⟨call_setServer_concat ?_, ?_, rfl, (hv.tidy addr).receive r.request⟩
  · simp [StorageServicer.store, r.request.call_handler]
  · rw [chunks_setServer]
    exact Function.update_eq_self addr h.chunks

theorem of_get {r : ChunkRequest} (hv : h.Valid) (hsim : h.Simulates s) (hreads : r.request.reads = true)
    (hs : (h.servers addr).step (.receive r) = some u) :
    (h.setServer addr u).Valid ∧ (h.setServer addr u).Simulates s := by
  obtain ⟨hcall, hchunks, hscrub, hu⟩ := receive_spec hv hs
  refine untouched hv hsim hu (fun d hd x hx => ?_) (fun x q hq => ?_) hchunks hscrub
  · rw [hcall]
    refine Function.update_of_ne ?_ ..
    rintro rfl
    exact hv.matched.key_ne (h.call_length addr) d hd hx
  · rw [hcall] at hq
    by_cases hx : x = (addr, (h.servers addr).handlers.length)
    · rw [hx, Function.update_self, Option.some.injEq] at hq
      subst hq
      obtain ⟨r, hplain⟩ := r
      cases r with
      | getChunk c => exact .inr trivial
      | getChunks ids => exact .inr (ChunkCall.harmless_read [] ids)
      | _ => cases hreads
    · rw [Function.update_of_ne hx] at hq
      exact hv.matched.others x q hq

/-- A request under way comes in. -/
theorem of_receive {m : Message} {ds₁ ds₂ : List Delivery} {r : ChunkRequest} (hv : h.Valid)
    (hsim : h.Simulates s) (hds : h.deliveries = ds₁ ++ ⟨m, none⟩ :: ds₂) (hm : m.answered = false)
    (hr : r.request = m.request) (hs : (h.servers m.server).step (.receive r) = some u) :
    Valid { h.setServer m.server u with
        deliveries := ds₁ ++ ⟨m, some (h.servers m.server).handlers.length⟩ :: ds₂ } ∧
      Simulates { h.setServer m.server u with
        deliveries := ds₁ ++ ⟨m, some (h.servers m.server).handlers.length⟩ :: ds₂ } s := by
  obtain ⟨hcall, hchunks, hscrub, hu⟩ := receive_spec hv hs
  obtain ⟨hserves, hseen⟩ := m.serves_request hm
  have hmatched := hv.matched
  have hrequests := hsim.requests
  rw [hds] at hmatched hrequests
  rw [hr] at hcall
  have hnew := h.call_length m.server
  refine ⟨⟨tidy_setServer hv hu, ?_⟩, hsim.naming, hsim.calls, hsim.acked, hsim.copies, fun addr' => ?_,
    ?_, fun addr' => ?_⟩
  · show Matched (h.setServer m.server u).call _
    rw [hcall]
    exact hmatched.receive hnew hserves
  · exact (hsim.files addr').trans (congrFun hchunks addr').symm
  · show Mirrored (h.setServer m.server u).call _ _ _
    rw [hcall]
    refine hrequests.receive hmatched hnew hseen ?_
    rintro ticket addr' c data rfl
    simp [Message.request, Request.call, ChunkCall.store]
  · show ScrubsAs _ ((h.setServer m.server u).servers addr').scrub _
    rw [scrub_setServer hscrub]
    exact hsim.scrubs addr'

/-! ### Requests are answered or lost -/

theorem call_of_done {m : Message} {k : ℕ} {result : HandlerResult}
    (hk : (h.servers m.server).handlers[k]? = some (.done result)) :
    h.call (m.server, k) = some (.done result) := by
  simp [call, StorageServicer.store, hk, Handler.call]

/-- The requests under way become others that the cluster sees, or sees after it has lost some. -/
theorem of_release {d : Delivery} {ds₁ ds' ds₂ : List Delivery} {copies : List ℕ}
    (hok : Cluster.OfFront ok) (hv : h.Valid) (hsim : h.Simulates s)
    (hds : h.deliveries = ds₁ ++ d :: ds₂) (hnew : ∀ d' ∈ ds', d'.key = none)
    (hd : ∀ x q, d.key = some x → h.call x = some q → q.Harmless) (hcopies : copies ⊆ s.copies)
    (hseen : (ds'.filterMap (Delivery.seen h.call)).Sublist (d.seen h.call).toList)
    (ht : t = { h with
      cluster := { h.cluster with copies := copies }, deliveries := ds₁ ++ ds' ++ ds₂ }) :
    t.Valid ∧ ∃ s', Steps (Cluster.step cfg) ok s s' ∧ t.Simulates s' := by
  have hmatched := hv.matched
  have hrequests := hsim.requests
  rw [hds] at hmatched hrequests
  have hsub : ((ds₁ ++ ds' ++ ds₂).filterMap (Delivery.seen h.call)).Sublist s.net := by
    rw [hrequests.net, List.filterMap_append, List.filterMap_append, List.filterMap_append,
      List.filterMap_cons, List.append_assoc]
    refine .append_left ?_ _
    cases hs : d.seen h.call with
    | none =>
      rw [hs] at hseen
      rw [List.eq_nil_of_sublist_nil hseen]
      exact .refl _
    | some m =>
      rw [hs] at hseen
      exact hseen.append_right _
  subst ht
  exact ⟨⟨hv.tidy, hmatched.release hnew hd⟩, _, Cluster.steps_drop hok hsub, hsim.naming, hsim.calls,
    hsim.acked, hcopies, hsim.files, hrequests.release hnew, hsim.scrubs⟩

theorem of_answer {m : Message} {i k : ℕ} {result : HandlerResult} (hok : Cluster.OfFront ok)
    (hv : h.Valid) (hsim : h.Simulates s)
    (hi : h.deliveries[i]? = some ⟨m, some k⟩)
    (hk : (h.servers m.server).handlers[k]? = some (.done result)) :
    (h.answer i m result).Valid ∧
      ∃ s', Steps (Cluster.step cfg) ok s s' ∧ (h.answer i m result).Simulates s' := by
  obtain ⟨ds₁, ds₂, hds, herase, hset⟩ := Lists.exists_split hi
  have hcall := call_of_done hk
  have hkey : Delivery.key ⟨m, some k⟩ = some (m.server, k) := rfl
  have hd : ∀ x q, Delivery.key ⟨m, some k⟩ = some x → h.call x = some q → q.Harmless := by
    intro x q hx hq
    obtain rfl := Option.some.inj (hkey.symm.trans hx)
    rw [hcall, Option.some.injEq] at hq
    subst hq
    trivial
  have hseen : Delivery.seen h.call ⟨m, some k⟩ = m.servedBy (.done result) := by
    rw [Delivery.seen_of_some hkey, hcall, Option.bind_some]
  have hgone : ∀ copies, copies ⊆ s.copies → ∀ t : Hosts, t = { h with
      cluster := { h.cluster with copies := copies }, deliveries := h.deliveries.eraseIdx i } →
      t.Valid ∧ ∃ s', Steps (Cluster.step cfg) ok s s' ∧ t.Simulates s' := by
    intro copies hcopies t ht
    refine of_release hok hv hsim hds (List.forall_mem_nil _) hd hcopies (List.nil_sublist _) ?_
    rw [ht, herase, List.append_nil]
  have hback : ∀ m', m.servedBy (.done result) = some m' → ∀ t : Hosts,
      t = { h with deliveries := h.deliveries.set i ⟨m', none⟩ } →
      t.Valid ∧ ∃ s', Steps (Cluster.step cfg) ok s s' ∧ t.Simulates s' := by
    intro m' hm' t ht
    have hone : ∀ d' ∈ [(⟨m', none⟩ : Delivery)], d'.key = none := List.forall_mem_singleton.mpr rfl
    refine of_release hok hv hsim hds hone hd hsim.copies ?_ ?_
    · rw [hseen, hm', List.filterMap_cons_some (Delivery.seen_of_none rfl)]
      exact .refl _
    · rw [ht, hset, List.append_assoc, List.singleton_append]
  have hcopied : ∀ ticket addr c data, m = .replicateData ticket addr c data → result = .stored →
      ticket :: h.cluster.copies ⊆ s.copies := by
    rintro ticket addr c data rfl rfl
    have hin := hsim.requests.copied _ (List.mem_of_getElem? hi) ticket addr c data _ rfl hkey hcall
    exact List.cons_subset.mpr ⟨hin, hsim.copies⟩
  unfold answer
  split
  · exact hback _ rfl _ rfl
  · exact hback _ rfl _ rfl
  · exact hgone _ (hcopied _ _ _ _ rfl rfl) _ rfl
  · exact hgone _ hsim.copies _ rfl

/-- What may be lost changes no chunk any more. -/
theorem harmless_of_losable {m : Message} {k : ℕ} (hserves : m.Serves q) (hq : h.call (m.server, k) = some q)
    (hlose : h.losable ⟨m, some k⟩ = true) : q.Harmless := by
  have hdone : ((h.servers m.server).handlers[k]?).any (fun g => g.result.isSome) = true →
      q.result ≠ none := by
    intro hany
    rw [Option.any_eq_true] at hany
    obtain ⟨g, hg, hr⟩ := hany
    obtain ⟨r, hr⟩ := Option.isSome_iff_exists.mp hr
    have hcall : h.call (m.server, k) = some (g.call (h.servers m.server).disk) := by
      simp [call, StorageServicer.store, hg]
    obtain rfl := Option.some.inj (hq.symm.trans hcall)
    rw [g.result_call _ hr]
    exact Option.some_ne_none _
  cases hserves with
  | storing | deleting | copying => exact absurd rfl (hdone hlose)
  | _ => trivial

theorem of_lose {i : ℕ} {d : Delivery} (hok : Cluster.OfFront ok) (hv : h.Valid) (hsim : h.Simulates s)
    (hi : h.deliveries[i]? = some d) (hlose : h.losable d = true)
    (ht : t = { h with deliveries := h.deliveries.eraseIdx i }) :
    t.Valid ∧ ∃ s', Steps (Cluster.step cfg) ok s s' ∧ t.Simulates s' := by
  obtain ⟨ds₁, ds₂, hds, herase, _⟩ := Lists.exists_split hi
  refine of_release hok hv hsim hds (List.forall_mem_nil _) (fun x q hx hq => ?_) hsim.copies
    (List.nil_sublist _) (by rw [ht, herase, List.append_nil])
  obtain ⟨m, k⟩ := d
  cases k with
  | none => cases hx
  | some k =>
    cases hx
    obtain ⟨q', hq', hserves⟩ := hv.matched.served _ (List.mem_of_getElem? hi) _ rfl
    obtain rfl := Option.some.inj (hq.symm.trans hq')
    exact harmless_of_losable hserves hq hlose

/-! ### Scrubs and restarts -/

theorem call_of_scrub {b : ServicerAction} (hv : h.Valid) (hb : ∀ k b', b ≠ .handle k b')
    (hs : (h.servers addr).step b = some u) (hcalls : u.store.calls = (h.servers addr).store.calls) :
    (h.setServer addr u).Valid ∧ (h.setServer addr u).call = h.call := by
  have hcall : (h.setServer addr u).call = h.call := call_setServer_of_eq hcalls
  refine ⟨⟨tidy_setServer hv (StorageServicer.tidy_of_step (hv.tidy addr) ?_ hs), ?_⟩, hcall⟩
  · exact fun c k g ha => absurd ha (hb k _)
  · rw [hcall]
    exact hv.matched

theorem ScrubsAs.removing {p p' : ScrubPhase} {sync : SyncPhase} (h : ScrubsAs p sync p')
    (hsync : sync ≠ .idle) : ∃ orphans, p = .removing orphans := by
  cases p with
  | removing orphans => exact ⟨orphans, rfl⟩
  | _ => exact absurd h.1 hsync

/-- The scrubs of the other servers are where they were. -/
theorem scrubs_setServer {scrubs scrubs' : Addr → ScrubPhase} (hsim : h.Simulates s)
    (hself : ScrubsAs (scrubs addr) u.scrub (scrubs' addr))
    (hother : ∀ addr', addr' ≠ addr →
      scrubs addr' = h.cluster.scrubs addr' ∧ scrubs' addr' = s.scrubs addr') (addr' : Addr) :
    ScrubsAs (scrubs addr') ((h.setServer addr u).servers addr').scrub (scrubs' addr') := by
  by_cases ha : addr' = addr
  · subst ha
    simpa [setServer] using hself
  · obtain ⟨hp, hp'⟩ := hother addr' ha
    simpa [setServer, ha, hp, hp'] using hsim.scrubs addr'

/-- The listing finds the same chunk files. -/
theorem keys_perm (hsim : h.Simulates s) (addr : Addr) :
    (s.disks addr).keys.Perm (h.servers addr).disk.heldChunkIds := by
  refine (List.perm_ext_iff_of_nodup (AList.keys_nodup _) (DataDir.nodup_heldChunkIds _)).mpr fun c => ?_
  rw [DataDir.mem_heldChunkIds, AList.mem_keys.symm, ← AList.lookup_isSome, ← Option.ne_none_iff_isSome]
  have hfile := congrFun (hsim.files addr) c
  rw [show s.file addr c = (s.disks addr).lookup c from rfl] at hfile
  rw [hfile]
  rfl

theorem chunks_of_store (hu : u.store = (h.servers addr).store) : (h.setServer addr u).chunks = h.chunks := by
  rw [chunks_setServer, hu]
  exact Function.update_eq_self addr h.chunks

theorem of_scrubList {expected : List ChunkId} (hok : Cluster.OfFront ok) (hv : h.Valid)
    (hsim : h.Simulates s)
    (hp : h.cluster.scrubs addr = .queried expected)
    (hs : (h.servers addr).step (.scrubList expected) = some u)
    (ht : t = { h.setServer addr u with cluster := h.cluster.setScrub addr (.removing []) }) :
    t.Valid ∧ ∃ s', Steps (Cluster.step cfg) ok s s' ∧ t.Simulates s' := by
  have hphase : s.scrubs addr = .queried expected := by
    have hscrub := hsim.scrubs addr
    rw [hp] at hscrub
    exact hscrub.2
  have hstep : s.step cfg (.scrubList addr) =
      some (s.setScrub addr (.removing ((s.disks addr).keys.filter (· ∉ expected)))) := by
    simp only [Cluster.step, hphase]
  obtain ⟨sync, rfl, hsync⟩ : ∃ sync, u = { h.servers addr with scrub := sync } ∧
      ∀ orphans todo, sync = .removing orphans todo →
        todo = (h.servers addr).disk.heldChunkIds.filter (· ∉ expected) := by
    simp only [StorageServicer.step] at hs
    split at hs
    · cases hs
      refine ⟨_, rfl, fun orphans todo he => ?_⟩
      split_ifs at he
      cases he
      rfl
    · cases hs
  obtain ⟨hvalid, hcall⟩ := call_of_scrub hv (by simp) hs rfl
  have hchunks : (h.setServer addr { h.servers addr with scrub := sync }).chunks = h.chunks :=
    chunks_of_store rfl
  subst ht
  refine ⟨⟨hvalid.tidy, hvalid.matched⟩, _, hok.step hstep trivial, hsim.naming, hsim.calls, hsim.acked,
    hsim.copies, fun addr' => (hsim.files addr').trans (congrFun hchunks addr').symm, ?_, ?_⟩
  · show Mirrored (h.setServer addr { h.servers addr with scrub := sync }).call _ _ _
    rw [hcall]
    exact hsim.requests
  · refine scrubs_setServer hsim ?_ fun addr' ha => ⟨Function.update_of_ne ha .., Function.update_of_ne ha ..⟩
    show ScrubsAs ((h.cluster.setScrub addr _).scrubs addr) sync ((s.setScrub addr _).scrubs addr)
    rw [Cluster.scrubs_setScrub, Cluster.scrubs_setScrub]
    intro orphans todo he
    refine ⟨_, rfl, ?_⟩
    rw [hsync orphans todo he]
    exact (keys_perm hsim addr).filter _

theorem scrubMoves_of_step {b : ServicerAction} (hs : (h.servers addr).step b = some u)
    (hreceive : ∀ r, b ≠ .receive r) (hhandle : ∀ k b', b ≠ .handle k b') :
    StorageServicer.ScrubMoves (h.servers addr) b u := by
  rcases StorageServicer.cases_of_step hs with ⟨r, hb, _⟩ | ⟨k, b', _, _, hb, _⟩ | hmoves
  · exact absurd hb (hreceive r)
  · exact absurd hb (hhandle k b')
  · exact hmoves

/-- The scrub of a server removes a file, and the cluster's scrub removes it. -/
theorem of_scrubRemove {c : ChunkId} (hok : Cluster.OfFront ok) (hv : h.Valid) (hsim : h.Simulates s)
    (hmeets : h.Meets ok (.scrub addr (.scrubRemove c)))
    (hs : (h.servers addr).step (.scrubRemove c) = some u) : (h.setServer addr u).Valid ∧
      ∃ s', Steps (Cluster.step cfg) ok s s' ∧ (h.setServer addr u).Simulates s' := by
  have hstore := StorageServicer.store_of_scrubRemove hs
  obtain ⟨hvalid, hcall⟩ := call_of_scrub hv (by simp) hs (by rw [hstore])
  obtain ⟨orphans, todo, hold, hc, hnew⟩ : ∃ orphans todo,
      (h.servers addr).scrub = .removing orphans todo ∧ c ∈ todo ∧
        u.scrub = .removing orphans (todo.erase c) := by
    cases scrubMoves_of_step hs (by simp) (by simp) with
    | remove _ hs' hc _ => exact ⟨_, _, hs', hc, rfl⟩
  have hphase := hsim.scrubs addr
  obtain ⟨l, hl⟩ := hphase.removing (by simp [hold])
  rw [hl] at hphase
  obtain ⟨l', hl', hperm⟩ := hphase orphans todo hold
  have hstep : s.step cfg (.scrubRemove addr c) = some { (s.remove addr c).setScrub addr
      (.removing (l'.erase c)) with scrubbed := s.scrubbed ++ [(addr, c)] } := by
    simp only [Cluster.step, hl', if_pos (hperm.mem_iff.mpr hc)]
  have hadmit : ok s (.scrubRemove addr c) := hsim.admits hok hmeets
  refine ⟨hvalid, _, .single hadmit hstep, hsim.naming, hsim.calls, hsim.acked, hsim.copies,
    fun addr' => ?_, ?_, ?_⟩
  · funext c'
    rw [chunks_setServer, hstore]
    refine (s.files_remove addr addr' c c').trans ?_
    rw [hsim.files, hsim.files]
    by_cases ha : addr' = addr
    · subst ha
      simp [chunks, StorageServicer.store]
    · simp [ha]
  · rw [hcall]
    exact hsim.requests
  · refine scrubs_setServer hsim ?_ fun addr' ha => ⟨rfl, Function.update_of_ne ha ..⟩
    show ScrubsAs (h.cluster.scrubs addr) u.scrub (((s.remove addr c).setScrub addr _).scrubs addr)
    rw [Cluster.scrubs_setScrub, hnew, hl]
    intro orphans' todo' he
    cases he
    exact ⟨_, rfl, hperm.erase c⟩

/-- The cluster sees nothing of the other steps of a scrub. -/
theorem of_scrubMoves {b : ServicerAction} (hv : h.Valid) (hsim : h.Simulates s)
    (hb : b.scrubs = true) (hremove : ∀ c, b ≠ .scrubRemove c) (hhandle : ∀ k b', b ≠ .handle k b')
    (hs : (h.servers addr).step b = some u) : (h.setServer addr u).Valid ∧
      ∃ s', Steps (Cluster.step cfg) ok s s' ∧ (h.setServer addr u).Simulates s' := by
  have hmoves := scrubMoves_of_step hs (by rintro r rfl; cases hb) hhandle
  have hstore := StorageServicer.store_of_scrubMoves hmoves hremove
  obtain ⟨hvalid, hcall⟩ := call_of_scrub hv hhandle hs (congrArg ChunkStore.calls hstore)
  have hphase := hsim.scrubs addr
  obtain ⟨⟨l, hl⟩, hnew⟩ : (∃ l, h.cluster.scrubs addr = .removing l) ∧
      ∀ orphans todo, u.scrub ≠ .removing orphans todo := by
    cases hmoves with
    | list => cases hb
    | remove c => exact absurd rfl (hremove c)
    | error hs' => exact ⟨hphase.removing hs', by simp⟩
    | sync hs' | size hs' | count hs' | total hs' =>
      exact ⟨hphase.removing (by simp [hs']), by simp⟩
  refine ⟨hvalid, s, .refl, hsim.naming, hsim.calls, hsim.acked, hsim.copies, fun addr' => ?_, ?_,
    fun addr' => ?_⟩
  · rw [hsim.files addr']
    exact congrFun (chunks_of_store hstore).symm addr'
  · rw [hcall]
    exact hsim.requests
  · have hself : ScrubsAs (h.cluster.scrubs addr) u.scrub (s.scrubs addr) := by
      rw [hl]
      exact fun orphans todo he => absurd he (hnew orphans todo)
    exact scrubs_setServer hsim hself (fun addr' _ => ⟨rfl, rfl⟩) addr'

/-- The scrub goes on to another phase, or removes a chunk. -/
theorem of_scrub {b : ServicerAction} (hok : Cluster.OfFront ok) (hv : h.Valid) (hsim : h.Simulates s)
    (hmeets : h.Meets ok (.scrub addr b)) (hb : b.scrubs = true)
    (hs : (h.servers addr).step b = some u) : (h.setServer addr u).Valid ∧
      ∃ s', Steps (Cluster.step cfg) ok s s' ∧ (h.setServer addr u).Simulates s' := by
  by_cases hremove : ∃ c, b = .scrubRemove c
  · obtain ⟨c, rfl⟩ := hremove
    exact of_scrubRemove hok hv hsim hmeets hs
  · refine of_scrubMoves hv hsim hb (fun c hc => hremove ⟨c, hc⟩) ?_ hs
    rintro k b' rfl
    cases hb

/-- The process of a server starts again: its handlers are gone, and with them the requests that they
served. -/
theorem of_restart (hok : Cluster.OfFront ok) (hv : h.Valid) (hsim : h.Simulates s)
    (hs : h.step cfg (.restart addr) = some t) :
    t.Valid ∧ ∃ s', Steps (Cluster.step cfg) ok s s' ∧ t.Simulates s' := by
  cases hs
  set u : StorageServicer := .start (h.servers addr).disk with hu
  set ds' := h.deliveries.filter fun d => d.handler = none ∨ d.message.server ≠ addr with hds'
  have hserver : ∀ (d : Delivery) x, d.key = some x → d.message.server = x.1 ∧ d.handler ≠ none := by
    intro d x hx
    obtain ⟨k, hk, rfl⟩ := Option.map_eq_some_iff.mp hx
    exact ⟨rfl, by simp [hk]⟩
  have hsub : ∀ d ∈ ds', ∀ x, d.key = some x →
      d ∈ h.deliveries ∧ (h.setServer addr u).call x = h.call x := by
    intro d hd x hx
    obtain ⟨hd, hkeep⟩ := List.mem_filter.mp hd
    obtain ⟨hx₁, hhandler⟩ := hserver d x hx
    refine ⟨hd, call_setServer_of_ne ?_⟩
    rw [← hx₁]
    exact (of_decide_eq_true hkeep).resolve_left hhandler
  have hothers : ∀ x q, (h.setServer addr u).call x = some q →
      x ∈ ds'.filterMap Delivery.key ∨ q.Harmless := by
    intro x q hq
    have hx : x.1 ≠ addr := by
      rintro rfl
      rw [hu, call_setServer_start] at hq
      cases hq
    rw [call_setServer_of_ne hx] at hq
    refine (hv.matched.others x q hq).imp_left fun hin => ?_
    obtain ⟨d, hd, hkey⟩ := List.mem_filterMap.mp hin
    have hkeep : d.message.server ≠ addr := (hserver d x hkey).1 ▸ hx
    exact List.mem_filterMap.mpr ⟨d, List.mem_filter.mpr ⟨hd, by simp [hkeep]⟩, hkey⟩
  have hstop : s.step cfg (.scrubStop addr) = some (s.setScrub addr .idle) := rfl
  have hnet : (ds'.filterMap (Delivery.seen h.call)).Sublist (s.setScrub addr .idle).net := by
    show (ds'.filterMap (Delivery.seen h.call)).Sublist s.net
    rw [hsim.requests.net]
    exact List.filter_sublist.filterMap _
  have hmatched := hv.matched.shrink hsub (List.filter_sublist.filterMap _) hothers
  refine ⟨⟨tidy_setServer hv (Tidy.start _), hmatched⟩, _,
    (hok.step hstop trivial).trans (Cluster.steps_drop hok hnet), hsim.naming, hsim.calls, hsim.acked,
    hsim.copies, fun addr' => ?_, hsim.requests.shrink hsub, ?_⟩
  · have hchunks : (h.setServer addr u).chunks = h.chunks := by
      rw [chunks_setServer]
      exact Function.update_eq_self addr h.chunks
    exact (hsim.files addr').trans (congrFun hchunks addr').symm
  · refine scrubs_setServer hsim ?_ fun addr' ha => ⟨Function.update_of_ne ha .., Function.update_of_ne ha ..⟩
    show ScrubsAs ((h.cluster.setScrub addr _).scrubs addr) .idle ((s.setScrub addr _).scrubs addr)
    rw [Cluster.scrubs_setScrub, Cluster.scrubs_setScrub]
    exact ⟨rfl, rfl⟩

/-! ### The naming server and the clients -/

theorem of_withoutServers {a : ClusterAction} {c : Cluster} (hok : Cluster.OfFront ok) (hv : h.Valid)
    (hsim : h.Simulates s) (hmeets : ok h.front a) (ha : Cluster.WithoutServers a)
    (hs : h.front.step cfg a = some c)
    (ht : t = { h with cluster := c, deliveries := h.deliveriesAfter c a }) :
    t.Valid ∧ ∃ s', Steps (Cluster.step cfg) ok s s' ∧ t.Simulates s' := by
  obtain ⟨new, hnew, hcopies, hscrubs, hstep⟩ :=
    Cluster.step_withoutServers hs ha s.disks s.scrubs s.net hsim.copies s.scrubbed
  have hfront : s = { h.front with
      disks := s.disks, scrubs := s.scrubs, net := s.net, copies := s.copies, scrubbed := s.scrubbed } := by
    obtain ⟨naming, calls, disks, scrubs, net, copies, acked, scrubbed⟩ := s
    obtain ⟨rfl, rfl, rfl, _⟩ := hsim
    rfl
  rw [← hfront] at hstep
  have hds : h.deliveriesAfter c a = h.deliveries ++ new.map (Delivery.mk · none) := by
    have hdrop : c.net.drop h.deliveries.length = new := by
      rw [hnew, front]
      simp
    cases a with
    | storeReply => exact ha.elim
    | _ => exact congrArg (fun l => h.deliveries ++ l.map (Delivery.mk · none)) hdrop
  have hsub : ∀ d ∈ h.deliveries ++ new.map (Delivery.mk · none), ∀ x, d.key = some x →
      d ∈ h.deliveries ∧ h.call x = h.call x := by
    intro d hd x hx
    refine ⟨(List.mem_append.mp hd).resolve_right fun hin => ?_, rfl⟩
    obtain ⟨m, _, rfl⟩ := List.mem_map.mp hin
    cases hx
  have hkeys : (h.deliveries ++ new.map (Delivery.mk · none)).filterMap Delivery.key =
      h.deliveries.filterMap Delivery.key := by
    have hnone : (new.map (Delivery.mk · none)).filterMap Delivery.key = [] := by
      simp [Delivery.key]
    rw [List.filterMap_append, hnone, List.append_nil]
  have hseen : (h.deliveries ++ new.map (Delivery.mk · none)).filterMap (Delivery.seen h.call) =
      s.net ++ new := by
    rw [List.filterMap_append, hsim.requests.net, List.filterMap_map]
    congr 1
    exact List.filterMap_some
  rw [ht, hds]
  refine ⟨⟨hv.tidy, hv.matched.shrink hsub (by rw [hkeys]) fun x q hq => ?_⟩, _,
    .single (hsim.admits hok hmeets) hstep, rfl, rfl, rfl, ?_, hsim.files, ?_,
    fun addr => ?_⟩
  · rw [hkeys]
    exact hv.matched.others x q hq
  · show c.copies ⊆ s.copies
    rw [hcopies]
    exact hsim.copies
  · have hmir := hsim.requests.shrink hsub
    rwa [hseen] at hmir
  · show ScrubsAs (c.scrubs addr) _ _
    rw [hscrubs]
    exact hsim.scrubs addr

/-- An answer arrives that a handler has given. -/
theorem of_storeReply {k j i : ℕ} {us : List Upload} {addr : Addr} {batch : List (ChunkId × Bytes)}
    {rest : List (List (ChunkId × Bytes))} (hok : Cluster.OfFront ok) (hv : h.Valid) (hsim : h.Simulates s)
    (hmeets : ok h.front (.storeReply k j i)) (hremote : h.Remote (.storeReply k j i))
    (hp : (h.cluster.calls k).phase = .uploading us)
    (hi : h.front.net[i]? = some (.storeChunks k addr batch batch.length))
    (hj : us[j]? = some ⟨addr, batch :: rest, .waiting⟩)
    (ht : t = { h with
      cluster := { h.front.setPhase k (.uploading (us.set j ⟨addr, rest, .ready⟩)) with
        net := h.front.net.eraseIdx i
        acked := h.front.acked ++ batch.map fun x => (x.1, addr, x.2) }
      deliveries := h.deliveries.eraseIdx i }) :
    t.Valid ∧ ∃ s', Steps (Cluster.step cfg) ok s s' ∧ t.Simulates s' := by
  obtain ⟨⟨m, handler⟩, hd, hm⟩ : ∃ d, h.deliveries[i]? = some d ∧
      d.message = .storeChunks k addr batch batch.length := by
    rwa [front, List.getElem?_map, Option.map_eq_some_iff] at hi
  obtain rfl : m = .storeChunks k addr batch batch.length := hm
  obtain rfl : handler = none := by rwa [Remote, hd] at hremote
  obtain ⟨ds₁, ds₂, hds, herase, _⟩ := Lists.exists_split hd
  have hmatched := hv.matched
  have hrequests := hsim.requests
  rw [hds] at hmatched hrequests
  have hnet := hrequests.net
  rw [List.filterMap_append, List.filterMap_cons_some (Delivery.seen_of_none rfl)] at hnet
  set N₁ := ds₁.filterMap (Delivery.seen h.call)
  have hat : s.net[N₁.length]? = some (.storeChunks k addr batch batch.length) := by simp [hnet]
  have hp' : (s.calls k).phase = .uploading us := by rwa [hsim.calls]
  have hstep : s.step cfg (.storeReply k j N₁.length) =
      some { s.setPhase k (.uploading (us.set j ⟨addr, rest, .ready⟩)) with
        net := s.net.eraseIdx N₁.length
        acked := s.acked ++ batch.map fun x => (x.1, addr, x.2) } := by
    simp [Cluster.step, hp', hat, hj]
  have hnone : ∀ d' ∈ ([] : List Delivery), d'.key = none := by simp
  have hleft : ds₁ ++ [] ++ ds₂ = h.deliveries.eraseIdx i := by rw [herase, List.append_nil]
  have hseen : (ds₁ ++ [] ++ ds₂).filterMap (Delivery.seen h.call) = s.net.eraseIdx N₁.length := by
    rw [hnet, List.append_nil, List.filterMap_append, List.eraseIdx_append_of_length_le le_rfl]
    simp [N₁]
  have hmatched' := hmatched.release hnone (by rintro x q ⟨⟩)
  have hmir := hrequests.release hnone
  rw [hleft] at hmatched'
  rw [hseen, hleft] at hmir
  subst ht
  have hadmit := hok.reply _ _ _ _ N₁.length (hsim.admits hok hmeets)
  refine ⟨⟨hv.tidy, hmatched'⟩, _, .single hadmit hstep, hsim.naming, ?_, ?_, hsim.copies, hsim.files,
    hmir, hsim.scrubs⟩
  · simp only [Cluster.setPhase, front, hsim.calls]
  · simp only [front, hsim.acked]

theorem of_scrubQuery {o : RowOrder} (hok : Cluster.OfFront ok) (hv : h.Valid) (hsim : h.Simulates s)
    (hmeets : ok h.front (.scrubQuery addr o)) (hp : h.cluster.scrubs addr = .idle)
    (ht : t = { h with
      cluster := h.front.setScrub addr (.queried (listChunkIdsFor (o.view h.front.naming.db) addr))
      deliveries := h.deliveries ++ (h.front.net.drop h.deliveries.length).map (Delivery.mk · none) }) :
    t.Valid ∧ ∃ s', Steps (Cluster.step cfg) ok s s' ∧ t.Simulates s' := by
  have hphase : s.scrubs addr = .idle ∧ (h.servers addr).scrub = .idle := by
    have hscrub := hsim.scrubs addr
    rw [hp] at hscrub
    exact hscrub.symm
  have hstep : s.step cfg (.scrubQuery addr o) =
      some (s.setScrub addr (.queried (listChunkIdsFor (o.view h.cluster.naming.db) addr))) := by
    simp only [Cluster.step, hphase.1, hsim.naming]
  have hnone : h.front.net.drop h.deliveries.length = [] := by simp [front]
  rw [hnone, List.map_nil, List.append_nil] at ht
  subst ht
  have hadmit := hsim.admits hok hmeets
  refine ⟨⟨hv.tidy, hv.matched⟩, _, .single hadmit hstep, hsim.naming, hsim.calls, hsim.acked, hsim.copies,
    hsim.files, hsim.requests, fun addr' => ?_⟩
  show ScrubsAs ((h.cluster.setScrub addr _).scrubs addr') _ ((s.setScrub addr _).scrubs addr')
  by_cases ha : addr' = addr
  · subst ha
    rw [Cluster.scrubs_setScrub, Cluster.scrubs_setScrub]
    exact ⟨hphase.2, rfl⟩
  · rw [Cluster.scrubs_setScrub_of_ne _ _ ha, Cluster.scrubs_setScrub_of_ne _ _ ha]
    exact hsim.scrubs addr'

theorem of_remote {a : ClusterAction} {c : Cluster} (hok : Cluster.OfFront ok) (hv : h.Valid)
    (hsim : h.Simulates s) (hmeets : ok h.front a) (hremote : h.Remote a) (hs : h.front.step cfg a = some c)
    (ht : t = { h with cluster := c, deliveries := h.deliveriesAfter c a }) :
    t.Valid ∧ ∃ s', Steps (Cluster.step cfg) ok s s' ∧ t.Simulates s' := by
  by_cases ha : Cluster.WithoutServers a
  · exact of_withoutServers hok hv hsim hmeets ha hs ht
  cases Cluster.case_of_step hs with
  | storeReply k j i us addr batch rest hp hi hj =>
    exact of_storeReply hok hv hsim hmeets hremote hp hi hj ht
  | scrubQuery addr o hp => exact of_scrubQuery hok hv hsim hmeets hp ht
  | storeItem | deleteExec | copyFetch | copyGone | copyStore | drop | scrubList | scrubRemove
  | scrubStop => exact hremote.elim
  | _ => exact absurd trivial ha

/-- One step of the hosts is one of the cluster, or several, or none. -/
theorem of_step {a : HostAction} (hok : Cluster.OfFront ok) (hv : h.Valid) (hsim : h.Simulates s)
    (hapart : h.WritesApart a) (hmeets : h.Meets ok a) (hs : h.step cfg a = some t) :
    t.Valid ∧ ∃ s', Steps (Cluster.step cfg) ok s s' ∧ t.Simulates s' := by
  cases case_of_step hs with
  | remote a c hremote hc => exact of_remote hok hv hsim hmeets hremote hc rfl
  | receive i m u hi hm _ hu =>
    obtain ⟨ds₁, ds₂, hds, _, hset⟩ := Lists.exists_split hi
    obtain ⟨hv', hsim'⟩ := of_receive hv hsim hds hm rfl hu
    rw [hset]
    exact ⟨hv', s, .refl, hsim'⟩
  | get addr r u hreads hu =>
    obtain ⟨hv', hsim'⟩ := of_get hv hsim hreads hu
    exact ⟨hv', s, .refl, hsim'⟩
  | handle addr k b u hu => exact ⟨valid_of_handle hv hapart hu, simulates_of_handle hok hv hsim hu⟩
  | reply i m k result hi hk => exact of_answer hok hv hsim hi hk
  | lose i d hi hlose => exact of_lose hok hv hsim hi hlose rfl
  | scrubList addr expected u hp hu => exact of_scrubList hok hv hsim hp hu rfl
  | scrub addr b u hb hu => exact of_scrub hok hv hsim hmeets hb hu
  | restart addr => exact of_restart hok hv hsim hs

theorem valid_init : init.Valid where
  tidy _ := Tidy.start _
  matched := ⟨by simp [init], by simp [init], fun x q hq => by simp [call, init, StorageServicer.store,
    StorageServicer.start] at hq⟩

theorem simulates_init : init.Simulates .init where
  naming := rfl
  calls := rfl
  acked := rfl
  copies := List.Subset.refl _
  files _ := rfl
  requests := ⟨rfl, by simp [init]⟩
  scrubs _ := ⟨rfl, rfl⟩

theorem meets_anyStep (h : Hosts) (a : HostAction) : h.Meets anyStep a := by
  unfold Meets
  split <;> trivial

/-- The cluster has done all that the hosts have. -/
def Follows (h : Hosts) (s : Cluster) : Prop := h.Valid ∧ h.Simulates s

theorem follows_init : init.Follows .init := ⟨valid_init, simulates_init⟩

/-- The cluster whose servers do everything at once can do whatever the hosts do while no two writes of
one chunk have its temp file open together on a server, and meets the conditions that the hosts meet. -/
theorem Follows.steps (hok : Cluster.OfFront ok) (hfollow : h.Follows s)
    (hrun : Steps (step cfg) (Within ok) h t) : ∃ s', Steps (Cluster.step cfg) ok s s' ∧ t.Follows s' :=
  hrun.simulate hfollow fun _ _ _ _ hfollow hwithin hstep => by
    obtain ⟨hv, s', hs', hsim⟩ := of_step hok hfollow.1 hfollow.2 hwithin.1 hwithin.2 hstep
    exact ⟨s', hs', hv, hsim⟩

theorem exists_follows (hok : Cluster.OfFront ok) (hrun : Steps (step cfg) (Within ok) init h) :
    ∃ s, Cluster.Reachable cfg ok s ∧ h.Follows s :=
  follows_init.steps hok hrun

/-- What is in a chunk file is then all of the piece that the chunk was made for. -/
theorem whole_of_run (hrun : Steps (step cfg) WritesApart init h) {addr : Addr} {c : ChunkId} {b : Bytes}
    (hb : (h.servers addr).disk.content (path c) = some b) :
    ∃ k i, ⟨c, k, i⟩ ∈ h.cluster.naming.issued ∧
      (splitChunks (h.cluster.calls k).data)[i]? = some b := by
  have hany : Steps (step cfg) (Within anyStep) init h :=
    hrun.mono fun h a hapart => ⟨hapart, meets_anyStep h a⟩
  obtain ⟨s, hreach, _, hsim⟩ := exists_follows Cluster.ofFront_anyStep hany
  have hfile : s.file addr c = some b := (congrFun (hsim.files addr) c).trans hb
  obtain ⟨k, i, hissued, _, hpiece⟩ := hreach.carried.files addr c b hfile
  rw [hsim.naming] at hissued
  rw [hsim.calls] at hpiece
  exact ⟨k, i, hissued, hpiece⟩

/-- One chunk is uploaded step by step, and read meanwhile. -/
example : ((run (guarded (step ⟨1, 60⟩) WritesApart) init
    [.remote (.naming (.registerStorage ['s'])), .remote (.createCall 0 ['f'] [7]),
      .remote (.naming (.create 0 .checkLive)), .remote (.naming (.create 0 (.selectFile .table))),
      .remote (.naming (.create 0 (.place ['c']))), .remote (.naming (.create 0 (.reserve 0))),
      .remote (.createReply 0), .remote (.sendBatch 0 0), .receive 0, .handle ['s'] 0 .probe,
      .handle ['s'] 0 .creat, .get ['s'] ⟨.getChunk ['c'], by decide⟩, .handle ['s'] 1 .openRead,
      .handle ['s'] 0 (.write 1), .handle ['s'] 0 .rename, .handle ['s'] 0 .count, .reply 0,
      .remote (.storeReply 0 0 0), .remote (.commitSend 0), .remote (.commitExec 0),
      .remote (.commitReply 0)]).map fun h =>
        ((h.cluster.calls 0).commit, (h.servers ['s']).disk.content (path ['c']),
          (h.servers ['s']).handlers)) =
    some (.answered true, some [7], [.done .stored, .done (.read [(['c'], none)])]) := by
  decide +kernel

end Hosts

end GfsCluster
