import GfsCluster.Client.Fetch
import GfsCluster.Cluster.Moves
import GfsCluster.Naming.Deletion

/-! One chunk id, one content. Whatever is in a chunk file, in an upload, or under way
between servers is the payload that the creator of the chunk assigned to it, in every
run: overwrites, deletes, repairs, late requests, crashes, cleanup and scrubs included.
A read that got any placements is then a read of one whole version. -/

namespace GfsCluster

open StepSystem

namespace Cluster

variable {cfg : Settings} {s s' t : Cluster} {a : ClusterAction} {k : ℕ} {addr : Addr} {c : ChunkId}
  {b : Bytes} {ok : Cluster → ClusterAction → Prop}

/-! ### Runs -/

def Reachable (cfg : Settings) (ok : Cluster → ClusterAction → Prop) (s : Cluster) : Prop :=
  Steps (step cfg) ok init s

/-- A run of the cluster is a run of its naming server. -/
theorem steps_naming {okn : NamingServer → NamingAction → Prop} (h : Steps (step cfg) ok s t)
    (hok : ∀ s a b, ok s a → s.Drives a b → okn s.naming b) :
    Steps (NamingServer.next cfg) okn s.naming t.naming := by
  refine Steps.project naming h fun s a s' ha hs => ?_
  rcases naming_of_step hs with he | ⟨b, out, hd, hn⟩
  · rw [he]
    exact .refl
  · exact .single (hok s a b ha hd) (by rw [NamingServer.next, hn]; rfl)

theorem Reachable.naming (h : Reachable cfg ok s) : NamingServer.Reachable cfg anyStep s.naming :=
  steps_naming h fun _ _ _ _ _ => trivial

theorem Reachable.consistent (h : Reachable cfg ok s) : s.naming.Consistent cfg := h.naming.consistent

theorem Reachable.steps (h : Reachable cfg ok s) (hst : Steps (step cfg) ok s t) :
    Reachable cfg ok t :=
  Steps.trans h hst

/-! ### Requests of calls -/

/-- A call that has begun is the request of its handler. -/
structure Requests (s : Cluster) : Prop where
  idle : ∀ k, (s.calls k).phase = .idle →
    (s.naming.creates k).phase = .idle ∧ (s.calls k).commit = .unsent
  sent : ∀ k, (s.calls k).phase ≠ .idle → (s.naming.creates k).phase ≠ .idle ∧
    (s.naming.creates k).req = createRequest (s.calls k).filename (s.calls k).data

/-- A call that has begun keeps its arguments. -/
theorem call_frame (hs : s.step cfg a = some s') (hk : (s.calls k).phase ≠ .idle) :
    (s'.calls k).filename = (s.calls k).filename ∧ (s'.calls k).data = (s.calls k).data ∧
      (s'.calls k).phase ≠ .idle := by
  cases call_of_step hs k with
  | call f data ha hp => exact absurd hp hk
  | reply resp hp hresp h' =>
    refine ⟨by rw [h'], by rw [h'], ?_⟩
    rw [h']
    simp only [afterCreateFile]
    repeat' split
    all_goals simp
  | finish ok hp hc h' =>
    rw [h']
    cases ok <;> simp
  | keep h' => rw [h']; exact ⟨rfl, rfl, hk⟩
  | upload _ _ _ _ _ _ _ _ _ h' => rw [h']; simp
  | acked _ _ _ _ _ _ _ _ _ _ h' => rw [h']; simp
  | send _ _ _ h' => rw [h']; simp
  | exec _ _ h' => rw [h']; exact ⟨rfl, rfl, hk⟩
  | lost _ h' => rw [h']; exact ⟨rfl, rfl, hk⟩
  | stop _ h' => rw [h']; simp

theorem Requests.init : Requests Cluster.init where
  idle _ _ := ⟨rfl, rfl⟩
  sent _ h := absurd rfl h

/-- A call begins together with its handler; otherwise both stay as they are. -/
theorem begin_of_step (h : Requests s) (hs : s.step cfg a = some s') (hk : (s.calls k).phase = .idle) :
    s'.calls k = s.calls k ∧ s'.naming.creates k = s.naming.creates k ∨
      ∃ f data, a = .createCall k f data ∧ s'.calls k = ⟨f, data, .requested, .unsent⟩ ∧
        s'.naming.creates k = ⟨createRequest f data, .received⟩ := by
  obtain ⟨hidle, hcommit⟩ := h.idle k hk
  by_cases ha : ∃ f data, a = .createCall k f data
  · obtain ⟨f, data, rfl⟩ := ha
    simp only [step, hk, NamingServer.step, NamingServer.createStep, hidle] at hs
    cases hs
    exact .inr ⟨f, data, rfl, by simp, by simp⟩
  · left
    constructor
    · cases call_of_step hs k with
      | keep h' => exact h'
      | call f data he => exact absurd ⟨f, data, he⟩ ha
      | reply _ hp => rw [hk] at hp; cases hp
      | upload _ _ _ _ _ _ hp => rw [hk] at hp; cases hp
      | acked _ _ _ _ _ _ hp => rw [hk] at hp; cases hp
      | send _ hp => rw [hk] at hp; cases hp
      | exec _ hc => rw [hcommit] at hc; cases hc
      | lost hc => rw [hcommit] at hc; cases hc
      | finish _ hp => rw [hk] at hp; cases hp
      | stop hp => exact absurd hk hp
    · rcases naming_of_step hs with he | ⟨b, out, hd, hn⟩
      · rw [he]
      · rcases NamingServer.idle_of_step hn hidle with he | ⟨req, rfl, _⟩
        · exact he
        · cases hd with
          | free _ hb => exact absurd hb id
          | create _ f data => exact absurd ⟨f, data, rfl⟩ ha

theorem Requests.of_step (h : Requests s) (hs : s.step cfg a = some s') : Requests s' := by
  constructor
  · intro k hk'
    have hk : (s.calls k).phase = .idle := by
      by_contra hk
      exact (call_frame hs hk).2.2 hk'
    rcases begin_of_step h hs hk with ⟨hcall, hhandler⟩ | ⟨f, data, _, hcall, _⟩
    · rw [hcall, hhandler]
      exact h.idle k hk
    · rw [hcall] at hk'
      cases hk'
  · intro k hk'
    by_cases hk : (s.calls k).phase = .idle
    · rcases begin_of_step h hs hk with ⟨hcall, _⟩ | ⟨f, data, _, hcall, hhandler⟩
      · rw [hcall] at hk'
        exact absurd hk hk'
      · rw [hcall, hhandler]
        simp
    · obtain ⟨hne, hreq⟩ := h.sent k hk
      obtain ⟨hf, hd, _⟩ := call_frame hs hk
      rw [hf, hd, ← hreq]
      rcases naming_of_step hs with he | ⟨b, out, _, hn⟩
      · rw [he]
        exact ⟨hne, rfl⟩
      · exact (NamingServer.step_req hn hne).symm

theorem Reachable.requests (h : Reachable cfg ok s) : Requests s :=
  Steps.invariant h Requests.init fun _ _ _ _ hr _ hs => hr.of_step hs

/-- A reserved handler belongs to a call that has begun. -/
theorem Requests.begun (h : Requests s) (hr : (s.naming.creates k).phase.reserved = true) :
    (s.calls k).phase ≠ .idle := by
  intro hk
  rw [(h.idle k hk).1] at hr
  cases hr

/-! ### Payloads -/

/-- `b` is what the creator of chunk `c` assigned to it. -/
def Payload (s : Cluster) (c : ChunkId) (b : Bytes) : Prop :=
  ∃ k i, ⟨c, k, i⟩ ∈ s.naming.issued ∧ (s.naming.creates k).phase.reserved = true ∧
    (splitChunks (s.calls k).data)[i]? = some b

theorem Payload.of_step (h : s.Payload c b) (hr : Requests s) (hs : s.step cfg a = some s') :
    s'.Payload c b := by
  obtain ⟨k, i, hi, hres, hb⟩ := h
  obtain ⟨_, hdata, _⟩ := call_frame hs (hr.begun hres)
  refine ⟨k, i, ?_, ?_, by rw [hdata]; exact hb⟩
  · rcases naming_of_step hs with he | ⟨_, _, _, hn⟩
    · rwa [he]
    · exact NamingServer.step_issued hn hi
  · rcases naming_of_step hs with he | ⟨_, _, _, hn⟩
    · rwa [he]
    · rwa [NamingServer.step_reserved hn hres]

/-- What a request under way carries are payloads. -/
def Message.Carries (s : Cluster) : Message → Prop
  | .storeChunks _ _ batch _ => ∀ x ∈ batch, s.Payload x.1 x.2
  | .replicateData _ _ c b => s.Payload c b
  | .deleteChunk _ _ | .replicateChunk _ _ _ _ => True

structure Carried (s : Cluster) : Prop where
  files : ∀ addr c b, s.file addr c = some b → s.Payload c b
  net : ∀ m ∈ s.net, Message.Carries s m
  uploads : ∀ k us, (s.calls k).phase = .uploading us →
    ∀ u ∈ us, ∀ batch ∈ u.todo, ∀ x ∈ batch, s.Payload x.1 x.2

/-- The answer of CreateFile assigns to each write the payload of its chunk. -/
theorem payload_of_plan {resp : CreateFileResponse} {plan : List (Addr × List (ChunkId × Bytes))}
    (hc : s.naming.Consistent cfg) (hresp : (s.naming.creates k).phase = .replied resp)
    (hok : resp.ok = true)
    (hplan : uploadPlan (splitChunks (s.calls k).data) resp.placements = some plan)
    {w : Addr × List (ChunkId × Bytes)} (hw : w ∈ plan) {x : ChunkId × Bytes} (hx : x ∈ w.2) :
    s.Payload x.1 x.2 := by
  obtain ⟨p, hp, _, hid, hb⟩ := (mem_uploadPlan hplan).mp ⟨w.2, hw, hx⟩
  have hreserved : (s.naming.creates k).phase.reserved = true := by
    rw [hresp]
    exact hok
  have hof := hc.plan k (resp.placements.map ChunkPlacement.toMeta) (by
    rw [hresp]
    simp [CreatePhase.plan, hok])
  have hissued := hof.issued_of_mem (List.mem_map_of_mem hp)
  rw [ChunkPlacement.toMeta, hid] at hissued
  exact ⟨k, p.index, hissued, hreserved, hb⟩

theorem Message.Carries.of_step {m : Message} (h : Message.Carries s m) (hr : Requests s)
    (hs : s.step cfg a = some s') : Message.Carries s' m := by
  cases m with
  | storeChunks k addr batch j => exact fun x hx => (h x hx).of_step hr hs
  | replicateData ticket addr c b => exact Payload.of_step h hr hs
  | _ => trivial

namespace Carried

theorem init : Carried Cluster.init where
  files addr c b h := by simp [Cluster.init, file] at h
  net m hm := by simp [Cluster.init] at hm
  uploads k us h := by simp [Cluster.init] at h

theorem files_of_step (h : Carried s) (hr : Requests s) (hs : s.step cfg a = some s') {addr : Addr}
    {c : ChunkId} {b : Bytes} (hb : s'.file addr c = some b) : s'.Payload c b := by
  suffices hp : s.Payload c b from hp.of_step hr hs
  cases file_of_step hs addr c with
  | keep h' => exact h.files addr c b (h' ▸ hb)
  | store i k j batch b' _ hi hj h' =>
    rw [h', Option.some.injEq] at hb
    exact hb ▸ h.net _ (List.mem_of_getElem? hi) (c, b') (List.mem_of_getElem? hj)
  | copy i ticket b' _ hi h' =>
    rw [h', Option.some.injEq] at hb
    exact hb ▸ h.net _ (List.mem_of_getElem? hi)
  | delete _ _ _ h' => rw [h'] at hb; cases hb
  | scrub _ _ _ _ h' => rw [h'] at hb; cases hb

theorem net_of_step (h : Carried s) (hr : Requests s) (hs : s.step cfg a = some s') {m : Message}
    (hm : m ∈ s'.net) : Message.Carries s' m := by
  cases Cluster.net_of_step hs hm with
  | old hm => exact (h.net m hm).of_step hr hs
  | sent k j us addr batch rest hp hj hm =>
    subst hm
    exact fun x hx => (h.uploads k us hp _ (List.mem_of_getElem? hj) batch (by simp) x hx).of_step hr hs
  | stored k addr batch j hold hm =>
    subst hm
    exact fun x hx => (h.net _ hold x hx).of_step hr hs
  | rpc b out r _ _ _ hm =>
    subst hm
    cases r <;> trivial
  | fetched ticket addr c source b _ hf hm =>
    subst hm
    exact (h.files source c b hf).of_step hr hs

theorem uploads_of_step (h : Carried s) (hr : Requests s) (hc : s.naming.Consistent cfg)
    (hs : s.step cfg a = some s') {us : List Upload} (hp' : (s'.calls k).phase = .uploading us)
    {u : Upload} (hu : u ∈ us) {batch : List (ChunkId × Bytes)} (hbatch : batch ∈ u.todo)
    {x : ChunkId × Bytes} (hx : x ∈ batch) : s'.Payload x.1 x.2 := by
  suffices hp : s.Payload x.1 x.2 from hp.of_step hr hs
  cases call_of_step hs k with
  | keep h' => exact h.uploads k us (by rw [← h', hp']) u hu batch hbatch x hx
  | call f data _ _ h' => rw [h'] at hp'; cases hp'
  | reply resp hp hresp h' =>
    rw [h'] at hp'
    simp only [afterCreateFile] at hp'
    split_ifs at hp' with hok
    split at hp'
    · rename_i plan hplan
      cases hp'
      obtain ⟨w, hw, rfl⟩ := List.mem_map.mp hu
      exact payload_of_plan hc hresp hok hplan hw (mem_uploadBatches.mp ⟨batch, hbatch, hx⟩)
    · cases hp'
  | upload j us₀ addr todo st st' hp hj _ h' =>
    rw [h'] at hp'
    cases hp'
    rcases List.mem_or_eq_of_mem_set hu with hu | rfl
    · exact h.uploads k us₀ hp u hu batch hbatch x hx
    · exact h.uploads k us₀ hp _ (List.mem_of_getElem? hj) batch hbatch x hx
  | acked j i us₀ addr batch₀ rest hp hj _ _ h' =>
    rw [h'] at hp'
    cases hp'
    rcases List.mem_or_eq_of_mem_set hu with hu | rfl
    · exact h.uploads k us₀ hp u hu batch hbatch x hx
    · exact h.uploads k us₀ hp _ (List.mem_of_getElem? hj) batch (List.mem_cons_of_mem _ hbatch) x hx
  | send _ _ _ h' => rw [h'] at hp'; cases hp'
  | exec _ _ h' => rw [h'] at hp'; exact h.uploads k us hp' u hu batch hbatch x hx
  | lost _ h' => rw [h'] at hp'; exact h.uploads k us hp' u hu batch hbatch x hx
  | finish ok _ _ h' =>
    rw [h'] at hp'
    cases ok <;> cases hp'
  | stop _ h' => rw [h'] at hp'; cases hp'

theorem of_step (h : Carried s) (hr : Requests s) (hc : s.naming.Consistent cfg)
    (hs : s.step cfg a = some s') : Carried s' where
  files _ _ _ hb := h.files_of_step hr hs hb
  net _ hm := h.net_of_step hr hs hm
  uploads _ _ hp _ hu _ hbatch _ hx := h.uploads_of_step hr hc hs hp hu hbatch hx

end Carried

theorem Reachable.carried (h : Reachable cfg ok s) : Carried s :=
  Steps.invariant h Carried.init fun _ _ _ hr hcar _ hs =>
    hcar.of_step (Reachable.requests hr) (Reachable.consistent hr) hs

end Cluster

end GfsCluster
