import GfsCluster.Cluster.Accounting

/-! No orphans. Creates, overwrites, aborted creates, deletes and cleanups follow one another,
and each ends with its deletions executed: then no server has a chunk file that is not
recorded for it. Only one operation at a time holds what it has read of a file, which is
what disk accounting asks for. -/

namespace GfsCluster

open StepSystem

namespace NamingServer

variable {cfg : Settings} {n n' : NamingServer} {a : NamingAction} {out : List StorageRpc} {k : ℕ}
  {d : Deleter} {p : Addr × ChunkId} {addr : Addr}

/-- The operation holds nothing that it has read, and has nothing to send. -/
def AtRest (n : NamingServer) : Deleter → Prop
  | .create k => (∀ chunks, (n.creates k).phase ≠ .placing chunks) ∧ ∀ p, (k, p) ∉ n.purges
  | .delete k => (∀ fm, (n.deletes k).phase ≠ .loaded fm) ∧ (n.deletes k).phase.pending = []
  | .cleanup _ => n.cleanup = .idle

/-- The step is one of the operation, other than one of its deletion threads. -/
def Acts : Deleter → NamingAction → Prop
  | .create k, a => ∃ b, a = .create k b
  | .delete k, a => ∃ b, a = .delete k b
  | .cleanup _, a => ∃ b, a = .cleanup b

theorem AtRest.of_step (h : n.AtRest d) (hs : n.step cfg a = some (n', out)) (hcrash : a ≠ .crash)
    (ha : ¬Acts d a) : n'.AtRest d := by
  cases d with
  | create k =>
    obtain ⟨hphase, hpurges⟩ := h
    refine ⟨?_, fun p hp => ?_⟩
    · rw [(requests_of_step hs hcrash k).1.resolve_left ha]
      exact hphase
    · have hord := (Ledger.ordered_of_step (d := .create k) (p := p) (ledger_of_step hs) hcrash).mp
        (.inr (Ledger.mem_pending_create.mpr hp))
      rcases hord with (hsent | hpending) | horder
      · cases hsent
      · exact hpurges p (Ledger.mem_pending_create.mp hpending)
      · rcases Ledger.mem_orders horder with ⟨j, o, _, he, hact, _⟩ | ⟨_, _, he, _⟩ | ⟨_, _, _, he, _⟩ <;>
          cases he
        exact ha ⟨_, hact⟩
  | delete k =>
    rw [AtRest, (requests_of_step hs hcrash k).2.resolve_left ha]
    exact h
  | cleanup i => exact (((step_frame hs).resolve_left hcrash).2.1.resolve_left ha).trans h

theorem sole_of_atRest (h : ∀ d, d ≠ .create k → n.AtRest d) : Sole k n := by
  refine ⟨fun j hj => (h (.create j) (by simpa using hj)).1, fun j => (h (.delete j) (by simp)).1, ?_⟩
  have hidle : n.cleanup = .idle := h (.cleanup 0) (by simp)
  rw [hidle]
  rfl

theorem not_due_of_atRest (h : ∀ d, n.AtRest d) : ¬n.Due p := by
  rintro (⟨k, hp⟩ | ⟨j, hp⟩ | hp)
  · exact (h (.create k)).2 p hp
  · rw [(h (.delete j)).2] at hp
    cases hp
  · have hidle : n.cleanup = .idle := h (.cleanup 0)
    rw [hidle] at hp
    cases hp

/-- A reservation records the replicas that it has placed. -/
theorem recorded_of_reserved (hc : Consistent cfg n) (hs : n.step cfg a = some (n', out))
    (hcrash : a ≠ .crash) (hres : (n'.creates k).phase.reserved = true) {chunks : List ChunkMeta}
    (hplan : (n'.creates k).phase.plan = some chunks) {m : ChunkMeta} (hm : m ∈ chunks)
    (haddr : addr ∈ m.locations) :
    n'.creates k = n.creates k ∨ ⟨m.chunkId, addr⟩ ∈ n'.db.replicas := by
  refine (requests_of_step hs hcrash k).1.symm.imp_right ?_
  rintro ⟨b, rfl⟩
  obtain ⟨hcreate, _⟩ := createStep_of_step hs
  cases createStep_moves hcreate with
  | turn req ph _ _ _ hcreates _ _ hnew =>
    rw [hcreates, Function.update_self, hnew] at hres
    cases hres
  | place _ _ _ _ _ _ _ _ _ _ _ _ hcreates =>
    rw [hcreates, Function.update_self] at hres
    cases hres
  | raise _ _ _ _ _ _ _ hcreates =>
    rw [hcreates, Function.update_self] at hres
    cases hres
  | reserve chunks₀ now _ hphase _ _ hstore _ _ hcreates =>
    obtain ⟨db, hpend, _, _, hreplicas⟩ := hc.createPending_tables hphase
      (n.creates k).req.filename (n.creates k).req.size (n.creates k).req.numChunks now
    rw [hcreates, Function.update_self] at hplan
    simp only [CreatePhase.plan, if_true, ChunkMeta.map_toMeta_placement, Option.some.injEq] at hplan
    subst hplan
    rw [NamingServer.db, hstore, hpend, hreplicas]
    exact List.mem_append_right _
      (List.mem_flatMap.mpr ⟨m, hm, ChunkMeta.mem_replicaRows.mpr ⟨rfl, haddr⟩⟩)

end NamingServer

/-! ### Operations -/

def CleanupPhase.isIdle : CleanupPhase → Bool
  | idle => true
  | listing _ _ _ | listingRow _ _ _ _ | removing _ _ | sending _ _ _ => false

/-- `collect` is one iteration of the cleanup loop. -/
inductive Chore
  | create (k : ℕ) (f : Filename) (data : Bytes)
  | delete (j : ℕ) (f : Filename)
  | collect

/-- Storage servers register and send heartbeats, and time passes. -/
def ClusterAction.isSignal : ClusterAction → Bool
  | naming (.registerStorage _) | naming (.heartbeat _) | naming (.tick _) => true
  | _ => false

def Message.isDelete : Message → Bool
  | deleteChunk _ _ => true
  | storeChunks _ _ _ _ | replicateChunk _ _ _ _ | replicateData _ _ _ _ => false

/-- The request that is lost in the step. -/
def Cluster.lost (s : Cluster) : ClusterAction → Option Message
  | .drop i => s.net[i]?
  | _ => none

/-- No request to delete is lost. A StoreChunks request may be, and then the batch stays where
it stopped. -/
def Cluster.Delivers (s : Cluster) (a : ClusterAction) : Prop :=
  ∀ m ∈ s.lost a, m.isDelete = false

instance (s : Cluster) (a : ClusterAction) : Decidable (s.Delivers a) :=
  inferInstanceAs (Decidable (∀ m ∈ s.lost a, _))

namespace Chore

/-- The operation is not under way. -/
def Starts : Chore → Cluster → Prop
  | create k f data, s => (Operation.create k f data).Starts s
  | delete j f, s => (Operation.delete j f).Starts s
  | collect, s => s.naming.cleanup.isIdle = true

/-- The steps that make up the operation. -/
def Own : Chore → ClusterAction → Bool
  | create k f data, a => (Operation.create k f data).Part a
  | delete j f, a => (Operation.delete j f).Part a
  | collect, .naming (.cleanup _) | collect, .deleteExec _ => true
  | collect, _ => false

/-- The steps that are taken while the operation is under way. -/
def Part (o : Chore) (s : Cluster) (a : ClusterAction) : Prop :=
  (o.Own a = true ∨ a.isSignal = true) ∧ s.Delivers a

/-- The operation has ended, and its deletions are executed. -/
def Finished : Chore → Cluster → Prop
  | create k f data, s => (Operation.create k f data).Finished s
  | delete j f, s => (Operation.delete j f).Finished s
  | collect, s => s.naming.cleanup.isIdle = true ∧ s.net = []

instance (o : Chore) (s : Cluster) : Decidable (o.Starts s) :=
  match o with
  | create k f data => inferInstanceAs (Decidable ((Operation.create k f data).Starts s))
  | delete j f => inferInstanceAs (Decidable ((Operation.delete j f).Starts s))
  | collect => inferInstanceAs (Decidable (_ = true))

instance (o : Chore) (s : Cluster) (a : ClusterAction) : Decidable (o.Part s a) :=
  inferInstanceAs (Decidable (_ ∧ _))

instance (o : Chore) (s : Cluster) : Decidable (o.Finished s) :=
  match o with
  | create k f data => inferInstanceAs (Decidable ((Operation.create k f data).Finished s))
  | delete j f => inferInstanceAs (Decidable ((Operation.delete j f).Finished s))
  | collect => inferInstanceAs (Decidable (_ ∧ _))

/-- Whose deletions the operation makes. -/
def Owns : Chore → Deleter → Prop
  | create k _ _, d => d = .create k
  | delete j _, d => d = .delete j
  | collect, d => ∃ i, d = .cleanup i

end Chore

namespace Cluster

variable {cfg : Settings} {s s' t : Cluster} {a : ClusterAction} {b : NamingAction} {o : Chore}
  {k : ℕ} {f : Filename} {data : Bytes} {d : Deleter} {addr : Addr} {c : ChunkId}

/-- The states between operations. -/
inductive ChoreSession (cfg : Settings) : Cluster → Prop
  | init : ChoreSession cfg .init
  | chore (o : Chore) {s t : Cluster} (hs : ChoreSession cfg s) (hstart : o.Starts s)
      (hrun : Steps (step cfg) o.Part s t) (hfin : o.Finished t) : ChoreSession cfg t

/-! ### Inside an operation -/

/-- What the naming server does in the operation. -/
theorem drives_of_part (hp : o.Part s a) (hd : s.Drives a b) :
    (∀ c, b ≠ .heal c) ∧ b ≠ .crash ∧ (∀ d, ¬o.Owns d → ¬NamingServer.Acts d b) ∧
      ∀ k f data, o = .create k f data → s.naming.removes b = none := by
  obtain ⟨hown | hsignal, _⟩ := hp
  · cases o with
    | create k f data =>
      rcases drives_of_create hown hd with ⟨b', rfl⟩ | ⟨i, rfl⟩ | ⟨g, rfl⟩
      · refine ⟨by simp, by simp, ?_, fun _ _ _ _ => rfl⟩
        rintro (j | j | j) hnot ⟨_, he⟩ <;> cases he
        exact hnot rfl
      · refine ⟨by simp, by simp, ?_, fun _ _ _ _ => rfl⟩
        rintro (j | j | j) _ ⟨_, he⟩ <;> cases he
      · refine ⟨by simp, by simp, ?_, fun _ _ _ _ => rfl⟩
        rintro (j | j | j) _ ⟨_, he⟩ <;> cases he
    | delete j f =>
      cases hd with
      | free _ _ =>
        cases b with
        | delete i b' =>
          obtain rfl : i = j := by
            cases b' <;> simp_all [Chore.Own, Operation.Part]
          refine ⟨by simp, by simp, ?_, fun _ _ _ he => by cases he⟩
          rintro (i | i | i) hnot ⟨_, he⟩ <;> cases he
          exact hnot rfl
        | _ => all_goals exact absurd hown Bool.false_ne_true
      | create _ _ _ _ => exact absurd hown Bool.false_ne_true
      | commit _ _ => exact absurd hown Bool.false_ne_true
    | collect =>
      cases hd with
      | free _ _ =>
        cases b with
        | cleanup b' =>
          refine ⟨by simp, by simp, ?_, fun _ _ _ he => by cases he⟩
          rintro (i | i | i) hnot ⟨_, he⟩ <;> cases he
          exact hnot ⟨i, rfl⟩
        | _ => all_goals exact absurd hown Bool.false_ne_true
      | create _ _ _ _ => exact absurd hown Bool.false_ne_true
      | commit _ _ => exact absurd hown Bool.false_ne_true
  · cases hd with
    | free _ _ =>
      cases b with
      | registerStorage _ | heartbeat _ | tick _ =>
        refine ⟨by simp, by simp, ?_, fun _ _ _ _ => rfl⟩
        rintro (i | i | i) _ ⟨_, he⟩ <;> cases he
      | _ => all_goals exact absurd hsignal Bool.false_ne_true
    | create _ _ _ _ => exact absurd hsignal Bool.false_ne_true
    | commit _ _ => exact absurd hsignal Bool.false_ne_true

/-- A StoreChunks request under way was, up to its count of items, or has just been sent. -/
theorem storeChunks_of_step (hs : s.step cfg a = some s') {batch : List (ChunkId × Bytes)} {j : ℕ}
    (hm : .storeChunks k addr batch j ∈ s'.net) :
    (∃ i, .storeChunks k addr batch i ∈ s.net) ∨ ∃ i, a = .sendBatch k i := by
  cases netChange_of_step hs with
  | keep h' => exact .inl ⟨j, h' ▸ hm⟩
  | rpcs b out _ _ h' =>
    rw [h'] at hm
    rcases List.mem_append.mp hm with hm | hm
    · exact .inl ⟨j, hm⟩
    · obtain ⟨r, _, he⟩ := List.mem_map.mp hm
      cases r <;> cases he
  | sent k' i _ _ _ _ ha _ _ h' =>
    rw [h'] at hm
    rcases List.mem_append.mp hm with hm | hm
    · exact .inl ⟨j, hm⟩
    · cases List.mem_singleton.mp hm
      exact .inr ⟨i, ha⟩
  | stored i k' addr' batch' l _ _ hi _ _ h' =>
    rw [h'] at hm
    rcases List.mem_or_eq_of_mem_set hm with hm | he
    · exact .inl ⟨j, hm⟩
    · cases he
      exact .inl ⟨l, List.mem_of_getElem? hi⟩
  | fetched _ _ _ _ _ _ _ _ h' =>
    rw [h'] at hm
    exact .inl ⟨j, (List.mem_or_eq_of_mem_set hm).resolve_right (by simp)⟩
  | deleted _ _ _ _ _ h' | dropped _ _ _ _ h' | answered _ _ _ _ h' =>
    all_goals
      rw [h'] at hm
      exact .inl ⟨j, List.mem_of_mem_eraseIdx hm⟩

/-- Only the operation that is under way holds what it has read, and its chunks are recorded
before they are stored. -/
structure Attended (cfg : Settings) (o : Chore) (s : Cluster) : Prop where
  reachable : Reachable cfg anyStep s
  accounted : Accounted s
  rests : ∀ d, ¬o.Owns d → s.naming.AtRest d
  net : ∀ k addr batch j, .storeChunks k addr batch j ∈ s.net → ∃ f data, o = .create k f data
  placed : ∀ k f data, o = .create k f data → ∀ addr c, s.Assigned k addr c →
    ⟨c, addr⟩ ∈ s.naming.db.replicas

namespace Attended

theorem careful (h : Attended cfg o s) (hp : o.Part s a) (hs : s.step cfg a = some s') :
    Careful s a := by
  cases a with
  | naming b =>
    have hfree : s.Free b := by
      simp only [step] at hs
      split_ifs at hs with hfree
      exact hfree
    obtain ⟨hheal, hcrash, hacts, _⟩ := drives_of_part hp (.free b hfree)
    cases b with
    | create k b =>
      cases b with
      | reserve t =>
        have hown : o.Owns (.create k) := by
          by_contra hnot
          exact hacts _ hnot ⟨_, rfl⟩
        refine NamingServer.sole_of_atRest fun d hd => h.rests d fun hd' => hd ?_
        cases o with
        | create j _ _ => exact hd'.trans hown.symm
        | delete j _ => cases hown
        | collect =>
          obtain ⟨_, he⟩ := hown
          cases he
      | _ => all_goals trivial
    | heal b => exact absurd rfl (hheal b)
    | crash => exact absurd rfl hcrash
    | _ => all_goals trivial
  | storeItem i =>
    intro k addr batch j hi
    have hm := List.mem_of_getElem? hi
    obtain ⟨f, data, rfl⟩ := h.net k addr batch j hm
    have hassigned := h.reachable.ownChunks.net k addr batch j hm
    refine ⟨fun x hx => h.placed k f data rfl addr x.1 (hassigned x hx), fun k' chunks hphase => ?_⟩
    by_cases hk : k' = k
    · -- there is an item to store, so the request has been accepted
      subst hk
      simp only [step, hi] at hs
      split at hs
      · rename_i c b hj
        have hres := (hassigned _ (List.mem_of_getElem? hj)).1
        rw [hphase] at hres
        cases hres
      · cases hs
    · exact (h.rests (.create k') (by simpa [Chore.Owns] using hk)).1 chunks hphase
  | drop i =>
    intro addr c hi
    cases hp.2 (.deleteChunk addr c) hi
  | copyFetch _ | copyStore _ | scrubQuery _ _ | scrubList _ | scrubRemove _ _ | scrubStop _ =>
    all_goals
      rcases hp.1 with hown | hsignal
      · cases o <;> exact absurd hown Bool.false_ne_true
      · exact absurd hsignal Bool.false_ne_true
  | _ => all_goals trivial

theorem placed_of_step (h : Attended cfg o s) (hp : o.Part s a) (hs : s.step cfg a = some s')
    (ho : o = .create k f data) (ha : s'.Assigned k addr c) :
    ⟨c, addr⟩ ∈ s'.naming.db.replicas := by
  rcases naming_of_step hs with he | ⟨b, out, hd, hn⟩
  · rw [Assigned, he] at ha
    rw [he]
    exact h.placed k f data ho addr c ha
  · obtain ⟨hheal, hcrash, _, hremoves⟩ := drives_of_part hp hd
    obtain ⟨hres, chunks, hplan, m, hm, rfl, haddr⟩ := ha
    rcases NamingServer.recorded_of_reserved h.reachable.consistent hn hcrash hres hplan hm haddr with
      hkeep | hrec
    · rw [hkeep] at hres hplan
      rcases NamingServer.replica_or_taken h.reachable.consistent hn hheal
        (h.placed k f data ho addr _ ⟨hres, chunks, hplan, m, hm, rfl, haddr⟩) with
        hrec | ⟨g, _, hg | ⟨j, _, hphase, _⟩⟩
      · exact hrec
      · rw [hremoves k f data ho] at hg
        cases hg
      · by_cases hj : j = k
        · subst hj
          rw [hphase] at hres
          cases hres
        · subst ho
          exact absurd hphase ((h.rests (.create j) (by simpa [Chore.Owns] using hj)).1 _)
    · exact hrec

theorem of_step (h : Attended cfg o s) (hp : o.Part s a) (hs : s.step cfg a = some s') :
    Attended cfg o s' where
  reachable := h.reachable.steps (.single trivial hs)
  accounted := h.accounted.of_step h.reachable (h.careful hp hs) hs
  rests d hd := by
    rcases naming_of_step hs with he | ⟨b, out, hdrives, hn⟩
    · rw [he]
      exact h.rests d hd
    · obtain ⟨_, hcrash, hacts, _⟩ := drives_of_part hp hdrives
      exact (h.rests d hd).of_step hn hcrash (hacts d hd)
  net k addr batch j hm := by
    rcases storeChunks_of_step hs hm with ⟨i, hold⟩ | ⟨i, rfl⟩
    · exact h.net k addr batch i hold
    · rcases hp.1 with hown | hsignal
      · cases o with
        | create k' f data =>
          obtain rfl : k = k' := of_decide_eq_true hown
          exact ⟨f, data, rfl⟩
        | _ => all_goals exact absurd hown Bool.false_ne_true
      · exact absurd hsignal Bool.false_ne_true
  placed _ _ _ ho _ _ ha := h.placed_of_step hp hs ho ha

end Attended

/-! ### Between operations -/

/-- Nobody holds what it has read, and nothing is under way. -/
structure Quiet (cfg : Settings) (s : Cluster) : Prop where
  reachable : Reachable cfg anyStep s
  accounted : Accounted s
  rests : ∀ d, s.naming.AtRest d
  net : s.net = []

theorem Quiet.init : Quiet cfg .init where
  reachable := .refl
  accounted := .init
  rests d := by
    cases d with
    | create k => exact ⟨fun _ h => (by cases h), fun _ h => (by cases h)⟩
    | delete k => exact ⟨fun _ h => (by cases h), rfl⟩
    | cleanup i => rfl
  net := rfl

theorem Quiet.attended (h : Quiet cfg s) (hstart : o.Starts s) : Attended cfg o s where
  reachable := h.reachable
  accounted := h.accounted
  rests d _ := h.rests d
  net k addr batch j hm := by
    rw [h.net] at hm
    cases hm
  placed k f data ho addr c ha := by
    subst ho
    have hidle : (s.calls k).phase = .idle := by
      cases hphase : (s.calls k).phase <;>
        simp_all [Chore.Starts, Operation.Starts, CallPhase.isIdle]
    have hres := ha.1
    rw [(h.reachable.requests.idle k hidle).1] at hres
    cases hres

theorem Attended.quiet (h : Attended cfg o s) (hfin : o.Finished s) : Quiet cfg s := by
  refine ⟨h.reachable, h.accounted, fun d => ?_, ?_⟩
  · by_cases hd : o.Owns d
    · cases o with
      | create k f data =>
        obtain ⟨_, _, hover, hpurges, _⟩ := hfin
        cases hd
        refine ⟨fun chunks hphase => ?_, fun p => by simp [hpurges]⟩
        rw [hphase] at hover
        cases hover
      | delete j f =>
        obtain ⟨hover, _⟩ := hfin
        cases hd
        cases hphase : (s.naming.deletes j).phase <;>
          simp_all [DeletePhase.over, NamingServer.AtRest, DeletePhase.pending]
      | collect =>
        obtain ⟨_, rfl⟩ := hd
        have hidle := hfin.1
        cases hphase : s.naming.cleanup <;> simp_all [CleanupPhase.isIdle, NamingServer.AtRest]
    · exact h.rests d hd
  · cases o with
    | create k f data => exact hfin.2.2.2.2
    | delete j f => exact hfin.2
    | collect => exact hfin.2

theorem ChoreSession.quiet (h : ChoreSession cfg s) : Quiet cfg s := by
  induction h with
  | init => exact .init
  | chore o _ hstart hrun hfin ih =>
    have hrun := hrun.invariant (P := Attended cfg o) (ih.attended hstart)
      fun t a u _ ht hp hs => ht.of_step hp hs
    exact hrun.quiet hfin

/-- No server has a chunk file that is not recorded for it, nor more of them than that. -/
structure NoOrphans (s : Cluster) : Prop where
  recorded : ∀ addr c, s.Stored addr c → c ∈ listChunkIdsFor s.naming.db addr
  count : ∀ addr, (s.disks addr).keys.length ≤ (listChunkIdsFor s.naming.db addr).length

theorem Quiet.recorded (h : Quiet cfg s) (hst : s.Stored addr c) :
    c ∈ listChunkIdsFor s.naming.db addr := by
  rcases h.accounted.stored (addr, c) hst with hrec | hdue | hm
  · exact mem_listChunkIdsFor.mpr hrec
  · exact absurd hdue (NamingServer.not_due_of_atRest h.rests)
  · rw [h.net] at hm
    cases hm

/-- After any sequence of whole operations, every chunk file is recorded where it is. -/
theorem noOrphans_of_session (h : ChoreSession cfg s) : NoOrphans s where
  recorded _ _ hst := h.quiet.recorded hst
  count addr := by
    have hsub : (s.disks addr).keys ⊆ listChunkIdsFor s.naming.db addr := by
      intro c hc
      refine h.quiet.recorded fun hnone => ?_
      exact (AList.lookup_eq_none.mp hnone) (AList.mem_keys.mpr hc)
    exact ((s.disks addr).keys_nodup.subperm hsub).length_le

/-! ### A session -/

abbrev performChore (cfg : Settings) : Cluster → Chore × List ClusterAction → Option Cluster :=
  StepSystem.perform (step cfg) Chore.Starts Chore.Part Chore.Finished

/-- A file is created, its overwrite is aborted after one of two servers has stored the
chunk, another file comes and is deleted, and the aborted one is collected. -/
theorem noOrphans_of_session_aborted : ∃ s, ChoreSession ⟨2, 60⟩ s ∧ NoOrphans s ∧
    s.file ['s'] ['c'] = none ∧ s.file ['s'] ['d'] = none ∧ s.file ['s'] ['g'] = some [4] := by
  have hrun : (run (performChore ⟨2, 60⟩) init [
      (.create 0 ['f'] [7], [.naming (.registerStorage ['s']), .naming (.registerStorage ['t']),
        .createCall 0 ['f'] [7], .naming (.create 0 .checkLive),
        .naming (.create 0 (.selectFile .table)), .naming (.create 0 (.place ['c'])),
        .naming (.create 0 (.reserve 0)), .createReply 0, .sendBatch 0 0, .sendBatch 0 1, .storeItem 0,
        .storeItem 1, .storeReply 0 0 0, .storeReply 0 1 0, .commitSend 0, .commitExec 0,
        .commitReply 0]),
      (.create 1 ['f'] [8], [.createCall 1 ['f'] [8], .naming (.create 1 .checkLive),
        .naming (.create 1 (.selectFile .table)), .naming (.create 1 (.selectChunks .table)),
        .naming (.purge 0), .naming (.purge 0), .deleteExec 0, .deleteExec 0,
        .naming (.create 1 (.place ['d'])), .naming (.create 1 (.reserve 0)), .createReply 1,
        .sendBatch 1 0, .sendBatch 1 1, .storeItem 0, .drop 1, .uploadFail 1 1, .storeReply 1 0 0,
        .clientStop 1]),
      (.create 2 ['h'] [9], [.createCall 2 ['h'] [9], .naming (.create 2 .checkLive),
        .naming (.create 2 (.selectFile .table)), .naming (.create 2 (.place ['e'])),
        .naming (.create 2 (.reserve 0)), .createReply 2, .sendBatch 2 0, .storeItem 0,
        .clientStop 2, .drop 0]),
      (.delete 0 ['h'], [.naming (.delete 0 (.receive ['h'])),
        .naming (.delete 0 (.selectFile .table)), .naming (.delete 0 (.selectChunks .table)),
        .naming (.delete 0 .remove), .naming (.delete 0 (.send 0 true)),
        .naming (.delete 0 (.send 0 true)), .deleteExec 0, .deleteExec 0,
        .naming (.delete 0 .reply)]),
      (.collect, [.naming (.tick 100), .naming (.cleanup (.listNames 100 .table)),
        .naming (.cleanup (.selectFile .table)), .naming (.cleanup (.selectChunks .table)),
        .naming (.cleanup (.selectFile .table)), .naming (.cleanup .remove), .naming (.cleanup .send),
        .naming (.cleanup .send), .naming (.cleanup .send), .naming (.cleanup .remove), .deleteExec 0,
        .deleteExec 0]),
      (.create 3 ['g'] [4], [.naming (.heartbeat ['s']), .naming (.heartbeat ['t']),
        .createCall 3 ['g'] [4], .naming (.create 3 .checkLive),
        .naming (.create 3 (.selectFile .table)), .naming (.create 3 (.place ['g'])),
        .naming (.create 3 (.reserve 0)), .createReply 3, .sendBatch 3 0, .sendBatch 3 1, .storeItem 0,
        .storeItem 1, .storeReply 3 0 0, .storeReply 3 1 0, .commitSend 3, .commitExec 3,
        .commitReply 3])]).any (fun s => s.file ['s'] ['c'] = none ∧ s.file ['s'] ['d'] = none ∧
      s.file ['s'] ['g'] = some [4]) = true := by
    decide +kernel
  rw [Option.any_eq_true] at hrun
  obtain ⟨s, hs, hp⟩ := hrun
  have hsession : ChoreSession ⟨2, 60⟩ s :=
    invariant_of_performed .init hs fun o _ _ hs => .chore o hs
  exact ⟨s, hsession, noOrphans_of_session hsession, of_decide_eq_true hp⟩

end Cluster

end GfsCluster
