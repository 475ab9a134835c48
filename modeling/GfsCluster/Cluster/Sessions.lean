import GfsCluster.Cluster.Intact

/-! Whole operations, one after the other: creates, deletes and passes of the healer,
each from its first step to its last with everything it sent executed or lost, and
between them storage servers that come, go quiet and come back. -/

namespace GfsCluster

open StepSystem

def CallPhase.isIdle : CallPhase → Bool
  | idle => true
  | requested | uploading _ | committing | returned | raised => false

def DeletePhase.isIdle : DeletePhase → Bool
  | idle => true
  | received | row _ | loaded _ | sending _ _ | replied _ | failed => false

def CallPhase.over : CallPhase → Bool
  | returned | raised => true
  | idle | requested | uploading _ | committing => false

def CreatePhase.over : CreatePhase → Bool
  | replied _ | failed => true
  | idle | received | checked | oldRow _ | placing _ => false

def DeletePhase.over : DeletePhase → Bool
  | replied _ | failed => true
  | idle | received | row _ | loaded _ | sending _ _ => false

/-- The request was found to have enough live servers and has not been answered. -/
def CreatePhase.admitted : CreatePhase → Bool
  | checked | oldRow _ | placing _ => true
  | idle | received | replied _ | failed => false

inductive Operation
  | create (k : ℕ) (f : Filename) (data : Bytes)
  | delete (j : ℕ) (f : Filename)
  | heal
  | registerStorage (addr : Addr)
  | heartbeat (addr : Addr)
  | tick (d : Seconds)

namespace Operation

/-- The operation is not under way. -/
def Starts : Operation → Cluster → Prop
  | create k _ _, s => (s.calls k).phase.isIdle = true
  | delete j _, s => (s.naming.deletes j).phase.isIdle = true
  | heal, s => s.naming.heal.isIdle = true
  | registerStorage _, _ | heartbeat _, _ | tick _, _ => True

/-- The steps that make up the operation. Any request may be lost, and a client may stop
at any point. -/
def Part : Operation → ClusterAction → Bool
  | create k f data, .createCall k' f' data' => k' = k ∧ f' = f ∧ data' = data
  | create k _ _, .naming (.create k' _) | create k _ _, .createReply k' | create k _ _, .sendBatch k' _
  | create k _ _, .storeReply k' _ _ | create k _ _, .uploadFail k' _ | create k _ _, .commitSend k'
  | create k _ _, .commitExec k' | create k _ _, .commitLost k' | create k _ _, .commitReply k'
  | create k _ _, .clientStop k' => k' = k
  | create _ _ _, .naming (.purge _) | create _ _ _, .storeItem _ | create _ _ _, .deleteExec _
  | create _ _ _, .drop _ => true
  | delete j f, .naming (.delete j' (.receive f')) => j' = j ∧ f' = f
  | delete j _, .naming (.delete j' _) => j' = j
  | delete _ _, .deleteExec _ | delete _ _, .drop _ => true
  | heal, .naming (.heal _) | heal, .copyFetch _ | heal, .copyStore _ | heal, .drop _ => true
  | registerStorage addr, .naming (.registerStorage addr') => addr' = addr
  | heartbeat addr, .naming (.heartbeat addr') => addr' = addr
  | tick d, .naming (.tick d') => d' = d
  | _, _ => false

/-- The operation has ended, and none of its requests is under way. -/
def Finished : Operation → Cluster → Prop
  | create k _ _, s => (s.calls k).phase.over = true ∧ (s.calls k).commit ≠ .sent ∧
    (s.naming.creates k).phase.over = true ∧ s.naming.purges = [] ∧ s.net = []
  | delete j _, s => (s.naming.deletes j).phase.over = true ∧ s.net = []
  | heal, s => s.naming.heal.isIdle = true ∧ s.net = []
  | registerStorage _, _ | heartbeat _, _ | tick _, _ => True

instance (o : Operation) (s : Cluster) : Decidable (o.Starts s) :=
  match o with
  | create _ _ _ | delete _ _ | heal => inferInstanceAs (Decidable (_ = true))
  | registerStorage _ | heartbeat _ | tick _ => .isTrue trivial

instance (o : Operation) (s : Cluster) : Decidable (o.Finished s) :=
  match o with
  | create _ _ _ => inferInstanceAs (Decidable (_ ∧ _ ∧ _ ∧ _ ∧ _))
  | delete _ _ | heal => inferInstanceAs (Decidable (_ ∧ _))
  | registerStorage _ | heartbeat _ | tick _ => .isTrue trivial

end Operation

namespace Cluster

variable {cfg : Settings} {s s' t : Cluster} {a : ClusterAction} {k : ℕ} {f : Filename} {data : Bytes}
  {o : Operation}

/-- The states between operations. -/
inductive Session (cfg : Settings) : Cluster → Prop
  | init : Session cfg .init
  | operation (o : Operation) {s t : Cluster} (hs : Session cfg s) (hstart : o.Starts s)
      (hrun : Steps (step cfg) (fun _ a => o.Part a) s t) (hfin : o.Finished t) : Session cfg t

/-! ### Inside a create -/

theorem drives_of_create {b : NamingAction} (hp : (Operation.create k f data).Part a)
    (hd : s.Drives a b) : (∃ b', b = .create k b') ∨ (∃ i, b = .purge i) ∨ ∃ g, b = .commit g := by
  cases hd with
  | free b _ =>
    cases b with
    | create j b' =>
      obtain rfl : j = k := of_decide_eq_true hp
      exact .inl ⟨b', rfl⟩
    | purge i => exact .inr (.inl ⟨i, rfl⟩)
    | _ => all_goals exact absurd hp Bool.false_ne_true
  | create j _ _ _ =>
    obtain ⟨rfl, _⟩ := of_decide_eq_true hp
    exact .inl ⟨_, rfl⟩
  | commit j _ => exact .inr (.inr ⟨_, rfl⟩)

theorem leftAlone_of_create (hp : (Operation.create k f data).Part a) : LeftAlone f k s a := by
  cases a with
  | naming b =>
    cases b with
    | create j b' =>
      obtain rfl : j = k := of_decide_eq_true hp
      cases b' <;> first | trivial | exact .inl rfl
    | purge i => simp [LeftAlone, NamingServer.Alone, NamingServer.removes]
    | _ => all_goals exact absurd hp Bool.false_ne_true
  | createCall j g d => exact fun _ => (of_decide_eq_true hp).2.1
  | commitExec j => exact .inl (of_decide_eq_true hp)
  | scrubRemove addr c => exact absurd hp Bool.false_ne_true
  | _ => all_goals trivial

/-- Inside the operation enough servers stay live for the request. -/
def Admitted (cfg : Settings) (k : ℕ) (s : Cluster) : Prop :=
  (s.naming.creates k).phase.admitted = true →
    cfg.replication ≤ (s.naming.registry.liveServers s.naming.now).length

theorem admitted_of_createStep {n n' : NamingServer} {b : CreateStep}
    (h : n.createStep cfg k b = some n') (h' : (n'.creates k).phase.admitted = true) :
    (n.creates k).phase.admitted = true ∨ cfg.replication ≤ (n.registry.liveServers n.now).length := by
  cases NamingServer.case_of_createStep h <;> simp_all [NamingServer.setCreate, CreatePhase.admitted]

/-- Only its own handler works, and the live servers stay. -/
theorem frame_of_create (hp : (Operation.create k f data).Part a) (hs : s.step cfg a = some s') :
    (∀ j ≠ k, s'.naming.creates j = s.naming.creates j) ∧
      s'.naming.registry.liveServers s'.naming.now = s.naming.registry.liveServers s.naming.now ∧
        (Admitted cfg k s → Admitted cfg k s') := by
  rcases naming_of_step hs with he | ⟨b, out, hd, hn⟩
  · unfold Admitted
    rw [he]
    exact ⟨fun _ _ => rfl, rfl, id⟩
  · rcases drives_of_create hp hd with ⟨b', rfl⟩ | ⟨i, rfl⟩ | ⟨g, rfl⟩
    · obtain ⟨hm, _⟩ := NamingServer.createStep_of_step hn
      obtain ⟨hnow, _, _, _, _, _, hseen⟩ := NamingServer.createStep_frame hm
      have hlive : s'.naming.registry.liveServers s'.naming.now =
          s.naming.registry.liveServers s.naming.now := by
        rw [StorageRegistry.liveServers, StorageRegistry.liveServers, hnow, hseen]
      refine ⟨fun j hj => NamingServer.createStep_other hm hj, hlive, fun hadm h' => ?_⟩
      rw [hlive]
      rcases admitted_of_createStep hm h' with h | h
      · exact hadm h
      · exact h
    · simp only [NamingServer.step] at hn
      split at hn
      · simp only [Option.some.injEq, Prod.mk.injEq] at hn
        unfold Admitted
        rw [← hn.1]
        exact ⟨fun _ _ => rfl, rfl, id⟩
      · cases hn
    · simp only [NamingServer.step, Option.some.injEq, Prod.mk.injEq] at hn
      unfold Admitted
      rw [← hn.1]
      exact ⟨fun _ _ => rfl, rfl, id⟩

theorem ownCommit_of_working (h : Working f k s) (hs : Reachable cfg (Orderly cfg) s)
    (hstep : s.step cfg (.commitExec k) = some s') : OwnCommit s (.commitExec k) := by
  intro r hr hname
  obtain ⟨hsent, _⟩ := commitExec_cases hs.consistent hstep
  have hres := (hs.uploads.sent k (by rw [hsent]; simp)).1
  obtain ⟨_, F, _, hF, hv⟩ := h.owned hres
  have hfile : r.filename = F.filename := by rw [hname, hF, h.name (hs.requests.begun hres)]
  exact ⟨⟨r.chunkId, k, r.idx⟩, (hv.rows r.chunkId r.idx).mp (by rw [← hfile]; exact hr), rfl, rfl⟩

theorem orderly_of_create (h : Working f k s) (hadm : Admitted cfg k s)
    (hs : Reachable cfg (Orderly cfg) s) (hp : (Operation.create k f data).Part a)
    (hstep : s.step cfg a = some s') : Orderly cfg s a := by
  cases a with
  | naming b =>
    cases b with
    | create j b' =>
      obtain rfl : j = k := of_decide_eq_true hp
      cases b' with
      | place id =>
        refine .inr (hadm ?_)
        simp only [step] at hstep
        split_ifs at hstep
        cases hphase : (s.naming.creates j).phase with
        | placing chunks => rfl
        | _ => simp [NamingServer.step, NamingServer.createStep, hphase] at hstep
      | _ => all_goals trivial
    | crash => exact absurd hp Bool.false_ne_true
    | _ => all_goals trivial
  | commitExec j =>
    obtain rfl : j = k := of_decide_eq_true hp
    exact ownCommit_of_working h hs hstep
  | scrubRemove addr c => exact absurd hp Bool.false_ne_true
  | _ => all_goals trivial

/-! ### Sessions are orderly -/

/-- No CreateFile request is under way. -/
def Resting (s : Cluster) : Prop := ∀ k, (s.naming.creates k).phase.admitted = false

theorem run_create (hs : Reachable cfg (Orderly cfg) s) (hrest : s.Resting)
    (hidle : (s.calls k).phase = .idle)
    (hrun : Steps (step cfg) (fun _ a => (Operation.create k f data).Part a) s t) :
    Reachable cfg (Orderly cfg) t ∧ ∀ j ≠ k, (t.naming.creates j).phase.admitted = false := by
  have hinv : (Reachable cfg (Orderly cfg) t ∧ ∀ j ≠ k, (t.naming.creates j).phase.admitted = false) ∧
      Working f k t ∧ Admitted cfg k t := by
    refine hrun.invariant (P := fun t => (Reachable cfg (Orderly cfg) t ∧
      ∀ j ≠ k, (t.naming.creates j).phase.admitted = false) ∧ Working f k t ∧ Admitted cfg k t)
      ⟨⟨hs, fun j _ => hrest j⟩, .of_idle hs hidle, fun h => by rw [hrest k] at h; cases h⟩ ?_
    rintro u a v _ ⟨⟨hu, hothers⟩, hw, hadm⟩ hp hstep
    obtain ⟨hkeep, _, hadm'⟩ := frame_of_create hp hstep
    refine ⟨⟨hu.steps (.single (orderly_of_create hw hadm hu hp hstep) hstep), fun j hj => ?_⟩,
      hw.of_step hu (leftAlone_of_create hp) hstep, hadm' hadm⟩
    rw [hkeep j hj]
    exact hothers j hj
  exact hinv.1

/-- The other operations create, commit and scrub nothing. -/
theorem part_other (ho : ∀ k f data, o ≠ .create k f data) (hp : o.Part a) : Orderly cfg s a ∧
    ∀ b, s.Drives a b → (∀ k b', b ≠ .create k b') ∧ b ≠ .crash := by
  cases o with
  | create k f data => exact absurd rfl (ho k f data)
  | _ =>
    all_goals
      cases a with
      | naming b =>
        refine ⟨?_, fun b' hd => ?_⟩
        · cases b <;> trivial
        · cases hd with
          | free _ _ => cases b <;> first | exact absurd hp Bool.false_ne_true | exact ⟨nofun, nofun⟩
      | deleteExec i => exact ⟨trivial, fun b hd => by cases hd⟩
      | copyFetch i => exact ⟨trivial, fun b hd => by cases hd⟩
      | copyStore i => exact ⟨trivial, fun b hd => by cases hd⟩
      | drop i => exact ⟨trivial, fun b hd => by cases hd⟩
      | _ => all_goals exact absurd hp Bool.false_ne_true

theorem run_other (ho : ∀ k f data, o ≠ .create k f data) (hs : Reachable cfg (Orderly cfg) s)
    (hrun : Steps (step cfg) (fun _ a => o.Part a) s t) :
    Reachable cfg (Orderly cfg) t ∧ t.naming.creates = s.naming.creates := by
  refine hrun.invariant (P := fun t => Reachable cfg (Orderly cfg) t ∧
    t.naming.creates = s.naming.creates) ⟨hs, rfl⟩ ?_
  rintro u a v _ ⟨hu, hkeep⟩ hp hstep
  obtain ⟨horderly, hdrives⟩ := part_other ho hp
  refine ⟨hu.steps (.single horderly hstep), ?_⟩
  rw [← hkeep]
  rcases naming_of_step hstep with he | ⟨b, out, hd, hn⟩
  · rw [he]
  · obtain ⟨hcreate, hcrash⟩ := hdrives b hd
    rcases NamingServer.step_moves hn with ⟨k, b', he, _⟩ | ⟨he, _⟩ | ⟨_, hcreates, _⟩
    · exact absurd he (hcreate k b')
    · exact absurd he hcrash
    · exact hcreates

theorem Session.orderly (h : Session cfg s) : Reachable cfg (Orderly cfg) s ∧ s.Resting := by
  induction h with
  | init => exact ⟨.refl, fun _ => rfl⟩
  | @operation o s t _ hstart hrun hfin ih =>
    obtain ⟨hs, hrest⟩ := ih
    by_cases ho : ∃ k f data, o = .create k f data
    · obtain ⟨k, f, data, rfl⟩ := ho
      have hidle : (s.calls k).phase = .idle := by
        cases hphase : (s.calls k).phase <;> simp_all [Operation.Starts, CallPhase.isIdle]
      obtain ⟨ht, hothers⟩ := run_create hs hrest hidle hrun
      refine ⟨ht, fun j => ?_⟩
      by_cases hj : j = k
      · subst hj
        obtain ⟨_, _, hover, _⟩ := hfin
        cases hphase : (t.naming.creates j).phase <;> simp_all [CreatePhase.over, CreatePhase.admitted]
      · exact hothers j hj
    · obtain ⟨ht, hkeep⟩ := run_other (fun k f data he => ho ⟨k, f, data, he⟩) hs hrun
      refine ⟨ht, fun k => ?_⟩
      rw [hkeep]
      exact hrest k

/-- Between whole operations, every recorded replica of a committed chunk is on disk. -/
theorem recordedStored_of_session (h : Session cfg s) : RecordedStored s := by
  obtain ⟨hs, hrest⟩ := h.orderly
  refine hs.recordedStored fun k chunks hphase => ?_
  have := hrest k
  rw [hphase] at this
  cases this

/-! ### A session -/

/-- Take an operation from its first listed step to its last. -/
def perform (cfg : Settings) (s : Cluster) (x : Operation × List ClusterAction) : Option Cluster :=
  if x.1.Starts s then
    (run (guarded (step cfg) fun _ a => x.1.Part a) s x.2).bind fun t =>
      if x.1.Finished t then some t else none
  else none

theorem session_of_run {ops : List (Operation × List ClusterAction)} (hs : Session cfg s)
    (h : run (perform cfg) s ops = some t) : Session cfg t :=
  invariant_of_performed hs
    (show run (StepSystem.perform (step cfg) Operation.Starts (fun o _ a => o.Part a)
      Operation.Finished) s ops = some t from h) fun o _ _ hs => .operation o hs

/-- One of two servers goes quiet and a third one comes; the healer copies the chunk
there and forgets the first. -/
theorem recordedStored_of_session_healed : ∃ s, Session ⟨2, 60⟩ s ∧ RecordedStored s ∧
    s.naming.db.locations ['c'] = [['t'], ['u']] ∧ s.file ['u'] ['c'] = some [7] := by
  have hrun : (run (perform ⟨2, 60⟩) init [(.registerStorage ['s'], [.naming (.registerStorage ['s'])]),
      (.registerStorage ['t'], [.naming (.registerStorage ['t'])]),
      (.create 0 ['f'] [7], [.createCall 0 ['f'] [7], .naming (.create 0 .checkLive),
        .naming (.create 0 (.selectFile .table)), .naming (.create 0 (.place ['c'])),
        .naming (.create 0 (.reserve 0)), .createReply 0, .sendBatch 0 0, .sendBatch 0 1, .storeItem 0,
        .storeItem 1, .storeReply 0 0 0, .storeReply 0 1 0, .commitSend 0, .commitExec 0,
        .commitReply 0]),
      (.tick 10, [.naming (.tick 10)]), (.heartbeat ['t'], [.naming (.heartbeat ['t'])]),
      (.registerStorage ['u'], [.naming (.registerStorage ['u'])]), (.tick 10, [.naming (.tick 10)]),
      (.heal, [.naming (.heal .count), .naming (.heal .pick), .naming (.heal (.known .table)),
        .naming (.heal (.scan .table)), .naming (.heal .next), .naming (.heal .copy), .copyFetch 0,
        .copyStore 0, .naming (.heal (.answer true)), .naming (.heal .record), .naming (.heal .drop),
        .naming (.heal .copy), .naming (.heal .next), .naming (.heal (.refresh .table))])]).any (fun s =>
      s.naming.db.locations ['c'] == [['t'], ['u']] && s.file ['u'] ['c'] == some [7]) = true := by
    decide +kernel
  rw [Option.any_eq_true] at hrun
  obtain ⟨s, hs, hp⟩ := hrun
  simp only [Bool.and_eq_true, beq_iff_eq] at hp
  have hsession : Session ⟨2, 60⟩ s := session_of_run .init hs
  exact ⟨s, hsession, recordedStored_of_session hsession, hp⟩

end Cluster

end GfsCluster
