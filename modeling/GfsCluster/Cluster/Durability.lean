import GfsCluster.Cluster.Availability
import GfsCluster.Cluster.Sessions
import GfsCluster.Naming.Convergence

/-! What is committed outlives its servers. Servers fail for good, one after the other and any number
of them over time, and a pass of the healer that finds all others live moves what they held. As long
as fewer than R servers fail between two such passes, no committed chunk loses its last replica. -/

namespace GfsCluster

open StepSystem

namespace NamingServer

variable {cfg : Settings} {n n₂ n' : NamingServer} {b : HealStep} {sent : List StorageRpc} {c : ChunkId}

/-- After a pass in which every copy succeeds a chunk with a live address has its target of them. -/
theorem HealPass.enough_live (hclean : n.store.Clean)
    (hcomma : ∀ r ∈ n.db.replicas, CommaFree r.address)
    (h : HealPass cfg (PassAlone cfg fun _ _ => true) n n₂ n' b sent)
    (hlen : cfg.replication ≤ n.live.length) (hcom : n.db.CommittedChunk c)
    (hfloor : cfg.replication ≤ (n.db.locations c).length)
    (hsome : ∃ addr ∈ n.db.locations c, addr ∈ n.live) :
    cfg.replication ≤ ((n'.db.locations c).filter (· ∈ n.live)).length := by
  obtain ⟨r, hr, rfl, hF⟩ := hcom
  have hcom : n.db.CommittedChunk r.chunkId := ⟨r, hr, rfl, hF⟩
  by_cases hs : Short cfg n.db n.live r.chunkId
  · have hrep := h.repaired hclean hcomma hlen hs hfloor
    exact (hrep.reaches (fun _ => rfl) n.live_nodup (n.db.locations_nodup _) hlen hs.2.2.2.le).ge
  · rw [(h.others hclean hcomma hs).1]
    obtain ⟨addr, haddr, hlive⟩ := hsome
    have hpos : 0 < ((n.db.locations r.chunkId).filter (· ∈ n.live)).length :=
      List.length_pos_of_mem (List.mem_filter.mpr ⟨haddr, decide_eq_true hlive⟩)
    by_contra hlt
    exact hs ⟨List.mem_map_of_mem hr, hcom, hpos, not_le.mp hlt⟩

end NamingServer

/-- The server that a request goes to. -/
def Message.addr : Message → Addr
  | .storeChunks _ addr _ _ | .deleteChunk addr _ | .replicateChunk _ addr _ _
  | .replicateData _ addr _ _ => addr

namespace Cluster

variable {cfg : Settings} {s s' t : Cluster} {a : ClusterAction} {k : ℕ} {addr : Addr} {c : ChunkId}
  {base down : Finset Addr} {ok : Cluster → ClusterAction → Prop}

/-! ### Failed servers -/

/-- Servers that have failed write nothing any more. -/
def Halted (down : Finset Addr) (s : Cluster) : ClusterAction → Prop
  | .storeItem i | .copyStore i =>
    match s.net[i]? with
    | some m => m.addr ∉ down
    | none => True
  | _ => True

instance (down : Finset Addr) (s : Cluster) (a : ClusterAction) : Decidable (Halted down s a) := by
  unfold Halted
  repeat' split
  all_goals infer_instance

theorem stored_of_halted (hok : Halted down s a) (hs : s.step cfg a = some s') (hdown : addr ∈ down)
    (h : s'.Stored addr c) : s.Stored addr c := by
  unfold Stored at h ⊢
  cases file_of_step hs addr c with
  | keep h' => rwa [← h']
  | store i k j batch b ha hi _ _ =>
    subst ha
    simp only [Halted, hi] at hok
    exact absurd hdown hok
  | copy i ticket b ha hi _ =>
    subst ha
    simp only [Halted, hi] at hok
    exact absurd hdown hok
  | delete _ _ _ h' => exact absurd h' h
  | scrub _ _ _ _ h' => exact absurd h' h

/-- The call may still commit its file. -/
def Open (s : Cluster) (k : ℕ) : Prop :=
  (s.calls k).commit = .sent ∨ (s.calls k).commit = .unsent ∧ (s.calls k).phase.over = false

theorem open_of_step (hu : Uploads s) (hs : s.step cfg a = some s') (h : s'.Open k) :
    s.Open k ∨ (s.calls k).phase = .idle := by
  have hcoherent := hu.coherent k
  unfold CreateCall.Coherent at hcoherent
  unfold Open at h ⊢
  cases call_of_step hs k with
  | keep h' => exact .inl (by rwa [← h'])
  | call _ _ _ hp _ => exact .inr hp
  | reply _ hp _ _ =>
    rw [hp] at hcoherent
    exact .inl (.inr ⟨hcoherent, by rw [hp]; rfl⟩)
  | upload _ _ _ _ _ _ hp _ _ _ =>
    rw [hp] at hcoherent
    exact .inl (.inr ⟨hcoherent, by rw [hp]; rfl⟩)
  | acked _ _ _ _ _ _ hp _ _ _ _ =>
    rw [hp] at hcoherent
    exact .inl (.inr ⟨hcoherent, by rw [hp]; rfl⟩)
  | send _ hp _ _ =>
    rw [hp] at hcoherent
    exact .inl (.inr ⟨hcoherent, by rw [hp]; rfl⟩)
  | exec _ _ h' => simp [h'] at h
  | lost _ h' => simp [h'] at h
  | finish _ _ hc h' => simp [h', hc] at h
  | stop _ h' =>
    simp only [h', CallPhase.over, Bool.true_eq_false, and_false, or_false] at h
    exact .inl (.inl h)

/-- Steps while the servers of `down` have failed. -/
def Outage (cfg : Settings) (down : Finset Addr) (s : Cluster) (a : ClusterAction) : Prop :=
  (Orderly cfg s a ∧ HostPort s a) ∧ Halted down s a

/-! ### Servers that nothing depends on -/

/-- Every committed chunk has its target of replicas on servers not in `base`, and none comes to be
recorded there by what is under way. A chunk whose file is being replaced does not count. -/
structure Clear (cfg : Settings) (base : Finset Addr) (s : Cluster) : Prop where
  pending : ∀ addr ∈ base, ∀ c k i, ⟨c, k, i⟩ ∈ s.naming.issued → s.Open k → ¬ s.Stored addr c
  landed : ∀ addr ∈ base, ∀ c, ¬ s.Landed addr c
  recorded : ∀ c, s.naming.db.CommittedChunk c →
    s.naming.Doomed c ∨ s.naming.Among cfg (· ∉ base) c

namespace Clear

theorem pending_of_step (h : Clear cfg base s) (hs : Reachable cfg ok s) (hsub : base ⊆ down)
    (hok : Halted down s a) (hstep : s.step cfg a = some s') (hbase : addr ∈ base) {i : ℕ}
    (hi : ⟨c, k, i⟩ ∈ s'.naming.issued) (hopen : s'.Open k) : ¬ s'.Stored addr c := by
  intro hst
  have hst := stored_of_halted hok hstep (hsub hbase) hst
  -- what is on a disk was handed out before
  obtain ⟨b, hb⟩ := Option.ne_none_iff_exists'.mp hst
  obtain ⟨k', i', hi', hres, _⟩ := hs.carried.files addr c b hb
  have hstep' : Steps (step cfg) anyStep s s' := .single trivial hstep
  have hreach : Reachable cfg anyStep s' := (Steps.unguarded hs).trans hstep'
  have he := hreach.consistent.issue_unique (steps_issued hstep' hi') hi rfl
  simp only [Issue.mk.injEq, true_and] at he
  obtain ⟨rfl, rfl⟩ := he
  rcases open_of_step hs.uploads hstep hopen with hopen | hidle
  · exact h.pending addr hbase c k' i' hi' hopen hst
  · exact hs.requests.begun hres hidle

theorem landed_of_step (h : Clear cfg base s) (hs : Reachable cfg ok s) (hsub : base ⊆ down)
    (hok : Halted down s a) (hstep : s.step cfg a = some s') (hbase : addr ∈ base) :
    ¬ s'.Landed addr c := by
  intro hl
  rcases Cluster.landed_of_step hs.tickets hstep hl with hl | ⟨i, t, b, rfl, hi⟩
  · exact h.landed addr hbase c hl
  · simp only [Halted, hi] at hok
    exact hok (hsub hbase)

/-- A file that is committed has no chunk on a server of `base`. -/
theorem among_of_commit (h : Clear cfg base s) (hs : Reachable cfg (Orderly cfg) s)
    (hstocked : s.naming.Stocked cfg) (hok : Orderly cfg s (.commitExec k))
    (hstep : s.step cfg (.commitExec k) = some s') {r : ChunkRow} (hrow : r ∈ s.naming.db.chunks)
    (hname : r.filename = (s.calls k).filename) :
    s.naming.Doomed r.chunkId ∨ s.naming.Among cfg (· ∉ base) r.chunkId := by
  have hc := hs.consistent
  obtain ⟨i, hi, _⟩ := Intact.own_of_commitExec hc hok hrow hname
  obtain ⟨hsent, _⟩ := commitExec_cases hc hstep
  by_cases hdoomed : s.naming.Doomed r.chunkId
  · exact .inl hdoomed
  · have hall : (s.naming.db.locations r.chunkId).filter (· ∉ base) = s.naming.db.locations r.chunkId := by
      refine List.filter_eq_self.mpr fun addr haddr => decide_eq_true fun hbase => ?_
      -- the call has an acknowledgement from the server
      obtain ⟨x, _, hx⟩ := acked_of_sent hs (hs.intact.committed k) hsent hrow hi
        (s.naming.db.mem_locations.mp haddr)
      have hst := (hs.intact.kept.acked _ addr x hx).resolve_left hdoomed
      exact h.pending addr hbase _ k i hi (.inl hsent) hst
    refine .inr ?_
    rw [NamingServer.Among, hall]
    exact hstocked r hrow

theorem recorded_of_step (h : Clear cfg base s)
    (hs : Reachable cfg (fun s a => Orderly cfg s a ∧ HostPort s a) s) (hok : Orderly cfg s a)
    (hstep : s.step cfg a = some s') (hcom : s'.naming.db.CommittedChunk c) :
    s'.naming.Doomed c ∨ s'.naming.Among cfg (· ∉ base) c := by
  have hs₁ : Reachable cfg (Orderly cfg) s := Steps.mono hs fun _ _ h => h.1
  have hs₂ : Reachable cfg HostPort s := Steps.mono hs fun _ _ h => h.2
  have hc := hs₁.consistent
  refine Or.imp_left (Intact.doomed_of_step hc hok hstep) ?_
  obtain ⟨r, hrow', rfl, hF⟩ := hcom
  have hcom : s'.naming.db.CommittedChunk r.chunkId := ⟨r, hrow', rfl, hF⟩
  rcases naming_of_step hstep with he | ⟨b, out, hd, hn⟩
  · rw [he] at hcom ⊢
    exact h.recorded _ hcom
  · have hrow : r ∈ s.naming.db.chunks := by
      by_contra hrow
      exact NamingServer.not_committed_of_new_row hc hn hrow' hrow hcom
    have hbefore : s.naming.Doomed r.chunkId ∨ s.naming.Among cfg (· ∉ base) r.chunkId := by
      by_cases hbefore : s.naming.db.CommittedChunk r.chunkId
      · exact h.recorded _ hbefore
      · rcases NamingServer.committed_before_step hc hn hrow hrow' hcom with hbefore' | rfl
        · exact absurd hbefore' hbefore
        · obtain ⟨k, rfl, hname⟩ := commit_of_drives hd
          exact h.among_of_commit hs₁ hs₂.stocked hok hstep hrow hname
    refine hbefore.imp_right fun hamong => hamong.of_step hc hs₂.healTracks hn hrow hrow' ?_
    rintro live rest repaired w target hheal hid
    refine decide_eq_true fun hbase => h.landed target hbase r.chunkId (.inl ?_)
    rw [hheal, ← hid]
    rfl

theorem of_step (h : Clear cfg base s)
    (hs : Reachable cfg (fun s a => Orderly cfg s a ∧ HostPort s a) s) (hsub : base ⊆ down)
    (hok : Outage cfg down s a) (hstep : s.step cfg a = some s') : Clear cfg base s' := by
  have hs₁ : Reachable cfg (Orderly cfg) s := Steps.mono hs fun _ _ h => h.1
  refine ⟨fun _ hbase _ _ _ hi hopen => ?_, fun _ hbase _ => ?_, fun _ hcom => ?_⟩
  · exact h.pending_of_step hs₁ hsub hok.2 hstep hbase hi hopen
  · exact h.landed_of_step hs₁ hsub hok.2 hstep hbase
  · exact h.recorded_of_step hs hok.1.1 hstep hcom

end Clear

/-! ### A full pass -/

/-- Steps of a pass in which every copy succeeds, and steps of others that write no metadata and leave
the same servers live. -/
def Calm (cfg : Settings) (down : Finset Addr) (s : Cluster) (a : ClusterAction) : Prop :=
  Outage cfg down s a ∧
    ∀ b, s.Drives a b → NamingServer.PassAlone cfg (fun _ _ => true) (s.naming, []) b

/-- A pass of the healer while exactly the servers of `down` are gone, and no call that may still
commit has stored anything on them. -/
structure FullPass (cfg : Settings) (down : Finset Addr) (s t : Cluster) : Prop where
  run : ∃ s₁ t₁ b, Outage cfg down s (.naming (.heal .count)) ∧
    s.step cfg (.naming (.heal .count)) = some s₁ ∧ Steps (step cfg) (Calm cfg down) s₁ t₁ ∧
    Calm cfg down t₁ (.naming (.heal b)) ∧ t₁.step cfg (.naming (.heal b)) = some t ∧
    t₁.naming.heal.over = false
  ended : t.naming.heal.over = true
  enough : cfg.replication ≤ s.naming.live.length
  live_up : ∀ addr ∈ s.naming.live, addr ∉ down
  up_live : ∀ addr ∈ knownReplicaAddresses s.naming.db, addr ∉ down → addr ∈ s.naming.live
  pending : ∀ addr ∈ down, ∀ c k i, ⟨c, k, i⟩ ∈ t.naming.issued → t.Open k → ¬ t.Stored addr c

/-- What the naming server does in a calm run. -/
theorem steps_sendStep (h : Steps (step cfg) (Calm cfg down) s t) (sent : List StorageRpc) :
    ∃ sent', Steps (NamingServer.sendStep cfg) (NamingServer.PassAlone cfg fun _ _ => true)
      (s.naming, sent) (t.naming, sent') := by
  have hsim : ∃ x : NamingServer × List StorageRpc, Steps (NamingServer.sendStep cfg)
      (NamingServer.PassAlone cfg fun _ _ => true) (s.naming, sent) x ∧ x.1 = t.naming := by
    refine h.simulate (R := fun (u : Cluster) (x : NamingServer × List StorageRpc) => x.1 = u.naming) rfl ?_
    rintro u a v ⟨n, sent⟩ rfl ⟨_, halone⟩ hstep
    rcases naming_of_step hstep with he | ⟨b, out, hd, hn⟩
    · exact ⟨_, .refl, he.symm⟩
    · have hsend : NamingServer.sendStep cfg (u.naming, sent) b = some (v.naming, sent ++ out) :=
        NamingServer.sendStep_eq_some.mpr ⟨out, hn, rfl⟩
      exact ⟨(v.naming, sent ++ out), .single (halone b hd) hsend, rfl⟩
  obtain ⟨⟨n, sent'⟩, hx, rfl⟩ := hsim
  exact ⟨sent', hx⟩

theorem step_of_naming {b : NamingAction} (h : s.step cfg (.naming b) = some s') :
    s.Drives (.naming b) b ∧ ∃ out, s.naming.step cfg b = some (s'.naming, out) := by
  simp only [step] at h
  split_ifs at h with hfree
  obtain ⟨⟨n, out⟩, hn, rfl⟩ := Option.map_eq_some_iff.mp h
  exact ⟨.free b hfree, out, hn⟩

namespace FullPass

theorem healPass (h : FullPass cfg down s t) : ∃ n₂ b sent, NamingServer.HealPass cfg
    (NamingServer.PassAlone cfg fun _ _ => true) s.naming n₂ t.naming b sent := by
  obtain ⟨⟨s₁, t₁, b, _, hcount, hrun, hcalm, hlast, hbusy⟩, hended, _, _, _, _⟩ := h
  obtain ⟨_, out, hn⟩ := step_of_naming hcount
  obtain ⟨hd, out', hn'⟩ := step_of_naming hlast
  obtain ⟨sent, hsteps⟩ := steps_sendStep hrun out
  exact ⟨t₁.naming, b, sent ++ out', ⟨sent, out', ⟨_, out, hn, hsteps⟩, hcalm.2 _ hd, hn', rfl⟩, hbusy,
    hended⟩

theorem steps (h : FullPass cfg down s t) : Steps (step cfg) (Outage cfg down) s t := by
  obtain ⟨⟨s₁, t₁, b, hok, hcount, hrun, hcalm, hlast, _⟩, _, _, _, _, _⟩ := h
  refine (Steps.single hok hcount).trans (.trans (hrun.mono fun _ _ h => h.1) ?_)
  exact .single hcalm.1 hlast

end FullPass

/-- Among enough addresses outside `base` one is outside `down`. -/
theorem exists_up {locations : List Addr} (hnd : locations.Nodup) (hbase : ∀ addr ∈ locations, addr ∉ base)
    (hcard : (down \ base).card < locations.length) : ∃ addr ∈ locations, addr ∉ down := by
  obtain ⟨addr, haddr, hnot⟩ := exists_not_mem_of_card_lt hnd hcard
  refine ⟨addr, haddr, fun hdown => hnot ?_⟩
  exact Finset.mem_sdiff.mpr ⟨hdown, hbase addr haddr⟩

theorem doomed_of_steps (hs : Reachable cfg (Orderly cfg) s) (hrun : Steps (step cfg) (Outage cfg down) s t)
    (h : s.naming.Doomed c) : t.naming.Doomed c := by
  have hmono : ∀ {u}, Steps (step cfg) (Outage cfg down) s u → Reachable cfg (Orderly cfg) u :=
    fun hu => hs.steps (hu.mono fun _ _ h => h.1.1)
  refine hrun.invariant (P := fun u : Cluster => u.naming.Doomed c) h fun u a v hu hd hok hstep => ?_
  exact Intact.doomed_of_step (hmono hu).consistent hok.1.1 hstep hd

theorem Reachable.recorded_commaFree (h : Reachable cfg HostPort s) :
    ∀ r ∈ s.naming.db.replicas, CommaFree r.address := by
  have hn : NamingServer.Reachable cfg NamingServer.CommaFreeAddresses s.naming :=
    steps_naming h fun _ _ _ hok hd => hok.registers hd
  exact (NamingServer.Reachable.commaFree hn).recorded

/-- After a full pass nothing depends on the servers that are gone. -/
theorem Clear.of_pass (h : Clear cfg base s)
    (hs : Reachable cfg (fun s a => Orderly cfg s a ∧ HostPort s a) s)
    (hcard : (down \ base).card < cfg.replication) (hpass : FullPass cfg down s t) :
    Clear cfg down t := by
  have hs₁ : Reachable cfg (Orderly cfg) s := Steps.mono hs fun _ _ h => h.1
  have hs₂ : Reachable cfg HostPort s := Steps.mono hs fun _ _ h => h.2
  have hclean := hs₁.consistent.clean
  obtain ⟨n₂, b, sent, hheal⟩ := hpass.healPass
  obtain ⟨_, _, hfiles, hchunks, _⟩ := hheal.cases hclean
  have hquiet : t.naming.heal.unrecorded = none ∧ t.naming.heal.asked = none ∧
      t.naming.heal.dropped = none := by
    have hended := hpass.ended
    cases hheal : t.naming.heal <;> first | exact ⟨rfl, rfl, rfl⟩ | simp [hheal, HealPhase.over] at hended
  refine ⟨hpass.pending, fun addr _ c hl => ?_, fun c hcom => ?_⟩
  · -- no copy is under way
    rcases hl with hl | ⟨_, _, hl⟩
    · rw [hquiet.1] at hl
      cases hl
    · rw [hquiet.2.1] at hl
      cases hl
  · have hcom₀ : s.naming.db.CommittedChunk c := by
      simpa only [Db.CommittedChunk, hfiles, hchunks] using hcom
    by_cases hdoomed : s.naming.Doomed c
    · exact .inl (doomed_of_steps hs₁ hpass.steps hdoomed)
    · obtain ⟨r, hrow, rfl, hF⟩ := hcom₀
      have hcom₀ : s.naming.db.CommittedChunk r.chunkId := ⟨r, hrow, rfl, hF⟩
      have hamong : cfg.replication + s.naming.replacing r.chunkId ≤
          ((s.naming.db.locations r.chunkId).filter (· ∉ base)).length :=
        (h.recorded _ hcom₀).resolve_left hdoomed
      obtain ⟨up, hup, hnot⟩ := exists_up ((s.naming.db.locations_nodup r.chunkId).filter (· ∉ base))
        (fun addr haddr => of_decide_eq_true (List.mem_filter.mp haddr).2)
        (show (down \ base).card < _ by omega)
      have hup := (List.mem_filter.mp hup).1
      have hlive := hpass.up_live up (mem_knownReplicaAddresses.mpr ⟨r, hrow, hcom₀, hup⟩) hnot
      have hfloor : cfg.replication ≤ (s.naming.db.locations r.chunkId).length := by
        have := hs₂.stocked r hrow
        omega
      have henough := hheal.enough_live hclean hs₂.recorded_commaFree hpass.enough hcom₀ hfloor
        ⟨up, hup, hlive⟩
      have hmono : ((t.naming.db.locations r.chunkId).filter (· ∈ s.naming.live)).length ≤
          ((t.naming.db.locations r.chunkId).filter (· ∉ down)).length := by
        refine (List.monotone_filter_right _ fun addr haddr => ?_).length_le
        exact decide_eq_true (hpass.live_up addr (of_decide_eq_true haddr))
      refine .inr ?_
      rw [NamingServer.Among, NamingServer.replacing, hquiet.2.2, if_neg (by simp)]
      omega

/-! ### Failures over time -/

/-- Runs in which the servers of `down` have failed for good, those of `base` before the last full pass
ended, and fewer than R of them since. -/
inductive Epochs (cfg : Settings) : Finset Addr → Finset Addr → Cluster → Prop
  | init : Epochs cfg ∅ ∅ .init
  | steps {base down : Finset Addr} {s t : Cluster} (h : Epochs cfg base down s)
      (hrun : Steps (step cfg) (Outage cfg down) s t) : Epochs cfg base down t
  | fail {base down : Finset Addr} {s : Cluster} (addr : Addr) (h : Epochs cfg base down s)
      (hlt : (insert addr down \ base).card < cfg.replication) : Epochs cfg base (insert addr down) s
  | pass {base down : Finset Addr} {s t : Cluster} (h : Epochs cfg base down s)
      (hpass : FullPass cfg down s t) : Epochs cfg down down t

namespace Epochs

theorem reachable (h : Epochs cfg base down s) :
    Reachable cfg (fun s a => Orderly cfg s a ∧ HostPort s a) s := by
  induction h with
  | init => exact .refl
  | steps _ hrun ih => exact ih.steps (hrun.mono fun _ _ h => h.1)
  | fail _ _ _ ih => exact ih
  | pass _ hpass ih => exact ih.steps (hpass.steps.mono fun _ _ h => h.1)

theorem card_lt (h : Epochs cfg base down s) (hR : 0 < cfg.replication) :
    base ⊆ down ∧ (down \ base).card < cfg.replication := by
  induction h with
  | init => exact ⟨subset_rfl, by simpa using hR⟩
  | steps _ _ ih => exact ih
  | fail addr _ hlt ih => exact ⟨ih.1.trans (Finset.subset_insert _ _), hlt⟩
  | pass _ _ _ => exact ⟨subset_rfl, by simpa using hR⟩

theorem clear (h : Epochs cfg base down s) (hR : 0 < cfg.replication) : Clear cfg base s := by
  induction h with
  | init =>
    refine ⟨fun _ h => by simp at h, fun _ h => by simp at h, ?_⟩
    rintro c ⟨r, hr, _⟩
    cases hr
  | @steps base down s t h hrun ih =>
    refine hrun.invariant (P := Clear cfg base) ih fun u a v hu hclear hok hstep => ?_
    exact hclear.of_step (h.reachable.steps (hu.mono fun _ _ h => h.1)) (h.card_lt hR).1 hok hstep
  | fail _ _ _ ih => exact ih
  | pass h hpass ih => exact ih.of_pass h.reachable (h.card_lt hR).2 hpass

/-- No chunk of a committed file is lost. -/
theorem not_lost (h : Epochs cfg base down s) (hR : 0 < cfg.replication)
    (hidle : ∀ k chunks, (s.naming.creates k).phase ≠ .placing chunks) {F : FileRow}
    (hF : F ∈ s.naming.db.files) (hst : F.status = .committed) : s.lostIndices down F = [] := by
  have hs₁ : Reachable cfg (Orderly cfg) s := Steps.mono h.reachable fun _ _ h => h.1
  rw [lostIndices, List.filter_eq_nil_iff]
  rintro i - hlost
  obtain ⟨r, hr, hname, _, hnone⟩ := of_decide_eq_true hlost
  have hcom : s.naming.db.CommittedChunk r.chunkId := ⟨r, hr, rfl, F, hF, hname.symm, hst⟩
  have hnot := NamingServer.not_doomed (List.mem_map_of_mem hr) hidle
  have hamong : cfg.replication + s.naming.replacing r.chunkId ≤
      ((s.naming.db.locations r.chunkId).filter (· ∉ base)).length :=
    ((h.clear hR).recorded _ hcom).resolve_left hnot
  have hcard := (h.card_lt hR).2
  obtain ⟨up, hup, hnotdown⟩ := exists_up ((s.naming.db.locations_nodup r.chunkId).filter (· ∉ base))
    (fun addr haddr => of_decide_eq_true (List.mem_filter.mp haddr).2)
    (show (down \ base).card < _ by omega)
  have hup := (List.mem_filter.mp hup).1
  obtain ⟨_, b, _, _, _, hb⟩ := hs₁.recordedStored hidle r hr hcom up (s.naming.db.mem_locations.mp hup)
  have hheld := hnone up hup
  rw [onDisks, if_neg hnotdown, hb] at hheld
  cases hheld

/-- However many servers have failed for good over time, fewer than R of them since the last full
pass, every committed file is read back whole. -/
theorem durable (h : Epochs cfg base down s) (hR : 0 < cfg.replication)
    (hidle : ∀ k chunks, (s.naming.creates k).phase ≠ .placing chunks) {F : FileRow}
    (hF : F ∈ s.naming.db.files) (hst : F.status = .committed) {pool : Pool}
    (hpool : pool.Reads (s.onDisks down)) (o₁ o₂ : RowOrder) (live : List Addr) :
    ∃ k, s.naming.VersionOf F k ∧ (s.calls k).filename = F.filename ∧
      pool.read (getFileResponse
          (getFile (o₁.view s.naming.db) (o₂.view s.naming.db) F.filename) live) =
        .ok (s.calls k).data := by
  have hs : Reachable cfg anyStep s := Steps.unguarded h.reachable
  obtain ⟨k, hv⟩ := hs.consistent.version F hF
  refine ⟨k, hv, version_name hs hv, ?_⟩
  rw [read_version hs hv hF hst hpool o₁ o₂ live, if_pos (h.not_lost hR hidle hF hst)]

end Epochs

/-! ### Two failures at two replicas -/

/-- No restart, and enough live servers for every chunk that is placed. -/
def Steady (cfg : Settings) (s : Cluster) : ClusterAction → Prop
  | .naming .crash | .scrubRemove _ _ => False
  | .naming (.create _ (.place _)) => cfg.replication ≤ s.naming.live.length
  | .commitExec k => OwnCommit s (.commitExec k)
  | _ => True

instance (s : Cluster) (a : ClusterAction) : Decidable (Steady cfg s a) :=
  match a with
  | .naming .crash | .scrubRemove _ _ => .isFalse id
  | .naming (.create _ (.place _)) => inferInstanceAs (Decidable (cfg.replication ≤ s.naming.live.length))
  | .commitExec k => inferInstanceAs (Decidable (OwnCommit s (.commitExec k)))
  | .naming (.create _ (.receive _)) | .naming (.create _ .checkLive)
  | .naming (.create _ (.selectFile _)) | .naming (.create _ (.selectChunks _))
  | .naming (.create _ (.reserve _)) | .naming (.registerStorage _) | .naming (.heartbeat _)
  | .naming (.tick _) | .naming (.commit _) | .naming (.delete _ _) | .naming (.get _ _)
  | .naming (.purge _) | .naming (.cleanup _) | .naming (.heal _)
  | .createCall _ _ _ | .createReply _ | .sendBatch _ _ | .storeItem _ | .storeReply _ _ _
  | .uploadFail _ _ | .commitSend _ | .commitLost _ | .commitReply _ | .clientStop _ | .deleteExec _
  | .copyFetch _ | .copyStore _ | .drop _ | .scrubQuery _ _ | .scrubList _ | .scrubStop _ =>
    .isTrue trivial

theorem Steady.orderly (h : Steady cfg s a) : Orderly cfg s a := by
  cases a with
  | naming b =>
    cases b with
    | create k b =>
      cases b with
      | place id => exact .inr h
      | _ => trivial
    | crash => exact h.elim
    | _ => trivial
  | commitExec k => exact h
  | scrubRemove addr c => exact h
  | _ => trivial

/-- Steady steps while the servers of `down` have failed. -/
def SteadyOutage (cfg : Settings) (down : Finset Addr) (s : Cluster) (a : ClusterAction) : Prop :=
  (Steady cfg s a ∧ HostPort s a) ∧ Halted down s a

instance (down : Finset Addr) (s : Cluster) (a : ClusterAction) : Decidable (SteadyOutage cfg down s a) :=
  inferInstanceAs (Decidable ((_ ∧ _) ∧ _))

theorem SteadyOutage.outage (h : SteadyOutage cfg down s a) : Outage cfg down s a :=
  ⟨⟨h.1.1.orderly, h.1.2⟩, h.2⟩

instance (s : Cluster) (k : ℕ) : Decidable (s.Open k) :=
  inferInstanceAs (Decidable (_ ∨ _ ∧ _))

/-- The healer's own steps, with every copy successful. -/
def Healing (s : Cluster) : ClusterAction → Prop
  | .naming b => NamingServer.Healing (s.naming, []) b
  | .copyFetch _ | .copyStore _ => True
  | _ => False

instance (s : Cluster) (a : ClusterAction) : Decidable (Healing s a) :=
  match a with
  | .naming b => inferInstanceAs (Decidable (NamingServer.Healing (s.naming, []) b))
  | .copyFetch _ | .copyStore _ => .isTrue trivial
  | .createCall _ _ _ | .createReply _ | .sendBatch _ _ | .storeItem _ | .storeReply _ _ _
  | .uploadFail _ _ | .commitSend _ | .commitExec _ | .commitLost _ | .commitReply _ | .clientStop _
  | .deleteExec _ | .drop _ | .scrubQuery _ _ | .scrubList _ | .scrubRemove _ _ | .scrubStop _ =>
    .isFalse id

theorem Healing.calm (hok : Outage cfg down s a) (h : Healing s a) : Calm cfg down s a := by
  refine ⟨hok, fun b hd => ?_⟩
  cases hd with
  | free b _ => exact NamingServer.Healing.passAlone cfg h
  | create => exact h.elim
  | commit => exact h.elim

/-- Only the first `m` calls are made. -/
def Calls (m : ℕ) : ClusterAction → Prop
  | .createCall k _ _ => k < m
  | _ => True

instance (m : ℕ) (a : ClusterAction) : Decidable (Calls m a) :=
  match a with
  | .createCall k _ _ => inferInstanceAs (Decidable (k < m))
  | .naming _ | .createReply _ | .sendBatch _ _ | .storeItem _ | .storeReply _ _ _ | .uploadFail _ _
  | .commitSend _ | .commitExec _ | .commitLost _ | .commitReply _ | .clientStop _ | .deleteExec _
  | .copyFetch _ | .copyStore _ | .drop _ | .scrubQuery _ _ | .scrubList _ | .scrubRemove _ _
  | .scrubStop _ => .isTrue trivial

theorem Healing.calls (h : Healing s a) (m : ℕ) : Calls m a := by
  cases a <;> first | exact h.elim | trivial

theorem idle_of_calls {m : ℕ} (ha : Calls m a) (hs : s.step cfg a = some s')
    (h : ∀ k ≥ m, (s.naming.creates k).phase = .idle) : ∀ k ≥ m, (s'.naming.creates k).phase = .idle := by
  intro k hk
  rcases naming_of_step hs with he | ⟨b, out, hd, hn⟩
  · rw [he]
    exact h k hk
  · rcases NamingServer.idle_of_step hn (h k hk) with he | ⟨req, rfl, _⟩
    · rw [he]
      exact h k hk
    · cases hd with
      | free _ hfree => exact hfree.elim
      | create _ _ _ _ => exact absurd ha (not_lt.mpr hk)

/-- The only call that is made is over. -/
theorem idle_of_over (h : Steps (step cfg) (fun _ a => Calls 1 a) .init t)
    (hover : (t.naming.creates 0).phase.over = true) :
    ∀ k chunks, (t.naming.creates k).phase ≠ .placing chunks := by
  have hothers := h.invariant (P := fun u : Cluster => ∀ k ≥ 1, (u.naming.creates k).phase = .idle)
    (fun _ _ => rfl) fun _ _ _ _ h ha hs => idle_of_calls ha hs h
  intro k chunks hphase
  by_cases hk : k = 0
  · subst hk
    rw [hphase] at hover
    cases hover
  · rw [hothers k (Nat.one_le_iff_ne_zero.mpr hk)] at hphase
    cases hphase

/-- The states before and after the pass are as a full pass wants them. -/
def Cleared (cfg : Settings) (down : Finset Addr) (s t₁ t : Cluster) : Prop :=
  (t₁.naming.heal.over = false ∧ t.naming.heal.over = true) ∧
    (cfg.replication ≤ s.naming.live.length ∧ ∀ addr ∈ s.naming.live, addr ∉ down) ∧
    (∀ addr ∈ knownReplicaAddresses s.naming.db, addr ∉ down → addr ∈ s.naming.live) ∧
    ∀ addr ∈ down, ∀ e ∈ t.naming.issued, t.Open e.call → t.file addr e.chunkId = none

instance (s t₁ t : Cluster) : Decidable (Cleared cfg down s t₁ t) :=
  inferInstanceAs (Decidable ((_ ∧ _) ∧ (_ ∧ _) ∧ _ ∧ _))

/-- A pass of the listed steps, the last one apart. -/
def passed (cfg : Settings) (down : Finset Addr) (s : Cluster) (middle : List ClusterAction)
    (b : HealStep) : Option Cluster :=
  (guarded (step cfg) (SteadyOutage cfg down) s (.naming (.heal .count))).bind fun s₁ =>
    (run (guarded (step cfg) fun s a => SteadyOutage cfg down s a ∧ Healing s a) s₁ middle).bind
      fun t₁ => (guarded (step cfg) (fun s a => SteadyOutage cfg down s a ∧ Healing s a) t₁
        (.naming (.heal b))).bind fun t => if Cleared cfg down s t₁ t then some t else none

theorem fullPass_of_passed {middle : List ClusterAction} {b : HealStep}
    (h : passed cfg down s middle b = some t) :
    FullPass cfg down s t ∧ ∀ m, Steps (step cfg) (fun _ a => Calls m a) s t := by
  simp only [passed, Option.bind_eq_some_iff, guarded] at h
  obtain ⟨s₁, hcount, t₁, hmiddle, t', hlast, h⟩ := h
  split_ifs at hcount hlast h with hok hok' hcleared
  cases h
  obtain ⟨⟨hbusy, hover⟩, ⟨henough, hup⟩, hknown, hpending⟩ := hcleared
  have hrun := steps_of_guarded_run hmiddle
  have hcalm : Steps (step cfg) (Calm cfg down) s₁ t₁ := hrun.mono fun _ _ h => h.2.calm h.1.outage
  refine ⟨⟨⟨s₁, t₁, b, hok.outage, hcount, hcalm, hok'.2.calm hok'.1.outage, hlast, hbusy⟩, hover,
    henough, hup, hknown, ?_⟩, fun m => ?_⟩
  · intro addr haddr c k i hi hopen hst
    exact hst (hpending addr haddr _ hi hopen)
  · have hfirst : Steps (step cfg) (fun _ a => Calls m a) s s₁ :=
      .single (a := .naming (.heal .count)) (by trivial) hcount
    have hend : Steps (step cfg) (fun _ a => Calls m a) t₁ t :=
      .single (a := .naming (.heal b)) (by trivial) hlast
    exact hfirst.trans ((hrun.mono fun _ _ h => h.2.calls m).trans hend)

namespace Epochs

/-- Two servers hold the chunk. The first one fails, the healer copies the chunk to a third one, the
second one fails as well, and the file is still read. -/
theorem durable_twoFailures : ∃ (s : Cluster) (F : FileRow), F ∈ s.naming.db.files ∧
    Epochs ⟨2, 60⟩ {['s']} {['t'], ['s']} s ∧ ∃ k, (s.calls k).filename = F.filename ∧
      (s.onDisks {['t'], ['s']}).pool.read (getFileResponse
        (getFile (RowOrder.table.view s.naming.db) (RowOrder.table.view s.naming.db) F.filename)
          []) = .ok (s.calls k).data := by
  have hrun : ((run (guarded (step ⟨2, 60⟩) fun s a => SteadyOutage ⟨2, 60⟩ ∅ s a ∧ Calls 1 a) Cluster.init
      [.naming (.registerStorage ['s']), .naming (.registerStorage ['t']), .createCall 0 ['f'] [7],
        .naming (.create 0 .checkLive), .naming (.create 0 (.selectFile .table)),
        .naming (.create 0 (.place ['c'])), .naming (.create 0 (.reserve 0)), .createReply 0,
        .sendBatch 0 0, .sendBatch 0 1, .storeItem 0, .storeItem 1, .storeReply 0 0 0,
        .storeReply 0 1 0, .commitSend 0, .commitExec 0, .commitReply 0]).bind fun s₁ =>
      (run (guarded (step ⟨2, 60⟩) fun s a => SteadyOutage ⟨2, 60⟩ {['s']} s a ∧ Calls 1 a) s₁
        [.naming (.tick 10), .naming (.heartbeat ['t']), .naming (.registerStorage ['u']),
          .naming (.tick 10)]).bind fun s₂ =>
        passed ⟨2, 60⟩ {['s']} s₂ [.naming (.heal .pick), .naming (.heal (.known .table)),
          .naming (.heal (.scan .table)), .naming (.heal .next), .naming (.heal .copy), .copyFetch 0,
          .copyStore 0, .naming (.heal (.answer true)), .naming (.heal .record),
          .naming (.heal .drop), .naming (.heal .copy)] .next).any (fun s =>
      (s.naming.creates 0).phase.over && s.naming.db.files.any fun F => F.status == .committed) = true := by
    decide +kernel
  obtain ⟨t, ht, hp⟩ := (Option.any_eq_true _ _).mp hrun
  obtain ⟨s₁, h₁, ht⟩ := Option.bind_eq_some_iff.mp ht
  obtain ⟨s₂, h₂, ht⟩ := Option.bind_eq_some_iff.mp ht
  have hrun₁ := steps_of_guarded_run h₁
  have hrun₂ := steps_of_guarded_run h₂
  obtain ⟨hpass, hrun₃⟩ := fullPass_of_passed ht
  have hepochs : Epochs ⟨2, 60⟩ {['s']} {['t'], ['s']} t := by
    have hfirst : Epochs ⟨2, 60⟩ ∅ {['s']} s₁ :=
      .fail ['s'] (.steps .init (hrun₁.mono fun _ _ h => h.1.outage)) (by decide)
    exact .fail ['t'] (.pass (.steps hfirst (hrun₂.mono fun _ _ h => h.1.outage)) hpass) (by decide)
  rw [Bool.and_eq_true] at hp
  obtain ⟨hover, hfile⟩ := hp
  obtain ⟨F, hF, hst⟩ := List.any_eq_true.mp hfile
  have hidle := idle_of_over ((hrun₁.mono fun _ _ h => h.2).trans
    ((hrun₂.mono fun _ _ h => h.2).trans (hrun₃ 1))) hover
  obtain ⟨k, _, hname, hread⟩ := hepochs.durable (by decide) hidle hF (beq_iff_eq.mp hst)
    (Holdings.reads_pool _) .table .table []
  exact ⟨t, F, hF, hepochs, k, hname, hread⟩

end Epochs

end Cluster

end GfsCluster
