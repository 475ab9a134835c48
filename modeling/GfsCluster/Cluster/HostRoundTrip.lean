import GfsCluster.Cluster.Abort
import GfsCluster.Cluster.HostReads

/-! Create, then read, on storage servers as they are. What holds of a `create` in the cluster whose
servers do everything at once holds here too where no two writes of one chunk have its temp file open
together on a server: the round trip, and what is left of an overwrite that stopped. -/

namespace GfsCluster

open Inodes StepSystem

namespace Cluster

variable {f : Filename} {k : ℕ}

theorem ofFront_hostPort : OfFront HostPort where
  servers s a ha := by
    cases a with
    | naming b => exact ha.elim
    | _ => trivial
  congr _ _ _ _ _ h := h
  reply _ _ _ _ _ h := h

theorem ofFront_leftAlone : OfFront (LeftAlone f k) where
  servers s a ha := by
    cases a with
    | naming | createCall | commitExec | scrubRemove => exact ha.elim
    | _ => trivial
  congr s s' a hn hc h := by
    unfold LeftAlone at h ⊢
    rwa [hn, hc]
  reply _ _ _ _ _ h := h

theorem ofFront_undisturbed : OfFront (Undisturbed f k) where
  servers s a ha := ⟨ofFront_hostPort.servers s a ha, ofFront_leftAlone.servers s a ha⟩
  congr s s' a hn hc h := ⟨ofFront_hostPort.congr s s' a hn hc h.1, ofFront_leftAlone.congr s s' a hn hc h.2⟩
  reply _ _ _ _ _ h := h

end Cluster

namespace Hosts

theorem Meets.mono {ok ok' : Cluster → ClusterAction → Prop} {h : Hosts} {a : HostAction}
    (hmeets : h.Meets ok a) (himp : ∀ s a, ok s a → ok' s a) : h.Meets ok' a := by
  unfold Meets at hmeets ⊢
  split at hmeets
  · exact himp _ _ hmeets
  · exact himp _ _ hmeets
  · trivial

variable {cfg : Settings} {h t : Hosts} {s : Cluster} {f : Filename} {k : ℕ} {resp : GetFileResponse}
  {serve : Serve} {failed : Finset Addr} {ok : Cluster → ClusterAction → Prop}

/-! ### Round trip -/

/-- Once a `create` of `data` under `f` has returned, reads of `f` return `data` whichever
fewer than R servers fail, and `size` counts its bytes and chunks. The steps before the call
meet `before`, those since it began `during`. -/
def RoundTrips (cfg : Settings) (before : Hosts → HostAction → Prop)
    (during : Filename → ℕ → Hosts → HostAction → Prop) : Prop :=
  ∀ f k data h₀ h commit, Steps (step cfg) before init h₀ → (h₀.cluster.calls k).phase = .idle →
    Steps (step cfg) (during f k) h₀ h → h.cluster.calls k = ⟨f, data, .returned, commit⟩ →
    (∀ (failed : Finset Addr) (t : Hosts) (resp : GetFileResponse) (serve : Serve),
      failed.card < cfg.replication → GetsFile cfg (during f k) h f t resp →
      ServedBy cfg (during f k) failed t serve → read resp serve = .ok data) ∧
    ∀ resp, GetsSize cfg (during f k) h f resp →
      size resp = .ok ((data.length : ℤ), ((data.length + 1023) / 1024 : ℕ))

/-- The cluster follows an undisturbed call. -/
theorem exists_course {h₀ : Hosts} (hh₀ : Steps (step cfg) (Within Cluster.HostPort) init h₀)
    (hidle : (h₀.cluster.calls k).phase = .idle)
    (hrun : Steps (step cfg) (Within (Cluster.Undisturbed f k)) h₀ h) :
    ∃ s, Cluster.Course cfg f k s ∧ h.Follows s ∧ h.Named := by
  obtain ⟨s₀, hs₀, hfollow₀⟩ := exists_follows Cluster.ofFront_hostPort hh₀
  obtain ⟨s, hs, hfollow⟩ := hfollow₀.steps Cluster.ofFront_undisturbed hrun
  have hnamed₀ := Named.init.steps Cluster.ofFront_hostPort follows_init hh₀
  rw [← hfollow₀.2.calls] at hidle
  exact ⟨s, (Cluster.Course.of_idle hs₀ hidle).steps hs, hfollow,
    hnamed₀.steps Cluster.ofFront_undisturbed hfollow₀ hrun⟩

/-- A read after an undisturbed call is one of the cluster. -/
theorem exists_read (hcourse : Cluster.Course cfg f k s) (hfollow : h.Follows s) (hnamed : h.Named)
    (hres : (s.naming.creates k).phase.reserved = true) (hfailed : failed.card < cfg.replication)
    (hget : GetsFile cfg (Within (Cluster.Undisturbed f k)) h f t resp)
    (hserved : ServedBy cfg (Within (Cluster.Undisturbed f k)) failed t serve) :
    ∃ s' serve', Cluster.GetsFile cfg (Cluster.Undisturbed f k) s f s' resp ∧
      Cluster.Honest cfg (Cluster.Undisturbed f k) s' serve' ∧
      Cluster.Answering cfg (Cluster.Undisturbed f k) failed s' serve' ∧
      read resp serve = read resp serve' := by
  obtain ⟨s', hget', hfollow'⟩ := hget.follows Cluster.ofFront_undisturbed hfollow
  have hnamed' := hnamed.steps Cluster.ofFront_undisturbed hfollow hget.steps
  have hplain : ∀ p ∈ resp.placements, Plain p.chunkId := by
    intro p hp
    obtain ⟨addr, hstored⟩ := hcourse.placed_stored hres hget' (by omega) hp
    obtain ⟨b, hb⟩ := Option.ne_none_iff_exists'.mp hstored
    exact hnamed'.chunks addr p.chunkId b ((congrFun (hfollow'.2.files addr) p.chunkId).symm.trans hb)
  exact ⟨s', plainly s' serve, hget', hserved.honest Cluster.ofFront_undisturbed hfollow',
    hserved.answering Cluster.ofFront_undisturbed hfollow', read_congr (alike_plainly hplain)⟩

theorem roundTrip_of_created (cfg : Settings) :
    RoundTrips cfg (Within Cluster.HostPort) fun f k => Within (Cluster.Undisturbed f k) := by
  intro f k data h₀ h commit hh₀ hidle hrun hcall
  obtain ⟨s, hcourse, hfollow, hnamed⟩ := exists_course hh₀ hidle hrun
  rw [← hfollow.2.calls] at hcall
  have hans : (s.calls k).commit = .answered true := hcourse.answered (by rw [hcall])
  have hres := (hcourse.reachable.uploads.sent k (by rw [hans]; simp)).1
  have hdata : (s.calls k).data = data := by rw [hcall]
  rw [← hdata]
  constructor
  · intro failed t resp serve hfailed hget hserved
    obtain ⟨s', serve', hget', hhonest, hanswering, hread⟩ :=
      exists_read hcourse hfollow hnamed hres hfailed hget hserved
    rw [hread]
    exact hcourse.read_returns hans hget' hhonest hanswering hfailed
  · intro resp hget
    exact hcourse.size_returns hans (hget.follows Cluster.ofFront_undisturbed hfollow)

/-- A handler writes a chunk file of one byte. -/
def writing (addr : Addr) (k : ℕ) : List HostAction :=
  [.handle addr k .probe, .handle addr k .creat, .handle addr k (.write 1), .handle addr k .rename,
    .handle addr k .count]

/-- The first request under way is served, and upload `j` of call `k` gets the answer. -/
def uploading (addr : Addr) (i k j : ℕ) : List HostAction :=
  .receive 0 :: writing addr i ++ [.reply 0, .remote (.storeReply k j 0)]

def naming (as : List NamingAction) : List HostAction := as.map fun a => .remote (.naming a)

/-- The steps of a `create` of one byte up to the answer of CreateFile. -/
def reserving : List HostAction :=
  .remote (.createCall 0 ['f'] [7]) ::
    naming [.create 0 .checkLive, .create 0 (.selectFile .table), .create 0 (.place ['c']),
      .create 0 (.reserve 0)] ++ [.remote (.createReply 0)]

def committing (k : ℕ) : List HostAction :=
  [.remote (.commitSend k), .remote (.commitExec k)]

/-- Two servers with two replicas, one of which fails before the read. -/
theorem roundTrip_of_created_failing : ∃ h resp,
    GetsFile ⟨2, 60⟩ (Within (Cluster.Undisturbed ['f'] 0)) h ['f'] h resp ∧
      read resp (h.serveDisks {['s']}) = .ok [7] := by
  have hrun : (run (guarded (step ⟨2, 60⟩) (Within (Cluster.Undisturbed ['f'] 0))) init
      (naming [.registerStorage ['s'], .registerStorage ['t']] ++ reserving ++
        [.remote (.sendBatch 0 0), .remote (.sendBatch 0 1)] ++ uploading ['s'] 0 0 0 ++
        uploading ['t'] 0 0 1 ++ committing 0 ++ [.remote (.commitReply 0)])).any (fun h =>
      match h.cluster.calls 0 with
      | ⟨f, data, .returned, _⟩ => f == ['f'] && data == [7]
      | _ => false) = true := by
    decide +kernel
  obtain ⟨h, hh, hp⟩ := exists_of_run hrun
  split at hp
  · rename_i f data commit hcall
    simp only [Bool.and_eq_true, beq_iff_eq] at hp
    obtain ⟨rfl, rfl⟩ := hp
    have hget : GetsFile ⟨2, 60⟩ (Within (Cluster.Undisturbed ['f'] 0)) h ['f'] h _ :=
      .answer h h .table .table .refl .refl .refl
    have htrip := roundTrip_of_created _ _ _ _ _ _ _ .refl rfl hh hcall
    exact ⟨h, _, hget, htrip.1 {['s']} h _ _ (by decide) hget (servedBy_serveDisks admitsReads_within)⟩
  · cases hp

/-- The steps of a `create` of one byte on three servers up to its return. -/
def storingThrice (x : Addr) : List HostAction :=
  naming [.registerStorage ['s'], .registerStorage x, .registerStorage ['t']] ++ reserving ++
    [.remote (.sendBatch 0 0), .remote (.sendBatch 0 1), .remote (.sendBatch 0 2)] ++
    uploading ['s'] 0 0 0 ++ uploading ['t'] 0 0 1 ++ uploading x 0 0 2 ++ committing 0 ++
    [.remote (.commitReply 0)]

/-- `s` dies and `u` comes. A pass fails to copy to `u`, and then copies to `x`. -/
def healingTo (x : Addr) : List HostAction :=
  naming [.tick 10, .heartbeat x, .heartbeat ['t'], .registerStorage ['u'], .tick 10, .heal .count,
    .heal .pick, .heal (.known .table), .heal (.scan .table), .heal .next, .heal .copy] ++
    .lose 0 :: naming [.heal (.answer false), .heal .copy] ++
    [.receive 0, .handle ['t'] 1 .openRead, .handle ['t'] 1 (.read 1), .handle ['t'] 1 .readEnd, .reply 0,
      .receive 0] ++ writing x 1 ++ .reply 0 ::
    naming [.heal (.answer true), .heal .record, .heal .drop, .heal .copy, .heal .next,
      .heal (.refresh .table)]

/-- The pass takes the pieces of `x,y` for dead servers and `x,y` for a new one: the
"copy" to it adds nothing, and `s` is removed for it. Two servers are enough to fail then. -/
theorem not_roundTrips : ¬ RoundTrips ⟨3, 60⟩ anyStep fun f k => Meets (Cluster.LeftAlone f k) := by
  intro hall
  have hrun : (run (guarded (step ⟨3, 60⟩) (Meets (Cluster.LeftAlone ['f'] 0))) init
      (storingThrice ['x', ',', 'y'] ++ healingTo ['x', ',', 'y'])).any (fun h =>
        (read (getFileResponse (getFile h.cluster.naming.db h.cluster.naming.db ['f'])
          (h.cluster.naming.registry.liveServers h.cluster.naming.now))
            (h.serveDisks {['x', ',', 'y'], ['t']})).toOption == none &&
        match h.cluster.calls 0 with
        | ⟨f, data, .returned, _⟩ => f == ['f'] && data == [7]
        | _ => false) = true := by
    decide +kernel
  obtain ⟨h, hh, hp⟩ := exists_of_run hrun
  rw [Bool.and_eq_true, beq_iff_eq] at hp
  obtain ⟨hread, hcall⟩ := hp
  split at hcall
  · rename_i f data commit hcall'
    simp only [Bool.and_eq_true, beq_iff_eq] at hcall
    obtain ⟨rfl, rfl⟩ := hcall
    have hget : GetsFile ⟨3, 60⟩ (Meets (Cluster.LeftAlone ['f'] 0)) h ['f'] h _ :=
      .answer h h .table .table .refl .refl .refl
    have htrip := (hall _ _ _ _ _ _ .refl rfl hh hcall').1 {['x', ',', 'y'], ['t']} h _ _ (by decide)
      hget (servedBy_serveDisks admitsReads_meets)
    simp only [RowOrder.table, id] at htrip
    rw [htrip] at hread
    cases hread
  · cases hcall

/-! ### Overwrites that stop -/

/-- Call `k` tried to overwrite the content `old` of `f` with `data`: its CreateFile was
accepted, and it has stopped. The steps before the call meet `before`, those since it began `during`. -/
inductive Aborted (cfg : Settings) (before during : Hosts → HostAction → Prop) (f : Filename) (k : ℕ)
    (old data : Bytes) (h : Hosts) : Prop
  | intro (h₀ : Hosts) (commit : CommitCall) (hh₀ : Steps (step cfg) before init h₀)
      (hcontent : h₀.cluster.Content f old) (hidle : (h₀.cluster.calls k).phase = .idle)
      (hrun : Steps (step cfg) during h₀ h)
      (haccepted : (h.cluster.naming.creates k).phase.reserved = true)
      (hcall : h.cluster.calls k = ⟨f, data, .raised, commit⟩) (hcommit : commit ≠ .sent)

/-- After an overwrite that stopped, reads return the old content. -/
def SurvivesAbort (cfg : Settings) (before : Hosts → HostAction → Prop)
    (during : Filename → ℕ → Hosts → HostAction → Prop) : Prop :=
  ∀ f k old data h failed t resp serve, Aborted cfg before (during f k) f k old data h →
    failed.card < cfg.replication → GetsFile cfg (during f k) h f t resp →
    ServedBy cfg (during f k) failed t serve → read resp serve = .ok old

/-- After an overwrite that stopped, a read returns the old content exactly if the
CommitFile was executed nevertheless and the new data is the old. -/
theorem survives_iff {old data : Bytes}
    (habort : Aborted cfg (Within Cluster.HostPort) (Within (Cluster.Undisturbed f k)) f k old data h)
    (hfailed : failed.card < cfg.replication)
    (hget : GetsFile cfg (Within (Cluster.Undisturbed f k)) h f t resp)
    (hserved : ServedBy cfg (Within (Cluster.Undisturbed f k)) failed t serve) :
    read resp serve = .ok old ↔ (∃ b, (h.cluster.calls k).commit = .answered b) ∧ data = old := by
  obtain ⟨h₀, commit, hh₀, _, hidle, hrun, hres, hcall, hcommit⟩ := habort
  obtain ⟨s, hcourse, hfollow, hnamed⟩ := exists_course hh₀ hidle hrun
  have hdata : (h.cluster.calls k).data = data := by rw [hcall]
  have hstop : s.Stopped k := by
    rw [Cluster.Stopped, hfollow.2.calls, hcall]
    exact ⟨rfl, hcommit⟩
  rw [← hfollow.2.naming] at hres
  obtain ⟨s', serve', hget', hhonest, hanswering, hread⟩ :=
    exists_read hcourse hfollow hnamed hres hfailed hget hserved
  rw [hread, ← hdata, ← hfollow.2.calls]
  exact hcourse.reads_iff hres hstop hfailed hget' hhonest hanswering

theorem Aborted.mono {before before' during during' : Hosts → HostAction → Prop} {old data : Bytes}
    (habort : Aborted cfg before during f k old data h) (hbefore : ∀ h a, before h a → before' h a)
    (hduring : ∀ h a, during h a → during' h a) : Aborted cfg before' during' f k old data h := by
  obtain ⟨h₀, commit, hh₀, hcontent, hidle, hrun, hres, hcall, hcommit⟩ := habort
  exact ⟨h₀, commit, hh₀.mono hbefore, hcontent, hidle, hrun.mono hduring, hres, hcall, hcommit⟩

theorem content_of_row {c : ChunkId} {i j : ℕ} (hok : Cluster.OfFront ok)
    (hh : Steps (step cfg) (Within ok) init h) (hrow : ⟨c, f, i⟩ ∈ h.cluster.naming.db.chunks)
    (hi : ⟨c, k, j⟩ ∈ h.cluster.naming.issued)
    (hcom : ∃ F ∈ h.cluster.naming.db.files, F.filename = f ∧ F.status = .committed) :
    h.cluster.Content f (h.cluster.calls k).data := by
  obtain ⟨s, hs, _, hsim⟩ := exists_follows hok hh
  rw [← hsim.naming] at hrow hi hcom
  have hcontent := Cluster.content_of_row hs hrow hi hcom
  rwa [Cluster.Content, hsim.naming, hsim.calls] at hcontent

/-- The steps of a second `create` of `f` up to the answer of CreateFile. -/
def overwriting (data : Bytes) : List HostAction :=
  .remote (.createCall 1 ['f'] data) ::
    naming [.create 1 .checkLive, .create 1 (.selectFile .table), .create 1 (.selectChunks .table),
      .create 1 (.place ['d']), .create 1 (.reserve 0)] ++ [.remote (.createReply 1)]

/-- A test of a state that an overwrite of a file of one byte leads to when it stops. -/
theorem aborted_of_run (data : Bytes) (rest : List HostAction) (p : Hosts → Bool)
    (hrun : (run (guarded (step ⟨1, 60⟩) (Within Cluster.HostPort)) init
        (naming [.registerStorage ['s']] ++ reserving ++ [.remote (.sendBatch 0 0)] ++
          uploading ['s'] 0 0 0 ++ committing 0 ++ [.remote (.commitReply 0)])).any (fun h₀ =>
      decide (⟨['c'], ['f'], 0⟩ ∈ h₀.cluster.naming.db.chunks) &&
        decide (⟨['c'], 0, 0⟩ ∈ h₀.cluster.naming.issued) &&
        decide (∃ F ∈ h₀.cluster.naming.db.files, F.filename = ['f'] ∧ F.status = .committed) &&
        (match h₀.cluster.calls 0, h₀.cluster.calls 1 with
          | ⟨_, [7], _, _⟩, ⟨_, _, .idle, _⟩ => true
          | _, _ => false) &&
        (run (guarded (step ⟨1, 60⟩) (Within (Cluster.Undisturbed ['f'] 1))) h₀
            (overwriting data ++ rest)).any fun h =>
          (h.cluster.naming.creates 1).phase.reserved && p h &&
            match h.cluster.calls 1 with
            | ⟨g, data', .raised, commit⟩ => g == ['f'] && data' == data && commit != .sent
            | _ => false) = true) :
    ∃ h, Aborted ⟨1, 60⟩ (Within Cluster.HostPort) (Within (Cluster.Undisturbed ['f'] 1)) ['f'] 1 [7]
      data h ∧ p h = true := by
  obtain ⟨h₀, hh₀, hp⟩ := exists_of_run hrun
  simp only [Bool.and_eq_true, decide_eq_true_eq] at hp
  obtain ⟨⟨⟨⟨hrow, hi⟩, hcom⟩, hcalls⟩, hrest⟩ := hp
  obtain ⟨h, hh, hp⟩ := exists_of_run hrest
  simp only [Bool.and_eq_true] at hp
  obtain ⟨⟨hres, hph⟩, hcall⟩ := hp
  have hcontent := content_of_row Cluster.ofFront_hostPort hh₀ hrow hi hcom
  split at hcalls
  · rename_i _ _ _ _ _ _ hold hidle
    rw [hold] at hcontent
    split at hcall
    · rename_i g data' commit hcall'
      simp only [Bool.and_eq_true, beq_iff_eq, bne_iff_ne] at hcall
      obtain ⟨⟨rfl, rfl⟩, hsent⟩ := hcall
      exact ⟨h, ⟨h₀, commit, hh₀, hcontent, by rw [hidle], hh, hres, hcall', hsent⟩, hph⟩
    · cases hcall
  · cases hcalls

/-- The answer of CommitFile is lost, and the new data is the old. -/
theorem survives_iff_same : ∃ h resp,
    Aborted ⟨1, 60⟩ (Within Cluster.HostPort) (Within (Cluster.Undisturbed ['f'] 1)) ['f'] 1 [7] [7] h ∧
      GetsFile ⟨1, 60⟩ (Within (Cluster.Undisturbed ['f'] 1)) h ['f'] h resp ∧
        read resp (h.serveDisks ∅) = .ok [7] := by
  obtain ⟨h, habort, hans⟩ := aborted_of_run [7] ([.remote (.sendBatch 1 0)] ++
    uploading ['s'] 1 1 0 ++ committing 1 ++ [.remote (.clientStop 1)])
    (fun h => (h.cluster.calls 1).commit == .answered true) (by decide +kernel)
  have hget : GetsFile ⟨1, 60⟩ (Within (Cluster.Undisturbed ['f'] 1)) h ['f'] h _ :=
    .answer h h .table .table .refl .refl .refl
  refine ⟨h, _, habort, hget, ?_⟩
  exact (survives_iff habort (by decide) hget (servedBy_serveDisks admitsReads_within)).mpr
    ⟨⟨true, beq_iff_eq.mp hans⟩, rfl⟩

/-- The client stops as soon as CreateFile is answered. -/
theorem not_survivesAbort : ¬ SurvivesAbort ⟨1, 60⟩ anyStep fun f k => Meets (Cluster.LeftAlone f k) := by
  intro hall
  obtain ⟨h, habort, hnot⟩ := aborted_of_run [8] [.remote (.clientStop 1)] (fun h =>
    !(getFileResponse (getFile h.cluster.naming.db h.cluster.naming.db ['f'])
      (h.cluster.naming.registry.liveServers h.cluster.naming.now)).ok) (by decide +kernel)
  have hget : GetsFile ⟨1, 60⟩ (Meets (Cluster.LeftAlone ['f'] 1)) h ['f'] h _ :=
    .answer h h .table .table .refl .refl .refl
  have hleft := habort.mono (fun _ _ _ => trivial) fun h a hok => hok.2.mono fun _ _ hund => hund.2
  have hread := hall ['f'] 1 [7] [8] h ∅ h _ _ hleft (by decide) hget
    (servedBy_serveDisks admitsReads_meets)
  simp only [Bool.not_eq_true'] at hnot
  simp [read, RowOrder.table, hnot] at hread

end Hosts

end GfsCluster
