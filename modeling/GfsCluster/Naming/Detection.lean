import GfsCluster.Naming.Placement
import GfsCluster.Naming.Suspicion

/-! How well the live servers of the naming server agree with the storage servers that run: under
which paces a running server is always live, and what requests see of it. The longest silence that
a pace allows is reached by a fleet of one server. -/

namespace GfsCluster

open StepSystem

/-- The request has its response. -/
def CreatePhase.answered : CreatePhase → Bool
  | .replied _ => true
  | _ => false

namespace Fleet

variable {cfg : Settings} {p : Pace} {s s' : Fleet} {addr : Addr}

theorem SettledFor.mono {d d' : Seconds} (h : s.SettledFor d' addr) (hle : d ≤ d') :
    s.SettledFor d addr := by
  refine ⟨?_, ?_⟩
  · linarith [h.1]
  · linarith [h.2]

/-! ### A fleet of one server -/

/-- The server `s` runs alone and was last heard at `seen`. -/
def solo (l : BeatLoop) (now seen : Seconds) : Fleet where
  naming := { NamingServer.init with
    now := now
    registry := ⟨AList.insert ['s'] seen ∅, 0⟩ }
  loops := Function.update (fun _ => ⟨.off, 0, 0, 0⟩) ['s'] l
  stray := []
  upSince := 0

variable {l : BeatLoop} {now seen d t : Seconds} {call : BeatCall} {hb f : ℕ}

theorem solo_loop (l : BeatLoop) (now seen : Seconds) : (solo l now seen).loops ['s'] = l := by
  simp only [solo, Function.update_self]

theorem solo_setLoop (l l' : BeatLoop) (now seen : Seconds) :
    (solo l now seen).setLoop ['s'] l' = solo l' now seen := by
  simp only [solo, setLoop, Function.update_idem]

/-- The clock goes on to no later than what the one thread has to do. -/
theorem solo_tick (hd : 0 ≤ d) (hl : ∀ t ∈ l.deadline p, now + d ≤ t) :
    Steps (Fleet.step cfg) (Punctual p) (solo l now seen) (solo l (now + d) seen) := by
  apply Steps.single (a := .tick d)
  · rw [punctual_tick]
    intro addr t ht
    by_cases haddr : addr = ['s']
    · subst haddr
      rw [solo_loop] at ht
      exact hl t ht
    · simp [solo, Function.update_of_ne haddr, BeatLoop.deadline] at ht
  · simp only [step, NamingServer.next, NamingServer.step, if_pos hd]
    rfl

theorem solo_handle : Steps (Fleet.step cfg) (Punctual p)
    (solo ⟨.calling call t false, hb, f, 0⟩ now seen)
    (solo ⟨.calling call t true, hb, f, 0⟩ now now) := by
  apply Steps.single (a := .handle ['s']) trivial
  simp only [step, solo_loop, next_action, setPhase, solo_setLoop]
  simp only [solo, StorageRegistry.markAlive, AList.insert_insert, Option.map_some]

theorem solo_succeed (ht : now ≤ t + beatTimeout) : Steps (Fleet.step cfg) (Punctual p)
    (solo ⟨.calling call t true, hb, f, 0⟩ now seen)
    (solo (afterCall ⟨.calling call t true, hb, f, 0⟩ now call) now seen) := by
  apply Steps.single (a := .succeed ['s']) trivial
  simp only [step, solo_loop, solo_setLoop]
  exact if_pos ht

theorem solo_wake (ht : t ≤ now) : Steps (Fleet.step cfg) (Punctual p)
    (solo ⟨.sleeping t call, hb, f, 0⟩ now seen)
    (solo ⟨.calling call now false, hb, f, 0⟩ now seen) := by
  apply Steps.single (a := .wake ['s']) trivial
  simp only [step, solo_loop, setPhase, solo_setLoop]
  exact if_pos ht

/-- A call that is not handled fails, and its request is lost. -/
theorem solo_fail (hf : f < p.misses) : Steps (Fleet.step cfg) (Punctual p)
    (solo ⟨.calling call t false, hb, f, 0⟩ now seen)
    (solo ⟨.sleeping (now + heartbeatInterval) .register, hb, f + 1, 0⟩ now seen) := by
  have hfail : (solo ⟨.calling call t false, hb, f, 0⟩ now seen).step cfg (.fail ['s']) =
      some { solo ⟨.sleeping (now + heartbeatInterval) .register, hb, f + 1, 0⟩ now seen with
        stray := [⟨call, ['s'], t⟩] } := by
    simp only [step, solo_loop, solo_setLoop, BeatPhase.strays]
    rfl
  have hok : Punctual p (solo ⟨.calling call t false, hb, f, 0⟩ now seen) (.fail ['s']) := by
    simp only [Punctual, solo_loop]
    exact hf
  exact (Steps.single hok hfail).tail (a := .dropStray 0) trivial rfl

/-- A call fails, and the thread wakes up as late as it may to call again. -/
theorem solo_miss (hp : p.Sound) (hf : f < p.misses) : Steps (Fleet.step cfg) (Punctual p)
    (solo ⟨.calling call now false, hb, f, 0⟩ now seen)
    (solo ⟨.calling .register (now + p.round) false, hb, f + 1, 0⟩ (now + p.round) seen) := by
  have hround : now + p.round = now + p.call + (heartbeatInterval + p.lag) := by
    rw [Pace.round]
    ring
  have hlag := hp.lag
  have hpause : 0 ≤ heartbeatInterval + p.lag := by
    rw [heartbeatInterval]
    linarith
  rw [hround]
  refine ((solo_tick hp.call ?_).trans (solo_fail hf)).trans ((solo_tick hpause ?_).trans
    (solo_wake ?_))
  · rintro _ ⟨⟩
    rfl
  · rintro _ ⟨⟩
    linarith
  · linarith

theorem solo_misses (hp : p.Sound) (m : ℕ) (hm : f + m ≤ p.misses) : ∃ call',
    Steps (Fleet.step cfg) (Punctual p) (solo ⟨.calling call now false, hb, f, 0⟩ now seen)
      (solo ⟨.calling call' (now + m * p.round) false, hb, f + m, 0⟩ (now + m * p.round) seen) := by
  induction m with
  | zero =>
    refine ⟨call, ?_⟩
    simp only [Nat.cast_zero, zero_mul, add_zero]
    exact .refl
  | succ m ih =>
    obtain ⟨call', hrun⟩ := ih (by omega)
    refine ⟨.register, hrun.trans ?_⟩
    have hnow : now + ((m + 1 : ℕ) : ℚ) * p.round = now + m * p.round + p.round := by
      push_cast
      ring
    rw [hnow]
    exact solo_miss hp (by omega)

/-- The server starts, is registered at once and sends its first heartbeat. -/
theorem solo_start : Steps (Fleet.step cfg) (Punctual p) Fleet.init
    (solo ⟨.calling .heartbeat 0 false, 0, 0, 0⟩ 0 0) := by
  have hstart : Fleet.init.step cfg (.start ['s']) =
      some (Fleet.init.setLoop ['s'] ⟨.calling .register 0 false, 0, 0, 0⟩) := rfl
  have hhandle : (Fleet.init.setLoop ['s'] ⟨.calling .register 0 false, 0, 0, 0⟩).step cfg
      (.handle ['s']) = some (solo ⟨.calling .register 0 true, 0, 0, 0⟩ 0 0) := by
    simp only [step, setLoop, Function.update_self, next_action, setPhase, Function.update_idem,
      Option.map_some]
    rfl
  have hfirst : Steps (Fleet.step cfg) (Punctual p) Fleet.init _ :=
    .single (a := .start ['s']) (by trivial) hstart
  have hsecond := hfirst.tail (a := .handle ['s']) (by trivial) hhandle
  exact hsecond.trans (solo_succeed (by rw [beatTimeout]; norm_num))

/-- A heartbeat is handled at once and answered after `d`; the next one follows after a pause. -/
theorem solo_beat {d e : Seconds} (hd : 0 ≤ d) (hcall : d ≤ p.call) (htime : d ≤ beatTimeout)
    (he : heartbeatInterval ≤ e) (hlag : e ≤ heartbeatInterval + p.lag) :
    Steps (Fleet.step cfg) (Punctual p) (solo ⟨.calling .heartbeat now false, hb, f, 0⟩ now seen)
      (solo ⟨.calling .heartbeat (now + d + e) false, hb + 1, 0, 0⟩ (now + d + e) now) := by
  have hpos : 0 ≤ e := le_trans (by rw [heartbeatInterval]; norm_num) he
  have hcalled : Steps (Fleet.step cfg) (Punctual p)
      (solo ⟨.calling .heartbeat now false, hb, f, 0⟩ now seen)
      (solo ⟨.sleeping (now + d + heartbeatInterval) .heartbeat, hb + 1, 0, 0⟩ (now + d) now) := by
    refine (solo_handle.trans (solo_tick hd ?_)).trans (solo_succeed ?_)
    · rintro _ ⟨⟩
      linarith
    · linarith
  refine hcalled.trans ((solo_tick hpos ?_).trans (solo_wake ?_))
  · rintro _ ⟨⟩
    linarith
  · linarith

/-- A heartbeat at `now` is followed by the longest silence that the pace allows. -/
theorem solo_silence (hp : p.Sound) (hcall : p.call ≤ beatTimeout) : ∃ l,
    l.phase ≠ .off ∧ l.changedAt = 0 ∧ Steps (Fleet.step cfg) (Punctual p)
      (solo ⟨.calling .heartbeat now false, hb, f, 0⟩ now seen) (solo l (now + p.gap) now) := by
  have hround : now + p.call + (heartbeatInterval + p.lag) = now + p.round := by
    rw [Pace.round]
    ring
  have hgap : now + p.gap = now + p.round + p.misses * p.round + p.call := by
    rw [Pace.gap]
    ring
  have hbeat : Steps (Fleet.step cfg) (Punctual p)
      (solo ⟨.calling .heartbeat now false, hb, f, 0⟩ now seen)
      (solo ⟨.calling .heartbeat (now + p.round) false, hb + 1, 0, 0⟩ (now + p.round) now) := by
    rw [← hround]
    exact solo_beat hp.call le_rfl hcall (le_add_of_nonneg_right hp.lag) le_rfl
  obtain ⟨call', hmisses⟩ := solo_misses hp p.misses (Nat.zero_add p.misses).le
  refine ⟨⟨.calling call' (now + p.round + p.misses * p.round) false, hb + 1, 0 + p.misses, 0⟩,
    by simp, rfl, hbeat.trans (hmisses.trans ?_)⟩
  rw [hgap]
  exact solo_tick hp.call (by rintro _ ⟨⟩; rfl)

/-! ### When running servers are live -/

/-- Servers that have neither started nor stopped for long are live exactly if they run. -/
theorem live_iff_running (hp : p.Sound) (hgap : p.gap ≤ heartbeatTimeout)
    (hrun : Steps (Fleet.step cfg) (Punctual p) Fleet.init s)
    (hset : s.SettledFor (p.stray + heartbeatTimeout) addr) :
    addr ∈ s.naming.live ↔ s.Running addr := by
  constructor
  · intro hlive
    by_contra hoff
    refine not_live_of_stopped hp hrun hoff ?_ hlive
    linarith [hset.1]
  · intro hon
    exact live_of_running hp hgap hrun hon (hset.mono (by linarith [hp.stray]))

/-- Threads that oversleep by a whole interval are still heard in time. -/
theorem solo_twoBeats : Steps (Fleet.step cfg) (Punctual ⟨0, 5, 0, 0⟩) Fleet.init
    (solo ⟨.calling .heartbeat 20 false, 2, 0, 0⟩ 20 10) := by
  have hbeat : ∀ (now seen : Seconds) (hb : ℕ), Steps (Fleet.step cfg) (Punctual ⟨0, 5, 0, 0⟩)
      (solo ⟨.calling .heartbeat now false, hb, 0, 0⟩ now seen)
      (solo ⟨.calling .heartbeat (now + 0 + 10) false, hb + 1, 0, 0⟩ (now + 0 + 10) now) :=
    fun now seen hb => solo_beat le_rfl le_rfl (by norm_num [beatTimeout])
      (by norm_num [heartbeatInterval]) (by norm_num [heartbeatInterval])
  have hfirst := hbeat 0 0 0
  have hsecond := hbeat 10 0 1
  norm_num at hfirst hsecond
  exact solo_start.trans (hfirst.trans hsecond)

theorem live_iff_running_twoBeats : ∃ s : Fleet,
    Steps (Fleet.step ⟨1, 60⟩) (Punctual ⟨0, 5, 0, 0⟩) Fleet.init s ∧
      ['s'] ∈ s.naming.live ∧ ['t'] ∉ s.naming.live := by
  have hp : Pace.Sound ⟨0, 5, 0, 0⟩ := ⟨le_rfl, by norm_num, le_rfl⟩
  have hgap : Pace.gap ⟨0, 5, 0, 0⟩ ≤ heartbeatTimeout := by
    norm_num [Pace.gap, Pace.round, heartbeatInterval, heartbeatTimeout]
  have hset : ∀ addr, (solo ⟨.calling .heartbeat 20 false, 2, 0, 0⟩ 20 10).SettledFor
      (0 + heartbeatTimeout) addr := by
    intro addr
    have hchanged : ((solo ⟨.calling .heartbeat 20 false, 2, 0, 0⟩ 20 10).loops addr).changedAt = 0 := by
      by_cases h : addr = ['s']
      · rw [h, solo_loop]
      · simp [solo, Function.update_of_ne h]
    refine ⟨?_, ?_⟩
    · rw [hchanged]
      norm_num [heartbeatTimeout, solo]
    · norm_num [heartbeatTimeout, solo]
  have hrun : Steps (Fleet.step ⟨1, 60⟩) (Punctual ⟨0, 5, 0, 0⟩) Fleet.init
      (solo ⟨.calling .heartbeat 20 false, 2, 0, 0⟩ 20 10) := solo_twoBeats
  refine ⟨_, hrun, ?_, ?_⟩
  · rw [live_iff_running hp hgap hrun (hset _), Running, solo_loop]
    simp
  · rw [live_iff_running hp hgap hrun (hset _), Running]
    simp [solo]

/-- In runs at this pace, a server that has been running for longer than the gap is live. -/
def NeverSuspects (cfg : Settings) (p : Pace) : Prop :=
  ∀ s addr, Steps (Fleet.step cfg) (Punctual p) Fleet.init s → s.Running addr →
    s.SettledFor p.gap addr → addr ∈ s.naming.live

/-- The naming server never takes a running storage server for dead exactly at the paces whose gap
is within the timeout. -/
theorem neverSuspects_iff (cfg : Settings) (hp : p.Sound) (hcall : p.call ≤ beatTimeout) :
    NeverSuspects cfg p ↔ p.gap ≤ heartbeatTimeout := by
  constructor
  · intro h
    -- a heartbeat some time after the start, and then the longest silence
    have hbeat : Steps (Fleet.step cfg) (Punctual p) (solo ⟨.calling .heartbeat 0 false, 0, 0, 0⟩ 0 0)
        (solo ⟨.calling .heartbeat (0 + 0 + heartbeatInterval) false, 0 + 1, 0, 0⟩
          (0 + 0 + heartbeatInterval) 0) :=
      solo_beat le_rfl hp.call (by rw [beatTimeout]; norm_num) le_rfl (le_add_of_nonneg_right hp.lag)
    obtain ⟨l, hon, hchanged, hsilence⟩ := solo_silence hp hcall
    have hlater : p.gap < 0 + 0 + heartbeatInterval + p.gap := by
      rw [heartbeatInterval]
      linarith
    have hlive := h _ ['s'] (solo_start.trans (hbeat.trans hsilence))
      (by rw [Running, solo_loop]; exact hon)
      ⟨by rw [solo_loop, hchanged, zero_add]; exact hlater, (zero_add p.gap).trans_lt hlater⟩
    obtain ⟨t, ht, hle⟩ := mem_live.mp hlive
    have hseen : (solo l (0 + 0 + heartbeatInterval + p.gap) (0 + 0 + heartbeatInterval)).seen
        ['s'] = some (0 + 0 + heartbeatInterval) := AList.lookup_insert _
    rw [hseen, Option.some.injEq] at ht
    subst ht
    have hsub : (solo l (0 + 0 + heartbeatInterval + p.gap) (0 + 0 + heartbeatInterval)).now -
        (0 + 0 + heartbeatInterval) = p.gap := add_sub_cancel_left ..
    rwa [hsub] at hle
  · intro hgap s addr hrun hon hset
    exact live_of_running hp hgap hrun hon hset

/-- Calls that take their whole timeout are fast enough while none fails. -/
theorem neverSuspects_noMiss : NeverSuspects ⟨3, 60⟩ ⟨5, 0, 0, 5⟩ ∧
    ¬ NeverSuspects ⟨3, 60⟩ ⟨5, 0, 1, 5⟩ := by
  have hsound : ∀ misses, Pace.Sound ⟨5, 0, misses, 5⟩ := fun misses =>
    ⟨by norm_num, le_rfl, by norm_num⟩
  constructor
  · rw [neverSuspects_iff _ (hsound 0) (by norm_num [beatTimeout])]
    norm_num [Pace.gap, Pace.round, heartbeatInterval, heartbeatTimeout]
  · rw [neverSuspects_iff _ (hsound 1) (by norm_num [beatTimeout])]
    norm_num [Pace.gap, Pace.round, heartbeatInterval, heartbeatTimeout]

/-! ### What requests see -/

/-- With as many running servers as there are to be copies, no CreateFile request is rejected,
whatever else goes on. -/
theorem accepts_of_running (hp : p.Sound) (hgap : p.gap ≤ heartbeatTimeout)
    (hrun : Steps (Fleet.step cfg) (Punctual p) Fleet.init s) {servers : List Addr}
    (hnd : servers.Nodup) (hlen : cfg.replication ≤ servers.length)
    (hon : ∀ addr ∈ servers, s.Running addr ∧ s.SettledFor p.gap addr) {k : ℕ} {b : CreateStep}
    {resp : CreateFileResponse} (hs : s.step cfg (.naming (.create k b)) = some s')
    (hresp : (s'.naming.creates k).phase = .replied resp) : resp.ok = true := by
  have hsub : servers ⊆ s.naming.live := fun addr haddr =>
    live_of_running hp hgap hrun (hon addr haddr).1 (hon addr haddr).2
  have hlive : cfg.replication ≤ (s.naming.registry.liveServers s.naming.now).length :=
    hlen.trans (hnd.subperm hsub).length_le
  simp only [step] at hs
  split_ifs at hs
  obtain ⟨n, hn, rfl⟩ := Option.map_eq_some_iff.mp hs
  obtain ⟨out, hn⟩ := NamingServer.exists_step_of_next hn
  obtain ⟨hn, _⟩ := NamingServer.createStep_of_step hn
  replace hresp : (n.creates k).phase = .replied resp := hresp
  have hpick := s.naming.registry.length_pick s.naming.now cfg.replication
  cases NamingServer.case_of_createStep hn with
  | tooFew _ hlt => omega
  | fallShort _ _ _ _ hshort => omega
  | reserve now chunks store _ _ _ =>
    simp only [NamingServer.setCreate, Function.update_self, CreatePhase.replied.injEq] at hresp
    rw [← hresp]
  | _ => simp [NamingServer.setCreate] at hresp

/-- The naming server's own steps are in time. -/
theorem steps_of_naming_run {as : List NamingAction}
    (h : run (Fleet.step cfg) s (as.map .naming) = some s') :
    Steps (Fleet.step cfg) (Punctual p) s s' := by
  induction as generalizing s with
  | nil =>
    simp only [List.map_nil, run, Option.some.injEq] at h
    rw [h]
    exact .refl
  | cons a as ih =>
    simp only [List.map_cons, run, Option.bind_eq_some_iff] at h
    obtain ⟨u, hu, h⟩ := h
    exact (Steps.single (a := .naming a) (by trivial) hu).trans (ih h)

/-- One server and one copy: a file of one chunk is placed there and reserved. -/
theorem accepts_of_running_oneChunk : ∃ s s' : Fleet, ∃ resp,
    s.step ⟨1, 60⟩ (.naming (.create 0 (.reserve 20))) = some s' ∧
      s'.naming.db.replicas = [⟨['c'], ['s']⟩] ∧
      (s'.naming.creates 0).phase = .replied resp ∧ resp.ok = true := by
  have hp : Pace.Sound ⟨0, 5, 0, 0⟩ := ⟨le_rfl, by norm_num, le_rfl⟩
  have hgap : Pace.gap ⟨0, 5, 0, 0⟩ ≤ heartbeatTimeout := by
    norm_num [Pace.gap, Pace.round, heartbeatInterval, heartbeatTimeout]
  have hreserve : ((run (Fleet.step ⟨1, 60⟩) (solo ⟨.calling .heartbeat 20 false, 2, 0, 0⟩ 20 10)
      (List.map .naming [.create 0 (.receive ⟨['f'], 1, 1⟩), .create 0 .checkLive,
        .create 0 (.selectFile .table), .create 0 (.place ['c'])])).any fun s =>
      decide ((s.loops ['s']).phase ≠ .off) && decide ((s.loops ['s']).changedAt + 10 < s.now) &&
        decide (s.upSince + 10 < s.now) &&
        (s.step ⟨1, 60⟩ (.naming (.create 0 (.reserve 20)))).any fun s' =>
          decide (s'.naming.db.replicas = [⟨['c'], ['s']⟩]) &&
            (s'.naming.creates 0).phase.answered) = true := by
    decide +kernel
  simp only [Option.any_eq_true, Bool.and_eq_true, decide_eq_true_eq] at hreserve
  obtain ⟨s, hs, ⟨⟨hon, hchanged⟩, hup⟩, s', hs', hreplica, hanswered⟩ := hreserve
  have hrun : Steps (Fleet.step ⟨1, 60⟩) (Punctual ⟨0, 5, 0, 0⟩) Fleet.init s :=
    solo_twoBeats.trans (steps_of_naming_run hs)
  have hgap' : Pace.gap ⟨0, 5, 0, 0⟩ = 10 := by
    norm_num [Pace.gap, Pace.round, heartbeatInterval]
  cases hphase : (s'.naming.creates 0).phase with
  | replied resp =>
    refine ⟨s, s', resp, hs', hreplica, hphase, ?_⟩
    apply accepts_of_running hp hgap hrun (List.nodup_singleton ['s']) le_rfl _ hs' hphase
    intro addr haddr
    rw [List.mem_singleton.mp haddr]
    exact ⟨hon, by rw [hgap']; exact ⟨hchanged, hup⟩⟩
  | _ => simp [hphase, CreatePhase.answered] at hanswered

end Fleet

end GfsCluster
