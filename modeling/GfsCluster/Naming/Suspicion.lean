import Mathlib.Tactic.Linarith
import Mathlib.Tactic.Ring
import GfsCluster.Naming.Heartbeats

/-! When the naming server takes a storage server for dead. With a bound on how long calls and
pauses take and on how many calls fail in a row, the time between two heartbeats is bounded by the
gap of that pace; a server that runs is always taken for live exactly if the gap is within the
heartbeat timeout, and one that does not run is dropped after the timeout. -/

namespace GfsCluster

open StepSystem

namespace NamingServer

variable {cfg : Settings} {n n' : NamingServer} {a : NamingAction} {out : List StorageRpc}

theorem now_of_step (hs : n.step cfg a = some (n', out)) (ha : ∀ d, a ≠ .tick d) :
    n'.now = n.now := by
  cases case_of_step hs with
  | tick d hd => exact absurd rfl (ha d)
  | create k b n' h => exact (createStep_frame (createStep_of_step hs).1).1
  | heal b r h => exact now_of_heal hs
  | delete k b r h => cases h <;> rfl
  | get k b n' h => cases h <;> rfl
  | cleanup b r h => cases h <;> rfl
  | _ => rfl

theorem lastSeen_of_step (hs : n.step cfg a = some (n', out)) (ha : a.prompted = false)
    (hcrash : a ≠ .crash) : n'.registry.lastSeen = n.registry.lastSeen := by
  obtain ⟨_, _, _, hseen⟩ := (step_frame hs).resolve_left hcrash
  rcases hseen with ⟨addr, rfl | rfl⟩ | hseen
  · cases ha
  · cases ha
  · exact hseen

end NamingServer

/-! ### Paces -/

/-- How slow the calls and threads of a fleet may be: a call is over after `call`, a thread wakes
up within `lag` of the end of its pause, at most `misses` calls fail in a row, and a request given
up on is handled within `stray` of being sent, if at all. -/
structure Pace where
  call : Seconds
  lag : Seconds
  misses : ℕ
  stray : Seconds

namespace Pace

variable (p : Pace)

/-- From the end of a call to the end of the next. -/
def round : Seconds := heartbeatInterval + p.lag + p.call

/-- The longest time between two heartbeats. -/
def gap : Seconds := p.call + (p.misses + 1) * p.round

/-- The rounds that may still be missed. -/
def rest (failures : ℕ) : Seconds := (p.misses - failures) * p.round

theorem gap_eq : p.gap = p.call + (p.rest 0 + p.round) := by
  rw [gap, rest]
  push_cast
  ring

theorem rest_succ (f : ℕ) : p.rest f = p.rest (f + 1) + p.round := by
  rw [rest, rest]
  push_cast
  ring

/-- Calls and pauses take no negative time. -/
structure Sound : Prop where
  call : 0 ≤ p.call
  lag : 0 ≤ p.lag
  stray : 0 ≤ p.stray

variable {p}

theorem Sound.call_le_round (hp : p.Sound) : p.call ≤ p.round := by
  have := hp.lag
  rw [round, heartbeatInterval]
  linarith

theorem Sound.round_nonneg (hp : p.Sound) : 0 ≤ p.round := hp.call.trans hp.call_le_round

theorem Sound.rest_nonneg (hp : p.Sound) {f : ℕ} (hf : f ≤ p.misses) : 0 ≤ p.rest f := by
  have hcast : (f : ℚ) ≤ p.misses := Nat.cast_le.mpr hf
  exact mul_nonneg (by linarith) hp.round_nonneg

theorem Sound.rest_le (hp : p.Sound) (f : ℕ) : p.rest f ≤ p.rest 0 := by
  have hmul : 0 ≤ (f : ℚ) * p.round := mul_nonneg (Nat.cast_nonneg f) hp.round_nonneg
  rw [rest, rest]
  push_cast
  linarith

end Pace

/-- No call and no pause takes longer than the pace allows. -/
def Punctual (p : Pace) (s : Fleet) : FleetAction → Prop
  | .tick d => ∀ addr, match (s.loops addr).phase with
    | .off => True
    | .calling _ sentAt _ => s.now + d ≤ sentAt + p.call
    | .sleeping wakeAt _ => s.now + d ≤ wakeAt + p.lag
  | .fail addr => (s.loops addr).failures < p.misses
  | .handleStray i => ∀ r ∈ s.stray[i]?, s.now ≤ r.sentAt + p.stray
  | _ => True

/-- When the current step of the thread is over at the latest. -/
def BeatLoop.deadline (p : Pace) (l : BeatLoop) : Option Seconds :=
  match l.phase with
  | .off => none
  | .calling _ sentAt _ => some (sentAt + p.call)
  | .sleeping wakeAt _ => some (wakeAt + p.lag)

/-- When the next call of the thread is handled at the latest. -/
def BeatLoop.due (p : Pace) (l : BeatLoop) : Option Seconds :=
  match l.phase with
  | .off => none
  | .calling _ sentAt false => some (sentAt + p.call + p.rest l.failures)
  | .calling _ sentAt true => some (sentAt + p.gap)
  | .sleeping wakeAt _ => some (wakeAt + p.lag + p.call + p.rest l.failures)

namespace Fleet

variable {cfg : Settings} {p : Pace} {s s' : Fleet} {a : FleetAction} {addr x : Addr}

theorem punctual_tick {d : Seconds} : Punctual p s (.tick d) ↔
    ∀ addr, ∀ t ∈ (s.loops addr).deadline p, s.now + d ≤ t := by
  simp only [Punctual, BeatLoop.deadline]
  refine forall_congr' fun addr => ?_
  cases (s.loops addr).phase <;> simp

/-- When the naming server last heard of a storage server. -/
def seen (s : Fleet) (addr : Addr) : Option Seconds := s.naming.registry.lastSeen.lookup addr

/-- A time from which the next heartbeat is counted. -/
def Anchor (s : Fleet) (addr : Addr) (t : Seconds) : Prop :=
  s.seen addr = some t ∨ t = (s.loops addr).changedAt ∨ t = s.upSince

theorem mem_live : addr ∈ s.naming.live ↔ ∃ t, s.seen addr = some t ∧ s.now - t ≤ heartbeatTimeout :=
  StorageRegistry.mem_liveServers

/-! ### What a step does to one storage server -/

/-- What an action under the pace does to the thread of one storage server and to what the naming
server has heard of it. -/
inductive BeatMove (p : Pace) (s s' : Fleet) (addr : Addr) : Prop
  | keep (hnow : s'.now = s.now) (hseen : s'.seen addr = s.seen addr)
      (hloop : s'.loops addr = s.loops addr) (hup : s'.upSince = s.upSince)
  | restart (hnow : s'.now = s.now) (hseen : s'.seen addr = none)
      (hloop : s'.loops addr = s.loops addr) (hup : s'.upSince = s.now)
  | tick (hle : s.now ≤ s'.now) (hdue : ∀ t ∈ (s.loops addr).deadline p, s'.now ≤ t)
      (hseen : s'.seen addr = s.seen addr) (hloop : s'.loops addr = s.loops addr)
      (hup : s'.upSince = s.upSince)
  | heard (hnow : s'.now = s.now) (hseen : s'.seen addr = some s.now)
      (hloop : s'.loops addr = s.loops addr ∧
          (∃ r ∈ s.stray, r.addr = addr ∧ s.now ≤ r.sentAt + p.stray) ∨
        ∃ call sentAt, (s.loops addr).phase = .calling call sentAt false ∧
          s'.loops addr = { s.loops addr with phase := .calling call sentAt true })
      (hup : s'.upSince = s.upSince)
  | turn (l : BeatLoop) (hnow : s'.now = s.now) (hseen : s'.seen addr = s.seen addr)
      (hloop : s'.loops addr = l) (hup : s'.upSince = s.upSince)
      (hl : (l.changedAt = s.now ∧ l.failures = 0 ∧
          (l.phase = .off ∨ l.phase = .calling .register s.now false)) ∨
        (∃ call sentAt, (s.loops addr).phase = .calling call sentAt true ∧
          l = afterCall (s.loops addr) s.now call) ∨
        (∃ call sentAt handled, (s.loops addr).phase = .calling call sentAt handled ∧
          (s.loops addr).failures < p.misses ∧
          l = { s.loops addr with
            phase := .sleeping (s.now + heartbeatInterval) .register
            failures := (s.loops addr).failures + 1 }) ∨
        ∃ wakeAt next, (s.loops addr).phase = .sleeping wakeAt next ∧ wakeAt ≤ s.now ∧
          l = { s.loops addr with phase := .calling next s.now false })

theorem next_action {n : NamingServer} (call : BeatCall) (addr : Addr) :
    n.next cfg (call.action addr) = some { n with registry := n.registry.markAlive n.now addr } := by
  cases call <;> rfl

theorem seen_markAlive {n : NamingServer} (x : Addr) (h : s'.naming =
    { n with registry := n.registry.markAlive n.now x }) : s'.seen x = some n.now := by
  rw [seen, h]
  exact AList.lookup_insert _

theorem seen_markAlive_ne {n : NamingServer} (hne : addr ≠ x) (h : s'.naming =
    { n with registry := n.registry.markAlive n.now x }) :
    s'.seen addr = n.registry.lastSeen.lookup addr := by
  rw [seen, h]
  exact AList.lookup_insert_ne hne

theorem setLoop_self (l : BeatLoop) : (s.setLoop addr l).loops addr = l := Function.update_self ..

theorem setLoop_ne (l : BeatLoop) (h : addr ≠ x) : (s.setLoop x l).loops addr = s.loops addr :=
  Function.update_of_ne h ..

theorem beat_of_step (hok : Punctual p s a) (hs : s.step cfg a = some s') (addr : Addr) :
    BeatMove p s s' addr := by
  cases a with
  | naming b =>
    simp only [step] at hs
    split_ifs at hs with hb
    obtain ⟨n, hn, rfl⟩ := Option.map_eq_some_iff.mp hs
    obtain ⟨out, hn⟩ := NamingServer.exists_step_of_next hn
    have hnow := NamingServer.now_of_step hn fun d h => by simp [h, NamingAction.prompted] at hb
    by_cases hc : b = .crash
    · subst hc
      cases hn
      exact .restart rfl rfl rfl rfl
    · have hseen := NamingServer.lastSeen_of_step hn (by simpa using hb) hc
      refine .keep hnow (congrArg (AList.lookup addr) hseen) rfl ?_
      cases b <;> first | rfl | exact absurd rfl hc
  | tick d =>
    simp only [step, NamingServer.next, NamingServer.step] at hs
    split_ifs at hs with hd
    · cases hs
      refine .tick ?_ ?_ rfl rfl rfl
      · show s.naming.now ≤ s.naming.now + d
        linarith
      · exact punctual_tick.mp hok addr
    · cases hs
  | start x =>
    simp only [step] at hs
    split at hs
    · cases hs
      by_cases hx : addr = x
      · subst hx
        exact .turn _ rfl rfl (setLoop_self _) rfl (.inl ⟨rfl, rfl, .inr rfl⟩)
      · exact .keep rfl rfl (setLoop_ne _ hx) rfl
    · cases hs
  | stop x =>
    simp only [step] at hs
    split at hs
    · cases hs
    · cases hs
      by_cases hx : addr = x
      · subst hx
        exact .turn _ rfl rfl (setLoop_self _) rfl (.inl ⟨rfl, rfl, .inl rfl⟩)
      · exact .keep rfl rfl (setLoop_ne _ hx) rfl
  | handle x =>
    simp only [step] at hs
    split at hs
    · rename_i call sentAt hp
      rw [next_action, Option.map_some, Option.some.injEq] at hs
      by_cases hx : addr = x
      · subst hx
        subst hs
        exact .heard rfl (seen_markAlive addr rfl) (.inr ⟨call, sentAt, hp, setLoop_self _⟩) rfl
      · subst hs
        exact .keep rfl (seen_markAlive_ne hx rfl) (setLoop_ne _ hx) rfl
    · cases hs
  | handleStray i =>
    simp only [step] at hs
    split at hs
    · rename_i r hr
      rw [next_action, Option.map_some, Option.some.injEq] at hs
      subst hs
      by_cases hx : addr = r.addr
      · subst hx
        exact .heard rfl (seen_markAlive r.addr rfl)
          (.inl ⟨rfl, r, List.mem_of_getElem? hr, rfl, hok r hr⟩) rfl
      · exact .keep rfl (seen_markAlive_ne hx rfl) rfl rfl
    · cases hs
  | dropStray i =>
    simp only [step] at hs
    split_ifs at hs
    cases hs
    exact .keep rfl rfl rfl rfl
  | succeed x =>
    simp only [step] at hs
    split at hs
    · rename_i call sentAt hp
      split_ifs at hs
      cases hs
      by_cases hx : addr = x
      · subst hx
        exact .turn _ rfl rfl (setLoop_self _) rfl (.inr (.inl ⟨call, sentAt, hp, rfl⟩))
      · exact .keep rfl rfl (setLoop_ne _ hx) rfl
    · cases hs
  | fail x =>
    simp only [step] at hs
    split at hs
    · rename_i call sentAt handled hp
      cases hs
      by_cases hx : addr = x
      · subst hx
        exact .turn _ rfl rfl (setLoop_self _) rfl
          (.inr (.inr (.inl ⟨call, sentAt, handled, hp, hok, rfl⟩)))
      · exact .keep rfl rfl (setLoop_ne _ hx) rfl
    · cases hs
  | wake x =>
    simp only [step] at hs
    split at hs
    · rename_i wakeAt next hp
      split_ifs at hs with hle
      cases hs
      by_cases hx : addr = x
      · subst hx
        exact .turn _ rfl rfl (setLoop_self _) rfl
          (.inr (.inr (.inr ⟨wakeAt, next, hp, hle, rfl⟩)))
      · exact .keep rfl rfl (setLoop_ne _ hx) rfl
    · cases hs

/-! ### A server that runs is heard -/

/-- The clock has not passed what the thread has to do, and its next call is handled no later than
a gap after a time from which it is counted. -/
structure Watched (p : Pace) (s : Fleet) (addr : Addr) : Prop where
  seen : ∀ t, s.seen addr = some t → t ≤ s.now
  changed : (s.loops addr).changedAt ≤ s.now
  up : s.upSince ≤ s.now
  sent : ∀ call t handled, (s.loops addr).phase = .calling call t handled → t ≤ s.now
  deadline : ∀ t ∈ (s.loops addr).deadline p, s.now ≤ t
  failures : (s.loops addr).failures ≤ p.misses
  due : ∀ d ∈ (s.loops addr).due p, ∃ t, s.Anchor addr t ∧ d ≤ t + p.gap

namespace Watched

theorem anchor_le (h : Watched p s addr) {t : Seconds} (ht : s.Anchor addr t) : t ≤ s.now := by
  rcases ht with ht | rfl | rfl
  · exact h.seen t ht
  · exact h.changed
  · exact h.up

theorem init (addr : Addr) : Watched p Fleet.init addr where
  seen t ht := by cases ht
  changed := le_rfl
  up := le_rfl
  sent call t handled ht := by cases ht
  deadline t ht := by cases ht
  failures := Nat.zero_le _
  due d hd := by cases hd

/-- An anchor of the state before serves the state after, unless a later one takes its place. -/
theorem due_of_anchor (h : Watched p s addr)
    (hanchor : ∀ t, s.Anchor addr t → ∃ t', s'.Anchor addr t' ∧ t ≤ t')
    (hdue : ∀ d ∈ (s'.loops addr).due p, ∃ d' ∈ (s.loops addr).due p, d ≤ d') :
    ∀ d ∈ (s'.loops addr).due p, ∃ t, s'.Anchor addr t ∧ d ≤ t + p.gap := by
  intro d hd
  obtain ⟨d', hd', hle⟩ := hdue d hd
  obtain ⟨t, ht, hdt⟩ := h.due d' hd'
  obtain ⟨t', ht', htt⟩ := hanchor t ht
  exact ⟨t', ht', by linarith⟩

/-- What is due without an own failure is due within a gap from now. -/
theorem due_of_now {l : BeatLoop} (hl : s'.loops addr = l) (hanchor : s'.Anchor addr s.now)
    (hdue : ∀ d ∈ l.due p, d ≤ s.now + p.gap) :
    ∀ d ∈ (s'.loops addr).due p, ∃ t, s'.Anchor addr t ∧ d ≤ t + p.gap := by
  intro d hd
  exact ⟨s.now, hanchor, hdue d (hl ▸ hd)⟩

theorem of_keep (h : Watched p s addr) (hle : s.now ≤ s'.now)
    (hdue : ∀ t ∈ (s.loops addr).deadline p, s'.now ≤ t) (hseen : s'.seen addr = s.seen addr)
    (hloop : s'.loops addr = s.loops addr) (hup : s'.upSince = s.upSince) : Watched p s' addr where
  seen t ht := (h.seen t (hseen ▸ ht)).trans hle
  changed := by
    rw [hloop]
    exact h.changed.trans hle
  up := by
    rw [hup]
    exact h.up.trans hle
  sent call t handled ht := (h.sent call t handled (hloop ▸ ht)).trans hle
  deadline := by rwa [hloop]
  failures := by
    rw [hloop]
    exact h.failures
  due := by
    apply h.due_of_anchor
    · intro t ht
      refine ⟨t, ?_, le_rfl⟩
      rwa [Anchor, hseen, hloop, hup]
    · intro d hd
      exact ⟨d, hloop ▸ hd, le_rfl⟩

theorem of_restart (h : Watched p s addr) (hnow : s'.now = s.now) (hseen : s'.seen addr = none)
    (hloop : s'.loops addr = s.loops addr) (hup : s'.upSince = s.now) : Watched p s' addr where
  seen t ht := by
    rw [hseen] at ht
    cases ht
  changed := by
    rw [hloop, hnow]
    exact h.changed
  up := by rw [hup, hnow]
  sent call t handled ht := by
    rw [hnow]
    exact h.sent call t handled (hloop ▸ ht)
  deadline := by
    rw [hloop, hnow]
    exact h.deadline
  failures := by
    rw [hloop]
    exact h.failures
  due := by
    apply h.due_of_anchor
    · intro t ht
      exact ⟨s.now, .inr (.inr hup.symm), h.anchor_le ht⟩
    · intro d hd
      exact ⟨d, hloop ▸ hd, le_rfl⟩

theorem of_heard (h : Watched p s addr) (hnow : s'.now = s.now)
    (hseen : s'.seen addr = some s.now)
    (hloop : s'.loops addr = s.loops addr ∨ ∃ call sentAt,
      (s.loops addr).phase = .calling call sentAt false ∧
        s'.loops addr = { s.loops addr with phase := .calling call sentAt true })
    (hup : s'.upSince = s.upSince) : Watched p s' addr := by
  have hchanged : (s'.loops addr).changedAt = (s.loops addr).changedAt ∧
      (s'.loops addr).failures = (s.loops addr).failures ∧
      (s'.loops addr).deadline p = (s.loops addr).deadline p := by
    rcases hloop with hl | ⟨call, sentAt, hp, hl⟩
    · rw [hl]
      exact ⟨rfl, rfl, rfl⟩
    · rw [hl]
      exact ⟨rfl, rfl, by rw [BeatLoop.deadline, BeatLoop.deadline, hp]⟩
  obtain ⟨hchanged, hfailures, hdeadline⟩ := hchanged
  have hnew : s'.Anchor addr s.now := .inl hseen
  refine ⟨fun t ht => ?_, ?_, ?_, fun call t handled ht => ?_, ?_, ?_, ?_⟩
  · rw [hseen, Option.some.injEq] at ht
    rw [hnow, ht]
  · rw [hchanged, hnow]
    exact h.changed
  · rw [hup, hnow]
    exact h.up
  · rw [hnow]
    rcases hloop with hl | ⟨call', sentAt, hp, hl⟩
    · exact h.sent call t handled (hl ▸ ht)
    · rw [hl] at ht
      cases ht
      exact h.sent call t false hp
  · rw [hdeadline, hnow]
    exact h.deadline
  · rw [hfailures]
    exact h.failures
  · rcases hloop with hl | ⟨call, sentAt, hp, hl⟩
    · apply h.due_of_anchor
      · intro t ht
        exact ⟨s.now, hnew, h.anchor_le ht⟩
      · intro d hd
        exact ⟨d, hl ▸ hd, le_rfl⟩
    · -- the call that was handled was sent before now, and the next one is at most a gap away
      have hsent := h.sent call sentAt false hp
      apply due_of_now hl hnew
      rintro d ⟨⟩
      linarith

/-- What the thread starts to do, by `d`, is over in time. -/
theorem of_turn (h : Watched p s addr) {l : BeatLoop} (hnow : s'.now = s.now)
    (hseen : s'.seen addr = s.seen addr) (hloop : s'.loops addr = l) (hup : s'.upSince = s.upSince)
    (hchanged : l.changedAt = s.now ∨ l.changedAt = (s.loops addr).changedAt)
    (hsent : ∀ call t handled, l.phase = .calling call t handled → t = s.now)
    (hdeadline : ∀ t ∈ l.deadline p, s.now ≤ t) (hfailures : l.failures ≤ p.misses)
    (hdue : ∀ d ∈ l.due p, d ≤ s.now + p.gap ∧ l.changedAt = s.now ∨
      l.changedAt = (s.loops addr).changedAt ∧ ∃ d' ∈ (s.loops addr).due p, d ≤ d') :
    Watched p s' addr := by
  refine ⟨fun t ht => ?_, ?_, ?_, fun call t handled ht => ?_, ?_, ?_, ?_⟩
  · rw [hnow]
    exact h.seen t (hseen ▸ ht)
  · rw [hloop, hnow]
    rcases hchanged with he | he
    · exact he.le
    · exact he.trans_le h.changed
  · rw [hup, hnow]
    exact h.up
  · rw [hnow]
    exact (hsent call t handled (hloop ▸ ht)).le
  · rwa [hloop, hnow]
  · rwa [hloop]
  · intro d hd
    rw [hloop] at hd
    rcases hdue d hd with ⟨hle, he⟩ | ⟨he, d', hd', hle⟩
    · exact ⟨s.now, .inr (.inl (by rw [hloop, he])), hle⟩
    · obtain ⟨t, ht, hdt⟩ := h.due d' hd'
      refine ⟨t, ?_, hle.trans hdt⟩
      rwa [Anchor, hseen, hloop, he, hup]

theorem of_step (hp : p.Sound) (h : Watched p s addr) (hok : Punctual p s a)
    (hs : s.step cfg a = some s') : Watched p s' addr := by
  have hround := hp.call_le_round
  have hgap := p.gap_eq
  cases beat_of_step hok hs addr with
  | keep hnow hseen hloop hup =>
    exact h.of_keep hnow.ge (fun t ht => hnow.trans_le (h.deadline t ht)) hseen hloop hup
  | restart hnow hseen hloop hup => exact h.of_restart hnow hseen hloop hup
  | tick hle hdue hseen hloop hup => exact h.of_keep hle hdue hseen hloop hup
  | heard hnow hseen hloop hup => exact h.of_heard hnow hseen (hloop.imp_left And.left) hup
  | turn l hnow hseen hloop hup hl =>
    rcases hl with ⟨hchanged, hzero, hphase⟩ | ⟨call, sentAt, hphase, rfl⟩ |
      ⟨call, sentAt, handled, hphase, hlt, rfl⟩ | ⟨wakeAt, next, hphase, hle, rfl⟩
    · -- the process starts or stops
      refine h.of_turn hnow hseen hloop hup (.inl hchanged) ?_ ?_ (hzero ▸ Nat.zero_le _) ?_
      · intro call t handled ht
        rcases hphase with hphase | hphase
        · cases hphase.symm.trans ht
        · cases hphase.symm.trans ht
          rfl
      · intro t ht
        rw [BeatLoop.deadline] at ht
        rcases hphase with hphase | hphase
        · rw [hphase] at ht
          cases ht
        · rw [hphase] at ht
          cases ht
          have := hp.call
          linarith
      · intro d hd
        rw [BeatLoop.due] at hd
        rcases hphase with hphase | hphase
        · rw [hphase] at hd
          cases hd
        · rw [hphase] at hd
          cases hd
          rw [hzero]
          exact .inl ⟨by linarith [hp.round_nonneg], hchanged⟩
    · have hend := h.deadline (sentAt + p.call) (by rw [BeatLoop.deadline, hphase]; rfl)
      have hold : sentAt + p.gap ∈ (s.loops addr).due p := by
        rw [BeatLoop.due, hphase]
        rfl
      cases call with
      | register =>
        refine h.of_turn hnow hseen hloop hup (.inr rfl) ?_ ?_ (Nat.zero_le _) ?_
        · rintro _ t handled ⟨⟩
          rfl
        · rintro t ⟨⟩
          linarith [hp.call]
        · rintro d ⟨⟩
          refine .inr ⟨rfl, _, hold, ?_⟩
          show s.now + p.call + p.rest 0 ≤ sentAt + p.gap
          linarith
      | heartbeat =>
        refine h.of_turn hnow hseen hloop hup (.inr rfl) ?_ ?_ (Nat.zero_le _) ?_
        · rintro _ t handled ⟨⟩
        · rintro t ⟨⟩
          rw [heartbeatInterval]
          linarith [hp.lag]
        · rintro d ⟨⟩
          refine .inr ⟨rfl, _, hold, ?_⟩
          have hround : p.round = heartbeatInterval + p.lag + p.call := rfl
          show s.now + heartbeatInterval + p.lag + p.call + p.rest 0 ≤ sentAt + p.gap
          linarith
    · have hend := h.deadline (sentAt + p.call) (by rw [BeatLoop.deadline, hphase]; rfl)
      have hsucc := p.rest_succ (s.loops addr).failures
      refine h.of_turn hnow hseen hloop hup (.inr rfl) ?_ ?_ hlt ?_
      · rintro _ t handled ⟨⟩
      · rintro t ⟨⟩
        rw [heartbeatInterval]
        linarith [hp.lag]
      · rintro d ⟨⟩
        have hround : p.round = heartbeatInterval + p.lag + p.call := rfl
        have hold : ∃ d ∈ (s.loops addr).due p, sentAt + p.call + p.rest (s.loops addr).failures ≤ d := by
          rw [BeatLoop.due, hphase]
          cases handled with
          | false => exact ⟨_, rfl, le_rfl⟩
          | true => exact ⟨_, rfl, by linarith [hp.rest_le (s.loops addr).failures, hp.round_nonneg]⟩
        obtain ⟨d, hd, hle⟩ := hold
        refine .inr ⟨rfl, d, hd, ?_⟩
        show s.now + heartbeatInterval + p.lag + p.call + p.rest ((s.loops addr).failures + 1) ≤ d
        linarith
    · have hend := h.deadline (wakeAt + p.lag) (by rw [BeatLoop.deadline, hphase]; rfl)
      refine h.of_turn hnow hseen hloop hup (.inr rfl) ?_ ?_ h.failures ?_
      · rintro _ t handled ⟨⟩
        rfl
      · rintro t ⟨⟩
        linarith [hp.call]
      · rintro d ⟨⟩
        refine .inr ⟨rfl, wakeAt + p.lag + p.call + p.rest (s.loops addr).failures, ?_, ?_⟩
        · rw [BeatLoop.due, hphase]
          rfl
        · show s.now + p.call + p.rest (s.loops addr).failures ≤ _
          linarith

theorem of_run (hp : p.Sound) (hrun : Steps (Fleet.step cfg) (Punctual p) Fleet.init s)
    (addr : Addr) : Watched p s addr :=
  hrun.invariant (P := fun s => Watched p s addr) (init addr)
    fun _ _ _ _ h hok hs => h.of_step hp hok hs

/-- A running thread has something to do, and is not late with it. -/
theorem exists_due (h : Watched p s addr) (hp : p.Sound) (hrun : s.Running addr) :
    ∃ d ∈ (s.loops addr).due p, s.now ≤ d := by
  have hdeadline := h.deadline
  have hrest := hp.rest_nonneg h.failures
  have hcall := hp.call
  rw [BeatLoop.deadline] at hdeadline
  rw [BeatLoop.due]
  cases hphase : (s.loops addr).phase with
  | off => exact absurd hphase hrun
  | calling call sentAt handled =>
    have hend := hdeadline (sentAt + p.call) (by rw [hphase]; rfl)
    cases handled with
    | false => exact ⟨_, rfl, by linarith⟩
    | true =>
      have hgap := p.gap_eq
      have hround := hp.round_nonneg
      have hzero := hp.rest_nonneg (Nat.zero_le p.misses)
      exact ⟨_, rfl, by linarith⟩
  | sleeping wakeAt next =>
    have hend := hdeadline (wakeAt + p.lag) (by rw [hphase]; rfl)
    exact ⟨_, rfl, by linarith⟩

end Watched

/-- The storage server has been running, or not, and the naming server has been up, for longer
than `d`. -/
def SettledFor (s : Fleet) (d : Seconds) (addr : Addr) : Prop :=
  (s.loops addr).changedAt + d < s.now ∧ s.upSince + d < s.now

theorem heard_of_running (hp : p.Sound) (hrun : Steps (Fleet.step cfg) (Punctual p) Fleet.init s)
    (hon : s.Running addr) (hset : s.SettledFor p.gap addr) :
    ∃ t, s.seen addr = some t ∧ s.now - t ≤ p.gap := by
  have h := Watched.of_run hp hrun addr
  obtain ⟨d, hd, hnow⟩ := h.exists_due hp hon
  obtain ⟨t, ht | rfl | rfl, hdt⟩ := h.due d hd
  · exact ⟨t, ht, by linarith⟩
  · exact absurd hset.1 (by linarith)
  · exact absurd hset.2 (by linarith)

theorem live_of_running (hp : p.Sound) (hgap : p.gap ≤ heartbeatTimeout)
    (hrun : Steps (Fleet.step cfg) (Punctual p) Fleet.init s) (hon : s.Running addr)
    (hset : s.SettledFor p.gap addr) : addr ∈ s.naming.live := by
  obtain ⟨t, ht, hle⟩ := heard_of_running hp hrun hon hset
  exact mem_live.mpr ⟨t, ht, hle.trans hgap⟩

/-! ### A server that does not run is dropped -/

/-- What is still known or under way of a storage server that does not run is from before it
stopped. -/
structure Departed (p : Pace) (s : Fleet) (addr : Addr) : Prop where
  stray : ∀ r ∈ s.stray, r.sentAt ≤ s.now
  seen : (s.loops addr).phase = .off → ∀ t, s.seen addr = some t →
    t ≤ (s.loops addr).changedAt + p.stray
  strays : (s.loops addr).phase = .off → ∀ r ∈ s.stray, r.addr = addr →
    r.sentAt ≤ (s.loops addr).changedAt

/-- A request is given up on by the thread that sent it. -/
theorem stray_of_step (hs : s.step cfg a = some s') {r : StrayCall} (hr : r ∈ s'.stray) :
    r ∈ s.stray ∨ (s.loops r.addr).phase = .calling r.call r.sentAt false := by
  have hstrays : ∀ {x : Addr}, r ∈ (s.loops x).phase.strays x →
      (s.loops r.addr).phase = .calling r.call r.sentAt false := by
    intro x hx
    cases hphase : (s.loops x).phase with
    | off => simp [hphase, BeatPhase.strays] at hx
    | sleeping wakeAt next => simp [hphase, BeatPhase.strays] at hx
    | calling call sentAt handled =>
      cases handled with
      | true => simp [hphase, BeatPhase.strays] at hx
      | false =>
        rw [hphase, BeatPhase.strays, List.mem_singleton] at hx
        subst hx
        exact hphase
  cases a with
  | stop x =>
    simp only [step] at hs
    split at hs
    · cases hs
    · cases hs
      exact (List.mem_append.mp hr).imp_right hstrays
  | fail x =>
    simp only [step] at hs
    split at hs
    · rename_i call sentAt handled hphase
      cases hs
      exact (List.mem_append.mp hr).imp_right fun hx => hstrays (hphase ▸ hx)
    · cases hs
  | handleStray i =>
    simp only [step] at hs
    split at hs
    · rw [next_action, Option.map_some, Option.some.injEq] at hs
      subst hs
      exact .inl (List.mem_of_mem_eraseIdx hr)
    · cases hs
  | dropStray i =>
    simp only [step] at hs
    split_ifs at hs
    cases hs
    exact .inl (List.mem_of_mem_eraseIdx hr)
  | naming b =>
    simp only [step] at hs
    split_ifs at hs
    obtain ⟨n, _, rfl⟩ := Option.map_eq_some_iff.mp hs
    exact .inl hr
  | tick d =>
    obtain ⟨n, _, rfl⟩ := Option.map_eq_some_iff.mp hs
    exact .inl hr
  | _ =>
    all_goals
      simp only [step] at hs
      repeat' split at hs
      all_goals first
        | cases hs; done
        | (cases hs; exact .inl hr)
        | (obtain ⟨n, _, rfl⟩ := Option.map_eq_some_iff.mp hs; exact .inl hr)

/-- A server that does not run after a step did not run before it, or stops by it. -/
theorem BeatMove.off (h : BeatMove p s s' addr) (hoff : (s'.loops addr).phase = .off) :
    s'.loops addr = s.loops addr ∨ (s'.loops addr).changedAt = s.now ∧ s'.seen addr = s.seen addr := by
  cases h with
  | keep _ _ hloop _ => exact .inl hloop
  | restart _ _ hloop _ => exact .inl hloop
  | tick _ _ _ hloop _ => exact .inl hloop
  | heard _ _ hloop _ =>
    rcases hloop with ⟨hloop, _⟩ | ⟨call, sentAt, _, hloop⟩
    · exact .inl hloop
    · simp [hloop] at hoff
  | turn l _ hseen hloop _ hl =>
    rw [hloop] at hoff ⊢
    rcases hl with ⟨hchanged, _⟩ | ⟨call, _, _, rfl⟩ | ⟨_, _, _, _, _, rfl⟩ | ⟨_, _, _, _, rfl⟩
    · exact .inr ⟨hchanged, hseen⟩
    · cases call <;> cases hoff
    · cases hoff
    · cases hoff

theorem BeatMove.now_le (h : BeatMove p s s' addr) : s.now ≤ s'.now := by
  cases h with
  | tick hle => exact hle
  | keep hnow | restart hnow | heard hnow | turn l hnow => exact hnow.ge

namespace Departed

theorem init (addr : Addr) : Departed p Fleet.init addr where
  stray r hr := by cases hr
  seen _ t ht := by cases ht
  strays _ r hr := by cases hr

theorem of_step (hp : p.Sound) (h : Departed p s addr) (hw : ∀ x, Watched p s x)
    (hok : Punctual p s a) (hs : s.step cfg a = some s') : Departed p s' addr := by
  have hmove := beat_of_step hok hs addr
  have hstray : ∀ r ∈ s'.stray, r.sentAt ≤ s.now := by
    intro r hr
    rcases stray_of_step hs hr with hr | hphase
    · exact h.stray r hr
    · exact (hw r.addr).sent r.call r.sentAt false hphase
  refine ⟨fun r hr => (hstray r hr).trans hmove.now_le, fun hoff t ht => ?_, fun hoff r hr haddr => ?_⟩
  · have hzero := hp.stray
    rcases hmove.off hoff with hloop | ⟨hchanged, hseen⟩
    · rw [hloop] at hoff ⊢
      cases hmove with
      | keep _ hseen => exact h.seen hoff t (hseen ▸ ht)
      | restart _ hseen =>
        rw [hseen] at ht
        cases ht
      | tick _ _ hseen => exact h.seen hoff t (hseen ▸ ht)
      | heard _ hseen hheard =>
        rw [hseen, Option.some.injEq] at ht
        rcases hheard with ⟨_, r, hr, haddr, hle⟩ | ⟨call, sentAt, hphase, _⟩
        · have hsent := h.strays hoff r hr haddr
          linarith
        · cases hoff.symm.trans hphase
      | turn l _ hseen => exact h.seen hoff t (hseen ▸ ht)
    · have hle := (hw addr).seen t (hseen ▸ ht)
      linarith
  · rcases hmove.off hoff with hloop | ⟨hchanged, _⟩
    · rw [hloop] at hoff ⊢
      rcases stray_of_step hs hr with hr | hphase
      · exact h.strays hoff r hr haddr
      · rw [haddr] at hphase
        cases hoff.symm.trans hphase
    · rw [hchanged]
      exact hstray r hr

theorem of_run (hp : p.Sound) (hrun : Steps (Fleet.step cfg) (Punctual p) Fleet.init s)
    (addr : Addr) : Departed p s addr :=
  hrun.invariant (P := fun s => Departed p s addr) (init addr)
    fun _ _ _ hrun h hok hs => h.of_step hp (Watched.of_run hp hrun) hok hs

end Departed

/-- Once a server has been stopped for the timeout and the time in which stray requests arrive, it
is not live. -/
theorem not_live_of_stopped (hp : p.Sound) (hrun : Steps (Fleet.step cfg) (Punctual p) Fleet.init s)
    (hoff : ¬ s.Running addr)
    (hlong : (s.loops addr).changedAt + p.stray + heartbeatTimeout < s.now) :
    addr ∉ s.naming.live := by
  intro hlive
  obtain ⟨t, ht, hle⟩ := mem_live.mp hlive
  have hseen := (Departed.of_run hp hrun addr).seen (not_not.mp hoff) t ht
  linarith

end Fleet

end GfsCluster
