import GfsCluster.Naming.HealOnce

/-! Which servers a pass takes for dead. Beside the naming server, the machine remembers
when each storage server was last heard, restarts or not, and what was remembered when the
pass last read the registry. -/

namespace GfsCluster

open StepSystem

namespace StorageRegistry

variable {reg : StorageRegistry} {now : Seconds} {addr : Addr}

theorem mem_liveServers : addr ∈ reg.liveServers now ↔
    ∃ t, reg.lastSeen.lookup addr = some t ∧ now - t ≤ heartbeatTimeout := by
  simp only [liveServers, List.mem_map, List.mem_filter, decide_eq_true_eq]
  constructor
  · rintro ⟨⟨addr, t⟩, ⟨he, ht⟩, rfl⟩
    exact ⟨t, AList.mem_lookup_iff.mpr he, ht⟩
  · rintro ⟨t, hl, ht⟩
    exact ⟨⟨addr, t⟩, ⟨AList.mem_lookup_iff.mp hl, ht⟩, rfl⟩

end StorageRegistry

/-- The pass has read the live servers. -/
def HealPhase.hasRead : HealPhase → Bool
  | idle | counted _ | refreshing _ => false
  | picked _ | known _ | scanning _ _ _ | repairing _ _ _ _ | copying _ _ _ _ _ _
  | copied _ _ _ _ _ | dropping _ _ _ _ _ => true

namespace NamingServer

variable {cfg : Settings} {n n' : NamingServer} {a : NamingAction} {b : HealStep}
  {out : List StorageRpc}

/-- When storage servers were last heard. -/
abbrev Hearings := Addr → Option Seconds

/-- The last RegisterStorage or Heartbeat of `addr` was accepted no more than the heartbeat timeout
before `now`. -/
def Recent (heard : Hearings) (now : Seconds) (addr : Addr) : Prop :=
  ∃ t, heard addr = some t ∧ now - t ≤ heartbeatTimeout

/-- The naming server with what has been heard, and with what had been heard at the last
liveness read of a pass and the time of that read. -/
structure Listener where
  server : NamingServer
  heard : Hearings
  read : Hearings
  readAt : Seconds

namespace Listener

def init : Listener := ⟨.init, fun _ => none, fun _ => none, 0⟩

/-- What is remembered when the server goes on to `n'`. -/
def after (s : Listener) (n' : NamingServer) : NamingAction → Listener
  | .registerStorage addr | .heartbeat addr =>
    { s with server := n', heard := Function.update s.heard addr (some s.server.now) }
  | .heal .pick => { s with server := n', read := s.heard, readAt := s.server.now }
  | _ => { s with server := n' }

def step (cfg : Settings) (s : Listener) (a : NamingAction) : Option Listener :=
  (s.server.next cfg a).map (s.after · a)

end Listener

/-- In runs under `ok`, no pass removes an address that had been heard recently at its last
liveness read. -/
def DropsOnlyDead (cfg : Settings) (ok : Listener → NamingAction → Prop) : Prop :=
  ∀ s s' live rest repaired w addr, Steps (Listener.step cfg) ok Listener.init s →
    s.step cfg (.heal .drop) = some s' → s.server.heal = .dropping live rest repaired w addr →
    ¬ Recent s.read s.readAt addr

/-- At the last liveness read of a pass, the registry knows every server that has been heard
recently, and no more servers are live than the pass has counted. -/
def CountsAll (s : Listener) : NamingAction → Prop
  | .heal .pick => (∀ addr, Recent s.heard s.server.now addr → addr ∈ s.server.registry.lastSeen) ∧
    ∀ count, s.server.heal = .counted count → s.server.live.length ≤ count
  | _ => True

/-! ### What the pass knows of the servers -/

/-- The stale addresses of a repair are not among the servers of the pass. -/
def StaleApart (n : NamingServer) : Prop :=
  ∀ w, n.heal.repair = some w → ∀ addr ∈ w.stale, addr ∉ n.heal.live

theorem StaleApart.of_heal (h : StaleApart n) (hs : n.healStep cfg b = some (n', out)) :
    StaleApart n' := by
  have hnone : n'.heal.repair = none → StaleApart n' := fun hn w hw => by simp [hn] at hw
  cases heal_of_step hs with
  | stop h' => exact hnone (HealPhase.repair_of_stop h')
  | pick count h' => exact hnone (by rw [h']; rfl)
  | known live hp h' => exact hnone (by rw [h']; rfl)
  | scan o live hp _ h' => exact hnone (by rw [h']; rfl)
  | skip rest repaired _ h' => exact hnone (by rw [h']; rfl)
  | start live m rest repaired w hp hw h' =>
    intro w' hw' addr haddr
    rw [h'] at hw' ⊢
    cases hw'
    obtain ⟨_, _, _, hws, _⟩ := startRepair_eq_some hw
    rw [hws, List.mem_filter, decide_eq_true_eq] at haddr
    exact haddr.2
  | copy live rest repaired w target candidates _ hp _ _ h' =>
    have hw := h w (by rw [hp]; rfl)
    intro w' hw' addr haddr
    rw [h'] at hw' ⊢
    rw [hp] at hw
    cases hw'
    exact hw addr haddr
  | answer live rest repaired w target ticket ok _ hp h' =>
    have hw := h { w with candidates := target :: w.candidates } (by rw [hp]; rfl)
    intro w' hw' addr haddr
    rw [hp] at hw
    rcases h' with h' | h'
    · rw [h'] at hw' ⊢
      cases hw'
      exact hw addr haddr
    · rw [h'] at hw' ⊢
      cases hw'
      exact hw addr haddr
  | record live rest repaired w target added hp _ _ h' =>
    have hw := h { w with candidates := target :: w.candidates } (by rw [hp]; rfl)
    intro w' hw' addr haddr
    rw [hp] at hw
    rw [h'] at hw' ⊢
    split at hw'
    · cases hw'
      exact hw addr haddr
    · rename_i hstale
      cases hw'
      exact hw addr (by simpa [hstale] using haddr)
  | drop live rest repaired w x hp _ h' =>
    have hw := h { w with stale := x :: w.stale } (by rw [hp]; rfl)
    intro w' hw' addr haddr
    rw [hp] at hw
    rw [h'] at hw' ⊢
    cases hw'
    exact hw addr (List.mem_cons_of_mem _ haddr)

/-- A pass comes to have read the live servers by its `pick` only, and then keeps to them. -/
theorem read_of_heal (hs : n.healStep cfg b = some (n', out)) (h' : n'.heal.hasRead = true) :
    (b = .pick ∧ ∃ count, n.heal = .counted count ∧
      n'.heal.live = (n.registry.pick n.now count).1) ∨
    (b ≠ .pick ∧ n.heal.hasRead = true ∧ n'.heal.live = n.heal.live) := by
  cases case_of_healStep hs <;> simp_all [HealPhase.hasRead, HealPhase.live]

structure Attentive (s : Listener) : Prop where
  remembers : ∀ addr t, s.server.registry.lastSeen.lookup addr = some t → s.heard addr = some t
  read : s.server.heal.hasRead = true → ∀ addr, Recent s.read s.readAt addr → addr ∈ s.server.heal.live
  stale : StaleApart s.server

namespace Attentive

variable {s s' : Listener}

theorem init : Attentive Listener.init where
  remembers addr t h := by simp [Listener.init, NamingServer.init, StorageRegistry.init] at h
  read h := by simp [Listener.init, NamingServer.init, HealPhase.hasRead] at h
  stale w h := by simp [Listener.init, NamingServer.init, HealPhase.repair] at h

/-- A heartbeat is remembered by the registry and beside it. -/
theorem of_heartbeat (h : Attentive s) (addr : Addr) : Attentive { s with
    server := { s.server with registry := s.server.registry.markAlive s.server.now addr }
    heard := Function.update s.heard addr (some s.server.now) } := by
  refine ⟨fun addr' t hl => ?_, h.read, h.stale⟩
  by_cases he : addr' = addr
  · subst he
    rw [StorageRegistry.markAlive, AList.lookup_insert] at hl
    exact (Function.update_self ..).trans hl
  · rw [StorageRegistry.markAlive, AList.lookup_insert_ne he] at hl
    exact (Function.update_of_ne he ..).trans (h.remembers addr' t hl)

/-- A step that hears nobody and leaves the healer alone, or is a restart. -/
theorem of_quiet (h : Attentive s)
    (hseen : n'.registry.lastSeen = s.server.registry.lastSeen ∨ n'.registry.lastSeen = ∅)
    (hheal : n'.heal = s.server.heal ∨ n'.heal = .idle) : Attentive { s with server := n' } := by
  refine ⟨fun addr t hl => ?_, fun hr addr => ?_, fun w hw => ?_⟩
  · rcases hseen with hseen | hseen
    · exact h.remembers addr t (hseen ▸ hl)
    · simp [hseen] at hl
  · rcases hheal with hheal | hheal
    · exact hheal ▸ h.read (hheal ▸ hr) addr
    · simp [hheal, HealPhase.hasRead] at hr
  · rcases hheal with hheal | hheal
    · exact hheal ▸ h.stale w (hheal ▸ hw)
    · simp [hheal, HealPhase.repair] at hw

theorem of_heal (h : Attentive s) (hok : CountsAll s (.heal b))
    (hs : s.server.healStep cfg b = some (n', out)) : Attentive (s.after n' (.heal b)) := by
  obtain ⟨_, _, _, hseen, _⟩ := healStep_frame hs
  have hserver : (s.after n' (.heal b)).server = n' ∧ (s.after n' (.heal b)).heard = s.heard := by
    cases b <;> exact ⟨rfl, rfl⟩
  refine ⟨fun addr t hl => ?_, fun hr addr hrec => ?_, ?_⟩
  · rw [hserver.1, hseen] at hl
    rw [hserver.2]
    exact h.remembers addr t hl
  · rw [hserver.1] at hr ⊢
    rcases read_of_heal hs hr with ⟨rfl, count, hp, hlive⟩ | ⟨hb, hread, hlive⟩
    · -- heard recently means live, since the registry knows the server
      obtain ⟨t, ht, hage⟩ := hrec
      obtain ⟨t', hl⟩ := Option.isSome_iff_exists.mp
        (AList.lookup_isSome.mpr (hok.1 addr ⟨t, ht, hage⟩))
      obtain rfl : t' = t := Option.some.inj ((h.remembers addr t' hl).symm.trans ht)
      rw [hlive]
      have hpick := s.server.registry.perm_pick s.server.now (hok.2 count hp)
      exact hpick.mem_iff.mpr (StorageRegistry.mem_liveServers.mpr ⟨t', hl, hage⟩)
    · rw [hlive]
      refine h.read hread addr ?_
      cases b <;> first | exact absurd rfl hb | exact hrec
  · rw [hserver.1]
    exact h.stale.of_heal hs

theorem of_step {a : NamingAction} (h : Attentive s) (hok : CountsAll s a)
    (hs : s.step cfg a = some s') : Attentive s' := by
  simp only [Listener.step, Option.map_eq_some_iff] at hs
  obtain ⟨n', hn, rfl⟩ := hs
  obtain ⟨out, hn⟩ := exists_step_of_next hn
  cases a with
  | registerStorage addr | heartbeat addr =>
    cases hn
    exact h.of_heartbeat addr
  | heal b => exact h.of_heal hok hn
  | crash =>
    cases hn
    exact h.of_quiet (.inr rfl) (.inr rfl)
  | _ =>
    rcases step_frame hn with hc | ⟨_, _, hb | ⟨hheal, _⟩, ⟨_, ha | ha⟩ | hseen⟩
    all_goals first
      | exact h.of_quiet (.inl hseen) (.inl hheal)
      | exact absurd hb (by simp)
      | cases ha
      | cases hc

end Attentive

theorem dropsOnlyDead_of_countsAll (cfg : Settings) : DropsOnlyDead cfg CountsAll := by
  intro s s' live rest repaired w addr hrun _ hp hrec
  have h : Attentive s := Steps.invariant (P := Attentive) hrun Attentive.init
    fun _ _ _ _ h hok hs => h.of_step hok hs
  have hlive := h.read (by rw [hp]; rfl) addr hrec
  exact h.stale { w with stale := addr :: w.stale } (by rw [hp]; rfl) addr List.mem_cons_self hlive

/-! ### A heartbeat between the two reads -/

/-- `s` is quiet when the pass counts two live servers, is heard again before it picks two of
three, and is left out. -/
def heardBetween : List NamingAction :=
  quietServer ++ [.heal .count, .heartbeat ['s'], .heal .pick, .heal (.known .table),
    .heal (.scan .table), .heal .next, .heal .copy, .heal (.answer true), .heal .record]

/-- The next step of the pass removes an address heard recently. -/
def dropsRecent (s : Listener) : Bool :=
  match s.server.heal with
  | .dropping _ _ _ _ addr => (s.read addr).any fun t => decide (s.readAt - t ≤ heartbeatTimeout)
  | _ => false

theorem not_dropsOnlyDead : ¬ DropsOnlyDead ⟨2, 60⟩ anyStep := by
  have hrun : (run (guarded (Listener.step ⟨2, 60⟩) anyStep) Listener.init heardBetween).any
      dropsRecent = true := by
    decide +kernel
  obtain ⟨s, hr, hs⟩ := exists_of_run hrun
  unfold dropsRecent at hs
  split at hs
  · rename_i live rest repaired w addr hp
    rw [Option.any_eq_true] at hs
    obtain ⟨t, ht, hage⟩ := hs
    have hdrop : ∃ s', s.step ⟨2, 60⟩ (.heal .drop) = some s' := by
      simp [Listener.step, NamingServer.next, NamingServer.step, healStep, hp]
    obtain ⟨s', hs'⟩ := hdrop
    exact fun h => h s s' live rest repaired w addr hr hs' hp ⟨t, ht, of_decide_eq_true hage⟩
  · cases hs

end NamingServer

end GfsCluster
