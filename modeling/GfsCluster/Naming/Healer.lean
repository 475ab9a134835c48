import GfsCluster.Naming.Rows

/-! What the healer knows. It works from a snapshot of the committed chunks below
target, and while overwrites and deletes take chunks away underneath it, nobody else
writes the addresses of a chunk that stays: what it remembers of such a chunk is still
what is recorded. -/

namespace GfsCluster

open StepSystem

/-- No pass is under way, or its `try` is behind it. -/
def HealPhase.over : HealPhase → Bool
  | .idle | .refreshing _ => true
  | .counted _ | .picked _ | .known _ | .scanning _ _ _ | .repairing _ _ _ _
  | .copying _ _ _ _ _ _ | .copied _ _ _ _ _ | .dropping _ _ _ _ _ => false

namespace HealPhase

/-- The rotated live list of the pass. -/
def live : HealPhase → List Addr
  | idle | counted _ | refreshing _ => []
  | picked live | known live | scanning live _ _ | repairing live _ _ _
  | copying live _ _ _ _ _ | copied live _ _ _ _ | dropping live _ _ _ _ => live

/-- The chunks still to visit. -/
def rest : HealPhase → List ChunkMeta
  | idle | counted _ | picked _ | known _ | refreshing _ => []
  | scanning _ rest _ | repairing _ rest _ _ | copying _ rest _ _ _ _ | copied _ rest _ _ _
  | dropping _ rest _ _ _ => rest

/-- The repair under way. A target counts as a candidate until it is recorded, an
address to drop as stale until it is removed. -/
def repair : HealPhase → Option Repair
  | repairing _ _ _ w => some w
  | copying _ _ _ w target _ | copied _ _ _ w target =>
    some { w with candidates := target :: w.candidates }
  | dropping _ _ _ w x => some { w with stale := x :: w.stale }
  | idle | counted _ | picked _ | known _ | scanning _ _ _ | refreshing _ => none

/-- The chunk between its `add_replica` and its `remove_replica`. -/
def dropped : HealPhase → Option ChunkId
  | dropping _ _ _ w _ => some w.chunkId
  | _ => none

def isIdle : HealPhase → Bool
  | idle => true
  | counted _ | picked _ | known _ | scanning _ _ _ | repairing _ _ _ _ | copying _ _ _ _ _ _
  | copied _ _ _ _ _ | dropping _ _ _ _ _ | refreshing _ => false

theorem eq_idle {p : HealPhase} (h : p.isIdle = true) : p = idle := by
  cases p <;> first | rfl | cases h

/-- The chunk is being copied, or was copied and is not recorded yet. -/
def inCopy : HealPhase → Bool
  | copying _ _ _ _ _ _ | copied _ _ _ _ _ => true
  | _ => false

section Stop

variable {p : HealPhase} (h : p.over = true ∨ ∃ count, p = counted count)

include h

theorem live_of_stop : p.live = [] := by
  obtain h | ⟨count, rfl⟩ := h
  · cases p <;> first | rfl | cases h
  · rfl

theorem rest_of_stop : p.rest = [] := by
  obtain h | ⟨count, rfl⟩ := h
  · cases p <;> first | rfl | cases h
  · rfl

theorem repair_of_stop : p.repair = none := by
  obtain h | ⟨count, rfl⟩ := h
  · cases p <;> first | rfl | cases h
  · rfl

end Stop

end HealPhase

namespace NamingServer

variable {cfg : Settings} {n n' : NamingServer} {k : ℕ} {f : Filename} {c : ChunkId}
  {a : NamingAction} {out : List StorageRpc}

/-! ### The healer's own steps -/

inductive HealMove (cfg : Settings) (n : NamingServer) (b : HealStep) (n' : NamingServer) : Prop
  | stop (h' : n'.heal.over = true ∨ ∃ count, n'.heal = .counted count)
  | pick (count : ℕ) (h' : n'.heal = .picked (n.registry.pick n.now count).1)
  | known (live : List Addr) (h : n.heal = .picked live) (h' : n'.heal = .known live)
  | scan (o : RowOrder) (live : List Addr) (h : n.heal = .known live) (hdb : n'.db = n.db)
      (h' : n'.heal =
        .scanning live (underReplicatedChunks (o.view n.db) live cfg.replication) 0)
  | skip (rest : List ChunkMeta) (repaired : ℕ) (hrest : rest <:+ n.heal.rest)
      (h' : n'.heal = .scanning n.heal.live rest repaired)
  | start (live : List Addr) (m : ChunkMeta) (rest : List ChunkMeta) (repaired : ℕ) (w : Repair)
      (h : n.heal = .scanning live (m :: rest) repaired) (hw : startRepair cfg live m = some w)
      (h' : n'.heal = .repairing live rest repaired w)
  | copy (live : List Addr) (rest : List ChunkMeta) (repaired : ℕ) (w : Repair) (target : Addr)
      (candidates : List Addr) (hb : b = .copy) (h : n.heal = .repairing live rest repaired w)
      (hw : w.candidates = target :: candidates) (hlt : w.live.length < cfg.replication)
      (h' : n'.heal = .copying live rest repaired { w with candidates := candidates } target n.ticket)
  | answer (live : List Addr) (rest : List ChunkMeta) (repaired : ℕ) (w : Repair) (target : Addr)
      (ticket : ℕ) (ok : Bool) (hb : b = .answer ok)
      (h : n.heal = .copying live rest repaired w target ticket)
      (h' : n'.heal = .copied live rest repaired w target ∨
        n'.heal = .repairing live rest repaired w)
  | record (live : List Addr) (rest : List ChunkMeta) (repaired : ℕ) (w : Repair) (target : Addr)
      (added : Bool) (h : n.heal = .copied live rest repaired w target)
      (hadd : (n.store.addReplica w.chunkId target).1 = .ok added)
      (hstore : n'.store = (n.store.addReplica w.chunkId target).2)
      (h' : n'.heal = match w.stale with
        | [] => .repairing live rest (repaired + 1) { w with live := w.live ++ [target] }
        | x :: stale => .dropping live rest (repaired + 1)
          { w with live := w.live ++ [target], stale := stale } x)
  | drop (live : List Addr) (rest : List ChunkMeta) (repaired : ℕ) (w : Repair) (x : Addr)
      (h : n.heal = .dropping live rest repaired w x)
      (hdb : n'.db = (n.store.removeReplica w.chunkId x).2.committed)
      (h' : n'.heal = .repairing live rest repaired w)

theorem heal_of_step {b : HealStep} (hs : n.healStep cfg b = some (n', out)) :
    HealMove cfg n b n' := by
  cases case_of_healStep hs with
  | count => exact .stop (.inr ⟨_, rfl⟩)
  | tooFew | allLive | finish | raise | refresh => exact .stop (.inl rfl)
  | pick count _ _ => exact .pick count rfl
  | known _ live hp _ => exact .known live hp rfl
  | scan o live hp => exact .scan o live hp rfl rfl
  | skip live m rest repaired hp _ =>
    exact .skip rest repaired (by simp [hp, HealPhase.rest]) (by simp [hp, HealPhase.live])
  | start live m rest repaired w hp hw => exact .start live m rest repaired w hp hw rfl
  | copy live rest repaired w target _ candidates _ hp hcand _ hlt =>
    exact .copy live rest repaired w target candidates rfl hp hcand hlt rfl
  | leave live rest repaired w hp _ =>
    exact .skip rest repaired (by simp [hp, HealPhase.rest]) (by simp [hp, HealPhase.live])
  | copied live rest repaired w target ticket hp =>
    exact .answer live rest repaired w target ticket true rfl hp (.inl rfl)
  | refused live rest repaired w target ticket hp =>
    exact .answer live rest repaired w target ticket false rfl hp (.inr rfl)
  | record live rest repaired w target added _ hp hadd hstale =>
    exact .record live rest repaired w target added hp (by rw [hadd]) (by rw [hadd])
      (by simp only [hstale])
  | replace live rest repaired w target x stale added _ hp hadd hstale =>
    exact .record live rest repaired w target added hp (by rw [hadd]) (by rw [hadd])
      (by simp only [hstale])
  | drop live rest repaired w x hp => exact .drop live rest repaired w x hp rfl rfl

/-! ### Where addresses come from -/

/-- Whatever holds of every registered address holds of every address in the machine. -/
structure AddrsIn (P : Addr → Prop) (n : NamingServer) : Prop where
  seen : ∀ addr ∈ n.registry.lastSeen, P addr
  planned : ∀ k chunks, (n.creates k).phase.plan = some chunks →
    ∀ m ∈ chunks, ∀ addr ∈ m.locations, P addr
  recorded : ∀ r ∈ n.db.replicas, P r.address
  live : ∀ addr ∈ n.heal.live, P addr
  candidates : ∀ w, n.heal.repair = some w → ∀ addr ∈ w.candidates, P addr

/-- The addresses that storage servers register satisfy `P`. -/
def Registers (P : Addr → Prop) : NamingAction → Prop
  | .registerStorage addr | .heartbeat addr => P addr
  | _ => True

theorem startRepair_eq_some {live : List Addr} {m : ChunkMeta} {w : Repair}
    (h : startRepair cfg live m = some w) : w.chunkId = m.chunkId ∧
      w.live = m.locations.eraseDups.filter (· ∈ live) ∧ w.live ≠ [] ∧
      w.stale = m.locations.eraseDups.filter (· ∉ live) ∧
      w.candidates = live.filter (· ∉ m.locations.eraseDups) := by
  simp only [startRepair] at h
  split_ifs at h with hfull hnone
  cases h
  exact ⟨rfl, rfl, hnone, rfl, rfl⟩

namespace AddrsIn

variable {P : Addr → Prop}

theorem init : AddrsIn P NamingServer.init where
  seen addr h := by simp [NamingServer.init, StorageRegistry.init] at h
  planned k chunks h := by
    simp only [NamingServer.init, CreatePhase.plan, Option.some.injEq] at h
    subst h
    simp
  recorded r h := by
    simp [NamingServer.init, NamingServer.db, MetadataStore.init, Db.empty] at h
  live addr h := by simp [NamingServer.init, HealPhase.live] at h
  candidates w h := by simp [NamingServer.init, HealPhase.repair] at h

theorem of_pick (h : AddrsIn P n) {count : ℕ} {addr : Addr}
    (ha : addr ∈ (n.registry.pick n.now count).1) : P addr :=
  h.seen addr (n.registry.mem_lastSeen_of_live n.now (n.registry.mem_live_of_mem_pick n.now ha))

theorem seen_of_step (h : AddrsIn P n) (hok : Registers P a) (hs : n.step cfg a = some (n', out)) :
    ∀ addr ∈ n'.registry.lastSeen, P addr := by
  have hmark : ∀ addr, P addr → ∀ addr' ∈ (n.registry.markAlive n.now addr).lastSeen, P addr' := by
    intro addr hP addr' ha
    rw [StorageRegistry.markAlive, AList.mem_insert] at ha
    rcases ha with rfl | ha
    · exact hP
    · exact h.seen addr' ha
  rcases step_frame hs with rfl | ⟨_, _, _, ⟨addr, rfl | rfl⟩ | hr⟩
  · cases hs
    intro addr ha
    simp [crash, StorageRegistry.init] at ha
  · cases hs
    exact hmark addr hok
  · cases hs
    exact hmark addr hok
  · rw [hr]
    exact h.seen

theorem planned_of_step (h : AddrsIn P n) (hs : n.step cfg a = some (n', out)) :
    ∀ k chunks, (n'.creates k).phase.plan = some chunks →
      ∀ m ∈ chunks, ∀ addr ∈ m.locations, P addr := by
  intro k chunks hp m hm addr ha
  rcases step_moves hs with ⟨j, b, _, hmv⟩ | ⟨_, rfl⟩ | ⟨_, hcreates, _⟩
  · by_cases hj : k = j
    · subst hj
      have hsame : (n'.creates k).phase.plan = (n.creates k).phase.plan ∨
          (n'.creates k).phase.plan = none → P addr := by
        rintro (he | he)
        · exact h.planned k chunks (he ▸ hp) m hm addr ha
        · exact absurd (he.symm.trans hp) (by simp)
      cases createStep_moves hmv with
      | turn _ _ _ _ _ hcreates _ hplan =>
        apply hsame
        rwa [hcreates, Function.update_self]
      | raise _ _ _ _ _ _ _ hcreates =>
        apply hsame
        rw [hcreates, Function.update_self]
        exact .inr rfl
      | reserve chunks' _ _ hphase _ _ _ _ _ hcreates =>
        apply hsame
        rw [hcreates, Function.update_self, hphase]
        exact .inl (by simp [CreatePhase.plan, Function.comp_def])
      | place chunks' id locations _ hphase _ hlocs _ _ _ _ _ hcreates =>
        rw [hcreates, Function.update_self] at hp
        simp only [CreatePhase.plan, Option.some.injEq] at hp
        subst hp
        rcases List.mem_append.mp hm with hm | hm
        · exact h.planned k chunks' (by rw [hphase]; rfl) m hm addr ha
        · rw [List.mem_singleton.mp hm, hlocs] at ha
          exact h.of_pick ha
    · have he : n'.creates k = n.creates k := createStep_other hmv hj
      exact h.planned k chunks (he ▸ hp) m hm addr ha
  · rcases (Consistent.crash_handler (n.creates k)).2.2.1 with he | he
    · exact h.planned k chunks (he ▸ hp) m hm addr ha
    · exact absurd (he.symm.trans hp) (by simp)
  · exact h.planned k chunks (hcreates ▸ hp) m hm addr ha

theorem recorded_of_step (h : AddrsIn P n) (hc : Consistent cfg n)
    (hs : n.step cfg a = some (n', out)) : ∀ r ∈ n'.db.replicas, P r.address := by
  intro r hr
  rcases replica_of_step hc hs hr with hr | ⟨k, _, chunks, _, hphase, m, hm, hr⟩ |
    ⟨live, rest, repaired, w, target, _, hheal, rfl⟩
  · exact h.recorded r hr
  · exact h.planned k chunks (by rw [hphase]; rfl) m hm _ (ChunkMeta.mem_replicaRows.mp hr).2
  · exact h.candidates _ (by rw [hheal]; rfl) target List.mem_cons_self

theorem healing_of_step (h : AddrsIn P n) (hs : n.step cfg a = some (n', out)) :
    (∀ addr ∈ n'.heal.live, P addr) ∧
      ∀ w, n'.heal.repair = some w → ∀ addr ∈ w.candidates, P addr := by
  rcases step_frame hs with rfl | ⟨_, _, ⟨b, rfl⟩ | ⟨he, _⟩, _⟩
  · cases hs
    simp [crash, HealPhase.live, HealPhase.repair]
  · have hlive := h.live
    have hcand := h.candidates
    cases heal_of_step hs with
    | stop h' =>
      rw [HealPhase.live_of_stop h', HealPhase.repair_of_stop h']
      simp
    | pick count h' =>
      rw [h']
      exact ⟨fun addr ha => h.of_pick ha, by simp [HealPhase.repair]⟩
    | known live hp h' =>
      rw [h']
      rw [hp] at hlive
      exact ⟨hlive, by simp [HealPhase.repair]⟩
    | scan o live hp _ h' =>
      rw [h']
      rw [hp] at hlive
      exact ⟨hlive, by simp [HealPhase.repair]⟩
    | skip rest repaired _ h' =>
      rw [h']
      exact ⟨hlive, by simp [HealPhase.repair]⟩
    | start live m rest repaired w hp hw h' =>
      rw [h']
      rw [hp] at hlive
      refine ⟨hlive, fun w' hw' addr ha => ?_⟩
      cases hw'
      obtain ⟨_, _, _, _, hc⟩ := startRepair_eq_some hw
      rw [hc] at ha
      exact hlive addr (List.mem_filter.mp ha).1
    | copy live rest repaired w target candidates hb hp hw hlt h' =>
      rw [h']
      rw [hp] at hlive hcand
      refine ⟨hlive, fun w' hw' addr ha => ?_⟩
      cases hw'
      exact hcand w rfl addr (hw ▸ ha)
    | answer live rest repaired w target ticket ok hb hp h' =>
      rw [hp] at hlive hcand
      rcases h' with h' | h'
      · rw [h']
        exact ⟨hlive, hcand⟩
      · rw [h']
        refine ⟨hlive, fun w' hw' addr ha => ?_⟩
        cases hw'
        exact hcand _ rfl addr (List.mem_cons_of_mem _ ha)
    | record live rest repaired w target added hp _ _ h' =>
      rw [hp] at hlive hcand
      have hc := fun addr ha => hcand _ rfl addr (List.mem_cons_of_mem target ha)
      rw [h']
      split
      · exact ⟨hlive, fun w' hw' => by cases hw'; exact hc⟩
      · exact ⟨hlive, fun w' hw' => by cases hw'; exact hc⟩
    | drop live rest repaired w x hp _ h' =>
      rw [hp] at hlive hcand
      rw [h']
      exact ⟨hlive, fun w' hw' => by cases hw'; exact hcand { w with stale := x :: w.stale } rfl⟩
  · rw [he]
    exact ⟨h.live, h.candidates⟩

theorem of_step (h : AddrsIn P n) (hc : Consistent cfg n) (hok : Registers P a)
    (hs : n.step cfg a = some (n', out)) : AddrsIn P n' where
  seen := h.seen_of_step hok hs
  planned := h.planned_of_step hs
  recorded := h.recorded_of_step hc hs
  live := (h.healing_of_step hs).1
  candidates := (h.healing_of_step hs).2

end AddrsIn

/-! ### What the healer remembers -/

/-- The chunk was committed when it was listed, and if it still has a row it is recorded
at exactly these addresses. -/
structure Knows (n : NamingServer) (c : ChunkId) (locations : List Addr) : Prop where
  born : ∃ f, n.BornIn f c
  recorded : ∀ r ∈ n.db.chunks, r.chunkId = c →
    n.db.CommittedChunk c ∧ (n.db.locations c).Perm locations

theorem Knows.of_step {locations : List Addr} (hk : n.Knows c locations) (hc : Consistent cfg n)
    (hs : n.step cfg a = some (n', out))
    (hother : a = .heal .record ∨ a = .heal .drop → ∀ w, n.heal.repair = some w → w.chunkId ≠ c) :
    n'.Knows c locations := by
  obtain ⟨⟨f, hb⟩, hrec⟩ := hk
  refine ⟨⟨f, hb.step hs⟩, ?_⟩
  rintro r hr' rfl
  have hr := hb.row_of_step hc hs hr'
  obtain ⟨hcom, hperm⟩ := hrec r hr rfl
  refine ⟨committed_of_step hc hs hr hr' hcom, ?_⟩
  rcases locations_of_step hc hs hr hr' with he | ⟨_, _, _, w, target, ha, hheal, hw, _⟩ |
    ⟨_, _, _, w, x, ha, hheal, hw, _⟩
  · rwa [he]
  · exact absurd hw (hother (.inl ha) { w with candidates := target :: w.candidates }
      (by rw [hheal]; rfl))
  · exact absurd hw (hother (.inr ha) { w with stale := x :: w.stale } (by rw [hheal]; rfl))

structure HealTracks (cfg : Settings) (n : NamingServer) : Prop where
  live : n.heal.live.Nodup
  rest : ∀ m ∈ n.heal.rest, m.locations ≠ [] → n.Knows m.chunkId m.locations
  rest_key : (n.heal.rest.map ChunkMeta.chunkId).Nodup
  knows : ∀ w, n.heal.repair = some w → n.Knows w.chunkId (w.live ++ w.stale)
  apart : ∀ w, n.heal.repair = some w → w.chunkId ∉ n.heal.rest.map ChunkMeta.chunkId
  candidates : ∀ w, n.heal.repair = some w → w.candidates.Nodup
  fresh : ∀ w, n.heal.repair = some w → ∀ addr ∈ w.candidates, addr ∉ w.live ++ w.stale
  short : n.heal.inCopy = true → ∀ w, n.heal.repair = some w → w.live.length < cfg.replication

/-- An address-perfect snapshot entry: the listed chunk is known as it is recorded. -/
theorem knows_of_listed (hc : Consistent cfg n) (ha : AddrsIn CommaFree n) {o : RowOrder}
    {live : List Addr} {replication : ℕ} {m : ChunkMeta}
    (hm : m ∈ underReplicatedChunks (o.view n.db) live replication) (hne : m.locations ≠ []) :
    n.Knows m.chunkId m.locations := by
  obtain ⟨r, hr, hcom, _, rfl⟩ := mem_underReplicatedChunks.mp hm
  rw [o.mem_chunks] at hr
  rw [o.committedChunk] at hcom
  refine ⟨⟨_, hc.row_born hr⟩, fun r' _ _ => ⟨hcom, ?_⟩⟩
  have hcomma : ∀ addr ∈ (o.view n.db).locations r.chunkId, CommaFree addr := by
    intro addr hmem
    rw [Db.mem_locations, o.mem_replicas] at hmem
    exact ha.recorded _ hmem
  rcases splitAddrs_groupConcat hcomma with he | he
  · simp only [he]
    exact (o.locations_perm n.db r.chunkId).symm
  · exact absurd he hne

namespace HealTracks

theorem init : HealTracks cfg NamingServer.init where
  live := List.nodup_nil
  rest m hm := by simp [NamingServer.init, HealPhase.rest] at hm
  rest_key := List.nodup_nil
  knows w hw := by simp [NamingServer.init, HealPhase.repair] at hw
  apart w hw := by simp [NamingServer.init, HealPhase.repair] at hw
  candidates w hw := by simp [NamingServer.init, HealPhase.repair] at hw
  fresh w hw := by simp [NamingServer.init, HealPhase.repair] at hw
  short hw := by simp [NamingServer.init, HealPhase.inCopy] at hw

/-- A pass that is over, or has not listed anything yet. -/
theorem of_unlisted (hlive : n.heal.live.Nodup) (hrest : n.heal.rest = [])
    (hrepair : n.heal.repair = none) : HealTracks cfg n where
  live := hlive
  rest m hm := by simp [hrest] at hm
  rest_key := by simp [hrest]
  knows w hw := by simp [hrepair] at hw
  apart w hw := by simp [hrepair] at hw
  candidates w hw := by simp [hrepair] at hw
  fresh w hw := by simp [hrepair] at hw
  short _ w hw := by simp [hrepair] at hw

/-- A pass between two chunks. -/
theorem of_scanning {live : List Addr} {rest : List ChunkMeta} {repaired : ℕ}
    (hheal : n.heal = .scanning live rest repaired) (hlive : live.Nodup)
    (hrest : ∀ m ∈ rest, m.locations ≠ [] → n.Knows m.chunkId m.locations)
    (hkey : (rest.map ChunkMeta.chunkId).Nodup) : HealTracks cfg n where
  live := by rwa [hheal]
  rest := by rwa [hheal]
  rest_key := by rwa [hheal]
  knows w hw := by simp [hheal, HealPhase.repair] at hw
  apart w hw := by simp [hheal, HealPhase.repair] at hw
  candidates w hw := by simp [hheal, HealPhase.repair] at hw
  fresh w hw := by simp [hheal, HealPhase.repair] at hw
  short hw := by simp [hheal, HealPhase.inCopy] at hw

/-- The chunks still to visit stay known: the healer writes for the current one only. -/
theorem rest_of_step (h : HealTracks cfg n) (hc : Consistent cfg n)
    (hs : n.step cfg a = some (n', out)) {m : ChunkMeta} (hm : m ∈ n.heal.rest)
    (hne : m.locations ≠ []) : n'.Knows m.chunkId m.locations :=
  (h.rest m hm hne).of_step hc hs fun _ w hw he => h.apart w hw (he ▸ List.mem_map_of_mem hm)

theorem of_other (h : HealTracks cfg n) (hc : Consistent cfg n)
    (hs : n.step cfg a = some (n', out)) (hheal : n'.heal = n.heal)
    (ha : a ≠ .heal .record ∧ a ≠ .heal .drop) : HealTracks cfg n' where
  live := by rw [hheal]; exact h.live
  rest m hm := h.rest_of_step hc hs (hheal ▸ hm)
  rest_key := by rw [hheal]; exact h.rest_key
  knows w hw := (h.knows w (hheal ▸ hw)).of_step hc hs fun hrd => (hrd.elim ha.1 ha.2).elim
  apart w hw := by rw [hheal]; exact h.apart w (hheal ▸ hw)
  candidates w hw := h.candidates w (hheal ▸ hw)
  fresh w hw := h.fresh w (hheal ▸ hw)
  short hcopy w hw := h.short (hheal ▸ hcopy) w (hheal ▸ hw)

theorem of_scan {o : RowOrder} {live : List Addr} (h : HealTracks cfg n)
    (hc' : Consistent cfg n') (ha' : AddrsIn CommaFree n') (hlive : n.heal.live = live) (hdb : n'.db = n.db)
    (h' : n'.heal = .scanning live (underReplicatedChunks (o.view n.db) live cfg.replication) 0) :
    HealTracks cfg n' := by
  refine of_scanning h' (hlive ▸ h.live) (fun m hm hne => ?_) (underReplicatedChunks_nodup _ _ _)
  rw [← hdb] at hm
  exact knows_of_listed hc' ha' hm hne

/-- Taking up the next listed chunk: its known addresses are split by liveness. -/
theorem of_start {live : List Addr} {m : ChunkMeta} {rest : List ChunkMeta} {repaired : ℕ}
    {w : Repair} (h : HealTracks cfg n) (hc : Consistent cfg n)
    (hs : n.step cfg a = some (n', out)) (hp : n.heal = .scanning live (m :: rest) repaired)
    (hw : startRepair cfg live m = some w) (h' : n'.heal = .repairing live rest repaired w) :
    HealTracks cfg n' := by
  obtain ⟨hid, hwl, hne, hws, hwc⟩ := startRepair_eq_some hw
  have hm : m ∈ n.heal.rest := by rw [hp]; exact List.mem_cons_self
  have hmne : m.locations ≠ [] := by
    intro he
    rw [he] at hwl
    exact hne (by simpa using hwl)
  have hlive := h.live
  have hkey := h.rest_key
  rw [hp] at hlive hkey
  simp only [HealPhase.rest, List.map_cons, List.nodup_cons] at hkey
  have hknown := h.rest_of_step hc hs hm hmne
  have hsplit : ∀ r ∈ n'.db.chunks, r.chunkId = w.chunkId → m.locations.Perm (w.live ++ w.stale) := by
    intro r hr he
    have hnd : m.locations.Nodup := by
      rw [← (hknown.recorded r hr (he.trans hid)).2.nodup_iff]
      exact n'.db.locations_nodup _
    rw [hwl, hws, Lists.eraseDups_of_nodup hnd]
    simpa using (List.filter_append_perm (fun x => decide (x ∈ live)) m.locations).symm
  refine ⟨by rwa [h'], ?_, by rw [h']; exact hkey.2, ?_, ?_, ?_, ?_, ?_⟩
  · intro m' hm'
    rw [h'] at hm'
    exact h.rest_of_step hc hs (by rw [hp]; exact List.mem_cons_of_mem _ hm')
  · intro w' hw'
    rw [h'] at hw'
    cases hw'
    refine ⟨hid ▸ hknown.born, fun r hr he => ?_⟩
    have := hknown.recorded r hr (he.trans hid)
    rw [hid]
    exact ⟨this.1, this.2.trans (hsplit r hr he)⟩
  · intro w' hw'
    rw [h'] at hw' ⊢
    cases hw'
    rw [hid]
    exact hkey.1
  · intro w' hw'
    rw [h'] at hw'
    cases hw'
    rw [hwc]
    exact hlive.filter _
  · intro w' hw' addr haddr hmem
    rw [h'] at hw'
    cases hw'
    rw [hwc, List.mem_filter, decide_eq_true_eq] at haddr
    rw [hwl, hws, List.mem_append, List.mem_filter, List.mem_filter] at hmem
    exact haddr.2 (hmem.elim And.left And.left)
  · intro hcopy
    rw [h'] at hcopy
    cases hcopy

/-- The repair of the same chunk goes on. -/
theorem of_current {w w' : Repair} (h : HealTracks cfg n) (hc : Consistent cfg n)
    (hs : n.step cfg a = some (n', out)) (hlive : n'.heal.live = n.heal.live)
    (hrest : n'.heal.rest = n.heal.rest) (hrepair : n.heal.repair = some w)
    (hrepair' : n'.heal.repair = some w') (hid : w'.chunkId = w.chunkId)
    (hknows : n'.Knows w'.chunkId (w'.live ++ w'.stale))
    (hsub : w'.candidates.Sublist w.candidates)
    (hfresh : ∀ addr ∈ w'.candidates, addr ∉ w'.live ++ w'.stale)
    (hshort : n'.heal.inCopy = true → w'.live.length < cfg.replication) : HealTracks cfg n' := by
  have hw : ∀ {P : Repair → Prop}, P w' → ∀ v, n'.heal.repair = some v → P v := by
    intro P hP v hv
    rw [hrepair'] at hv
    cases hv
    exact hP
  refine ⟨hlive ▸ h.live, fun m hm => h.rest_of_step hc hs (hrest ▸ hm), hrest ▸ h.rest_key,
    hw hknows, hw ?_, hw ((h.candidates w hrepair).sublist hsub), hw hfresh, fun hcopy => hw (hshort hcopy)⟩
  rw [hid, hrest]
  exact h.apart w hrepair

/-- Recording a copy always adds a row: a target was not among the recorded addresses. -/
theorem record_adds {live : List Addr} {rest : List ChunkMeta} {repaired : ℕ} {w : Repair}
    {target : Addr} {added : Bool} (h : HealTracks cfg n) (hc : Consistent cfg n)
    (hp : n.heal = .copied live rest repaired w target)
    (hadd : (n.store.addReplica w.chunkId target).1 = .ok added)
    (hstore : n'.store = (n.store.addReplica w.chunkId target).2) :
    n'.db.files = n.db.files ∧ n'.db.chunks = n.db.chunks ∧
      n'.db.replicas = n.db.replicas ++ [⟨w.chunkId, target⟩] := by
  obtain ⟨_, ⟨_, he, _⟩ | ⟨_, _, hin⟩ | ⟨_, _, hf, hch, hr⟩⟩ :=
    MetadataStore.addReplica_cases hc.clean w.chunkId target
  · rw [hadd] at he
    cases he
  · obtain ⟨r, hr, hid⟩ := n.db.exists_chunk hin
    have hrepair : n.heal.repair = some { w with candidates := target :: w.candidates } := by
      rw [hp]
      rfl
    have hmem := ((h.knows _ hrepair).recorded r hr hid).2.mem_iff.mp (n.db.mem_locations.mpr hin)
    exact absurd hmem (h.fresh _ hrepair target List.mem_cons_self)
  · exact ⟨by rw [NamingServer.db, hstore, hf], by rw [NamingServer.db, hstore, hch],
      by rw [NamingServer.db, hstore, hr]⟩

theorem of_record {live : List Addr} {rest : List ChunkMeta} {repaired : ℕ} {w : Repair}
    {target : Addr} {added : Bool} (h : HealTracks cfg n) (hc : Consistent cfg n)
    (hs : n.step cfg a = some (n', out)) (hp : n.heal = .copied live rest repaired w target)
    (hadd : (n.store.addReplica w.chunkId target).1 = .ok added)
    (hstore : n'.store = (n.store.addReplica w.chunkId target).2)
    (h' : n'.heal = match w.stale with
      | [] => .repairing live rest (repaired + 1) { w with live := w.live ++ [target] }
      | x :: stale => .dropping live rest (repaired + 1)
        { w with live := w.live ++ [target], stale := stale } x) : HealTracks cfg n' := by
  obtain ⟨hf, hch, hr⟩ := h.record_adds hc hp hadd hstore
  have hrepair : n.heal.repair = some { w with candidates := target :: w.candidates } := by
    rw [hp]
    rfl
  have hview : n'.heal.live = live ∧ n'.heal.rest = rest ∧
      n'.heal.repair = some { w with live := w.live ++ [target] } ∧ n'.heal.inCopy = false := by
    rw [h']
    split
    · exact ⟨rfl, rfl, rfl, rfl⟩
    · rename_i hstale
      exact ⟨rfl, rfl, by simp [HealPhase.repair, hstale], rfl⟩
  obtain ⟨hlive, hrest, hrepair', hcopy⟩ := hview
  obtain ⟨⟨f, hb⟩, hrec⟩ := h.knows _ hrepair
  have hnd := h.candidates _ hrepair
  have hfresh := h.fresh _ hrepair
  simp only [List.nodup_cons] at hnd
  refine h.of_current hc hs (by rw [hlive, hp]; rfl) (by rw [hrest, hp]; rfl) hrepair hrepair' rfl
    ⟨⟨f, hb.step hs⟩, ?_⟩ (List.sublist_cons_self _ _) ?_ (by simp [hcopy])
  · rintro r hmem hid
    rw [hch] at hmem
    obtain ⟨hcom, hperm⟩ := hrec r hmem hid
    rw [Db.locations_append hr]
    have hcom' := committed_of_step hc hs hmem (hch ▸ hmem)
    rw [hid] at hcom'
    refine ⟨hcom' hcom, ?_⟩
    simp only [List.append_assoc]
    refine (hperm.append_right _).trans ?_
    simp only [decide_true, List.filter_cons_of_pos, List.filter_nil, List.map_cons, List.map_nil,
      List.append_assoc]
    exact List.perm_append_comm.append_left _
  · intro addr haddr hmem
    simp only [List.append_assoc, List.mem_append, List.mem_singleton] at hmem
    have := hfresh addr (List.mem_cons_of_mem _ haddr)
    simp only [List.mem_append, not_or] at this
    rcases hmem with hmem | rfl | hmem
    · exact this.1 hmem
    · exact hnd.1 haddr
    · exact this.2 hmem

theorem of_drop {live : List Addr} {rest : List ChunkMeta} {repaired : ℕ} {w : Repair}
    {x : Addr} (h : HealTracks cfg n) (hc : Consistent cfg n)
    (hs : n.step cfg a = some (n', out)) (hp : n.heal = .dropping live rest repaired w x)
    (hdb : n'.db = n.db.deleteReplica w.chunkId x)
    (h' : n'.heal = .repairing live rest repaired w) : HealTracks cfg n' := by
  have hrepair : n.heal.repair = some { w with stale := x :: w.stale } := by
    rw [hp]
    rfl
  obtain ⟨⟨f, hb⟩, hrec⟩ := h.knows _ hrepair
  have hfresh := h.fresh _ hrepair
  have hrepair' : n'.heal.repair = some w := by
    rw [h']
    rfl
  refine h.of_current hc hs (by rw [h', hp]; rfl) (by rw [h', hp]; rfl) hrepair hrepair' rfl
    ⟨⟨f, hb.step hs⟩, ?_⟩ (List.Sublist.refl _) ?_ (by simp [h', HealPhase.inCopy])
  · intro r hmem hid
    have hmem' : r ∈ n.db.chunks := by
      rw [hdb] at hmem
      exact hmem
    obtain ⟨hcom, hperm⟩ := hrec r hmem' hid
    have hcom' := committed_of_step hc hs hmem' hmem
    rw [hid] at hcom'
    refine ⟨hcom' hcom, ?_⟩
    rw [hdb, Db.locations_deleteReplica]
    exact Lists.filter_ne_perm (n.db.locations_nodup _) hperm
  · intro addr haddr hmem
    apply hfresh addr haddr
    simp only [List.mem_append, List.mem_cons] at hmem ⊢
    tauto

theorem of_step (h : HealTracks cfg n) (hc : Consistent cfg n) (hc' : Consistent cfg n')
    (ha' : AddrsIn CommaFree n') (hs : n.step cfg a = some (n', out)) : HealTracks cfg n' := by
  by_cases ha : ∃ b, a = .heal b
  · obtain ⟨b, rfl⟩ := ha
    have hlive := h.live
    cases heal_of_step hs with
    | stop h' =>
      exact of_unlisted (by simp [HealPhase.live_of_stop h']) (HealPhase.rest_of_stop h')
        (HealPhase.repair_of_stop h')
    | pick count h' =>
      refine of_unlisted ?_ (by rw [h']; rfl) (by rw [h']; rfl)
      rw [h']
      exact n.registry.pick_nodup n.now count
    | known live hp h' =>
      rw [hp] at hlive
      exact of_unlisted (by rwa [h']) (by rw [h']; rfl) (by rw [h']; rfl)
    | scan o live hp hdb h' => exact h.of_scan hc' ha' (by rw [hp]; rfl) hdb h'
    | skip rest repaired hrest h' =>
      exact of_scanning h' hlive (fun m hm => h.rest_of_step hc hs (hrest.subset hm))
        (h.rest_key.sublist (hrest.sublist.map _))
    | start live m rest repaired w hp hw h' => exact h.of_start hc hs hp hw h'
    | copy live rest repaired w target candidates hb hp hw hlt h' =>
      have hrepair : n.heal.repair = some w := by rw [hp]; rfl
      have hrepair' : n'.heal.repair = some w := by simp [h', HealPhase.repair, ← hw]
      refine h.of_current hc hs (by rw [h', hp]; rfl) (by rw [h', hp]; rfl) hrepair hrepair' rfl ?_
        (List.Sublist.refl _) (h.fresh w hrepair) (fun _ => hlt)
      exact (h.knows w hrepair).of_step hc hs (by simp [hb])
    | answer live rest repaired w target ticket ok hb hp h' =>
      have hrepair : n.heal.repair = some { w with candidates := target :: w.candidates } := by
        rw [hp]
        rfl
      have hknows := (h.knows _ hrepair).of_step hc hs (by simp [hb])
      have hfresh := h.fresh _ hrepair
      rcases h' with h' | h'
      · refine h.of_current hc hs (by rw [h', hp]; rfl) (by rw [h', hp]; rfl) hrepair
          (by rw [h']; rfl) rfl hknows (List.Sublist.refl _) hfresh fun _ => ?_
        exact h.short (by rw [hp]; rfl) _ hrepair
      · have hrepair' : n'.heal.repair = some w := by
          rw [h']
          rfl
        exact h.of_current hc hs (by rw [h', hp]; rfl) (by rw [h', hp]; rfl) hrepair hrepair' rfl
          hknows (List.sublist_cons_self _ _)
          (fun addr ha => hfresh addr (List.mem_cons_of_mem _ ha)) (by simp [h', HealPhase.inCopy])
    | record live rest repaired w target added hp hadd hstore h' =>
      exact h.of_record hc hs hp hadd hstore h'
    | drop live rest repaired w x hp hdb h' =>
      have hw : n.store.writer = n.db := hc.clean
      rw [MetadataStore.removeReplica, hw] at hdb
      exact h.of_drop hc hs hp hdb h'
  · rcases step_frame hs with rfl | ⟨_, _, hb | ⟨he, _⟩, _⟩
    · cases hs
      exact of_unlisted List.nodup_nil rfl rfl
    · exact absurd hb ha
    · exact h.of_other hc hs he ⟨fun hb => ha ⟨_, hb⟩, fun hb => ha ⟨_, hb⟩⟩

end HealTracks

end NamingServer

end GfsCluster
