import GfsCluster.Metadata.OneFile
import GfsCluster.Naming.Pass

/-! Where chunks are placed. The naming server is kept together with the picks that CreateFile
requests have made; while the same servers stay live and the healer takes no turn, these are
round-robin turns, so the picks of a request that places chunks alone are balanced. -/

namespace GfsCluster

open RoundRobin StepSystem

namespace NamingServer

variable {cfg : Settings} {n n₀ n' : NamingServer} {a : NamingAction} {k : ℕ}
  {out : List StorageRpc} {s s' : NamingServer × List (ℕ × List Addr)}

/-- What a step picks for a chunk, with the request that asks. -/
def picked (cfg : Settings) (n : NamingServer) : NamingAction → List (ℕ × List Addr)
  | .create k (.place _) => [(k, (n.registry.pick n.now cfg.replication).1)]
  | _ => []

/-- A step of a naming server that is kept together with the picks made for chunks. -/
def pickStep (cfg : Settings) (s : NamingServer × List (ℕ × List Addr)) (a : NamingAction) :
    Option (NamingServer × List (ℕ × List Addr)) :=
  (s.1.step cfg a).map fun r => (r.1, s.2 ++ picked cfg s.1 a)

/-- The same servers stay live, and the healer takes no turn. -/
def Steady (cfg : Settings) (s : NamingServer × List (ℕ × List Addr)) : NamingAction → Prop
  | .heal .pick => False
  | a => ∀ r ∈ s.1.step cfg a, r.1.live.Perm s.1.live

/-- No other request than `k` places chunks. -/
def PlacesAlone (cfg : Settings) (k : ℕ) (s : NamingServer × List (ℕ × List Addr))
    (a : NamingAction) : Prop :=
  Steady cfg s a ∧ ∀ e ∈ picked cfg s.1 a, e.1 = k

instance (s : NamingServer × List (ℕ × List Addr)) (a : NamingAction) :
    Decidable (Steady cfg s a) := by
  unfold Steady
  split <;> infer_instance

instance (s : NamingServer × List (ℕ × List Addr)) (a : NamingAction) :
    Decidable (PlacesAlone cfg k s a) := by
  unfold PlacesAlone
  infer_instance

/-! ### What a step does to the cursor -/

theorem createStep_registry {b : CreateStep} (h : n.createStep cfg k b = some n')
    (hb : ∀ id, b ≠ .place id) : n'.registry = n.registry := by
  cases case_of_createStep h with
  | fallShort id _ _ _ _ | place id _ _ _ _ _ => exact absurd rfl (hb id)
  | _ => rfl

/-- A request that places a chunk makes one pick, and either keeps the servers picked or gives up. -/
theorem createStep_place {id : ChunkId} (h : n.createStep cfg k (.place id) = some n') :
    n'.registry = (n.registry.pick n.now cfg.replication).2 ∧ ∃ chunks,
      (n.creates k).phase = .placing chunks ∧ ((n'.creates k).phase.plan = none ∨
        (n'.creates k).phase.plan =
          some (chunks ++ [⟨id, chunks.length, (n.registry.pick n.now cfg.replication).1⟩])) := by
  cases case_of_createStep h with
  | fallShort id chunks hphase _ _ =>
    exact ⟨rfl, chunks, hphase, .inl (by simp [setCreate, CreatePhase.plan])⟩
  | place id chunks hphase _ _ _ =>
    exact ⟨rfl, chunks, hphase, .inr (by simp [setCreate, CreatePhase.plan])⟩

theorem healStep_registry {b : HealStep} (h : n.healStep cfg b = some (n', out)) (hb : b ≠ .pick) :
    n'.registry = n.registry := by
  cases case_of_healStep h with
  | tooFew | pick => exact absurd rfl hb
  | _ => rfl

/-- The cursor goes on by one with every pick for a chunk. -/
theorem cursor_of_step (hs : n.step cfg a = some (n', out)) (hlive : n.live ≠ [])
    (hpick : a ≠ .heal .pick) (hcrash : a ≠ .crash) :
    n'.registry.rr = n.registry.rr + (picked cfg n a).length := by
  cases a with
  | create k b =>
    obtain ⟨hm, _⟩ := createStep_of_step hs
    cases b with
    | place id =>
      rw [(createStep_place hm).1, n.registry.pick_rr n.now _ hlive]
      rfl
    | _ =>
      all_goals
        rw [createStep_registry hm (by simp)]
        rfl
  | delete k b =>
    obtain ⟨_, _, _, hr, _⟩ := deleteStep_moves hs
    rw [hr]
    rfl
  | get k b =>
    obtain ⟨hm, _⟩ := getStep_of_step hs
    obtain ⟨_, _, _, _, hr, _⟩ := getStep_frame hm
    rw [hr]
    rfl
  | cleanup b =>
    obtain ⟨_, _, _, hr, _⟩ := cleanupStep_moves hs
    rw [hr]
    rfl
  | heal b =>
    rw [healStep_registry hs fun he => hpick (he ▸ rfl)]
    rfl
  | crash => exact absurd rfl hcrash
  | _ =>
    cases case_of_step hs
    rfl

/-! ### Runs -/

theorem pickStep_eq_some : pickStep cfg s a = some s' ↔
    ∃ out, s.1.step cfg a = some (s'.1, out) ∧ s'.2 = s.2 ++ picked cfg s.1 a := by
  obtain ⟨n', picks'⟩ := s'
  simp only [pickStep, Option.map_eq_some_iff, Prod.mk.injEq]
  constructor
  · rintro ⟨⟨m, out⟩, hs, rfl, rfl⟩
    exact ⟨out, hs, rfl⟩
  · rintro ⟨out, hs, rfl⟩
    exact ⟨(n', out), hs, rfl, rfl⟩

theorem Steady.live_perm (h : Steady cfg s a)
    (hs : s.1.step cfg a = some (n', out)) : a ≠ .heal .pick ∧ n'.live.Perm s.1.live := by
  unfold Steady at h
  split at h
  · exact h.elim
  · rename_i hpick
    exact ⟨hpick, h _ hs⟩

/-- The picks made since `n₀` are the turns from its cursor on. -/
structure Turning (cfg : Settings) (n₀ : NamingServer) (s : NamingServer × List (ℕ × List Addr)) :
    Prop where
  live : s.1.live.Perm n₀.live
  cursor : s.1.registry.rr = n₀.registry.rr + s.2.length
  picks : s.2.map Prod.snd =
    turns (n₀.registry.ring n₀.now) cfg.replication n₀.registry.rr s.2.length

/-- A step picks for no chunk, or for one, and then it is a turn. -/
theorem picked_cases (cfg : Settings) (n : NamingServer) (a : NamingAction) :
    picked cfg n a = [] ∨ ∃ k id, a = .create k (.place id) ∧ picked cfg n a =
      [(k, turn (n.registry.ring n.now) cfg.replication n.registry.rr)] := by
  unfold picked
  split
  · rename_i k id
    exact .inr ⟨k, id, rfl, by rw [StorageRegistry.pick_eq_turn]⟩
  · exact .inl rfl

namespace Turning

theorem refl (cfg : Settings) (n : NamingServer) : Turning cfg n (n, []) where
  live := .refl _
  cursor := rfl
  picks := rfl

theorem of_step (h : Turning cfg n₀ s) (hlive : n₀.live ≠ []) (hok : Steady cfg s a)
    (hs : pickStep cfg s a = some s') : Turning cfg n₀ s' := by
  obtain ⟨out, hstep, hpicks⟩ := pickStep_eq_some.mp hs
  obtain ⟨hpick, hperm⟩ := hok.live_perm hstep
  have hlive' : s.1.live ≠ [] := by
    intro he
    have hsame := h.live
    rw [he] at hsame
    exact hlive hsame.nil_eq.symm
  -- a restart forgets the servers
  have hcrash : a ≠ .crash := by
    rintro rfl
    have hgone : s.1.crash.live = [] := rfl
    obtain ⟨hs', _⟩ := Prod.mk.inj (Option.some.inj hstep)
    rw [← hs', hgone] at hperm
    exact hlive' hperm.nil_eq.symm
  refine ⟨hperm.trans h.live, ?_, ?_⟩
  · rw [cursor_of_step hstep hlive' hpick hcrash, h.cursor, hpicks, List.length_append, add_assoc]
  · rw [hpicks]
    rcases picked_cases cfg s.1 a with hnone | ⟨k, id, _, hone⟩
    · rw [hnone, List.append_nil]
      exact h.picks
    · rw [hone, List.map_append, h.picks, List.length_append, List.length_singleton, turns_succ,
        StorageRegistry.ring_eq h.live, h.cursor]
      rfl

theorem of_run (hrun : Steps (pickStep cfg) (Steady cfg) (n₀, []) s) (hlive : n₀.live ≠ []) :
    Turning cfg n₀ s :=
  hrun.invariant (refl cfg n₀) fun _ _ _ _ h hok hs => h.of_step hlive hok hs

theorem balanced (h : Turning cfg n₀ s) (hlive : cfg.replication ≤ n₀.live.length) :
    Balanced cfg.replication n₀.live (s.2.map Prod.snd) := by
  have hring := n₀.registry.ring_perm n₀.now
  rw [h.picks]
  apply (turns_balanced _ _ _ _).of_perm hring
  · exact n₀.registry.ring_nodup n₀.now
  · exact hlive.trans_eq hring.length_eq.symm

end Turning

/-! ### What a request is handed out -/

/-- The picks made for request `k`. -/
def picksOf (k : ℕ) (picks : List (ℕ × List Addr)) : List (List Addr) :=
  (picks.filter (·.1 = k)).map Prod.snd

theorem picksOf_append (k : ℕ) (picks picks' : List (ℕ × List Addr)) :
    picksOf k (picks ++ picks') = picksOf k picks ++ picksOf k picks' := by
  rw [picksOf, List.filter_append, List.map_append]
  rfl

theorem picksOf_alone {picks : List (ℕ × List Addr)} (h : ∀ e ∈ picks, e.1 = k) :
    picksOf k picks = picks.map Prod.snd := by
  rw [picksOf, List.filter_eq_self.mpr fun e he => decide_eq_true (h e he)]

theorem crash_plan {h : CreateHandler} {chunks : List ChunkMeta}
    (hplan : h.crash.phase.plan = some chunks) : h.phase.plan = some chunks := by
  unfold CreateHandler.crash at hplan
  split at hplan
  · exact hplan
  · exact hplan
  · cases hplan

theorem picksOf_picked (ha : ∀ id, a ≠ .create k (.place id)) : picksOf k (picked cfg n a) = [] := by
  unfold picked
  split
  · rename_i j id
    have hj : j ≠ k := by
      rintro rfl
      exact ha id rfl
    simp [picksOf, hj]
  · rfl

/-- What a request has is not changed by a step that does not place a chunk for it. -/
theorem plan_of_other {chunks : List ChunkMeta} (hs : n.step cfg a = some (n', out))
    (ha : ∀ id, a ≠ .create k (.place id)) (hplan : (n'.creates k).phase.plan = some chunks) :
    (n.creates k).phase.plan = some chunks := by
  rcases step_moves hs with ⟨j, b, rfl, hm⟩ | ⟨_, rfl⟩ | ⟨_, hcreates, _⟩
  · by_cases hj : k = j
    · subst hj
      cases createStep_moves hm with
      | turn req p _ _ _ hcreates _ hp =>
        rw [hcreates, Function.update_self] at hplan
        rcases hp with hp | hp
        · exact hp ▸ hplan
        · rw [hp] at hplan
          cases hplan
      | place _ id _ hb => exact absurd (hb ▸ rfl) (ha id)
      | reserve chunks' now _ hphase _ _ _ _ _ hcreates =>
        rw [hcreates, Function.update_self] at hplan
        rw [CreatePhase.plan, if_pos rfl, ChunkMeta.map_toMeta_placement] at hplan
        rw [hphase]
        exact hplan
      | raise _ _ _ _ _ _ _ hcreates =>
        rw [hcreates, Function.update_self] at hplan
        cases hplan
    · exact createStep_other hm hj ▸ hplan
  · exact crash_plan hplan
  · exact hcreates ▸ hplan

/-- A request keeps the servers that are picked for its chunks, in the order of the picks. -/
theorem plan_of_step {chunks : List ChunkMeta} (hs : n.step cfg a = some (n', out))
    (hplan : (n'.creates k).phase.plan = some chunks) : ∃ before,
      (n.creates k).phase.plan = some before ∧ chunks.map ChunkMeta.locations =
        before.map ChunkMeta.locations ++ picksOf k (picked cfg n a) := by
  by_cases hplace : ∃ id, a = .create k (.place id)
  · obtain ⟨id, rfl⟩ := hplace
    obtain ⟨hm, _⟩ := createStep_of_step hs
    obtain ⟨_, before, hphase, hnone | hplaced⟩ := createStep_place hm
    · rw [hplan] at hnone
      cases hnone
    · rw [hplan, Option.some.injEq] at hplaced
      refine ⟨before, by rw [hphase]; rfl, ?_⟩
      rw [hplaced, List.map_append]
      simp [picksOf, picked]
  · have hother : ∀ id, a ≠ .create k (.place id) := fun id ha => hplace ⟨id, ha⟩
    refine ⟨chunks, plan_of_other hs hother hplan, ?_⟩
    rw [picksOf_picked hother, List.append_nil]

/-- In any run, what a request has been handed out is what was picked for it. -/
theorem plan_of_run {ok : NamingServer × List (ℕ × List Addr) → NamingAction → Prop}
    (hstart : (n₀.creates k).phase.plan = some [])
    (hrun : Steps (pickStep cfg) ok (n₀, []) s) {chunks : List ChunkMeta}
    (hplan : (s.1.creates k).phase.plan = some chunks) :
    chunks.map ChunkMeta.locations = picksOf k s.2 := by
  refine hrun.invariant (P := fun s => ∀ chunks, (s.1.creates k).phase.plan = some chunks →
    chunks.map ChunkMeta.locations = picksOf k s.2) ?_ ?_ chunks hplan
  · intro chunks hchunks
    rw [hstart, Option.some.injEq] at hchunks
    rw [← hchunks]
    rfl
  · intro t a u _ ht _ hs chunks hchunks
    obtain ⟨out, hstep, hpicks⟩ := pickStep_eq_some.mp hs
    obtain ⟨before, hbefore, heq⟩ := plan_of_step hstep hchunks
    rw [heq, ht before hbefore, hpicks, picksOf_append]

/-! ### One request -/

theorem PlacesAlone.of_run (hrun : Steps (pickStep cfg) (PlacesAlone cfg k) (n₀, []) s) :
    ∀ e ∈ s.2, e.1 = k := by
  refine hrun.invariant (P := fun s => ∀ e ∈ s.2, e.1 = k) (by simp) ?_
  intro t a u _ ht hok hs e he
  obtain ⟨_, _, hpicks⟩ := pickStep_eq_some.mp hs
  rw [hpicks, List.mem_append] at he
  rcases he with he | he
  · exact ht e he
  · exact hok.2 e he

/-- The request is handed out all the picks. -/
theorem PlacesAlone.plan {chunks : List ChunkMeta} (hstart : (n₀.creates k).phase.plan = some [])
    (hrun : Steps (pickStep cfg) (PlacesAlone cfg k) (n₀, []) s)
    (hplan : (s.1.creates k).phase.plan = some chunks) :
    chunks.map ChunkMeta.locations = s.2.map Prod.snd := by
  rw [plan_of_run hstart hrun hplan, picksOf_alone (PlacesAlone.of_run hrun)]

/-- Requests that place chunks side by side share the turns. -/
theorem picks_balanced (hpos : 1 ≤ cfg.replication) (hlive : cfg.replication ≤ n₀.live.length)
    (hrun : Steps (pickStep cfg) (Steady cfg) (n₀, []) s) :
    Balanced cfg.replication n₀.live (s.2.map Prod.snd) := by
  have hsome : n₀.live ≠ [] := List.length_pos_iff.mp (by omega)
  exact (Turning.of_run hrun hsome).balanced hlive

/-- The picks of a request that places its chunks alone are balanced, and they are what the
request is handed out. -/
theorem placement_balanced (hpos : 1 ≤ cfg.replication) (hlive : cfg.replication ≤ n₀.live.length)
    (hstart : (n₀.creates k).phase.plan = some [])
    (hrun : Steps (pickStep cfg) (PlacesAlone cfg k) (n₀, []) s) :
    Balanced cfg.replication n₀.live (s.2.map Prod.snd) ∧
      ∀ chunks, (s.1.creates k).phase.plan = some chunks →
        chunks.map ChunkMeta.locations = s.2.map Prod.snd := by
  constructor
  · exact picks_balanced hpos hlive (hrun.mono fun _ _ h => h.1)
  · intro chunks hplan
    exact PlacesAlone.plan hstart hrun hplan

/-- Four chunks are asked for, with two copies each on three servers. -/
def threeServers : List NamingAction :=
  [.registerStorage ['u'], .registerStorage ['s'], .registerStorage ['t'],
    .create 0 (.receive ⟨['f'], 4096, 4⟩)]

theorem placement_balanced_threeServers : ∃ (n₀ : NamingServer)
    (s : NamingServer × List (ℕ × List Addr)), n₀.live = [['t'], ['s'], ['u']] ∧
      s.2.map Prod.snd = [[['s'], ['t']], [['t'], ['u']], [['u'], ['s']], [['s'], ['t']]] ∧
      Balanced 2 n₀.live (s.2.map Prod.snd) := by
  have hrun : ((run (guarded (NamingServer.next ⟨2, 60⟩) anyStep) NamingServer.init threeServers).bind
      fun n₀ => (run (guarded (pickStep ⟨2, 60⟩) (PlacesAlone ⟨2, 60⟩ 0)) (n₀, [])
        [.create 0 .checkLive, .create 0 (.selectFile .table), .create 0 (.place ['c']),
          .create 0 (.place ['d']), .heartbeat ['t'], .tick 1, .create 0 (.place ['e']),
          .create 0 (.place ['g'])]).map fun s => (n₀, s)).any
      (fun r => r.1.live == [['t'], ['s'], ['u']] && (r.1.creates 0).phase.plan == some [] &&
        r.2.2.map Prod.snd == [[['s'], ['t']], [['t'], ['u']], [['u'], ['s']], [['s'], ['t']]]) =
      true := by
    decide +kernel
  simp only [Option.any_eq_true, Option.bind_eq_some_iff, Option.map_eq_some_iff,
    Bool.and_eq_true, beq_iff_eq] at hrun
  obtain ⟨_, ⟨n₀, _, s, hs, rfl⟩, ⟨hlive, hstart⟩, hpicks⟩ := hrun
  refine ⟨n₀, s, hlive, hpicks, ?_⟩
  have hsteps := steps_of_guarded_run hs
  exact (placement_balanced (by decide) (by rw [hlive]; decide) hstart hsteps).1

/-- A pass of the healer between two picks takes the turn of the other server. -/
theorem not_balanced_of_healer : ∃ (n₀ : NamingServer) (s : NamingServer × List (ℕ × List Addr)),
    Steps (pickStep ⟨1, 60⟩) anyStep (n₀, []) s ∧ 1 ≤ n₀.live.length ∧
      ¬ Balanced 1 n₀.live (s.2.map Prod.snd) := by
  have hrun : ((run (guarded (NamingServer.next ⟨1, 60⟩) anyStep) NamingServer.init
      [.registerStorage ['s'], .registerStorage ['t'], .create 0 (.receive ⟨['f'], 2048, 2⟩),
        .create 0 .checkLive, .create 0 (.selectFile .table)]).bind
      fun n₀ => (run (guarded (pickStep ⟨1, 60⟩) anyStep) (n₀, [])
        [.create 0 (.place ['c']), .heal .count, .heal .pick, .create 0 (.place ['d'])]).map
          fun s => (n₀, s)).any
      (fun r => r.1.live == [['t'], ['s']] && r.2.2.map Prod.snd == [[['s']], [['s']]]) = true := by
    decide +kernel
  simp only [Option.any_eq_true, Option.bind_eq_some_iff, Option.map_eq_some_iff,
    Bool.and_eq_true, beq_iff_eq] at hrun
  obtain ⟨_, ⟨n₀, _, s, hs, rfl⟩, hlive, hpicks⟩ := hrun
  refine ⟨n₀, s, steps_of_guarded_run hs, by rw [hlive]; decide, ?_⟩
  rw [hlive, hpicks]
  intro h
  have hone := h.cycles (by decide) ['s'] (by decide)
  simp [load] at hone

/-! ### Every chunk is placed -/

theorem live_of_create {b : CreateStep} (h : n.createStep cfg k b = some n') : n'.live = n.live := by
  obtain ⟨hnow, _, _, _, _, _, hseen⟩ := createStep_frame h
  rw [live, live, StorageRegistry.liveServers, StorageRegistry.liveServers, hnow, hseen]

/-- With enough live servers the next chunk is placed under any id that is not in use. -/
theorem place_goes_through {chunks : List ChunkMeta} {id : ChunkId}
    (hphase : (n.creates k).phase = .placing chunks)
    (hlt : chunks.length < (n.creates k).req.numChunks.toNat)
    (hlive : cfg.replication ≤ n.live.length) (hfresh : id ∉ n.issued.map Issue.chunkId) :
    ∃ n', n.createStep cfg k (.place id) = some n' ∧ (n'.creates k).req = (n.creates k).req ∧
      (n'.creates k).phase = .placing (chunks ++
        [⟨id, chunks.length, (n.registry.pick n.now cfg.replication).1⟩]) := by
  have hlen := n.registry.length_pick n.now cfg.replication
  have henough : ¬ (n.registry.pick n.now cfg.replication).1.length < cfg.replication := by
    rw [live] at hlive
    omega
  simp only [createStep, hphase, if_pos hlt, if_neg henough, if_neg hfresh, Option.some.injEq,
    exists_eq_left']
  exact ⟨by simp [setCreate], by simp [setCreate]⟩

/-- However many chunks are asked for, the picks for them can be made one after the other. -/
theorem exists_placement (hlive : cfg.replication ≤ n₀.live.length)
    (hphase : (n₀.creates k).phase = .placing []) {m : ℕ}
    (hm : m ≤ (n₀.creates k).req.numChunks.toNat) :
    ∃ s, Steps (pickStep cfg) (PlacesAlone cfg k) (n₀, []) s ∧ s.2.length = m ∧
      s.1.live = n₀.live ∧ (s.1.creates k).req = (n₀.creates k).req ∧
      ∃ chunks, (s.1.creates k).phase = .placing chunks ∧ chunks.length = m := by
  induction m with
  | zero => exact ⟨(n₀, []), .refl, rfl, rfl, rfl, [], hphase, rfl⟩
  | succ m ih =>
    obtain ⟨s, hrun, hpicks, hsame, hreq, chunks, hplacing, hlen⟩ := ih (by omega)
    obtain ⟨id, hfresh⟩ := Infinite.exists_notMem_finset (s.1.issued.map Issue.chunkId).toFinset
    rw [List.mem_toFinset] at hfresh
    have henough : cfg.replication ≤ s.1.live.length := by
      rw [hsame]
      exact hlive
    obtain ⟨n', hplace, hreq', hphase'⟩ :=
      place_goes_through hplacing (by rw [hreq]; omega) henough hfresh
    have hstep : s.1.step cfg (.create k (.place id)) = some (n', []) := by
      rw [step, hplace]
      rfl
    have hlive' := live_of_create hplace
    have hpick : pickStep cfg s (.create k (.place id)) =
        some (n', s.2 ++ [(k, (s.1.registry.pick s.1.now cfg.replication).1)]) :=
      pickStep_eq_some.mpr ⟨[], hstep, rfl⟩
    have hok : PlacesAlone cfg k s (.create k (.place id)) := by
      refine ⟨fun r hr => ?_, by simp [picked]⟩
      rw [hstep, Option.mem_some_iff] at hr
      rw [← hr, hlive']
    refine ⟨_, .tail hrun hok hpick, ?_, hlive'.trans hsame, hreq'.trans hreq, _, hphase', ?_⟩
    · rw [List.length_append, hpicks]
      rfl
    · rw [List.length_append, hlen]
      rfl

/-! ### The rows of the file -/

theorem rows_at (chunks : List ChunkMeta) (addr : Addr) :
    ((chunks.flatMap ChunkMeta.replicaRows).filter (·.address = addr)).length =
      load (chunks.map ChunkMeta.locations) addr := by
  induction chunks with
  | nil => rfl
  | cons m chunks ih =>
    rw [List.flatMap_cons, List.filter_append, List.length_append, ih, List.map_cons, load_cons,
      ChunkMeta.replicaRows, List.filter_map, List.length_map]
    rfl

/-- A reservation records each server as often as it was picked. -/
theorem rows_of_reserve {chunks : List ChunkMeta} {now : Seconds} (hc : Consistent cfg n)
    (hphase : (n.creates k).phase = .placing chunks)
    (hs : n.createStep cfg k (.reserve now) = some n') (addr : Addr) :
    ((n'.db.rowsOf (n.creates k).req.filename).replicas.filter (·.address = addr)).length =
      load (chunks.map ChunkMeta.locations) addr := by
  obtain ⟨db, hdb, _, hchunks, hreplicas⟩ := hc.createPending_tables hphase
    (n.creates k).req.filename (n.creates k).req.size (n.creates k).req.numChunks now
  have hstore : n'.db = db := by
    simp only [createStep, hphase, hdb] at hs
    split_ifs at hs
    cases hs
    rfl
  have hrows : (db.rowsOf (n.creates k).req.filename).replicas =
      chunks.flatMap ChunkMeta.replicaRows := by
    apply Db.replicas_of_append hchunks hreplicas
    · intro c hmem
      exact (Db.mem_deleteFile_chunks.mp hmem).2
    · intro c hmem
      obtain ⟨m, _, rfl⟩ := List.mem_map.mp hmem
      rfl
    · intro r hr
      obtain ⟨m, hm, hrow⟩ := List.mem_flatMap.mp hr
      rw [(ChunkMeta.mem_replicaRows.mp hrow).1]
      exact List.mem_map_of_mem (List.mem_map_of_mem (f := (·.row (n.creates k).req.filename)) hm)
  rw [hstore, hrows, rows_at]

/-- The rows of a file whose request placed its chunks alone are spread over the servers as the picks
were, and these are balanced. -/
theorem stored_balanced {chunks : List ChunkMeta}
    {now : Seconds} (hc : Consistent cfg s.1) (hpos : 1 ≤ cfg.replication)
    (hlive : cfg.replication ≤ n₀.live.length) (hstart : (n₀.creates k).phase.plan = some [])
    (hrun : Steps (pickStep cfg) (PlacesAlone cfg k) (n₀, []) s)
    (hphase : (s.1.creates k).phase = .placing chunks)
    (hs : s.1.createStep cfg k (.reserve now) = some n') :
    Balanced cfg.replication n₀.live (s.2.map Prod.snd) ∧
      s.2.length = (s.1.creates k).req.numChunks.toNat ∧ ∀ addr,
        ((n'.db.rowsOf (s.1.creates k).req.filename).replicas.filter (·.address = addr)).length =
          load (s.2.map Prod.snd) addr := by
  have hall : (s.1.creates k).req.numChunks.toNat ≤ chunks.length := by
    simp only [createStep, hphase] at hs
    split_ifs at hs with hlt
    omega
  have hplan := PlacesAlone.plan hstart hrun (by rw [hphase]; rfl)
  refine ⟨picks_balanced hpos hlive (hrun.mono fun _ _ h => h.1), ?_, ?_⟩
  · rw [← List.length_map Prod.snd, ← hplan, List.length_map]
    exact le_antisymm (hc.placing k chunks hphase) hall
  · intro addr
    rw [← hplan]
    exact rows_of_reserve hc hphase hs addr

/-- Four chunks with two copies each on three servers: the rows of the file are as even as that goes. -/
theorem stored_balanced_threeServers : ∃ (n : NamingServer)
    (s : NamingServer × List (ℕ × List Addr)),
    s.2.map Prod.snd = [[['s'], ['t']], [['t'], ['u']], [['u'], ['s']], [['s'], ['t']]] ∧
    Balanced 2 [['t'], ['s'], ['u']] (s.2.map Prod.snd) ∧ ∀ addr,
      ((n.db.rowsOf ['f']).replicas.filter (·.address = addr)).length = load (s.2.map Prod.snd) addr := by
  have hrun : ((run (guarded (NamingServer.next ⟨2, 60⟩) anyStep) NamingServer.init threeServers).bind
      fun n₀ => (run (guarded (pickStep ⟨2, 60⟩) (PlacesAlone ⟨2, 60⟩ 0)) (n₀, [])
        [.create 0 .checkLive, .create 0 (.selectFile .table), .create 0 (.place ['c']),
          .create 0 (.place ['d']), .heartbeat ['t'], .tick 1, .create 0 (.place ['e']),
          .create 0 (.place ['g'])]).bind fun s =>
        (s.1.createStep ⟨2, 60⟩ 0 (.reserve 1)).map fun n' => (n₀, s, n')).any
      (fun r => r.1.live == [['t'], ['s'], ['u']] && (r.1.creates 0).phase.plan == some [] &&
        (r.2.1.1.creates 0).req.filename == ['f'] &&
          r.2.1.2.map Prod.snd == [[['s'], ['t']], [['t'], ['u']], [['u'], ['s']], [['s'], ['t']]]) =
      true := by
    decide +kernel
  simp only [Option.any_eq_true, Option.bind_eq_some_iff, Option.map_eq_some_iff,
    Bool.and_eq_true, beq_iff_eq] at hrun
  obtain ⟨_, ⟨n₀, h₀, s, hs, n', hreserve, rfl⟩, ⟨⟨hlive, hstart⟩, hname⟩, hpicks⟩ := hrun
  have hsteps := steps_of_guarded_run hs
  have hreach : Reachable ⟨2, 60⟩ anyStep s.1 := by
    refine (steps_of_guarded_run h₀).trans (hsteps.project Prod.fst fun u a v _ hstep => ?_)
    obtain ⟨out, hout, _⟩ := pickStep_eq_some.mp hstep
    exact .single (a := a) trivial (by rw [next, hout]; rfl)
  have hphase : ∃ chunks, (s.1.creates 0).phase = .placing chunks := by
    cases hp : (s.1.creates 0).phase with
    | placing chunks => exact ⟨chunks, rfl⟩
    | _ => simp [createStep, hp] at hreserve
  obtain ⟨chunks, hphase⟩ := hphase
  obtain ⟨hbalanced, _, hload⟩ := stored_balanced hreach.consistent (by decide)
    (by rw [hlive]; decide) hstart hsteps hphase hreserve
  rw [hname] at hload
  rw [hlive] at hbalanced
  exact ⟨n', s, hpicks, hbalanced, hload⟩

end NamingServer

end GfsCluster
