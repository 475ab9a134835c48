import GfsCluster.Naming.Ledger

/-! Rejected CreateFile requests. A request that is rejected by the first liveness check
leaves no trace. One that finds too few live servers later on, when it places a chunk, has
started the deletion thread for the old version already, although that version stays. -/

namespace GfsCluster

open StepSystem

namespace Ledger

variable {cfg : Settings} {k : ℕ} {L₀ L L' : Ledger} {a : NamingAction} {p : Addr × ChunkId}

/-! ### One request among heartbeats -/

/-- A request that has not come in yet, on any metadata; none of the deletion threads that
still run is its own. -/
structure Fresh (k : ℕ) (L : Ledger) : Prop where
  idle : (L.naming.creates k).phase = .idle
  quiet : ∀ p, ¬L.Ordered (.create k) p

/-- Steps of the request, of the registry, of time and of deletion threads. -/
def Concerns (k : ℕ) : NamingAction → Prop
  | .registerStorage _ | .heartbeat _ | .tick _ | .purge _ => True
  | .create j _ => j = k
  | _ => False

/-- If the request was rejected, the tables are what they were, and no DeleteChunk of a
chunk of the file was issued or waits to be issued. -/
def RejectedClean (k : ℕ) (L₀ L : Ledger) : Prop :=
  ∀ resp, (L.naming.creates k).phase = .replied resp → resp.ok = false →
    L.naming.db = L₀.naming.db ∧ ∀ row ∈ L₀.naming.db.chunks,
      row.filename = (L.naming.creates k).req.filename →
        ∀ addr, ¬L.Ordered (.create k) (addr, row.chunkId)

/-- No replica of a chunk of the file is recorded. -/
def Unrecorded (db : Db) (f : Filename) : Prop := ∀ p, ¬db.Records f p

/-- When a chunk is placed enough servers are live, or the file has no recorded replica. -/
def SparesOld (cfg : Settings) (L : Ledger) : NamingAction → Prop
  | .create k (.place _) => cfg.replication ≤ (L.naming.registry.liveServers L.naming.now).length ∨
      Unrecorded L.naming.db (L.naming.creates k).req.filename
  | _ => True

/-- The request still works, or was rejected. -/
def unwritten : CreatePhase → Bool
  | .replied resp => !resp.ok
  | .failed => false
  | _ => true

theorem unwritten_of_early {ph : CreatePhase} (h : ph.early = true) : unwritten ph = true := by
  cases ph <;> first | rfl | cases h

/-- The course of the request: it writes only when it is accepted, and the deletion thread
starts when the old version is read, with what is recorded for it. -/
structure Course (k : ℕ) (L₀ L : Ledger) : Prop where
  store : unwritten (L.naming.creates k).phase = true → L.naming.store = L₀.naming.store
  early : (L.naming.creates k).phase.early = true → ∀ p, ¬L.Ordered (.create k) p
  placing : ∀ chunks, (L.naming.creates k).phase = .placing chunks → ∀ p,
    L.Ordered (.create k) p ↔ L₀.naming.db.Records (L.naming.creates k).req.filename p

theorem Fresh.course (h : Fresh k L) : Course k L L where
  store _ := rfl
  early _ := h.quiet
  placing chunks hp := by
    rw [h.idle] at hp
    cases hp

/-- The steps of others leave the request, the tables and what it has put on order alone. -/
theorem frame_of_step (ha : Concerns k a) (hs : L.step cfg a = some L') :
    (∃ b, a = .create k b) ∨ L'.naming.creates = L.naming.creates ∧
      L'.naming.store = L.naming.store ∧ ∀ d p, L'.Ordered d p ↔ L.Ordered d p := by
  obtain ⟨_, hn, _⟩ := step_eq_some.mp hs
  have hord : ∀ d p, L'.Ordered d p ↔ L.Ordered d p ∨ (d, p) ∈ L.orders a := fun d p =>
    ordered_of_step hs (by rintro rfl; exact ha)
  cases a with
  | create j b =>
    obtain rfl : j = k := ha
    exact .inl ⟨b, rfl⟩
  | registerStorage addr | heartbeat addr =>
    rw [← fst_of_some hn]
    exact .inr ⟨rfl, rfl, by simpa [orders] using hord⟩
  | tick t =>
    simp only [NamingServer.step] at hn
    split_ifs at hn
    rw [← fst_of_some hn]
    exact .inr ⟨rfl, rfl, by simpa [orders] using hord⟩
  | purge i =>
    simp only [NamingServer.step] at hn
    split at hn
    · rw [← fst_of_some hn]
      exact .inr ⟨rfl, rfl, by simpa [orders] using hord⟩
    · cases hn
  | _ => exact absurd ha id

theorem Course.of_step (h : Course k L₀ L) (ha : Concerns k a) (hs : L.step cfg a = some L') :
    Course k L₀ L' := by
  rcases frame_of_step ha hs with ⟨b, rfl⟩ | ⟨hcreates, hstore, hord⟩
  · cases createTurn_of_step hs with
    | early _ hphase hphase' hstore hord =>
      refine ⟨fun _ => hstore.trans (h.store (unwritten_of_early hphase)), fun _ p => ?_, ?_⟩
      · rw [hord]
        exact h.early hphase p
      · intro chunks hp
        rcases hphase' with he | ⟨_, he⟩ <;> rw [hp] at he <;> cases he
    | start _ hphase hphase' hstore hreq hord =>
      have hsame := h.store (unwritten_of_early hphase)
      refine ⟨fun _ => hstore.trans hsame, fun he => ?_, fun _ _ p => ?_⟩
      · rw [hphase'] at he
        cases he
      · rw [hord, hreq, or_iff_right (h.early hphase p), NamingServer.db, hsame]
    | place chunks chunks' _ _ _ hphase hphase' hstore hreq hord =>
      refine ⟨fun _ => hstore.trans (h.store (by rw [hphase]; rfl)), fun he => ?_, fun _ _ p => ?_⟩
      · rw [hphase'] at he
        cases he
      · rw [hord, hreq]
        exact h.placing chunks hphase p
    | short chunks _ _ _ _ hphase hphase' hstore =>
      refine ⟨fun _ => hstore.trans (h.store (by rw [hphase]; rfl)), fun he => ?_, fun _ hp => ?_⟩
      · rw [hphase'] at he
        cases he
      · rw [hphase'] at hp
        cases hp
    | finish chunks now _ hphase hphase' =>
      refine ⟨fun he => ?_, fun he => ?_, fun _ hp => ?_⟩
      all_goals
        cases hp' : (L'.naming.creates k).phase <;>
          simp_all [unwritten, CreatePhase.early, CreatePhase.reserved]
  · refine ⟨fun he => hstore.trans (h.store (hcreates ▸ he)), fun he p => ?_, fun chunks hp p => ?_⟩
    · rw [hord]
      exact h.early (hcreates ▸ he) p
    · rw [hord, hcreates]
      exact h.placing chunks (hcreates ▸ hp) p

/-! ### Rejections -/

/-- A request that was rejected has put nothing on order. -/
def RejectedQuiet (k : ℕ) (L : Ledger) : Prop :=
  ∀ resp, (L.naming.creates k).phase = .replied resp → resp.ok = false → ∀ p, ¬L.Ordered (.create k) p

theorem RejectedQuiet.clean (h : RejectedQuiet k L) (hc : Course k L₀ L) : RejectedClean k L₀ L := by
  intro resp hp hok
  refine ⟨?_, fun row _ _ addr => h resp hp hok _⟩
  rw [NamingServer.db, hc.store (by rw [hp, unwritten, hok]; rfl)]

/-- A step that spares the old version does not reject with something on order. -/
theorem RejectedQuiet.of_step (h : RejectedQuiet k L) (hc : Course k L₀ L) (ha : Concerns k a)
    (hok : SparesOld cfg L a) (hs : L.step cfg a = some L') : RejectedQuiet k L' := by
  intro resp hp hresp p
  rcases frame_of_step ha hs with ⟨b, rfl⟩ | ⟨hcreates, _, hord⟩
  · cases createTurn_of_step hs with
    | early _ hphase hphase' _ hord =>
      rw [hord]
      exact hc.early hphase p
    | start _ _ hphase' =>
      rw [hphase'] at hp
      cases hp
    | place _ _ _ _ _ _ hphase' =>
      rw [hphase'] at hp
      cases hp
    | short chunks msg id hb hlive hphase _ _ _ hord =>
      subst hb
      have hnone := hok.resolve_left (by omega)
      rw [NamingServer.db, hc.store (by rw [hphase]; rfl)] at hnone
      rw [hord, hc.placing chunks hphase]
      exact hnone p
    | finish _ _ _ _ hphase' =>
      rw [hp] at hphase'
      rcases hphase' with he | he
      · exact absurd (hresp.symm.trans he) (by simp)
      · cases he
  · rw [hord]
    exact h resp (hcreates ▸ hp) hresp p

/-- A step that does not spare the old version rejects and leaves its deletion under way. -/
theorem not_rejectedClean (hc : Course k L₀ L) (ha : Concerns k a) (hok : ¬SparesOld cfg L a)
    (hs : L.step cfg a = some L') : ¬RejectedClean k L₀ L' := by
  cases a with
  | create j b =>
    obtain rfl : j = k := ha
    cases b with
    | place id =>
      simp only [SparesOld, Unrecorded, not_or, not_forall, not_not] at hok
      obtain ⟨hlive, ⟨addr, c⟩, hrec⟩ := hok
      cases createTurn_of_step hs with
      | early hb => exact absurd rfl (hb id)
      | start hb => exact absurd rfl (hb id)
      | place _ _ _ _ hlive' => exact absurd hlive' hlive
      | finish _ _ hb => cases hb
      | short chunks msg id' _ _ hphase hphase' hstore hreq hord =>
        have hsame := hc.store (by rw [hphase]; rfl)
        rw [NamingServer.db, hsame] at hrec
        obtain ⟨hrep, row, hrow, rfl, hname⟩ := hrec
        intro hclean
        obtain ⟨_, hnone⟩ := hclean _ hphase' rfl
        apply hnone row hrow (by rw [hreq, hname]) addr
        rw [hord, hc.placing chunks hphase]
        exact ⟨hrep, row, hrow, rfl, hname⟩
    | _ => all_goals exact absurd trivial hok
  | _ => all_goals exact absurd trivial hok

/-- The steps of the request that spare the old version, and those of the others. -/
def ConcernsSparing (cfg : Settings) (k : ℕ) (L : Ledger) (a : NamingAction) : Prop :=
  Concerns k a ∧ SparesOld cfg L a

theorem quiet_of_steps (hfresh : Fresh k L₀) (h : Steps (step cfg) (ConcernsSparing cfg k) L₀ L) :
    Course k L₀ L ∧ RejectedQuiet k L := by
  refine h.invariant (P := fun L => Course k L₀ L ∧ RejectedQuiet k L) ⟨hfresh.course, ?_⟩ ?_
  · intro resp hp
    rw [hfresh.idle] at hp
    cases hp
  · rintro L a L' _ ⟨hc, hq⟩ ⟨ha, hok⟩ hs
    exact ⟨hc.of_step ha hs, hq.of_step hc ha hok hs⟩

/-- As long as the old version is spared a rejection has no effect, and the first step that
does not spare it is a rejection with one. -/
theorem rejectedClean_iff (hfresh : Fresh k L₀)
    (h : Steps (step cfg) (ConcernsSparing cfg k) L₀ L) (ha : Concerns k a)
    (hs : L.step cfg a = some L') :
    RejectedClean k L₀ L ∧ (RejectedClean k L₀ L' ↔ SparesOld cfg L a) := by
  obtain ⟨hc, hq⟩ := quiet_of_steps hfresh h
  refine ⟨hq.clean hc, fun hclean => ?_, fun hok => ?_⟩
  · by_contra hok
    exact not_rejectedClean hc ha hok hs hclean
  · exact (hq.of_step hc ha hok hs).clean (hc.of_step ha hs)

/-- A file with one chunk, committed before the server was started again. -/
def oneFile : Ledger where
  naming := { NamingServer.init with
    store := ((MetadataStore.init.createPending ['f'] 1 1 [⟨['c'], 0, [['a']]⟩] 0).2.commitFile ['f']).2 }
  turn := 0
  sent := []
  removed := []

theorem fresh_oneFile : Fresh 0 oneFile := ⟨rfl, by simp [oneFile, Ordered, NamingServer.init]⟩

/-- No server is live when the request comes in. -/
theorem rejectedClean_iff_noServer : ∃ L resp, (L.naming.creates 0).phase = .replied resp ∧
    resp.ok = false ∧ RejectedClean 0 oneFile L := by
  have hrun : Steps (step ⟨1, 60⟩) (ConcernsSparing ⟨1, 60⟩ 0) oneFile _ :=
    Steps.single (a := .create 0 (.receive ⟨['f'], 1, 1⟩)) ⟨rfl, trivial⟩ rfl
  have hiff := rejectedClean_iff (a := .create 0 .checkLive) fresh_oneFile hrun rfl rfl
  exact ⟨_, _, rfl, rfl, hiff.2.mpr trivial⟩

/-! ### The defect -/

/-- A rejected CreateFile has no effect. -/
def RejectionHasNoEffect (cfg : Settings) : Prop :=
  ∀ k L₀ L, Fresh k L₀ → Steps (step cfg) (fun _ a => Concerns k a) L₀ L → RejectedClean k L₀ L

instance (k : ℕ) (a : NamingAction) : Decidable (Concerns k a) :=
  match a with
  | .registerStorage _ | .heartbeat _ | .tick _ | .purge _ => .isTrue trivial
  | .create j _ => inferInstanceAs (Decidable (j = k))
  | .commit _ | .delete _ _ | .get _ _ | .cleanup _ | .heal _ | .crash => .isFalse id

/-- The only server is live at the first check and not when the chunk is placed. -/
def expiring : List NamingAction :=
  [.registerStorage ['a'], .create 0 (.receive ⟨['f'], 1, 1⟩), .create 0 .checkLive,
    .create 0 (.selectFile .table), .create 0 (.selectChunks .table), .tick 20,
    .create 0 (.place ['d'])]

/-- The request was rejected, and its deletion thread is to delete the chunk of the file. -/
def rejectedDeleting (L : Ledger) : Bool :=
  match (L.naming.creates 0).phase with
  | .replied resp => !resp.ok && (L.naming.creates 0).req.filename == ['f'] &&
      L.naming.purges.contains (0, ['a'], ['c'])
  | _ => false

theorem not_rejectionHasNoEffect : ¬RejectionHasNoEffect ⟨1, 60⟩ := by
  intro h
  have hrun : (run (guarded (step ⟨1, 60⟩) fun _ a => Concerns 0 a) oneFile expiring).any
      rejectedDeleting = true := by
    decide +kernel
  obtain ⟨L, hrun, hL⟩ := exists_of_run hrun
  unfold rejectedDeleting at hL
  split at hL
  · rename_i resp hp
    simp only [Bool.and_eq_true, Bool.not_eq_true', beq_iff_eq, List.contains_iff_mem] at hL
    obtain ⟨⟨hok, hname⟩, hpurge⟩ := hL
    obtain ⟨_, hnone⟩ := h 0 oneFile L fresh_oneFile hrun resp hp hok
    exact hnone ⟨['c'], ['f'], 0⟩ (by decide) hname.symm ['a'] (.inr (mem_pending_create.mpr hpurge))
  · cases hL

end Ledger

end GfsCluster
