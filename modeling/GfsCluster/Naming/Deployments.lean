import GfsCluster.Naming.Convergence

/-! Starting on a database of earlier runs. The replication target is read when the process
starts, so a database may hold what runs with other targets have left. The invariants of a run
speak of one target and so of handlers that have answered long ago; they hold of a twin of the
state, which differs only in these answers. -/

namespace GfsCluster

open StepSystem

namespace NamingServer

variable {cfg cfg' : Settings} {n n' m : NamingServer} {a : NamingAction} {out : List StorageRpc}

/-- The process has just been started, on a database that earlier runs have left. Each run
has its own settings. -/
inductive Deployed : NamingServer → Prop
  | first : Deployed .init
  | again {n₀ n : NamingServer} (cfg : Settings) (h : Deployed n₀)
      (hrun : Steps (NamingServer.next cfg) CommaFreeAddresses n₀ n) : Deployed n.crash

/-! ### Twins -/

/-- The same handler, up to what it has answered. -/
def CreateHandler.Twin (h h' : CreateHandler) : Prop :=
  h' = h ∨ h'.req = h.req ∧ ∃ resp resp', h.phase = .replied resp ∧ h'.phase = .replied resp'

theorem CreateHandler.Twin.trans {h h' h'' : CreateHandler} (ht : CreateHandler.Twin h h')
    (ht' : CreateHandler.Twin h' h'') : CreateHandler.Twin h h'' := by
  rcases ht with rfl | ⟨hreq, resp, resp', hp, hp'⟩
  · exact ht'
  · rcases ht' with rfl | ⟨hreq', _, resp'', _, hp''⟩
    · exact .inr ⟨hreq, resp, resp', hp, hp'⟩
    · exact .inr ⟨hreq'.trans hreq, resp, resp'', hp, hp''⟩

/-- The same state, up to what CreateFile handlers have answered. -/
structure Twin (n m : NamingServer) : Prop where
  same : m = { n with creates := m.creates }
  handler : ∀ k, CreateHandler.Twin (n.creates k) (m.creates k)

/-- The other actions do not look at the CreateFile handlers. -/
theorem step_with_creates (creates : ℕ → CreateHandler) (ha : ∀ k b, a ≠ .create k b) (hc : a ≠ .crash)
    (hs : n.step cfg a = some (n', out)) :
    step cfg { n with creates := creates } a = some ({ n' with creates := creates }, out) ∧
      n'.creates = n.creates := by
  cases a with
  | create k b => exact absurd rfl (ha k b)
  | crash => exact absurd rfl hc
  | delete k b =>
    cases deleteCase_of_step hs <;> simp_all [step, deleteStep, setDelete, removeFile]
  | get k b =>
    cases case_of_getStep (getStep_of_step hs).1 <;> simp_all [step, getStep, setGet]
  | cleanup b =>
    cases cleanupCase_of_step hs <;> simp_all [step, cleanupStep, removeFile]
  | heal b =>
    cases healCase_of_step hs with
    | leave live rest repaired w hp hdone =>
      simp only [step, healStep, hp] at hs ⊢
      rcases hdone with hdone | hdone | hdone
      · simp [hdone]
      · simp [hdone]
      · simp only [if_neg (not_lt.mpr hdone)] at hs ⊢
        split <;> exact ⟨rfl, trivial⟩
    | _ => simp_all [step, healStep]
  | purge i =>
    cases case_of_step hs
    simp_all [step]
  | tick d =>
    cases case_of_step hs
    simp_all [step]
  | _ =>
    cases hs
    exact ⟨rfl, rfl⟩

/-- A CreateFile handler looks at itself only. -/
theorem createStep_with_creates {k : ℕ} {b : CreateStep} {creates : ℕ → CreateHandler}
    (hk : creates k = n.creates k) (hs : n.createStep cfg k b = some n') :
    createStep cfg { n with creates := creates } k b =
        some { n' with creates := Function.update creates k (n'.creates k) } ∧
      ∀ j ≠ k, n'.creates j = n.creates j := by
  cases case_of_createStep hs <;> simp_all [createStep, setCreate]

/-- A request that has been answered takes no further step. -/
theorem createStep_replied {k : ℕ} {b : CreateStep} {resp : CreateFileResponse}
    (hp : (n.creates k).phase = .replied resp) : n.createStep cfg k b = none := by
  cases b <;> simp only [createStep, hp]

theorem CreateHandler.Twin.crash {h h' : CreateHandler} (ht : CreateHandler.Twin h h') :
    CreateHandler.Twin h.crash h'.crash := by
  rcases ht with rfl | ⟨hreq, resp, resp', hp, hp'⟩
  · exact .inl rfl
  · have hcrash : h.crash = h := by simp only [CreateHandler.crash, hp]
    have hcrash' : h'.crash = h' := by simp only [CreateHandler.crash, hp']
    rw [hcrash, hcrash']
    exact .inr ⟨hreq, resp, resp', hp, hp'⟩

/-- A twin takes the same steps. -/
theorem Twin.of_step (h : Twin n m) (hs : n.step cfg a = some (n', out)) :
    ∃ m', m.step cfg a = some (m', out) ∧ Twin n' m' := by
  obtain ⟨hsame, hhandler⟩ := h
  by_cases hc : a = .crash
  · subst hc
    cases hs
    refine ⟨m.crash, rfl, by rw [hsame]; rfl, fun k => (hhandler k).crash⟩
  · by_cases ha : ∃ k b, a = .create k b
    · obtain ⟨k, b, rfl⟩ := ha
      obtain ⟨hcreate, rfl⟩ := createStep_of_step hs
      rcases hhandler k with hk | ⟨_, resp, _, hp, _⟩
      · obtain ⟨hm, hother⟩ := createStep_with_creates hk hcreate
        rw [← hsame] at hm
        refine ⟨_, by rw [step, hm]; rfl, rfl, fun j => ?_⟩
        by_cases hj : j = k
        · subst hj
          exact .inl (Function.update_self _ _ _)
        · rw [hother j hj]
          simp only [Function.update_of_ne hj]
          exact hhandler j
      · rw [createStep_replied hp] at hcreate
        cases hcreate
    · rw [not_exists] at ha
      obtain ⟨hm, hcreates⟩ := step_with_creates m.creates (fun k b hk => ha k ⟨b, hk⟩) hc hs
      rw [← hsame] at hm
      exact ⟨_, hm, rfl, fun k => by rw [hcreates]; exact hhandler k⟩

/-! ### The twin after a restart -/

/-- As many addresses as a target asks for. -/
def spares (replication : ℕ) : List Addr := (List.range replication).map fun i => List.replicate i 'x'

theorem spares_spec (replication : ℕ) : (spares replication).Nodup ∧
    (spares replication).length = replication ∧ ∀ addr ∈ spares replication, CommaFree addr := by
  refine ⟨?_, by simp [spares], ?_⟩
  · refine List.nodup_range.map fun i j hij => ?_
    simpa using congrArg List.length hij
  · intro addr ha
    obtain ⟨i, _, rfl⟩ := List.mem_map.mp ha
    intro hmem
    exact absurd (List.eq_of_mem_replicate hmem) (by decide)

/-- An answer whose chunks are placed on that many servers. -/
def CreateFileResponse.respread (replication : ℕ) (resp : CreateFileResponse) : CreateFileResponse :=
  { resp with placements := resp.placements.map fun p => { p with locations := spares replication } }

def CreateHandler.respread (replication : ℕ) (h : CreateHandler) : CreateHandler :=
  match h.phase with
  | .replied resp => ⟨h.req, .replied (CreateFileResponse.respread replication resp)⟩
  | _ => h

theorem CreateHandler.twin_respread (replication : ℕ) (h : CreateHandler) :
    CreateHandler.Twin h (CreateHandler.respread replication h) := by
  unfold CreateHandler.respread
  split
  · rename_i resp hp
    exact .inr ⟨rfl, resp, _, hp, rfl⟩
  · exact .inl rfl

theorem respread_handler (replication : ℕ) {h : CreateHandler} (hp : ∀ chunks, h.phase ≠ .placing chunks) :
    (CreateHandler.respread replication h).req = h.req ∧
      (CreateHandler.respread replication h).phase.reserved = h.phase.reserved ∧
      ((CreateHandler.respread replication h).phase.plan = h.phase.plan.map fun chunks =>
        chunks.map fun m => { m with locations := spares replication }) ∧
      ∀ chunks, (CreateHandler.respread replication h).phase ≠ .placing chunks := by
  obtain ⟨req, p⟩ := h
  cases p with
  | placing chunks => exact absurd rfl (hp chunks)
  | replied resp =>
    refine ⟨rfl, rfl, ?_, fun _ h => by cases h⟩
    simp only [CreateHandler.respread, CreateFileResponse.respread, CreatePhase.plan]
    split_ifs <;> simp [Function.comp_def, ChunkPlacement.toMeta]
  | _ => exact ⟨rfl, rfl, rfl, hp⟩

/-- The restarted process, with the answers of the last one spread over other servers. -/
def restarted (n : NamingServer) (replication : ℕ) : NamingServer :=
  { n.crash with creates := fun k => CreateHandler.respread replication (n.crash.creates k) }

theorem restarted_handler (n : NamingServer) (k replication : ℕ) :
    ((n.restarted replication).creates k).req = (n.crash.creates k).req ∧
      ((n.restarted replication).creates k).phase.reserved = (n.crash.creates k).phase.reserved ∧
      (((n.restarted replication).creates k).phase.plan = (n.crash.creates k).phase.plan.map fun chunks =>
        chunks.map fun m => { m with locations := spares replication }) ∧
      ∀ chunks, ((n.restarted replication).creates k).phase ≠ .placing chunks :=
  respread_handler replication (Consistent.crash_handler (n.creates k)).2.2.2

theorem Consistent.restarted (h : Consistent cfg n) : Consistent cfg' (n.restarted cfg'.replication) := by
  have hc := h.of_crash
  have hplan : ∀ k chunks, ((n.restarted cfg'.replication).creates k).phase.plan = some chunks →
      ∃ chunks', (n.crash.creates k).phase.plan = some chunks' ∧
        chunks = chunks'.map fun m => { m with locations := spares cfg'.replication } := by
    intro k chunks hp
    rw [(restarted_handler n k cfg'.replication).2.2.1] at hp
    obtain ⟨chunks', hchunks', rfl⟩ := Option.map_eq_some_iff.mp hp
    exact ⟨chunks', hchunks', rfl⟩
  refine ⟨rfl, h.issued_key, ?_, ?_, ?_, ?_, ?_⟩
  · intro k chunks hp
    obtain ⟨chunks', hp', rfl⟩ := hplan k chunks hp
    have := hc.plan k chunks' hp'
    constructor
    · intro i m hm
      rw [List.getElem?_map, Option.map_eq_some_iff] at hm
      obtain ⟨m', hm', rfl⟩ := hm
      exact this.index i m' hm'
    · intro c i
      refine (this.issue c i).trans ?_
      simp [List.getElem?_map]
  · intro k chunks hp m hm
    obtain ⟨chunks', _, rfl⟩ := hplan k chunks hp
    obtain ⟨m', _, rfl⟩ := List.mem_map.mp hm
    obtain ⟨hnd, hlen, _⟩ := spares_spec cfg'.replication
    exact ⟨hnd, hlen⟩
  · intro k chunks hp
    exact absurd hp ((restarted_handler n k cfg'.replication).2.2.2 chunks)
  · intro k chunks hr hp
    obtain ⟨chunks', hp', rfl⟩ := hplan k chunks hp
    obtain ⟨hreq, hres, _⟩ := restarted_handler n k cfg'.replication
    rw [List.length_map, hc.whole k chunks' (hres ▸ hr) hp', hreq]
  · intro F hF
    obtain ⟨k, hv⟩ := hc.version F hF
    obtain ⟨hreq, hres, _⟩ := restarted_handler n k cfg'.replication
    exact ⟨k, hres.trans hv.reserved, (congrArg _ hreq).trans hv.name, (congrArg _ hreq).trans hv.size,
      (congrArg _ hreq).trans hv.numChunks, hv.rows⟩

theorem AddrsIn.restarted (h : AddrsIn CommaFree n) (replication : ℕ) :
    AddrsIn CommaFree (n.restarted replication) where
  seen addr ha := by simp [NamingServer.restarted, NamingServer.crash, StorageRegistry.init] at ha
  planned k chunks hp m hm addr ha := by
    rw [(restarted_handler n k replication).2.2.1] at hp
    obtain ⟨chunks', _, rfl⟩ := Option.map_eq_some_iff.mp hp
    obtain ⟨m', _, rfl⟩ := List.mem_map.mp hm
    exact (spares_spec replication).2.2 addr ha
  recorded := h.recorded
  live addr ha := by simp [NamingServer.restarted, NamingServer.crash, HealPhase.live] at ha
  candidates w hw := by simp [NamingServer.restarted, NamingServer.crash, HealPhase.repair] at hw

/-! ### Runs on such databases -/

/-- A twin of the state meets the invariants of a run with these settings. -/
def Sound (cfg : Settings) (n : NamingServer) : Prop :=
  ∃ m, Twin n m ∧ Consistent cfg m ∧ HealTracks cfg m ∧ AddrsIn CommaFree m

theorem Sound.init : Sound cfg .init :=
  ⟨.init, ⟨rfl, fun _ => .inl rfl⟩, Consistent.init, HealTracks.init, AddrsIn.init⟩

theorem Sound.of_step (h : Sound cfg n) (hok : Registers CommaFree a)
    (hs : n.step cfg a = some (n', out)) : Sound cfg n' := by
  obtain ⟨m, ht, hc, hh, ha⟩ := h
  obtain ⟨m', hs', ht'⟩ := ht.of_step hs
  have hc' := hc.of_step hs'
  have ha' := ha.of_step hc hok hs'
  exact ⟨m', ht', hc', hh.of_step hc hc' ha' hs', ha'⟩

/-- A restart may change the settings. -/
theorem Sound.crash (h : Sound cfg n) (cfg' : Settings) : Sound cfg' n.crash := by
  obtain ⟨m, ht, hc, _, ha⟩ := h
  have htwin : Twin n.crash (m.restarted cfg'.replication) :=
    ⟨by rw [ht.same]; rfl, fun k =>
      (ht.handler k).crash.trans (CreateHandler.twin_respread cfg'.replication (m.crash.creates k))⟩
  refine ⟨_, htwin, hc.restarted, .of_unlisted ?_ rfl rfl, ha.restarted _⟩
  exact List.nodup_nil

theorem Sound.of_steps {ok : NamingServer → NamingAction → Prop} {n₀ : NamingServer} (h : Sound cfg n₀)
    (hok : ∀ m b, ok m b → Registers CommaFree b) (hrun : Steps (NamingServer.next cfg) ok n₀ n) :
    Sound cfg n := by
  refine Steps.invariant (P := Sound cfg) hrun h ?_
  intro m b m' _ hm hb hnext
  obtain ⟨out, hs⟩ := exists_step_of_next hnext
  exact hm.of_step (hok m b hb) hs

/-- Whatever settings the earlier runs had. -/
theorem Deployed.sound (h : Deployed n) (cfg : Settings) : Sound cfg n := by
  induction h generalizing cfg with
  | first => exact .init
  | again cfg₀ _ hrun ih => exact ((ih cfg₀).of_steps (fun _ _ h => h) hrun).crash cfg

end NamingServer

end GfsCluster
