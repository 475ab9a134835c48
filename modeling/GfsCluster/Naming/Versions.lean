import GfsCluster.Lib.Lists
import GfsCluster.Lib.StepSystem
import GfsCluster.Naming.Moves

/-! Every file row is one whole reservation. The chunk rows under a name are exactly the
ids handed out for a single CreateFile request, whatever overwrites, deletes, cleanup
and repairs have run; the invariant holds in every reachable state, crashes included. -/

namespace GfsCluster

open StepSystem

namespace NamingServer

/-- `chunks` is what CreateFile request `k` was handed, in order. -/
structure PlanOf (n : NamingServer) (k : ℕ) (chunks : List ChunkMeta) : Prop where
  index : ∀ (i : ℕ) (m : ChunkMeta), chunks[i]? = some m → m.index = i
  issue : ∀ (c : ChunkId) (i : ℕ), ⟨c, k, i⟩ ∈ n.issued ↔
    ∃ m : ChunkMeta, chunks[i]? = some m ∧ m.chunkId = c

/-- The row of file `F` and its chunk rows are the reservation of request `k`. -/
structure VersionOf (n : NamingServer) (F : FileRow) (k : ℕ) : Prop where
  reserved : (n.creates k).phase.reserved = true
  name : (n.creates k).req.filename = F.filename
  size : (n.creates k).req.size = F.size
  numChunks : (n.creates k).req.numChunks = F.numChunks
  rows : ∀ c i, ⟨c, F.filename, i⟩ ∈ n.db.chunks ↔ ⟨c, k, i⟩ ∈ n.issued

structure Consistent (cfg : Settings) (n : NamingServer) : Prop where
  clean : n.store.Clean
  issued_key : (n.issued.map Issue.chunkId).Nodup
  plan : ∀ k chunks, (n.creates k).phase.plan = some chunks → n.PlanOf k chunks
  placed : ∀ k chunks, (n.creates k).phase.plan = some chunks →
    ∀ m ∈ chunks, m.locations.Nodup ∧ m.locations.length = cfg.replication
  placing : ∀ k chunks, (n.creates k).phase = .placing chunks →
    chunks.length ≤ (n.creates k).req.numChunks.toNat
  whole : ∀ k chunks, (n.creates k).phase.reserved = true →
    (n.creates k).phase.plan = some chunks → chunks.length = (n.creates k).req.numChunks.toNat
  version : ∀ F ∈ n.db.files, ∃ k, n.VersionOf F k

/-- The id was handed out for a reservation of `f` that went through. -/
def BornIn (n : NamingServer) (f : Filename) (c : ChunkId) : Prop :=
  ∃ k i, ⟨c, k, i⟩ ∈ n.issued ∧ (n.creates k).phase.reserved = true ∧
    (n.creates k).req.filename = f

/-- The id was reserved once and its chunk row is gone. -/
def Dead (n : NamingServer) (c : ChunkId) : Prop :=
  (∃ f, n.BornIn f c) ∧ c ∉ n.db.chunks.map ChunkRow.chunkId

variable {cfg : Settings} {n n' : NamingServer} {k : ℕ} {chunks : List ChunkMeta}

theorem reserved_plan {p : CreatePhase} (h : p.reserved = true) : ∃ chunks, p.plan = some chunks := by
  cases p <;> simp_all [CreatePhase.reserved, CreatePhase.plan]

theorem placing_of_plan {p : CreatePhase} (hr : p.reserved = false)
    (hp : p.plan = some chunks) : chunks = [] ∨ p = .placing chunks := by
  cases p <;> simp_all [CreatePhase.reserved, CreatePhase.plan]

theorem PlanOf.issued_of_mem (h : n.PlanOf k chunks) {m : ChunkMeta} (hm : m ∈ chunks) :
    ⟨m.chunkId, k, m.index⟩ ∈ n.issued := by
  obtain ⟨i, hi, rfl⟩ := List.getElem_of_mem hm
  have hget := List.getElem?_eq_getElem hi
  rw [h.index i _ hget]
  exact (h.issue _ i).mpr ⟨_, hget, rfl⟩

/-- Ids handed out to other requests do not change a plan. -/
theorem PlanOf.of_issued (h : n.PlanOf k chunks)
    (hissued : ∀ c i, (⟨c, k, i⟩ : Issue) ∈ n'.issued ↔ ⟨c, k, i⟩ ∈ n.issued) : n'.PlanOf k chunks :=
  ⟨h.index, fun c i => (hissued c i).trans (h.issue c i)⟩

/-- A new id goes to the end of the plan. -/
theorem PlanOf.concat {id : ChunkId} {locations : List Addr} (h : n.PlanOf k chunks)
    (hissued : n'.issued = n.issued ++ [⟨id, k, chunks.length⟩]) :
    n'.PlanOf k (chunks ++ [⟨id, chunks.length, locations⟩]) := by
  constructor
  · intro i m hm
    rcases Lists.getElem?_concat_eq_some.mp hm with hm | ⟨rfl, rfl⟩
    · exact h.index i m hm
    · rfl
  · intro c i
    have hmem : (⟨c, k, i⟩ : Issue) ∈ n'.issued ↔ ⟨c, k, i⟩ ∈ n.issued ∨ c = id ∧ i = chunks.length := by
      simp [hissued]
    simp only [hmem, h.issue, Lists.getElem?_concat_eq_some]
    constructor
    · rintro (⟨m, hm, hc⟩ | ⟨rfl, rfl⟩)
      · exact ⟨m, .inl hm, hc⟩
      · exact ⟨_, .inr ⟨rfl, rfl⟩, rfl⟩
    · rintro ⟨m, hm | ⟨rfl, rfl⟩, hc⟩
      · exact .inl ⟨m, hm, hc⟩
      · exact .inr ⟨hc.symm, rfl⟩

/-- A request that has not reserved yet has no version. -/
theorem VersionOf.ne {F : FileRow} {j : ℕ} (hv : n.VersionOf F j)
    (hold : (n.creates k).phase.reserved = false) : j ≠ k := by
  rintro rfl
  rw [hv.reserved] at hold
  cases hold

/-- A version stays when its request, its rows and its ids do. -/
theorem VersionOf.keep {F : FileRow} (hv : n.VersionOf F k) (he : n'.creates k = n.creates k)
    (hrows : ∀ c i, (⟨c, F.filename, i⟩ : ChunkRow) ∈ n'.db.chunks ↔ ⟨c, F.filename, i⟩ ∈ n.db.chunks)
    (hissued : ∀ c i, (⟨c, k, i⟩ : Issue) ∈ n'.issued ↔ ⟨c, k, i⟩ ∈ n.issued) : n'.VersionOf F k :=
  ⟨he ▸ hv.reserved, he ▸ hv.name, he ▸ hv.size, he ▸ hv.numChunks, fun c i => by
    rw [hrows, hissued, hv.rows]⟩

/-- The file just reserved has the chunks of its plan. -/
theorem VersionOf.of_reserve {req : CreateFileRequest} (hplan : n.PlanOf k chunks)
    (hres : (n'.creates k).phase.reserved = true) (hreq : (n'.creates k).req = req)
    (hissued : n'.issued = n.issued)
    (hchunks : n'.db.chunks = (n.db.deleteFile req.filename).chunks ++ chunks.map (·.row req.filename))
    (now : Seconds) :
    n'.VersionOf ⟨req.filename, req.size, req.numChunks, .pending, now⟩ k := by
  refine ⟨hres, by rw [hreq], by rw [hreq], by rw [hreq], fun c i => ?_⟩
  rw [hchunks, hissued, hplan.issue, List.mem_append, Db.mem_deleteFile_chunks]
  constructor
  · rintro (hc | hc)
    · exact absurd rfl hc.2
    · obtain ⟨m, hm, he⟩ := List.mem_map.mp hc
      obtain ⟨j, hj, rfl⟩ := List.getElem_of_mem hm
      have hidx := hplan.index j _ (List.getElem?_eq_getElem hj)
      simp only [ChunkMeta.row, ChunkRow.mk.injEq] at he
      obtain ⟨hid, _, hi⟩ := he
      rw [hidx] at hi
      subst hi
      exact ⟨_, List.getElem?_eq_getElem hj, hid⟩
  · rintro ⟨m, hm, rfl⟩
    refine .inr (List.mem_map.mpr ⟨m, List.mem_of_getElem? hm, ?_⟩)
    rw [ChunkMeta.row, hplan.index i m hm]

namespace Consistent

theorem init : Consistent cfg NamingServer.init where
  clean := rfl
  issued_key := by simp [NamingServer.init]
  plan k chunks h := by
    simp only [NamingServer.init, CreatePhase.plan, Option.some.injEq] at h
    subst h
    exact ⟨by simp, by simp [NamingServer.init]⟩
  placed k chunks h := by
    simp only [NamingServer.init, CreatePhase.plan, Option.some.injEq] at h
    subst h
    simp
  placing k chunks h := by simp [NamingServer.init] at h
  whole k chunks h := by simp [NamingServer.init, CreatePhase.reserved] at h
  version F hF := by simp [NamingServer.init, NamingServer.db, MetadataStore.init, Db.empty] at hF

theorem issue_unique (h : Consistent cfg n) {e e' : Issue} (he : e ∈ n.issued)
    (he' : e' ∈ n.issued) (hid : e.chunkId = e'.chunkId) : e = e' :=
  List.inj_on_of_nodup_map h.issued_key he he' hid

/-- A chunk row is an issued id of the request whose version its file is. -/
theorem row_issued (h : Consistent cfg n) {c : ChunkRow} (hc : c ∈ n.db.chunks) :
    ∃ F ∈ n.db.files, F.filename = c.filename ∧ ∃ k, n.VersionOf F k ∧
      ⟨c.chunkId, k, c.idx⟩ ∈ n.issued := by
  obtain ⟨F, hF, hname⟩ := n.db.exists_file hc
  obtain ⟨k, hv⟩ := h.version F hF
  refine ⟨F, hF, hname, k, hv, (hv.rows c.chunkId c.idx).mp ?_⟩
  rwa [hname]

theorem row_born (h : Consistent cfg n) {c : ChunkRow} (hc : c ∈ n.db.chunks) :
    n.BornIn c.filename c.chunkId := by
  obtain ⟨F, _, hname, k, hv, hi⟩ := h.row_issued hc
  exact ⟨k, c.idx, hi, hv.reserved, hv.name.trans hname⟩

/-- An id belongs to one name for good. -/
theorem born_unique (h : Consistent cfg n) {f g : Filename} {c : ChunkId} (hf : n.BornIn f c)
    (hg : n.BornIn g c) : f = g := by
  obtain ⟨k, i, hi, _, rfl⟩ := hf
  obtain ⟨k', i', hi', _, rfl⟩ := hg
  have := h.issue_unique hi hi' rfl
  simp only [Issue.mk.injEq] at this
  rw [this.2.1]

theorem filename_of_born (h : Consistent cfg n) {f : Filename} {c : ChunkRow}
    (hc : c ∈ n.db.chunks) (hb : n.BornIn f c.chunkId) : c.filename = f :=
  h.born_unique (h.row_born hc) hb

/-- Ids of a plan are distinct. -/
theorem plan_ids_nodup (h : Consistent cfg n) (hp : n.PlanOf k chunks) :
    (chunks.map ChunkMeta.chunkId).Nodup := by
  rw [List.nodup_iff_injective_get]
  rintro ⟨i, hi⟩ ⟨j, hj⟩ he
  simp only [List.length_map] at hi hj
  simp only [List.get_eq_getElem, List.getElem_map] at he
  have h₁ := (hp.issue chunks[i].chunkId i).mpr ⟨_, List.getElem?_eq_getElem hi, rfl⟩
  have h₂ := (hp.issue chunks[j].chunkId j).mpr ⟨_, List.getElem?_eq_getElem hj, rfl⟩
  have := h.issue_unique h₁ h₂ he
  simp only [Issue.mk.injEq] at this
  exact Fin.ext this.2.2

/-! ### Preservation -/

/-- Ids that wait for their reservation are in no chunk row. -/
theorem placing_fresh (h : Consistent cfg n) (hphase : (n.creates k).phase = .placing chunks)
    {m : ChunkMeta} (hm : m ∈ chunks) {row : ChunkRow} (hrow : row ∈ n.db.chunks) :
    row.chunkId ≠ m.chunkId := by
  intro he
  have hplan := h.plan k chunks (by rw [hphase]; rfl)
  obtain ⟨F, _, _, k', hv, hrow⟩ := h.row_issued hrow
  have := h.issue_unique hrow (hplan.issued_of_mem hm) he
  simp only [Issue.mk.injEq] at this
  have hres := hv.reserved
  rw [this.2.1, hphase] at hres
  cases hres

/-- The reservation of a handler that has placed everything never raises, and this is
what it leaves in the tables. -/
theorem createPending_tables (h : Consistent cfg n)
    (hphase : (n.creates k).phase = .placing chunks) (f : Filename) (size numChunks : ℤ)
    (now : Seconds) :
    ∃ db, n.store.createPending f size numChunks chunks now = (.ok (), ⟨db, db⟩) ∧
      db.files = (n.db.deleteFile f).files ++ [⟨f, size, numChunks, .pending, now⟩] ∧
      db.chunks = (n.db.deleteFile f).chunks ++ chunks.map (·.row f) ∧
      db.replicas = (n.db.deleteFile f).replicas ++ chunks.flatMap ChunkMeta.replicaRows := by
  have hw : n.store.writer = n.db := h.clean
  have hplan := h.plan k chunks (by rw [hphase]; rfl)
  rw [← hw]
  refine MetadataStore.createPending_ok (h.plan_ids_nodup hplan) ?_
    fun m hm => (h.placed k chunks (by rw [hphase]; rfl) m hm).1
  intro m hm row hrow
  rw [hw] at hrow
  exact h.placing_fresh hphase hm hrow

theorem of_storeMove {a : NamingAction} (h : Consistent cfg n) (hm : StoreMove n a n')
    (hcreates : n'.creates = n.creates) (hissued : n'.issued = n.issued) : Consistent cfg n' := by
  obtain ⟨hclean, hshrinks⟩ := hm.shrinks h.clean
  refine ⟨hclean, hissued ▸ h.issued_key, ?_, ?_, ?_, ?_, ?_⟩
  · intro k chunks hp
    rw [hcreates] at hp
    exact (h.plan k chunks hp).of_issued fun _ _ => by rw [hissued]
  · rw [hcreates]
    exact h.placed
  · rw [hcreates]
    exact h.placing
  · rw [hcreates]
    exact h.whole
  · intro F' hF'
    obtain ⟨F, hF, hname, hsize, hnum, _, _⟩ := hshrinks.files F' hF'
    obtain ⟨k, hv⟩ := h.version F hF
    refine ⟨k, hcreates ▸ hv.reserved, hcreates ▸ hv.name.trans hname,
      hcreates ▸ hv.size.trans hsize, hcreates ▸ hv.numChunks.trans hnum, fun c i => ?_⟩
    rw [hshrinks.chunks, hissued, ← hname, ← hv.rows c i]
    exact ⟨And.left, fun hc => ⟨hc, F', hF', hname.symm⟩⟩

theorem crash_handler (c : CreateHandler) : c.crash.req = c.req ∧
    c.crash.phase.reserved = c.phase.reserved ∧
    (c.crash.phase.plan = c.phase.plan ∨ c.crash.phase.plan = none) ∧
    ∀ chunks, c.crash.phase ≠ .placing chunks := by
  obtain ⟨req, p⟩ := c
  cases p <;> simp [CreateHandler.crash, CreatePhase.reserved, CreatePhase.plan]

theorem of_crash (h : Consistent cfg n) : Consistent cfg n.crash := by
  have hplan : ∀ k chunks, (n.crash.creates k).phase.plan = some chunks →
      (n.creates k).phase.plan = some chunks := by
    intro k chunks hp
    rcases (crash_handler (n.creates k)).2.2.1 with he | he
    · exact he ▸ hp
    · exact absurd (he.symm.trans hp) (by simp)
  refine ⟨rfl, h.issued_key, ?_, fun k chunks hp => h.placed k chunks (hplan k chunks hp), ?_, ?_, ?_⟩
  · intro k chunks hp
    have := h.plan k chunks (hplan k chunks hp)
    exact ⟨this.index, this.issue⟩
  · intro k chunks hp
    exact absurd hp ((crash_handler (n.creates k)).2.2.2 chunks)
  · intro k chunks hr hp
    obtain ⟨hreq, hres, _⟩ := crash_handler (n.creates k)
    have := h.whole k chunks (hres ▸ hr) (hplan k chunks hp)
    rw [this]
    exact congrArg (fun r => (CreateFileRequest.numChunks r).toNat) hreq.symm
  · intro F hF
    obtain ⟨k, hv⟩ := h.version F hF
    obtain ⟨hreq, hres, _⟩ := crash_handler (n.creates k)
    exact ⟨k, hres.trans hv.reserved, (congrArg _ hreq).trans hv.name,
      (congrArg _ hreq).trans hv.size, (congrArg _ hreq).trans hv.numChunks, hv.rows⟩

theorem of_turn {req : CreateFileRequest} {p : CreatePhase} (h : Consistent cfg n)
    (hstore : n'.store = n.store) (hissued : n'.issued = n.issued)
    (hcreates : n'.creates = Function.update n.creates k ⟨req, p⟩)
    (hreq : (n.creates k).phase = .idle ∨ req = (n.creates k).req)
    (hplan : p.plan = (n.creates k).phase.plan ∨ p.plan = none)
    (hnew : p.reserved = false) (hold : (n.creates k).phase.reserved = false) :
    Consistent cfg n' := by
  have hdb : n'.db = n.db := congrArg MetadataStore.committed hstore
  have hself : n'.creates k = ⟨req, p⟩ := by rw [hcreates, Function.update_self]
  have hother : ∀ j ≠ k, n'.creates j = n.creates j := fun j hj => by
    rw [hcreates, Function.update_of_ne hj]
  have hplans : ∀ j chunks, (n'.creates j).phase.plan = some chunks →
      (n.creates j).phase.plan = some chunks := by
    intro j chunks hp
    by_cases hj : j = k
    · subst hj
      rw [hself] at hp
      rcases hplan with he | he
      · exact he ▸ hp
      · exact absurd (he.symm.trans hp) (by simp)
    · rwa [hother j hj] at hp
  refine ⟨by rw [hstore]; exact h.clean, hissued ▸ h.issued_key,
    fun j chunks hp => (h.plan j chunks (hplans j chunks hp)).of_issued fun _ _ => by rw [hissued],
    fun j chunks hp => h.placed j chunks (hplans j chunks hp), ?_, ?_, ?_⟩
  · intro j chunks hp
    by_cases hj : j = k
    · subst hj
      rcases placing_of_plan hold (hplans j chunks (by rw [hp]; rfl)) with rfl | hphase
      · simp
      · rcases hreq with hidle | rfl
        · rw [hidle] at hphase
          cases hphase
        · rw [hself]
          exact h.placing j chunks hphase
    · rw [hother j hj] at hp ⊢
      exact h.placing j chunks hp
  · intro j chunks hr hp
    have hj : j ≠ k := by
      rintro rfl
      rw [hself, hnew] at hr
      cases hr
    rw [hother j hj] at hr hp ⊢
    exact h.whole j chunks hr hp
  · intro F hF
    rw [hdb] at hF
    obtain ⟨j, hv⟩ := h.version F hF
    exact ⟨j, hv.keep (hother j (hv.ne hold)) (fun _ _ => by rw [hdb]) fun _ _ => by rw [hissued]⟩

theorem of_place {id : ChunkId} {locations : List Addr} (h : Consistent cfg n)
    (hphase : (n.creates k).phase = .placing chunks) (hfresh : id ∉ n.issued.map Issue.chunkId)
    (hnd : locations.Nodup) (hlen : locations.length = cfg.replication)
    (hstore : n'.store = n.store) (hissued : n'.issued = n.issued ++ [⟨id, k, chunks.length⟩])
    (hlt : chunks.length < (n.creates k).req.numChunks.toNat)
    (hcreates : n'.creates = Function.update n.creates k
      ⟨(n.creates k).req, .placing (chunks ++ [⟨id, chunks.length, locations⟩])⟩) :
    Consistent cfg n' := by
  have hdb : n'.db = n.db := congrArg MetadataStore.committed hstore
  have hself : n'.creates k = ⟨(n.creates k).req,
      .placing (chunks ++ [⟨id, chunks.length, locations⟩])⟩ := by
    rw [hcreates, Function.update_self]
  have hother : ∀ j ≠ k, n'.creates j = n.creates j := fun j hj => by
    rw [hcreates, Function.update_of_ne hj]
  have hissue : ∀ j ≠ k, ∀ c i, (⟨c, j, i⟩ : Issue) ∈ n'.issued ↔ ⟨c, j, i⟩ ∈ n.issued := by
    intro j hj c i
    simp [hissued, hj]
  refine ⟨by rw [hstore]; exact h.clean, ?_, ?_, ?_, ?_, ?_, ?_⟩
  · rw [hissued, List.map_append]
    exact h.issued_key.append (by simp) (by simpa using hfresh)
  · intro j chunks' hp
    by_cases hj : j = k
    · subst hj
      rw [hself] at hp
      simp only [CreatePhase.plan, Option.some.injEq] at hp
      subst hp
      exact (h.plan j chunks (by rw [hphase]; rfl)).concat hissued
    · rw [hother j hj] at hp
      exact (h.plan j chunks' hp).of_issued (hissue j hj)
  · intro j chunks' hp m hm
    by_cases hj : j = k
    · subst hj
      rw [hself] at hp
      simp only [CreatePhase.plan, Option.some.injEq] at hp
      subst hp
      rcases List.mem_append.mp hm with hm | hm
      · exact h.placed j chunks (by rw [hphase]; rfl) m hm
      · rw [List.mem_singleton.mp hm]
        exact ⟨hnd, hlen⟩
    · rw [hother j hj] at hp
      exact h.placed j chunks' hp m hm
  · intro j chunks' hp
    by_cases hj : j = k
    · subst hj
      rw [hself] at hp ⊢
      simp only [CreatePhase.placing.injEq] at hp
      subst hp
      rw [List.length_append]
      exact hlt
    · rw [hother j hj] at hp ⊢
      exact h.placing j chunks' hp
  · intro j chunks' hr hp
    have hj : j ≠ k := by
      rintro rfl
      rw [hself] at hr
      cases hr
    rw [hother j hj] at hr hp ⊢
    exact h.whole j chunks' hr hp
  · intro F hF
    rw [hdb] at hF
    obtain ⟨j, hv⟩ := h.version F hF
    have hj : j ≠ k := hv.ne (by rw [hphase]; rfl)
    exact ⟨j, hv.keep (hother j hj) (fun _ _ => by rw [hdb]) (hissue j hj)⟩

theorem of_reserve {now : Seconds} (h : Consistent cfg n)
    (hphase : (n.creates k).phase = .placing chunks)
    (hlen : (n.creates k).req.numChunks.toNat ≤ chunks.length)
    (hstore : n'.store = (n.store.createPending (n.creates k).req.filename
      (n.creates k).req.size (n.creates k).req.numChunks chunks now).2)
    (hissued : n'.issued = n.issued)
    (hcreates : n'.creates = Function.update n.creates k ⟨(n.creates k).req,
      .replied ⟨true, "reserved", chunks.map ChunkMeta.placement⟩⟩) :
    Consistent cfg n' := by
  obtain ⟨db, hpend, hfiles, hchunks, _⟩ := h.createPending_tables hphase
    (n.creates k).req.filename (n.creates k).req.size (n.creates k).req.numChunks now
  rw [hpend] at hstore
  have hdb : n'.db = db := congrArg MetadataStore.committed hstore
  have hself : n'.creates k = ⟨(n.creates k).req,
      .replied ⟨true, "reserved", chunks.map ChunkMeta.placement⟩⟩ := by
    rw [hcreates, Function.update_self]
  have hother : ∀ j ≠ k, n'.creates j = n.creates j := fun j hj => by
    rw [hcreates, Function.update_of_ne hj]
  have hplan := h.plan k chunks (by rw [hphase]; rfl)
  have hplans : ∀ j chunks', (n'.creates j).phase.plan = some chunks' →
      (n.creates j).phase.plan = some chunks' := by
    intro j chunks' hp
    by_cases hj : j = k
    · subst hj
      rw [hself] at hp
      simpa [CreatePhase.plan, hphase, Function.comp_def] using hp
    · rwa [hother j hj] at hp
  refine ⟨by rw [hstore]; rfl, hissued ▸ h.issued_key,
    fun j chunks' hp => (h.plan j chunks' (hplans j chunks' hp)).of_issued fun _ _ => by rw [hissued],
    fun j chunks' hp => h.placed j chunks' (hplans j chunks' hp), ?_, ?_, ?_⟩
  · intro j chunks' hp
    have hj : j ≠ k := by
      rintro rfl
      rw [hself] at hp
      cases hp
    rw [hother j hj] at hp ⊢
    exact h.placing j chunks' hp
  · intro j chunks' hr hp
    by_cases hj : j = k
    · subst hj
      have hp' := hplans j chunks' hp
      rw [hphase] at hp'
      simp only [CreatePhase.plan, Option.some.injEq] at hp'
      subst hp'
      rw [hself]
      exact le_antisymm (h.placing j chunks hphase) hlen
    · rw [hother j hj] at hr hp ⊢
      exact h.whole j chunks' hr hp
  · intro F hF
    rw [hdb, hfiles, List.mem_append, List.mem_singleton, Db.mem_deleteFile_files] at hF
    rcases hF with ⟨hF, hne⟩ | rfl
    · -- another file: none of its rows is touched
      obtain ⟨j, hv⟩ := h.version F hF
      have hj : j ≠ k := hv.ne (by rw [hphase]; rfl)
      refine ⟨j, hv.keep (hother j hj) (fun c i => ?_) fun _ _ => by rw [hissued]⟩
      rw [hdb, hchunks, List.mem_append, Db.mem_deleteFile_chunks]
      constructor
      · rintro (hc | hc)
        · exact hc.1
        · obtain ⟨m, _, hm⟩ := List.mem_map.mp hc
          exact absurd (congrArg ChunkRow.filename hm).symm hne
      · exact fun hc => .inl ⟨hc, hne⟩
    · -- the reserved file: its rows are the plan
      exact ⟨k, .of_reserve hplan (by rw [hself]; rfl) (by rw [hself]) hissued (by rw [hdb, hchunks]) _⟩

theorem of_createMove {a : CreateStep} (h : Consistent cfg n) (hm : CreateMove cfg n k a n') :
    Consistent cfg n' := by
  cases hm with
  | turn req p hstore hissued _ hcreates hreq hplan hnew hold =>
    exact h.of_turn hstore hissued hcreates hreq hplan hnew hold
  | place chunks id locations _ hphase hfresh hlocs hlen hstore _ hissued hlt hcreates =>
    exact h.of_place hphase hfresh (hlocs ▸ n.registry.pick_nodup n.now _) hlen hstore hissued hlt
      hcreates
  | reserve chunks now _ hphase hlen _ hstore hissued _ hcreates =>
    exact h.of_reserve hphase hlen hstore hissued hcreates
  | raise chunks now e _ hphase herr _ _ =>
    obtain ⟨db, hdb, _⟩ := h.createPending_tables hphase (n.creates k).req.filename
      (n.creates k).req.size (n.creates k).req.numChunks now
    rw [hdb] at herr
    cases herr

theorem of_step {a : NamingAction} {out : List StorageRpc} (h : Consistent cfg n)
    (hs : n.step cfg a = some (n', out)) : Consistent cfg n' := by
  rcases step_moves hs with ⟨k, b, _, hm⟩ | ⟨_, rfl⟩ | ⟨hm, hcreates, hissued⟩
  · exact h.of_createMove (createStep_moves hm)
  · exact h.of_crash
  · exact h.of_storeMove hm hcreates hissued

end Consistent

/-- The chunk rows of a file are numbered by their places in the plan. -/
theorem VersionOf.indices {F : FileRow} (hv : n.VersionOf F k) (h : Consistent cfg n) :
    ((n.db.chunks.filter (·.filename = F.filename)).map ChunkRow.idx).Perm
      (List.range (n.creates k).req.numChunks.toNat) := by
  obtain ⟨chunks, hplan⟩ := reserved_plan hv.reserved
  have hp := h.plan k chunks hplan
  rw [← h.whole k chunks hv.reserved hplan]
  refine (List.perm_ext_iff_of_nodup ?_ List.nodup_range).mpr fun i => ?_
  · refine (n.db.chunks_key.of_map.filter _).map_on ?_
    intro r hr r' hr' he
    simp only [List.mem_filter, decide_eq_true_eq] at hr hr'
    -- equal index means the same place in the plan
    have h₁ := (hv.rows r.chunkId r.idx).mp (by rw [← hr.2]; exact hr.1)
    have h₂ := (hv.rows r'.chunkId r'.idx).mp (by rw [← hr'.2]; exact hr'.1)
    obtain ⟨m, hm, hid⟩ := (hp.issue _ _).mp h₁
    obtain ⟨m', hm', hid'⟩ := (hp.issue _ _).mp h₂
    rw [he] at hm
    obtain rfl := Option.some.inj (hm.symm.trans hm')
    exact n.db.chunk_unique hr.1 hr'.1 (hid.symm.trans hid')
  · simp only [List.mem_map, List.mem_filter, decide_eq_true_eq, List.mem_range]
    constructor
    · rintro ⟨r, ⟨hr, hname⟩, rfl⟩
      obtain ⟨m, hm, _⟩ := (hp.issue _ _).mp ((hv.rows r.chunkId r.idx).mp (by rw [← hname]; exact hr))
      exact (List.getElem?_eq_some_iff.mp hm).1
    · intro hi
      have hissue := (hp.issue chunks[i].chunkId i).mpr ⟨_, List.getElem?_eq_getElem hi, rfl⟩
      exact ⟨_, ⟨(hv.rows _ _).mpr hissue, rfl⟩, rfl⟩

/-! ### Runs -/

/-- States of a run of the naming server from its first start. -/
def Reachable (cfg : Settings) (ok : NamingServer → NamingAction → Prop) (n : NamingServer) : Prop :=
  Steps (NamingServer.next cfg) ok NamingServer.init n

theorem exists_step_of_next {a : NamingAction} (h : n.next cfg a = some n') :
    ∃ out, n.step cfg a = some (n', out) := by
  simp only [next, Option.map_eq_some_iff] at h
  obtain ⟨⟨m, out⟩, hm, rfl⟩ := h
  exact ⟨out, hm⟩

theorem Reachable.consistent {ok : NamingServer → NamingAction → Prop}
    (h : Reachable cfg ok n) : Consistent cfg n :=
  Steps.invariant h Consistent.init fun _ _ _ _ hc _ hs =>
    hc.of_step (exists_step_of_next hs).choose_spec

end NamingServer

end GfsCluster
