import GfsCluster.Metadata.Effects
import GfsCluster.Naming.StepCases

/-! What one step of the naming server can do, said once. A CreateFile handler either
turns its phase, places one chunk, or reserves; every other thread leaves the handlers
and the issued ids alone and writes the database only by a commit, a removal, or a
replica row. -/

namespace GfsCluster

def ChunkPlacement.toMeta (p : ChunkPlacement) : ChunkMeta := ⟨p.chunkId, p.index, p.locations⟩

@[simp] theorem ChunkMeta.toMeta_placement (m : ChunkMeta) : m.placement.toMeta = m := rfl

@[simp] theorem ChunkMeta.map_toMeta_placement (chunks : List ChunkMeta) :
    (chunks.map ChunkMeta.placement).map ChunkPlacement.toMeta = chunks := by
  simp [Function.comp_def]

namespace CreatePhase

/-- What the handler has been handed out so far, as long as it still matters. -/
def plan : CreatePhase → Option (List ChunkMeta)
  | idle | received | checked | oldRow _ => some []
  | placing chunks => some chunks
  | replied resp => if resp.ok then some (resp.placements.map ChunkPlacement.toMeta) else none
  | failed => none

/-- The reservation went through. -/
def reserved : CreatePhase → Bool
  | replied resp => resp.ok
  | _ => false

end CreatePhase

namespace NamingServer

variable {cfg : Settings} {n n' : NamingServer} {k : ℕ}

/-- The steps of one CreateFile handler, by what they do to the database, the handlers
and the issued ids. -/
inductive CreateMove (cfg : Settings) (n : NamingServer) (k : ℕ) (a : CreateStep)
    (n' : NamingServer) : Prop
  | turn (req : CreateFileRequest) (p : CreatePhase)
      (hstore : n'.store = n.store) (hissued : n'.issued = n.issued) (hgraves : n'.graves = n.graves)
      (hcreates : n'.creates = Function.update n.creates k ⟨req, p⟩)
      (hreq : (n.creates k).phase = .idle ∨ req = (n.creates k).req)
      (hplan : p.plan = (n.creates k).phase.plan ∨ p.plan = none)
      (hnew : p.reserved = false) (hold : (n.creates k).phase.reserved = false) (hp : p ≠ .idle)
  | place (chunks : List ChunkMeta) (id : ChunkId) (locations : List Addr) (ha : a = .place id)
      (hphase : (n.creates k).phase = .placing chunks)
      (hfresh : id ∉ n.issued.map Issue.chunkId)
      (hlocs : locations = (n.registry.pick n.now cfg.replication).1)
      (hlen : locations.length = cfg.replication)
      (hstore : n'.store = n.store) (hgraves : n'.graves = n.graves)
      (hissued : n'.issued = n.issued ++ [⟨id, k, chunks.length⟩])
      (hlt : chunks.length < (n.creates k).req.numChunks.toNat)
      (hcreates : n'.creates = Function.update n.creates k
        ⟨(n.creates k).req, .placing (chunks ++ [⟨id, chunks.length, locations⟩])⟩)
  | reserve (chunks : List ChunkMeta) (now : Seconds) (ha : a = .reserve now)
      (hphase : (n.creates k).phase = .placing chunks)
      (hlen : (n.creates k).req.numChunks.toNat ≤ chunks.length)
      (hok : (n.store.createPending (n.creates k).req.filename (n.creates k).req.size
        (n.creates k).req.numChunks chunks now).1 = .ok ())
      (hstore : n'.store = (n.store.createPending (n.creates k).req.filename
        (n.creates k).req.size (n.creates k).req.numChunks chunks now).2)
      (hissued : n'.issued = n.issued)
      (hgraves : n'.graves = n.graves ++ n.db.chunksWithRow (n.creates k).req.filename)
      (hcreates : n'.creates = Function.update n.creates k ⟨(n.creates k).req,
        .replied ⟨true, "reserved", chunks.map ChunkMeta.placement⟩⟩)
  | raise (chunks : List ChunkMeta) (now : Seconds) (e : SqlError) (ha : a = .reserve now)
      (hphase : (n.creates k).phase = .placing chunks)
      (herr : (n.store.createPending (n.creates k).req.filename (n.creates k).req.size
        (n.creates k).req.numChunks chunks now).1 = .error e)
      (hissued : n'.issued = n.issued)
      (hcreates : n'.creates = Function.update n.creates k ⟨(n.creates k).req, .failed⟩)

theorem createStep_moves {a : CreateStep} (h : n.createStep cfg k a = some n') :
    CreateMove cfg n k a n' := by
  cases case_of_createStep h with
  | receive req hp =>
    exact .turn req .received rfl rfl rfl rfl (.inl hp) (.inl (by rw [hp]; rfl)) rfl (by rw [hp]; rfl)
      (by simp)
  | tooFew hp _ =>
    exact .turn _ _ rfl rfl rfl rfl (.inr rfl) (.inr rfl) rfl (by rw [hp]; rfl) (by simp)
  | checkLive hp _ | newName _ hp _ | oldName _ _ hp _ | selectChunks _ _ hp =>
    exact .turn _ _ rfl rfl rfl rfl (.inr rfl) (.inl (by rw [hp]; rfl)) rfl (by rw [hp]; rfl) (by simp)
  | fallShort _ _ hp _ _ =>
    exact .turn _ _ rfl rfl rfl rfl (.inr rfl) (.inr rfl) rfl (by rw [hp]; rfl) (by simp)
  | place id chunks hp hlt hlen hfresh =>
    exact .place chunks id _ rfl hp hfresh rfl hlen rfl rfl rfl hlt rfl
  | reserve now chunks store hp hall hpend =>
    exact .reserve chunks now rfl hp hall (by rw [hpend]) (by rw [hpend]) rfl rfl rfl
  | raise now chunks e store hp _ hpend => exact .raise chunks now e rfl hp (by rw [hpend]) rfl rfl

/-- A CreateFile step sends nothing. -/
theorem createStep_of_step {a : CreateStep} {out : List StorageRpc}
    (h : n.step cfg (.create k a) = some (n', out)) : n.createStep cfg k a = some n' ∧ out = [] := by
  simp only [step, Option.map_eq_some_iff, Prod.mk.injEq] at h
  obtain ⟨m, hm, rfl, rfl⟩ := h
  exact ⟨hm, rfl⟩

/-- Nor does a GetFile step. -/
theorem getStep_of_step {a : GetStep} {out : List StorageRpc}
    (h : n.step cfg (.get k a) = some (n', out)) : n.getStep k a = some n' ∧ out = [] := by
  simp only [step, Option.map_eq_some_iff, Prod.mk.injEq] at h
  obtain ⟨m, hm, rfl, rfl⟩ := h
  exact ⟨hm, rfl⟩

/-- A CreateFile step is its own handler's. -/
theorem createStep_other {a : CreateStep} (h : n.createStep cfg k a = some n') {j : ℕ} (hj : j ≠ k) :
    n'.creates j = n.creates j := by
  cases createStep_moves h with
  | turn _ _ _ _ _ hcreates => rw [hcreates, Function.update_of_ne hj]
  | place _ _ _ _ _ _ _ _ _ _ _ _ hcreates => rw [hcreates, Function.update_of_ne hj]
  | reserve _ _ _ _ _ _ _ _ _ hcreates => rw [hcreates, Function.update_of_ne hj]
  | raise _ _ _ _ _ _ _ hcreates => rw [hcreates, Function.update_of_ne hj]

/-- A handler that works has not reserved yet, and keeps the request that it has. -/
theorem createStep_own {a : CreateStep} (h : n.createStep cfg k a = some n') :
    (n.creates k).phase.reserved = false ∧ (n'.creates k).phase ≠ .idle ∧
      ((n.creates k).phase = .idle ∨ (n'.creates k).req = (n.creates k).req) := by
  cases createStep_moves h with
  | turn req p _ _ _ hcreates hreq _ _ hold hp =>
    rw [hcreates, Function.update_self]
    exact ⟨hold, hp, hreq⟩
  | place _ _ _ _ hphase _ _ _ _ _ _ _ hcreates =>
    rw [hcreates, Function.update_self, hphase]
    exact ⟨rfl, by simp, .inr rfl⟩
  | reserve _ _ _ hphase _ _ _ _ _ hcreates =>
    rw [hcreates, Function.update_self, hphase]
    exact ⟨rfl, by simp, .inr rfl⟩
  | raise _ _ _ _ hphase _ _ hcreates =>
    rw [hcreates, Function.update_self, hphase]
    exact ⟨rfl, by simp, .inr rfl⟩

/-- A request arrives by the first step of its handler and is kept from then on. -/
theorem createStep_req {a : CreateStep} (h : n.createStep cfg k a = some n') (j : ℕ) :
    (n'.creates j).req = (n.creates j).req ∨ j = k ∧ a = .receive (n'.creates j).req := by
  by_cases hj : j = k
  · subst hj
    cases case_of_createStep h <;> simp [setCreate]
  · exact .inl (by rw [createStep_other h hj])

/-- The other components are not the handler's business. -/
theorem createStep_frame {a : CreateStep} (h : n.createStep cfg k a = some n') :
    n'.now = n.now ∧ n'.deletes = n.deletes ∧ n'.gets = n.gets ∧ n'.cleanup = n.cleanup ∧
      n'.heal = n.heal ∧ n'.ticket = n.ticket ∧ n'.registry.lastSeen = n.registry.lastSeen := by
  cases case_of_createStep h <;> simp [setCreate]

/-- The file that `delete_file` removes in the step. -/
def removes (n : NamingServer) : NamingAction → Option Filename
  | .delete j .remove => some (n.deletes j).filename
  | .cleanup .remove =>
    match n.cleanup with
    | .removing _ (fm :: _) => some fm.filename
    | _ => none
  | _ => none

/-- The writes of the other handlers and threads. -/
inductive StoreMove (n : NamingServer) (a : NamingAction) (n' : NamingServer) : Prop
  | keep (hstore : n'.store = n.store) (hgraves : n'.graves = n.graves)
  | commit (f : Filename) (ha : a = .commit f) (hstore : n'.store = (n.store.commitFile f).2)
      (hgraves : n'.graves = n.graves)
  | remove (f : Filename) (hstore : n'.store = (n.store.deleteFile f).2)
      (hgraves : n'.graves = n.graves ++ n.db.chunksWithRow f) (hf : n.removes a = some f)
  | record (live : List Addr) (rest : List ChunkMeta) (repaired : ℕ) (w : Repair) (target : Addr)
      (ha : a = .heal .record) (hheal : n.heal = .copied live rest repaired w target)
      (hstore : n'.store = (n.store.addReplica w.chunkId target).2) (hgraves : n'.graves = n.graves)
  | drop (live : List Addr) (rest : List ChunkMeta) (repaired : ℕ) (w : Repair) (addr : Addr)
      (ha : a = .heal .drop) (hheal : n.heal = .dropping live rest repaired w addr)
      (hstore : n'.store = (n.store.removeReplica w.chunkId addr).2) (hgraves : n'.graves = n.graves)

theorem deleteStep_moves {a : DeleteStep} {out : List StorageRpc}
    (h : n.deleteStep k a = some (n', out)) : StoreMove n (.delete k a) n' ∧ n'.creates = n.creates ∧
      n'.issued = n.issued ∧ n'.registry = n.registry ∧ n'.heal = n.heal ∧ n'.ticket = n.ticket ∧
      n'.cleanup = n.cleanup ∧ n'.purges = n.purges := by
  cases case_of_deleteStep h with
  | remove fm hp => exact ⟨.remove _ rfl rfl rfl, rfl, rfl, rfl, rfl, rfl, rfl, rfl⟩
  | _ => exact ⟨.keep rfl rfl, rfl, rfl, rfl, rfl, rfl, rfl, rfl⟩

/-- A DeleteFile step is its own handler's. -/
theorem deleteStep_other {a : DeleteStep} {out : List StorageRpc}
    (h : n.deleteStep k a = some (n', out)) {j : ℕ} (hj : j ≠ k) : n'.deletes j = n.deletes j := by
  cases case_of_deleteStep h <;> simp [setDelete, removeFile, Function.update_of_ne hj]

theorem getStep_frame {a : GetStep} (h : n.getStep k a = some n') :
    n'.store = n.store ∧ n'.graves = n.graves ∧ n'.creates = n.creates ∧ n'.issued = n.issued ∧
      n'.registry = n.registry ∧ n'.heal = n.heal ∧ n'.ticket = n.ticket ∧
      n'.cleanup = n.cleanup ∧ n'.purges = n.purges ∧ n'.deletes = n.deletes := by
  cases case_of_getStep h <;> exact ⟨rfl, rfl, rfl, rfl, rfl, rfl, rfl, rfl, rfl, rfl⟩

theorem cleanupStep_moves {a : CleanupStep} {out : List StorageRpc}
    (h : n.cleanupStep cfg a = some (n', out)) : StoreMove n (.cleanup a) n' ∧ n'.creates = n.creates ∧
      n'.issued = n.issued ∧ n'.registry = n.registry ∧ n'.heal = n.heal ∧ n'.ticket = n.ticket ∧
      n'.deletes = n.deletes ∧ n'.purges = n.purges := by
  cases case_of_cleanupStep h with
  | remove cutoff fm stale hp =>
    exact ⟨.remove _ rfl rfl (by simp [removes, hp]), rfl, rfl, rfl, rfl, rfl, rfl, rfl⟩
  | _ => exact ⟨.keep rfl rfl, rfl, rfl, rfl, rfl, rfl, rfl, rfl⟩

theorem healStep_frame {a : HealStep} {out : List StorageRpc}
    (h : n.healStep cfg a = some (n', out)) : n'.graves = n.graves ∧ n'.creates = n.creates ∧
      n'.issued = n.issued ∧ n'.registry.lastSeen = n.registry.lastSeen ∧
      n'.cleanup = n.cleanup ∧ n'.deletes = n.deletes ∧ n'.purges = n.purges := by
  cases case_of_healStep h <;> simp

theorem healStep_moves {a : HealStep} {out : List StorageRpc}
    (h : n.healStep cfg a = some (n', out)) : StoreMove n (.heal a) n' := by
  cases case_of_healStep h with
  | raise live rest repaired w target e store hp hadd =>
    exact .record live rest repaired w target rfl hp (by rw [hadd]) rfl
  | record live rest repaired w target added store hp hadd _ =>
    exact .record live rest repaired w target rfl hp (by rw [hadd]) rfl
  | replace live rest repaired w target x stale added store hp hadd _ =>
    exact .record live rest repaired w target rfl hp (by rw [hadd]) rfl
  | drop live rest repaired w x hp => exact .drop live rest repaired w x rfl hp rfl rfl
  | _ => exact .keep rfl rfl

/-- A step is a CreateFile handler's, a restart, or leaves the handlers and the issued
ids alone and makes at most one write. -/
theorem step_moves {a : NamingAction} {out : List StorageRpc} (h : n.step cfg a = some (n', out)) :
    (∃ k b, a = .create k b ∧ n.createStep cfg k b = some n') ∨ (a = .crash ∧ n' = n.crash) ∨
      (StoreMove n a n' ∧ n'.creates = n.creates ∧ n'.issued = n.issued) := by
  cases a with
  | create k b =>
    obtain ⟨hm, _⟩ := createStep_of_step h
    exact .inl ⟨k, b, rfl, hm⟩
  | crash =>
    cases h
    exact .inr (.inl ⟨rfl, rfl⟩)
  | commit f =>
    cases h
    exact .inr (.inr ⟨.commit f rfl rfl rfl, rfl, rfl⟩)
  | delete k b =>
    have hm := deleteStep_moves h
    exact .inr (.inr ⟨hm.1, hm.2.1, hm.2.2.1⟩)
  | get k b =>
    obtain ⟨hm, _⟩ := getStep_of_step h
    have hf := getStep_frame hm
    exact .inr (.inr ⟨.keep hf.1 hf.2.1, hf.2.2.1, hf.2.2.2.1⟩)
  | cleanup b =>
    have hm := cleanupStep_moves h
    exact .inr (.inr ⟨hm.1, hm.2.1, hm.2.2.1⟩)
  | heal b =>
    have hf := healStep_frame h
    exact .inr (.inr ⟨healStep_moves h, hf.2.1, hf.2.2.1⟩)
  | _ =>
    cases case_of_step h
    exact .inr (.inr ⟨.keep rfl rfl, rfl, rfl⟩)

/-- Each thread's variables change by its own steps only. -/
theorem step_frame {a : NamingAction} {out : List StorageRpc} (h : n.step cfg a = some (n', out)) :
    a = .crash ∨
      ((∃ k b, a = .delete k b) ∨ n'.deletes = n.deletes) ∧
      ((∃ b, a = .cleanup b) ∨ n'.cleanup = n.cleanup) ∧
      ((∃ b, a = .heal b) ∨ n'.heal = n.heal ∧ n'.ticket = n.ticket) ∧
      ((∃ addr, a = .registerStorage addr ∨ a = .heartbeat addr) ∨
        n'.registry.lastSeen = n.registry.lastSeen) := by
  cases a with
  | crash => exact .inl rfl
  | create k b =>
    obtain ⟨hm, _⟩ := createStep_of_step h
    obtain ⟨_, hd, _, hc, hh, ht, hr⟩ := createStep_frame hm
    exact .inr ⟨.inr hd, .inr hc, .inr ⟨hh, ht⟩, .inr hr⟩
  | delete k b =>
    obtain ⟨_, _, _, hr, hh, ht, hc, _⟩ := deleteStep_moves h
    exact .inr ⟨.inl ⟨k, b, rfl⟩, .inr hc, .inr ⟨hh, ht⟩, .inr (by rw [hr])⟩
  | get k b =>
    obtain ⟨hm, _⟩ := getStep_of_step h
    obtain ⟨_, _, _, _, hr, hh, ht, hc, _, hd⟩ := getStep_frame hm
    exact .inr ⟨.inr hd, .inr hc, .inr ⟨hh, ht⟩, .inr (by rw [hr])⟩
  | cleanup b =>
    obtain ⟨_, _, _, hr, hh, ht, hd, _⟩ := cleanupStep_moves h
    exact .inr ⟨.inr hd, .inl ⟨b, rfl⟩, .inr ⟨hh, ht⟩, .inr (by rw [hr])⟩
  | heal b =>
    obtain ⟨_, _, _, hr, hc, hd, _⟩ := healStep_frame h
    exact .inr ⟨.inr hd, .inr hc, .inl ⟨b, rfl⟩, .inr hr⟩
  | registerStorage addr =>
    cases h
    exact .inr ⟨.inr rfl, .inr rfl, .inr ⟨rfl, rfl⟩, .inl ⟨addr, .inl rfl⟩⟩
  | heartbeat addr =>
    cases h
    exact .inr ⟨.inr rfl, .inr rfl, .inr ⟨rfl, rfl⟩, .inl ⟨addr, .inr rfl⟩⟩
  | _ =>
    cases case_of_step h
    exact .inr ⟨.inr rfl, .inr rfl, .inr ⟨rfl, rfl⟩, .inr rfl⟩

/-- A request is changed by its own steps. -/
theorem requests_of_step {a : NamingAction} {out : List StorageRpc}
    (h : n.step cfg a = some (n', out)) (hcrash : a ≠ .crash) (k : ℕ) :
    ((∃ b, a = .create k b) ∨ n'.creates k = n.creates k) ∧
      ((∃ b, a = .delete k b) ∨ n'.deletes k = n.deletes k) := by
  constructor
  · rcases step_moves h with ⟨j, b, rfl, hm⟩ | ⟨rfl, _⟩ | ⟨_, hcreates, _⟩
    · by_cases hj : k = j
      · exact .inl ⟨b, by rw [hj]⟩
      · exact .inr (createStep_other hm hj)
    · exact absurd rfl hcrash
    · exact .inr (by rw [hcreates])
  · rcases ((step_frame h).resolve_left hcrash).1 with ⟨j, b, rfl⟩ | hdeletes
    · by_cases hj : k = j
      · exact .inl ⟨b, by rw [hj]⟩
      · exact .inr (deleteStep_other h hj)
    · exact .inr (by rw [hdeletes])

theorem StoreMove.shrinks {a : NamingAction} (hclean : n.store.Clean) (h : StoreMove n a n') :
    n'.store.Clean ∧ n.db.Shrinks n'.db := by
  have hw : n.store.writer = n.store.committed := hclean
  cases h with
  | keep hstore _ =>
    simp only [db, hstore]
    exact ⟨hclean, .refl _⟩
  | commit f _ hstore _ =>
    simp only [db, hstore, MetadataStore.commitFile, hw]
    exact ⟨rfl, Db.shrinks_markCommitted f⟩
  | remove f hstore _ =>
    simp only [db, hstore, MetadataStore.deleteFile, hw]
    exact ⟨rfl, Db.shrinks_deleteFile f⟩
  | record live rest repaired w target _ _ hstore _ =>
    simp only [db, hstore]
    obtain ⟨hc, ⟨_, _, hm, _⟩ | ⟨_, hm, _⟩ | ⟨_, _, hf, hch, _⟩⟩ :=
      MetadataStore.addReplica_cases hclean w.chunkId target
    · rw [hm]
      exact ⟨hclean, .refl _⟩
    · rw [hm]
      exact ⟨hclean, .refl _⟩
    · exact ⟨hc, Db.shrinks_of_eq hf hch⟩
  | drop live rest repaired w addr _ _ hstore _ =>
    simp only [db, hstore, MetadataStore.removeReplica, hw]
    exact ⟨rfl, Db.shrinks_deleteReplica w.chunkId addr⟩

end NamingServer

end GfsCluster
