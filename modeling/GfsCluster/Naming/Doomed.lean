import GfsCluster.Naming.Deletion

/-! Chunks that are given up. An overwrite starts to delete the chunks of the old version
before its reservation takes their rows away. As long as no overwrite of a file with chunks
fails in between, every chunk asked to be deleted has lost its rows or is about to. -/

namespace GfsCluster

open StepSystem

namespace NamingServer

variable {cfg : Settings} {n n' : NamingServer} {k : ℕ} {f : Filename} {c : ChunkId} {a : NamingAction}
  {out : List StorageRpc}

/-- The chunk has lost its rows, or a request on its file is about to replace them. -/
def Doomed (n : NamingServer) (c : ChunkId) : Prop :=
  n.Dead c ∨ ∃ k chunks, (n.creates k).phase = .placing chunks ∧ n.BornIn (n.creates k).req.filename c

/-- No chunk has its row under the name. -/
def Vacant (n : NamingServer) (f : Filename) : Prop := ∀ r ∈ n.db.chunks, r.filename ≠ f

instance (n : NamingServer) (f : Filename) : Decidable (n.Vacant f) :=
  inferInstanceAs (Decidable (∀ r ∈ n.db.chunks, _))

/-- No request for a file with chunks fails between its second SELECT and its reservation: the
server does not die, and enough storage servers are live when a chunk is placed. -/
def KeepsPlacing (cfg : Settings) (n : NamingServer) : NamingAction → Prop
  | .crash => ∀ k chunks, (n.creates k).phase = .placing chunks → n.Vacant (n.creates k).req.filename
  | .create k (.place _) => n.Vacant (n.creates k).req.filename ∨
    cfg.replication ≤ (n.registry.liveServers n.now).length
  | _ => True

theorem dead_of_vacant (h : n.Vacant f) (hc : Consistent cfg n) (hborn : n.BornIn f c) : n.Dead c :=
  dead_of_no_rows hborn hc fun row hrow _ => h row hrow

/-- A request that places chunks for a file with chunks goes on to, or makes its reservation. -/
theorem placing_of_step {chunks : List ChunkMeta} (hc : Consistent cfg n) (hok : KeepsPlacing cfg n a)
    (hs : n.step cfg a = some (n', out)) (hphase : (n.creates k).phase = .placing chunks)
    (hfull : ¬ n.Vacant (n.creates k).req.filename) :
    (n'.creates k).req = (n.creates k).req ∧ ((∃ chunks', (n'.creates k).phase = .placing chunks') ∨
      (n'.creates k).phase.reserved = true) := by
  have hreq := (step_req (k := k) hs (by rw [hphase]; simp)).1
  refine ⟨hreq, ?_⟩
  rcases step_moves hs with ⟨j, b, rfl, hm⟩ | ⟨rfl, _⟩ | ⟨_, hcreates, _⟩
  · by_cases hj : k = j
    · subst hj
      cases b with
      | place id =>
        have hlive : cfg.replication ≤ (n.registry.liveServers n.now).length :=
          hok.resolve_left hfull
        have hpick := n.registry.length_pick n.now cfg.replication
        simp only [createStep, hphase] at hm
        split_ifs at hm with hlt hshort hissued
        · omega
        · cases hm
          exact .inl ⟨_, by simp [setCreate]; rfl⟩
      | reserve now =>
        obtain ⟨db, hdb, _⟩ := hc.createPending_tables hphase (n.creates k).req.filename
          (n.creates k).req.size (n.creates k).req.numChunks now
        simp only [createStep, hphase, hdb] at hm
        split_ifs at hm
        cases hm
        exact .inr (by simp [setCreate, CreatePhase.reserved])
      | _ =>
        all_goals
          simp only [createStep, hphase] at hm
          cases hm
    · rw [createStep_other hm hj]
      exact .inl ⟨_, hphase⟩
  · exact absurd (hok k chunks hphase) hfull
  · rw [hcreates]
    exact .inl ⟨_, hphase⟩

theorem Doomed.of_step (h : n.Doomed c) (hc : Consistent cfg n) (hok : KeepsPlacing cfg n a)
    (hs : n.step cfg a = some (n', out)) : n'.Doomed c := by
  rcases h with hdead | ⟨k, chunks, hphase, hborn⟩
  · exact .inl (hdead.step hc hs)
  · by_cases hvacant : n.Vacant (n.creates k).req.filename
    · exact .inl ((dead_of_vacant hvacant hc hborn).step hc hs)
    obtain ⟨hreq, ⟨chunks', hphase'⟩ | hres⟩ := placing_of_step hc hok hs hphase hvacant
    · exact .inr ⟨k, chunks', hphase', by rw [hreq]; exact hborn.step hs⟩
    · -- the rows under the name are now those of the reservation's own plan
      left
      rcases reserve_of_step hc hs hres with hres | ⟨plan, now, hm⟩
      · rw [hphase] at hres
        cases hres
      · refine dead_of_no_rows (hborn.step hs) (hc.of_step hs) fun row hrow hid hname => ?_
        rw [hm.chunks, List.mem_append, Db.mem_deleteFile_chunks] at hrow
        rcases hrow with hrow | hrow
        · exact hrow.2 hname
        · obtain ⟨m, hmem, rfl⟩ := List.mem_map.mp hrow
          obtain ⟨i, hi⟩ := List.getElem?_of_mem hmem
          have hplan := hc.plan k plan (by rw [hm.phase]; rfl)
          have hissue := (hplan.issue _ i).mpr ⟨m, hi, hid⟩
          exact hc.not_born (by rw [hm.phase]; rfl) hissue hborn

/-- A chunk with rows is doomed by a request on its file only. -/
theorem not_doomed (hrow : c ∈ n.db.chunks.map ChunkRow.chunkId)
    (hidle : ∀ k chunks, (n.creates k).phase ≠ .placing chunks) : ¬ n.Doomed c := by
  rintro (hdead | ⟨k, chunks, hphase, _⟩)
  · exact hdead.2 hrow
  · exact hidle k chunks hphase

/-- What the deletion threads are still to delete is doomed. -/
def PurgesDoomed (n : NamingServer) : Prop := ∀ e ∈ n.purges, n.Doomed e.2.2

theorem PurgesDoomed.of_step (h : PurgesDoomed n) (hc : Consistent cfg n) (hok : KeepsPlacing cfg n a)
    (hs : n.step cfg a = some (n', out)) : PurgesDoomed n' := by
  intro e he
  rcases mem_purges_of_step hs he with he | ⟨o, row, rfl, hphase, hmem⟩
  · exact (h e he).of_step hc hok hs
  · have hborn := (hc.selected_born o row hmem).step hs
    simp only [step, createStep, hphase, Option.map_some, Option.some.injEq, Prod.mk.injEq] at hs
    obtain ⟨rfl, _⟩ := hs
    exact .inr ⟨e.1, [], by simp [setCreate], by simpa [setCreate] using hborn⟩

theorem doomed_of_deleteChunk {addr : Addr} (h : PurgesDoomed n) (hp : PendingDeletes n)
    (hs : n.step cfg a = some (n', out)) (hout : .deleteChunk addr c ∈ out) : n.Doomed c := by
  rcases deleteChunk_of_step hs hout with ⟨i, j, _, hi⟩ | ⟨j, _, _, _, hmem⟩ | ⟨_, hmem⟩
  · exact h _ (List.mem_of_getElem? hi)
  · exact .inl ((hp.deletes j).2 _ hmem)
  · exact .inl (hp.cleanup.2 _ hmem)

end NamingServer

end GfsCluster
