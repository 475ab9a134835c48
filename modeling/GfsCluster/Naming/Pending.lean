import GfsCluster.Naming.Healer

/-! Files that are not committed yet. The healer lists chunks of committed files only, so
as long as a version is pending its chunks are recorded where they were placed. -/

namespace GfsCluster

open StepSystem

namespace NamingServer

variable {cfg : Settings} {n n' : NamingServer} {k : ℕ} {c : ChunkId} {a : NamingAction}
  {out : List StorageRpc}

/-! ### The healer's chunks -/

/-- The healer still has to visit the chunk, or is repairing it. -/
def Listed (n : NamingServer) (c : ChunkId) : Prop :=
  c ∈ n.heal.rest.map ChunkMeta.chunkId ∨ ∃ w, n.heal.repair = some w ∧ w.chunkId = c

theorem HealMove.listed {b : HealStep} (hm : HealMove cfg n b n') (h : n'.Listed c) :
    n.Listed c ∨ ∃ (o : RowOrder) (live : List Addr), n'.db = n.db ∧
      c ∈ (underReplicatedChunks (o.view n.db) live cfg.replication).map ChunkMeta.chunkId := by
  unfold Listed at h ⊢
  cases hm with
  | stop h' => simp [HealPhase.rest_of_stop h', HealPhase.repair_of_stop h'] at h
  | pick count h' => simp [h', HealPhase.rest, HealPhase.repair] at h
  | known live _ h' => simp [h', HealPhase.rest, HealPhase.repair] at h
  | scan o live _ hdb h' =>
    simp only [h', HealPhase.rest, HealPhase.repair, reduceCtorEq, false_and, exists_false,
      or_false] at h
    exact .inr ⟨o, live, hdb, h⟩
  | skip rest repaired hrest h' =>
    simp only [h', HealPhase.rest, HealPhase.repair, reduceCtorEq, false_and, exists_false,
      or_false] at h
    exact .inl (.inl ((hrest.map ChunkMeta.chunkId).subset h))
  | start live m rest repaired w hheal hw h' =>
    simp only [h', hheal, HealPhase.rest, HealPhase.repair, Option.some.injEq, exists_eq_left',
      (startRepair_eq_some hw).1] at h ⊢
    rw [List.map_cons, List.mem_cons]
    exact .inl (.inl (h.elim .inr fun he => .inl he.symm))
  | copy live rest repaired w target candidates _ hheal _ _ h' =>
    simp only [h', hheal, HealPhase.rest, HealPhase.repair, Option.some.injEq, exists_eq_left'] at h ⊢
    exact .inl h
  | answer live rest repaired w target ticket ok _ hheal h' =>
    left
    rcases h' with h' | h' <;>
      simpa [h', hheal, HealPhase.rest, HealPhase.repair] using h
  | record live rest repaired w target added hheal _ _ h' =>
    left
    cases hstale : w.stale <;>
      simpa [h', hstale, hheal, HealPhase.rest, HealPhase.repair] using h
  | drop live rest repaired w x hheal _ h' =>
    left
    simpa [h', hheal, HealPhase.rest, HealPhase.repair] using h

theorem listed_of_step (hs : n.step cfg a = some (n', out)) (h : n'.Listed c) :
    n.Listed c ∨ ∃ (o : RowOrder) (live : List Addr), n'.db = n.db ∧
      c ∈ (underReplicatedChunks (o.view n.db) live cfg.replication).map ChunkMeta.chunkId := by
  rcases step_frame hs with rfl | ⟨_, _, ⟨b, rfl⟩ | ⟨hheal, _⟩, _⟩
  · cases hs
    simp [Listed, crash, HealPhase.rest, HealPhase.repair] at h
  · exact (heal_of_step hs).listed h
  · left
    unfold Listed at h ⊢
    rwa [hheal] at h

/-- What the healer has listed was committed, and is as long as it is there. -/
def HealsCommitted (n : NamingServer) : Prop :=
  ∀ c, n.Listed c → (∃ f, n.BornIn f c) ∧
    ∀ r ∈ n.db.chunks, r.chunkId = c → n.db.CommittedChunk c

theorem HealsCommitted.of_step (h : HealsCommitted n) (hc : Consistent cfg n)
    (hs : n.step cfg a = some (n', out)) : HealsCommitted n' := by
  intro c hl
  rcases listed_of_step hs hl with hl | ⟨o, live, hdb, hmem⟩
  · obtain ⟨⟨f, hb⟩, hcom⟩ := h c hl
    refine ⟨⟨f, hb.step hs⟩, ?_⟩
    rintro r hr' rfl
    have hr := hb.row_of_step hc hs hr'
    exact committed_of_step hc hs hr hr' (hcom r hr rfl)
  · obtain ⟨m, hm, rfl⟩ := List.mem_map.mp hmem
    obtain ⟨r, hr, hcom, _, rfl⟩ := mem_underReplicatedChunks.mp hm
    rw [o.mem_chunks] at hr
    rw [o.committedChunk] at hcom
    exact ⟨⟨_, (hc.row_born hr).step hs⟩, fun _ _ _ => hdb ▸ hcom⟩

theorem Reachable.healsCommitted {ok : NamingServer → NamingAction → Prop} (h : Reachable cfg ok n) :
    HealsCommitted n := by
  refine Steps.invariant h ?_ fun _ _ _ hr hm _ hs =>
    hm.of_step (Reachable.consistent hr) (exists_step_of_next hs).choose_spec
  intro c hl
  simp [Listed, NamingServer.init, HealPhase.rest, HealPhase.repair] at hl

/-! ### Placed chunks -/

/-- The chunks of a pending version are recorded where they were placed. -/
def PendingPlaced (n : NamingServer) : Prop :=
  ∀ F ∈ n.db.files, F.status = .pending → ∀ k chunks, n.VersionOf F k →
    (n.creates k).phase.plan = some chunks → ∀ m ∈ chunks, n.db.locations m.chunkId = m.locations

/-- A chunk of a plan has its row under the file whose version the plan is. -/
theorem VersionOf.row_of_plan {F : FileRow} {chunks : List ChunkMeta} (hv : n.VersionOf F k)
    (hp : n.PlanOf k chunks) {m : ChunkMeta} (hm : m ∈ chunks) : m.row F.filename ∈ n.db.chunks :=
  (hv.rows _ _).mpr (hp.issued_of_mem hm)

/-- Entries of one plan with the same id are the same. -/
theorem Consistent.plan_unique {chunks : List ChunkMeta} (h : Consistent cfg n) (hp : n.PlanOf k chunks)
    {m m' : ChunkMeta} (hm : m ∈ chunks) (hm' : m' ∈ chunks) (hid : m.chunkId = m'.chunkId) : m = m' :=
  List.inj_on_of_nodup_map (h.plan_ids_nodup hp) hm hm' hid

theorem PendingPlaced.of_step (h : PendingPlaced n) (hc : Consistent cfg n) (hheals : HealsCommitted n)
    (hs : n.step cfg a = some (n', out)) : PendingPlaced n' := by
  intro F hF' hpend k chunks hv' hplan' m hm
  have hc' := hc.of_step hs
  have hp' := hc'.plan k chunks hplan'
  have hr' := hv'.row_of_plan hp' hm
  by_cases hr : m.row F.filename ∈ n.db.chunks
  · -- an old row, so the file is an old one and nobody has touched its version
    have hF : F ∈ n.db.files := by
      rcases file_of_step hc hs hF' with hF | ⟨_, G, _, rfl⟩ | ⟨_, _, _, _, hne, _⟩
      · exact hF
      · cases hpend
      · exact absurd rfl (hne _ hr hr')
    obtain ⟨k₀, hv⟩ := hc.version F hF
    have hissue := step_issued hs ((hv.rows m.chunkId m.index).mp hr)
    have hk := hc'.issue_unique hissue ((hv'.rows _ _).mp hr') rfl
    simp only [Issue.mk.injEq, true_and, and_true] at hk
    subst hk
    rw [step_reserved hs hv.reserved] at hplan'
    have hlocs := h F hF hpend k₀ chunks hv hplan' m hm
    have hnot : ¬ n.Listed m.chunkId := by
      intro hl
      obtain ⟨r, hrow, hid, G, hG, hname, hst⟩ := (hheals _ hl).2 _ hr rfl
      obtain rfl := n.db.chunk_unique hrow hr hid
      rw [n.db.file_unique hG hF hname, hpend] at hst
      cases hst
    rcases locations_of_step hc hs hr hr' with he | ⟨_, _, _, w, target, _, hheal, hw, _⟩ |
      ⟨_, _, _, w, x, _, hheal, hw, _⟩
    · exact he.trans hlocs
    · exact absurd (.inr ⟨{ w with candidates := target :: w.candidates }, by rw [hheal]; rfl, hw⟩) hnot
    · exact absurd (.inr ⟨{ w with stale := x :: w.stale }, by rw [hheal]; rfl, hw⟩) hnot
  · -- a new row, recorded by the reservation of its own plan
    obtain ⟨j, t, placed, _, _, hplan, m₀, hm₀, hid, hlocs⟩ := locations_of_new_row hc hs hr' hr
    have hp := hc'.plan j placed hplan
    have hk := hc'.issue_unique (hp.issued_of_mem hm₀) ((hv'.rows _ _).mp hr') hid
    simp only [Issue.mk.injEq] at hk
    obtain ⟨_, rfl, _⟩ := hk
    rw [hplan, Option.some.injEq] at hplan'
    subst hplan'
    rw [← hc'.plan_unique hp hm₀ hm hid, ← hlocs]
    exact congrArg n'.db.locations hid

theorem Reachable.pendingPlaced {ok : NamingServer → NamingAction → Prop} (h : Reachable cfg ok n) :
    PendingPlaced n :=
  Steps.invariant h (fun F hF => by cases hF) fun _ _ _ hr hm _ hs =>
    hm.of_step (Reachable.consistent hr) (Reachable.healsCommitted hr)
      (exists_step_of_next hs).choose_spec

end NamingServer

end GfsCluster
