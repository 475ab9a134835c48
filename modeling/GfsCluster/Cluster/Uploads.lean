import GfsCluster.Cluster.Payload
import GfsCluster.Lib.Lists
import GfsCluster.Naming.Pending

/-! What is uploaded when CommitFile is sent. Every replica of the plan is still owed by
one of the upload threads or acknowledged, so a call that commits has everything
acknowledged. CommitFile goes by the name alone, though, and commits whatever
reservation is there; it covers uploaded replicas only when that is its own. -/

namespace GfsCluster

open StepSystem

/-- CommitFile is sent once, after the uploads, and a call returns when it is answered. -/
def CreateCall.Coherent (call : CreateCall) : Prop :=
  match call.phase with
  | .idle | .requested | .uploading _ => call.commit = .unsent
  | .committing => call.commit ≠ .unsent
  | .returned => call.commit = .answered true
  | .raised => True

theorem afterCreateFile_cases (data : Bytes) (resp : CreateFileResponse) :
    afterCreateFile data resp = .raised ∨ resp.ok = true ∧ ∃ plan,
      uploadPlan (splitChunks data) resp.placements = some plan ∧ afterCreateFile data resp =
        .uploading (plan.map fun w => ⟨w.1, uploadBatches w.2, .ready⟩) := by
  unfold afterCreateFile
  split_ifs with hok
  · split
    · rename_i plan hplan
      exact .inr ⟨hok, plan, hplan, rfl⟩
    · exact .inl rfl
  · exact .inl rfl

namespace Cluster

variable {cfg : Settings} {s s' t : Cluster} {a : ClusterAction} {k : ℕ} {addr : Addr} {c : ChunkId}
  {b : Bytes} {ok : Cluster → ClusterAction → Prop}

theorem coherent_of_step (h : (s.calls k).Coherent) (hs : s.step cfg a = some s') :
    (s'.calls k).Coherent := by
  unfold CreateCall.Coherent at h ⊢
  cases call_of_step hs k with
  | keep h' => rwa [h']
  | call f data _ _ h' => rw [h']
  | reply resp hp _ h' =>
    rw [hp] at h
    rw [h']
    rcases afterCreateFile_cases (s.calls k).data resp with he | ⟨_, plan, _, he⟩
    · simp [he]
    · simpa [he] using h
  | upload _ _ _ _ _ _ hp _ _ h' =>
    rw [hp] at h
    rw [h']
    exact h
  | acked _ _ _ _ _ _ hp _ _ _ h' =>
    rw [hp] at h
    rw [h']
    exact h
  | send _ _ _ h' => rw [h']; simp
  | exec _ hc h' =>
    rw [h']
    cases hp : (s.calls k).phase <;> simp_all
  | lost hc h' =>
    rw [h']
    cases hp : (s.calls k).phase <;> simp_all
  | finish ok _ hc h' =>
    rw [h']
    cases ok <;> simp [hc]
  | stop _ h' => rw [h']; trivial

/-- A storage server has acknowledged the chunk. -/
def Acked (s : Cluster) (c : ChunkId) (addr : Addr) : Prop :=
  ∃ b, s.Payload c b ∧ (c, addr, b) ∈ s.acked

/-- Some thread still has to write the chunk to the address. -/
def Owed (us : List Upload) (c : ChunkId) (addr : Addr) : Prop :=
  ∃ u ∈ us, u.addr = addr ∧ ∃ batch ∈ u.todo, ∃ b, (c, b) ∈ batch

/-- The plan of the call is reserved, and `P` holds of each of its replicas. -/
def PlanSatisfies (s : Cluster) (k : ℕ) (P : ChunkId → Addr → Prop) : Prop :=
  (s.naming.creates k).phase.reserved = true ∧ ∀ chunks,
    (s.naming.creates k).phase.plan = some chunks → ∀ m ∈ chunks, ∀ addr ∈ m.locations, P m.chunkId addr

structure Uploads (s : Cluster) : Prop where
  coherent : ∀ k, (s.calls k).Coherent
  acked : ∀ c addr b, (c, addr, b) ∈ s.acked → s.Payload c b
  uploading : ∀ k us, (s.calls k).phase = .uploading us →
    s.PlanSatisfies k fun c addr => Owed us c addr ∨ s.Acked c addr
  sent : ∀ k, (s.calls k).commit ≠ .unsent → s.PlanSatisfies k s.Acked

theorem Acked.of_step (h : s.Acked c addr) (hr : Requests s) (hs : s.step cfg a = some s') :
    s'.Acked c addr := by
  obtain ⟨b, hp, hb⟩ := h
  exact ⟨b, hp.of_step hr hs, mem_acked_of_step hs hb⟩

theorem reserved_of_step (hs : s.step cfg a = some s')
    (hr : (s.naming.creates k).phase.reserved = true) :
    s'.naming.creates k = s.naming.creates k := by
  rcases naming_of_step hs with he | ⟨_, _, _, hn⟩
  · rw [he]
  · exact NamingServer.step_reserved hn hr

theorem PlanSatisfies.of_step {P Q : ChunkId → Addr → Prop} (h : s.PlanSatisfies k P)
    (hs : s.step cfg a = some s') (himp : ∀ c addr, P c addr → Q c addr) : s'.PlanSatisfies k Q := by
  obtain ⟨hres, hplan⟩ := h
  unfold PlanSatisfies
  rw [reserved_of_step hs hres]
  exact ⟨hres, fun chunks hp m hm addr ha => himp _ _ (hplan chunks hp m hm addr ha)⟩

/-- All of the plan is owed when the threads start. -/
theorem owed_of_plan {plan : List (Addr × List (ChunkId × Bytes))} {chunks : List Bytes}
    {placements : List ChunkPlacement} (hplan : uploadPlan chunks placements = some plan)
    {p : ChunkPlacement} (hp : p ∈ placements) (ha : addr ∈ p.locations) :
    Owed (plan.map fun w => ⟨w.1, uploadBatches w.2, .ready⟩) p.chunkId addr := by
  obtain ⟨b, hb⟩ := exists_chunk_of_uploadPlan hplan hp
  obtain ⟨writes, hw, hin⟩ := (mem_uploadPlan hplan).mpr ⟨p, hp, ha, rfl, hb⟩
  obtain ⟨batch, hbatch, hx⟩ := mem_uploadBatches.mpr hin
  exact ⟨_, List.mem_map_of_mem hw, rfl, batch, hbatch, b, hx⟩

/-- A thread that turns, with the same batches to send, owes the same. -/
theorem Owed.set {us : List Upload} {j : ℕ} {todo : List (List (ChunkId × Bytes))}
    {addr' : Addr} {st st' : UploadState} (h : Owed us c addr)
    (hj : us[j]? = some ⟨addr', todo, st⟩) : Owed (us.set j ⟨addr', todo, st'⟩) c addr := by
  obtain ⟨u, hu, ha, hbatch⟩ := h
  rcases Lists.eq_or_mem_set ⟨addr', todo, st'⟩ hu hj with rfl | hu
  · have hlt := (List.getElem?_eq_some_iff.mp hj).1
    exact ⟨_, List.mem_set hlt _, ha, hbatch⟩
  · exact ⟨u, hu, ha, hbatch⟩

/-- An acknowledged batch is not owed any more. -/
theorem Owed.tail {us : List Upload} {j : ℕ} {batch : List (ChunkId × Bytes)}
    {rest : List (List (ChunkId × Bytes))} {addr' : Addr} {st st' : UploadState} (h : Owed us c addr)
    (hj : us[j]? = some ⟨addr', batch :: rest, st⟩) :
    Owed (us.set j ⟨addr', rest, st'⟩) c addr ∨ addr = addr' ∧ ∃ b, (c, b) ∈ batch := by
  obtain ⟨u, hu, ha, batch', hbatch, b, hb⟩ := h
  rcases Lists.eq_or_mem_set ⟨addr', rest, st'⟩ hu hj with rfl | hu
  · rcases List.mem_cons.mp hbatch with rfl | hbatch
    · exact .inr ⟨ha.symm, b, hb⟩
    · have hlt := (List.getElem?_eq_some_iff.mp hj).1
      exact .inl ⟨_, List.mem_set hlt _, ha, batch', hbatch, b, hb⟩
  · exact .inl ⟨u, hu, ha, batch', hbatch, b, hb⟩

namespace Uploads

theorem init : Uploads Cluster.init where
  coherent _ := rfl
  acked c addr b h := by simp [Cluster.init] at h
  uploading k us h := by simp [Cluster.init] at h
  sent k h := absurd rfl h

/-- While threads upload, CommitFile is not sent. -/
theorem unsent_of_uploading (h : Uploads s) {us : List Upload}
    (hp : (s.calls k).phase = .uploading us) : (s.calls k).commit = .unsent := by
  have hcoh := h.coherent k
  rwa [CreateCall.Coherent, hp] at hcoh

theorem acked_of_step (h : Uploads s) (hr : Requests s) (hcar : Carried s)
    (hs : s.step cfg a = some s') (hx : (c, addr, b) ∈ s'.acked) : s'.Payload c b := by
  rcases Cluster.acked_of_step hs with he | ⟨k, j, i, us, addr', batch, rest, _, _, hi, _, _, he⟩
  · rw [he] at hx
    exact (h.acked c addr b hx).of_step hr hs
  · rw [he, List.mem_append, List.mem_map] at hx
    rcases hx with hx | ⟨x, hx, heq⟩
    · exact (h.acked c addr b hx).of_step hr hs
    · cases heq
      exact Payload.of_step (hcar.net _ (List.mem_of_getElem? hi) x hx) hr hs

theorem uploading_of_step (h : Uploads s) (hr : Requests s) (hcar : Carried s)
    (hs : s.step cfg a = some s') {us : List Upload} (hp' : (s'.calls k).phase = .uploading us) :
    s'.PlanSatisfies k fun c addr => Owed us c addr ∨ s'.Acked c addr := by
  have hkeep : ∀ us₀, (s.calls k).phase = .uploading us₀ →
      (∀ c addr, Owed us₀ c addr → Owed us c addr ∨ s'.Acked c addr) →
      s'.PlanSatisfies k fun c addr => Owed us c addr ∨ s'.Acked c addr := by
    intro us₀ hp himp
    refine (h.uploading k us₀ hp).of_step hs fun c addr hor => ?_
    rcases hor with howed | hacked
    · exact himp c addr howed
    · exact .inr (hacked.of_step hr hs)
  cases call_of_step hs k with
  | keep h' => exact hkeep us (by rw [← h', hp']) fun _ _ => .inl
  | call f data _ _ h' => rw [h'] at hp'; cases hp'
  | reply resp hp hresp h' =>
    rw [h'] at hp'
    rcases afterCreateFile_cases (s.calls k).data resp with he | ⟨hok, plan, hplan, he⟩
    · rw [he] at hp'
      cases hp'
    · rw [he] at hp'
      cases hp'
      have hres : (s.naming.creates k).phase.reserved = true := by
        rw [hresp]
        exact hok
      unfold PlanSatisfies
      rw [reserved_of_step hs hres]
      refine ⟨hres, fun chunks hchunks m hm addr ha => ?_⟩
      rw [hresp] at hchunks
      simp only [CreatePhase.plan, hok, if_true, Option.some.injEq] at hchunks
      subst hchunks
      obtain ⟨p, hp, rfl⟩ := List.mem_map.mp hm
      exact .inl (owed_of_plan hplan hp ha)
  | upload j us₀ addr todo st st' hp hj _ h' =>
    rw [h'] at hp'
    cases hp'
    exact hkeep us₀ hp fun _ _ howed => .inl (howed.set hj)
  | acked j i us₀ addr batch rest hp hj hi hacked h' =>
    rw [h'] at hp'
    cases hp'
    refine hkeep us₀ hp fun c addr' howed => (howed.tail hj).imp_right ?_
    rintro ⟨rfl, b, hb⟩
    refine ⟨b, Payload.of_step (hcar.net _ (List.mem_of_getElem? hi) (c, b) hb) hr hs, ?_⟩
    rw [hacked]
    exact List.mem_append_right _ (List.mem_map.mpr ⟨(c, b), hb, rfl⟩)
  | send _ _ _ h' => rw [h'] at hp'; cases hp'
  | exec _ hc h' =>
    rw [h'] at hp'
    rw [h.unsent_of_uploading hp'] at hc
    cases hc
  | lost hc h' =>
    rw [h'] at hp'
    rw [h.unsent_of_uploading hp'] at hc
    cases hc
  | finish ok _ _ h' =>
    rw [h'] at hp'
    cases ok <;> cases hp'
  | stop _ h' => rw [h'] at hp'; cases hp'

theorem sent_of_step (h : Uploads s) (hr : Requests s) (hs : s.step cfg a = some s')
    (hne : (s'.calls k).commit ≠ .unsent) : s'.PlanSatisfies k s'.Acked := by
  have hkeep : (s.calls k).commit ≠ .unsent → s'.PlanSatisfies k s'.Acked :=
    fun hne => (h.sent k hne).of_step hs fun c addr hacked => hacked.of_step hr hs
  cases call_of_step hs k with
  | keep h' => exact hkeep (by rwa [h'] at hne)
  | call f data _ _ h' => rw [h'] at hne; exact absurd rfl hne
  | reply resp _ _ h' => exact hkeep (by rwa [h'] at hne)
  | upload _ _ _ _ _ _ _ _ _ h' => exact hkeep (by rwa [h'] at hne)
  | acked _ _ _ _ _ _ _ _ _ _ h' => exact hkeep (by rwa [h'] at hne)
  | send us hp hdone h' =>
    -- nothing is owed, so everything is acknowledged
    refine (h.uploading k us hp).of_step hs fun c addr hor => ?_
    rcases hor with ⟨u, hu, _, batch, hbatch, _⟩ | hacked
    · rw [(hdone u hu).1] at hbatch
      cases hbatch
    · exact hacked.of_step hr hs
  | exec _ hc h' => exact hkeep (by rw [hc]; simp)
  | lost hc h' => exact hkeep (by rw [hc]; simp)
  | finish ok _ hc h' => exact hkeep (by rw [hc]; simp)
  | stop _ h' => exact hkeep (by rwa [h'] at hne)

theorem of_step (h : Uploads s) (hr : Requests s) (hcar : Carried s) (hs : s.step cfg a = some s') :
    Uploads s' where
  coherent k := coherent_of_step (h.coherent k) hs
  acked _ _ _ hx := h.acked_of_step hr hcar hs hx
  uploading _ _ hp := h.uploading_of_step hr hcar hs hp
  sent _ hne := h.sent_of_step hr hs hne

end Uploads

theorem Reachable.uploads (h : Reachable cfg ok s) : Uploads s :=
  Steps.invariant h Uploads.init fun _ _ _ hr hu _ hs =>
    hu.of_step (Reachable.requests hr) (Reachable.carried hr) hs

end Cluster

end GfsCluster
