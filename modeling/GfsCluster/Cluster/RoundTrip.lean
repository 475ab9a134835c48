import Mathlib.Data.Finset.Card
import GfsCluster.Cluster.Undisturbed

/-! Create, then read. Once the CommitFile of an undisturbed `create` was executed, every read gets its
data back as long as fewer servers fail than there are replicas, however the reads fall
between the steps of heartbeats, of other files and of the healer. -/

namespace GfsCluster

open StepSystem

theorem mem_liveFirst {locations live : List Addr} {addr : Addr} :
    addr ∈ liveFirst locations live ↔ addr ∈ locations := by
  simp only [liveFirst, List.mem_append, List.mem_filter, decide_eq_true_eq]
  tauto

/-- Among distinct addresses one is outside any smaller set. -/
theorem exists_not_mem_of_card_lt {locations : List Addr} {failed : Finset Addr}
    (hnd : locations.Nodup) (h : failed.card < locations.length) : ∃ addr ∈ locations, addr ∉ failed := by
  have hcard : failed.card < locations.toFinset.card := by rwa [List.toFinset_card_of_nodup hnd]
  obtain ⟨addr, haddr, hnot⟩ := Finset.exists_mem_notMem_of_card_lt_card hcard
  exact ⟨addr, List.mem_toFinset.mp haddr, hnot⟩

namespace Cluster

variable {cfg : Settings} {s s₀ t : Cluster} {k : ℕ} {f : Filename} {c : ChunkId}
  {ok : Cluster → ClusterAction → Prop} {resp : GetFileResponse} {serve : Serve}
  {failed : Finset Addr} {data : Bytes}

/-- The servers that do not fail answer GetChunks with every chunk that is on their disk
when they come to it. -/
def Answering (cfg : Settings) (ok : Cluster → ClusterAction → Prop) (failed : Finset Addr) (s : Cluster)
    (serve : Serve) : Prop :=
  ∀ round addr ids, addr ∉ failed → ∀ c ∈ ids,
    ∃ t, Steps (step cfg) ok s t ∧ ∀ b, t.file addr c = some b → (c, b) ∈ serve round addr ids

/-- A GetFileSize request for `f` that is sent in `s` is answered by `resp`. -/
inductive GetsSize (cfg : Settings) (ok : Cluster → ClusterAction → Prop) (s : Cluster) (f : Filename) :
    GetFileSizeResponse → Prop
  | answer (s₁ s₂ : Cluster) (o₁ o₂ : RowOrder) (h₁ : Steps (step cfg) ok s s₁)
      (h₂ : Steps (step cfg) ok s₁ s₂) :
    GetsSize cfg ok s f (getFileSizeResponse (getFile (o₁.view s₁.naming.db) (o₂.view s₂.naming.db) f))

theorem Honest.unguarded (h : Honest cfg ok s serve) : Honest cfg anyStep s serve := by
  intro round addr ids x hx
  obtain ⟨hin, t, ht, hfile⟩ := h round addr ids x hx
  exact ⟨hin, t, ht.unguarded, hfile⟩

theorem steps_answered (hs : Reachable cfg ok s) (hst : Steps (step cfg) ok s t) {b : Bool}
    (h : (s.calls k).commit = .answered b) : (t.calls k).commit = .answered b := by
  refine hst.invariant (P := fun t : Cluster => (t.calls k).commit = .answered b) h ?_
  intro t a u ht hans _ hstep
  have hreach := hs.steps ht
  exact answered_of_step hreach.requests hreach.uploads hstep hans

/-! ### An undisturbed call whose CommitFile was executed -/

/-- A state of a run in which nobody disturbs call `k`. -/
structure Course (cfg : Settings) (f : Filename) (k : ℕ) (s : Cluster) : Prop where
  reachable : Reachable cfg HostPort s
  working : Working f k s

theorem Course.steps (h : Course cfg f k s) (hrun : Steps (step cfg) (Undisturbed f k) s t) :
    Course cfg f k t := by
  refine hrun.invariant (P := Course cfg f k) h fun t a u _ ht hok hstep => ?_
  exact ⟨ht.reachable.steps (.single hok.1 hstep), ht.working.of_step ht.reachable hok.2 hstep⟩

theorem Course.of_idle (hs : Reachable cfg HostPort s) (hidle : (s.calls k).phase = .idle) :
    Course cfg f k s :=
  ⟨hs, .of_idle hs hidle⟩

/-- A call returns only after its CommitFile was answered with ok=True. -/
theorem Course.answered (h : Course cfg f k s) (hret : (s.calls k).phase = .returned) :
    (s.calls k).commit = .answered true := by
  have hcoherent := h.reachable.uploads.coherent k
  rwa [CreateCall.Coherent, hret] at hcoherent

/-- The file that an answered CommitFile left. -/
theorem Course.file (h : Course cfg f k s) {b : Bool} (hans : (s.calls k).commit = .answered b) :
    ∃ F ∈ s.naming.db.files, F.filename = f ∧ F.status = .committed ∧ s.naming.VersionOf F k := by
  have hres := (h.reachable.uploads.sent k (by rw [hans]; simp)).1
  obtain ⟨_, F, hF, hname, hv⟩ := h.working.owned hres
  exact ⟨F, hF, hname, (h.working.status hres F hF hname).mpr ⟨b, hans⟩, hv⟩

/-- Every chunk of the call has R addresses, and is on disk at each of them. -/
theorem Course.replicas (h : Course cfg f k s) {b : Bool} (hans : (s.calls k).commit = .answered b)
    {i : ℕ} (hi : ⟨c, k, i⟩ ∈ s.naming.issued) : cfg.replication ≤ (s.naming.db.locations c).length ∧
      ∀ addr ∈ s.naming.db.locations c, s.Stored addr c := by
  obtain ⟨F, hF, hname, hst, hv⟩ := h.file hans
  have hrow := (hv.rows c i).mpr hi
  have hstocked := h.reachable.stocked _ hrow
  refine ⟨?_, fun addr haddr => ?_⟩
  · simp only at hstocked
    omega
  · have hcom : s.naming.db.CommittedChunk c := ⟨_, hrow, rfl, F, hF, rfl, hst⟩
    rcases h.working.kept.recorded c addr hcom (s.naming.db.mem_locations.mp haddr) with hapart | hstored
    · exact absurd hi (hapart.not_issued h.reachable.consistent)
    · exact hstored

/-- Reads after an executed CommitFile of an undisturbed call return its data. -/
theorem Course.read_returns (h : Course cfg f k s) {b : Bool} (hans : (s.calls k).commit = .answered b)
    (hget : GetsFile cfg (Undisturbed f k) s f t resp)
    (hhonest : Honest cfg (Undisturbed f k) t serve)
    (hanswering : Answering cfg (Undisturbed f k) failed t serve)
    (hfailed : failed.card < cfg.replication) : read resp serve = .ok (s.calls k).data := by
  obtain ⟨s₁, s₂, o₁, o₂, h₁, h₂, h₃⟩ := hget
  have hc₁ := h.steps h₁
  have hc₂ := hc₁.steps h₂
  have ht := hc₂.steps h₃
  have hans₁ := steps_answered (Steps.unguarded h.reachable) h₁.unguarded hans
  have hans₂ := steps_answered (Steps.unguarded hc₁.reachable) h₂.unguarded hans₁
  -- the first SELECT sees the committed file, the second one the chunks of its version
  obtain ⟨F₁, hF₁, hname₁, hst₁, _⟩ := hc₁.file hans₁
  obtain ⟨F₂, hF₂, hname₂, _, hv₂⟩ := hc₂.file hans₂
  rcases getFileResponse_cases f (o₁.view s₁.naming.db) (o₂.view s₂.naming.db)
    (t.naming.registry.liveServers t.naming.now) with ⟨hpend, _⟩ | ⟨_, _, _, _, hresp⟩
  · rw [hpend F₁ ((o₁.mem_files _).mpr hF₁) hname₁] at hst₁
    cases hst₁
  · rw [hresp]
    have hissued₂ := fun p => placement_issued (p := p) hv₂ o₂
      (t.naming.registry.liveServers t.naming.now)
    have hidx := placement_indices hv₂ o₂ (t.naming.registry.liveServers t.naming.now)
      hc₂.reachable.consistent
    rw [hname₂] at hissued₂ hidx
    rw [← steps_reserved h₃ hv₂.reserved] at hidx
    have hissued := fun p hp => steps_issued h₃ (hissued₂ p hp)
    have hbegun₀ := h.reachable.uploads.sent k (by rw [hans]; simp)
    have hbegun := h.reachable.requests.begun hbegun₀.1
    obtain ⟨_, hdata₁, hbegun₁⟩ := steps_call h₁ hbegun
    obtain ⟨_, hdata₂, hbegun₂⟩ := steps_call h₂ hbegun₁
    obtain ⟨_, hdata₃, hbegun₃⟩ := steps_call h₃ hbegun₂
    have hreach : Reachable cfg anyStep t := Steps.unguarded ht.reachable
    rw [GfsCluster.read_returns rfl ?_ (sound_of_honest hreach hhonest.unguarded hbegun₃ hissued) ?_,
      flatten_payloads hreach hbegun₃ hissued hidx, hdata₃, hdata₂, hdata₁]
    · rw [List.map_map]
      exact chunkRowsOf_ids_nodup _ f
    · intro p hp
      obtain ⟨hcount, hstored⟩ := hc₂.replicas hans₂ (hissued₂ p hp)
      obtain ⟨addr, haddr, hnot⟩ := exists_not_mem_of_card_lt (s₂.naming.db.locations_nodup p.chunkId)
        (lt_of_lt_of_le hfailed hcount)
      refine ⟨addr, ?_, fun round ids hid => ?_⟩
      · obtain ⟨r, _, rfl⟩ := List.mem_map.mp hp
        exact mem_liveFirst.mpr ((o₂.locations_perm _ r.chunkId).mem_iff.mpr haddr)
      · obtain ⟨u, hu, hserved⟩ := hanswering round addr ids hnot p.chunkId hid
        have hleft := (h₃.trans hu).mono fun _ _ hok => hok.2
        have hkept := hc₂.working.stored hc₂.reachable hleft (hissued₂ p hp)
          (hstored addr haddr)
        obtain ⟨b, hb⟩ := Option.ne_none_iff_exists'.mp hkept
        exact ⟨b, hserved b hb⟩

/-- What a read is told to ask for is on some disk. -/
theorem Course.placed_stored (h : Course cfg f k s)
    (hres : (s.naming.creates k).phase.reserved = true)
    (hget : GetsFile cfg (Undisturbed f k) s f t resp) (hR : 0 < cfg.replication) {p : ChunkPlacement}
    (hp : p ∈ resp.placements) : ∃ addr, t.Stored addr p.chunkId := by
  obtain ⟨s₁, s₂, o₁, o₂, h₁, h₂, h₃⟩ := hget
  have hc₁ := h.steps h₁
  have hc₂ := hc₁.steps h₂
  rcases getFileResponse_cases f (o₁.view s₁.naming.db) (o₂.view s₂.naming.db)
    (t.naming.registry.liveServers t.naming.now) with ⟨_, hresp⟩ | ⟨F, hF, hname, hst, hresp⟩
  · rw [hresp] at hp
    cases hp
  · -- the file was committed by the call's own CommitFile
    have hres₁ : (s₁.naming.creates k).phase.reserved = true := by rwa [steps_reserved h₁ hres]
    obtain ⟨b, hans₁⟩ := (hc₁.working.status hres₁ F ((o₁.mem_files _).mp hF) hname).mp hst
    have hans₂ := steps_answered (Steps.unguarded hc₁.reachable) h₂.unguarded hans₁
    obtain ⟨F₂, _, hname₂, _, hv₂⟩ := hc₂.file hans₂
    have hissued := placement_issued (p := p) hv₂ o₂ (t.naming.registry.liveServers t.naming.now)
    rw [hname₂] at hissued
    rw [hresp] at hp
    obtain ⟨hcount, hstored⟩ := hc₂.replicas hans₂ (hissued hp)
    obtain ⟨addr, haddr⟩ := List.exists_mem_of_length_pos (lt_of_lt_of_le hR hcount)
    exact ⟨addr, hc₂.working.stored hc₂.reachable (h₃.mono fun _ _ hok => hok.2) (hissued hp)
      (hstored addr haddr)⟩

theorem Course.size_returns (h : Course cfg f k s) {b : Bool} (hans : (s.calls k).commit = .answered b)
    {resp : GetFileSizeResponse} (hget : GetsSize cfg (Undisturbed f k) s f resp) :
    size resp = .ok (((s.calls k).data.length : ℤ), (((s.calls k).data.length + 1023) / 1024 : ℕ)) := by
  obtain ⟨s₁, s₂, o₁, o₂, h₁, _⟩ := hget
  have hc₁ := h.steps h₁
  have hans₁ := steps_answered (Steps.unguarded h.reachable) h₁.unguarded hans
  obtain ⟨F, hF, hname, hst, hv⟩ := hc₁.file hans₁
  have hbegun := h.reachable.requests.begun (h.reachable.uploads.sent k (by rw [hans]; simp)).1
  obtain ⟨_, hdata, hbegun₁⟩ := steps_call h₁ hbegun
  have hreq := (hc₁.reachable.requests.sent k hbegun₁).2
  have hsel : selectFile (o₁.view s₁.naming.db) f = some F := by
    rw [selectFile_view]
    exact selectFile_eq_some.mpr ⟨hF, hname⟩
  have hsize : F.size = (s.calls k).data.length := by
    rw [← hv.size, hreq, ← hdata]
    rfl
  have hnum : F.numChunks = (((s.calls k).data.length + 1023) / 1024 : ℕ) := by
    rw [← hv.numChunks, hreq, createRequest, length_splitChunks, hdata]
    rfl
  rw [getFile, hsel, Option.map_some, getFileSizeResponse, FileMeta.ofRow, if_pos hst, size, if_pos rfl,
    hsize, hnum]

end Cluster

end GfsCluster
