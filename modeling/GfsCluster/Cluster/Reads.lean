import GfsCluster.Cluster.Payload

/-! Reads of the cluster. A read is an answer of GetFile, whose SELECTs may see different
states of a run, followed by GetChunks calls to storage servers, each of which answers
from its chunk files at some later point. If the answer has placements, they are those of
one reservation, complete and in order, so a read that returns has its whole data. -/

namespace GfsCluster

open StepSystem

namespace Cluster

variable {cfg : Settings} {s s' t u : Cluster} {a : ClusterAction} {k : ℕ} {addr : Addr} {c : ChunkId}
  {b : Bytes} {f : Filename} {ok : Cluster → ClusterAction → Prop} {resp : GetFileResponse}
  {serve : Serve}

/-! ### What stays over a run -/

theorem steps_call (h : Steps (step cfg) ok s t) (hk : (s.calls k).phase ≠ .idle) :
    (t.calls k).filename = (s.calls k).filename ∧ (t.calls k).data = (s.calls k).data ∧
      (t.calls k).phase ≠ .idle := by
  refine h.invariant (P := fun t : Cluster => (t.calls k).filename = (s.calls k).filename ∧
    (t.calls k).data = (s.calls k).data ∧ (t.calls k).phase ≠ .idle) ⟨rfl, rfl, hk⟩ ?_
  rintro t a u _ ⟨hf, hd, hne⟩ _ hs
  obtain ⟨hf', hd', hne'⟩ := call_frame hs hne
  exact ⟨hf'.trans hf, hd'.trans hd, hne'⟩

theorem steps_issued (h : Steps (step cfg) ok s t) {e : Issue} (he : e ∈ s.naming.issued) :
    e ∈ t.naming.issued := by
  refine h.invariant (P := fun t : Cluster => e ∈ t.naming.issued) he fun t a u _ he _ hs => ?_
  rcases naming_of_step hs with hn | ⟨_, _, _, hn⟩
  · rwa [hn]
  · exact NamingServer.step_issued hn he

theorem steps_reserved (h : Steps (step cfg) ok s t)
    (hr : (s.naming.creates k).phase.reserved = true) : t.naming.creates k = s.naming.creates k := by
  refine h.invariant (P := fun t : Cluster => t.naming.creates k = s.naming.creates k) rfl
    fun t a u _ he _ hs => ?_
  rcases naming_of_step hs with hn | ⟨_, _, _, hn⟩
  · rwa [hn]
  · exact (NamingServer.step_reserved hn (by rw [he]; exact hr)).trans he

/-! ### The answer of GetFile -/

/-- A GetFile request for `f` that is sent in `s` is answered by `resp` in `t`. -/
inductive GetsFile (cfg : Settings) (ok : Cluster → ClusterAction → Prop) (s : Cluster) (f : Filename)
    (t : Cluster) : GetFileResponse → Prop
  | answer (s₁ s₂ : Cluster) (o₁ o₂ : RowOrder) (h₁ : Steps (step cfg) ok s s₁)
      (h₂ : Steps (step cfg) ok s₁ s₂) (h₃ : Steps (step cfg) ok s₂ t) :
    GetsFile cfg ok s f t (getFileResponse (getFile (o₁.view s₁.naming.db) (o₂.view s₂.naming.db) f)
      (t.naming.registry.liveServers t.naming.now))

def placementOf (d : Db) (live : List Addr) (r : ChunkRow) : ChunkPlacement :=
  ⟨r.idx, r.chunkId, liveFirst (d.locations r.chunkId) live⟩

theorem getFileResponse_cases (f : Filename) (d₁ d₂ : Db) (live : List Addr) :
    ((∀ F ∈ d₁.files, F.filename = f → F.status = .pending) ∧
        getFileResponse (getFile d₁ d₂ f) live = ⟨false, "file not found", 0, []⟩) ∨
      ∃ F ∈ d₁.files, F.filename = f ∧ F.status = .committed ∧
        getFileResponse (getFile d₁ d₂ f) live =
          ⟨true, "ok", F.size, (chunkRowsOf d₂ f).map (placementOf d₂ live)⟩ := by
  unfold getFile
  cases hsel : selectFile d₁ f with
  | none => exact .inl ⟨fun F hF hname => absurd hname (selectFile_eq_none.mp hsel F hF), rfl⟩
  | some F =>
    obtain ⟨hF, hname⟩ := selectFile_eq_some.mp hsel
    by_cases hst : F.status = .committed
    · refine .inr ⟨F, hF, hname, hst, ?_⟩
      simp [getFileResponse, FileMeta.ofRow, hst, collectChunks_selectChunks, ChunkRow.meta, placementOf,
        Function.comp_def]
    · refine .inl ⟨fun G hG hG' => ?_, by simp [getFileResponse, FileMeta.ofRow, hst]⟩
      obtain rfl := d₁.file_unique hG hF (hG'.trans hname.symm)
      cases h : G.status with
      | pending => rfl
      | committed => exact absurd h hst

section Version

variable {n : NamingServer} {F : FileRow} (hv : n.VersionOf F k) (o : RowOrder) (live : List Addr)

include hv

theorem placement_issued {p : ChunkPlacement}
    (hp : p ∈ (chunkRowsOf (o.view n.db) F.filename).map (placementOf (o.view n.db) live)) :
    ⟨p.chunkId, k, p.index⟩ ∈ n.issued := by
  obtain ⟨r, hr, rfl⟩ := List.mem_map.mp hp
  rw [mem_chunkRowsOf, o.mem_chunks] at hr
  refine (hv.rows r.chunkId r.idx).mp ?_
  rw [← hr.2]
  exact hr.1

theorem placement_indices (hc : n.Consistent cfg) :
    (((chunkRowsOf (o.view n.db) F.filename).map (placementOf (o.view n.db) live)).map
      ChunkPlacement.index).Perm (List.range (n.creates k).req.numChunks.toNat) := by
  rw [List.map_map]
  refine ((chunkRowsOf_perm _ _).map _).trans (.trans ?_ (hv.indices hc))
  exact ((o.chunks_perm n.db).filter _).map _

end Version

/-! ### The answers of storage servers -/

/-- Whatever a server answers is asked for and in its chunk file at some point of a run
that goes on from `s`. -/
def Honest (cfg : Settings) (ok : Cluster → ClusterAction → Prop) (s : Cluster) (serve : Serve) : Prop :=
  ∀ round addr ids x, x ∈ serve round addr ids →
    x.1 ∈ ids ∧ ∃ t, Steps (step cfg) ok s t ∧ t.file addr x.1 = some x.2

/-- The payload of a chunk of call `k`. -/
def payloadOf (s : Cluster) (k : ℕ) (c : ChunkId) : Bytes :=
  ((s.naming.issued.find? fun e => e.chunkId = c ∧ e.call = k).bind fun e =>
    (splitChunks (s.calls k).data)[e.index]?).getD []

theorem payloadOf_eq (hc : s.naming.Consistent cfg) {i : ℕ} (hi : ⟨c, k, i⟩ ∈ s.naming.issued)
    (hb : (splitChunks (s.calls k).data)[i]? = some b) : s.payloadOf k c = b := by
  unfold payloadOf
  cases hfind : s.naming.issued.find? fun e => e.chunkId = c ∧ e.call = k with
  | none => simpa using List.find?_eq_none.mp hfind _ hi
  | some e =>
    have he : e.chunkId = c ∧ e.call = k := by simpa using List.find?_some hfind
    obtain rfl := hc.issue_unique (List.mem_of_find?_eq_some hfind) hi he.1
    simp [hb]

/-- Payloads of issued chunks of a call do not change. -/
theorem payload_of_steps (hs : Reachable cfg ok s) (hst : Steps (step cfg) ok s t) {i : ℕ}
    (hi : ⟨c, k, i⟩ ∈ s.naming.issued) (hk : (s.calls k).phase ≠ .idle) (hb : t.Payload c b) :
    s.payloadOf k c = b := by
  obtain ⟨k', i', hi', _, hb⟩ := hb
  have he := (hs.steps hst).consistent.issue_unique (steps_issued hst hi) hi' rfl
  simp only [Issue.mk.injEq, true_and] at he
  obtain ⟨rfl, rfl⟩ := he
  rw [(steps_call hst hk).2.1] at hb
  exact payloadOf_eq hs.consistent hi hb

theorem sound_of_honest (hs : Reachable cfg ok s) (hserve : Honest cfg ok s serve)
    {placements : List ChunkPlacement} (hk : (s.calls k).phase ≠ .idle)
    (hissued : ∀ p ∈ placements, ⟨p.chunkId, k, p.index⟩ ∈ s.naming.issued) :
    Sound serve placements (s.payloadOf k) := by
  intro round addr ids x hx
  obtain ⟨hin, t, hst, hfile⟩ := hserve round addr ids x hx
  refine ⟨hin, fun hmem => ?_⟩
  obtain ⟨p, hp, hid⟩ := List.mem_map.mp hmem
  exact (payload_of_steps hs hst (hid ▸ hissued p hp) hk
    ((hs.steps hst).carried.files _ _ _ hfile)).symm

/-- Placements that are all of version `k` assemble to the data of call `k`. -/
theorem flatten_payloads (hs : Reachable cfg ok s) (hk : (s.calls k).phase ≠ .idle)
    {placements : List ChunkPlacement}
    (hissued : ∀ p ∈ placements, ⟨p.chunkId, k, p.index⟩ ∈ s.naming.issued)
    (hidx : (placements.map ChunkPlacement.index).Perm
      (List.range (s.naming.creates k).req.numChunks.toNat)) :
    ((sortByIndex placements).map fun p => s.payloadOf k p.chunkId).flatten = (s.calls k).data := by
  rw [((hs.requests.sent k hk).2), createRequest, Int.toNat_natCast] at hidx
  rw [map_payload_sortByIndex hidx, flatten_splitChunks]
  intro p hp
  have hlt : p.index < (splitChunks (s.calls k).data).length :=
    List.mem_range.mp (hidx.mem_iff.mp (List.mem_map_of_mem hp))
  have hget := List.getElem?_eq_getElem hlt
  rw [hget, payloadOf_eq hs.consistent (hissued p hp) hget]

/-! ### No mixed versions -/

/-- Every copy of a chunk holds what its one creator assigned to its index. -/
def OneContent (s : Cluster) : Prop :=
  ∀ addr c b, s.file addr c = some b → ∃ k i,
    (∀ e ∈ s.naming.issued, e.chunkId = c ↔ e = ⟨c, k, i⟩) ∧ (⟨c, k, i⟩ : Issue) ∈ s.naming.issued ∧
      (splitChunks (s.calls k).data)[i]? = some b

/-- `data` is the whole argument of the call that created all these chunks of `f`. -/
def WholeVersion (s : Cluster) (f : Filename) (placements : List ChunkPlacement) (data : Bytes) : Prop :=
  ∃ k, (s.calls k).filename = f ∧ (s.calls k).data = data ∧
    (s.naming.creates k).phase.reserved = true ∧
    ∀ p ∈ placements, ⟨p.chunkId, k, p.index⟩ ∈ s.naming.issued

theorem oneContent_of_reachable (hs : Reachable cfg ok s) : OneContent s := by
  intro addr c b hb
  obtain ⟨k, i, hi, _, hget⟩ := hs.carried.files addr c b hb
  refine ⟨k, i, fun e he => ⟨fun hid => ?_, ?_⟩, hi, hget⟩
  · exact hs.consistent.issue_unique he hi hid
  · rintro rfl
    rfl

theorem wholeVersion_of_read (hs : Reachable cfg ok s) (hget : GetsFile cfg ok s f t resp)
    (hserve : Honest cfg ok t serve) (hne : resp.placements ≠ []) {data : Bytes}
    (hread : read resp serve = .ok data) : WholeVersion t f resp.placements data := by
  obtain ⟨s₁, s₂, o₁, o₂, h₁, h₂, h₃⟩ := hget
  rcases getFileResponse_cases f (o₁.view s₁.naming.db) (o₂.view s₂.naming.db)
    (t.naming.registry.liveServers t.naming.now) with ⟨_, hresp⟩ | ⟨F₁, _, _, _, hresp⟩
  · rw [hresp] at hne
    exact absurd rfl hne
  · rw [hresp] at hne hread ⊢
    have hs₂ : Reachable cfg ok s₂ := (hs.steps h₁).steps h₂
    have ht : Reachable cfg ok t := hs₂.steps h₃
    -- the chunk rows that the second SELECT saw are one version
    have hrows : chunkRowsOf (o₂.view s₂.naming.db) f ≠ [] := fun h => hne (by simp [h])
    obtain ⟨r, hr⟩ := List.exists_mem_of_ne_nil _ hrows
    rw [mem_chunkRowsOf, o₂.mem_chunks] at hr
    obtain ⟨F, hF, hname⟩ := s₂.naming.db.exists_file hr.1
    obtain ⟨k, hv⟩ := hs₂.consistent.version F hF
    have hfile : F.filename = f := hname.trans hr.2
    rw [← hfile] at hread hne ⊢
    have hk := ht.requests.begun (by rw [steps_reserved h₃ hv.reserved]; exact hv.reserved)
    have hissued : ∀ p ∈ (chunkRowsOf (o₂.view s₂.naming.db) F.filename).map (placementOf
        (o₂.view s₂.naming.db) (t.naming.registry.liveServers t.naming.now)),
        ⟨p.chunkId, k, p.index⟩ ∈ t.naming.issued :=
      fun p hp => steps_issued h₃ (placement_issued hv o₂ _ hp)
    have hidx := placement_indices hv o₂ (t.naming.registry.liveServers t.naming.now) hs₂.consistent
    rw [← steps_reserved h₃ hv.reserved] at hidx
    obtain ⟨_, hdata⟩ := read_sound (sound_of_honest ht hserve hk hissued) hread
    refine ⟨k, ?_, (hdata.trans (flatten_payloads ht hk hissued hidx)).symm, ?_, hissued⟩
    · have hreq := congrArg CreateFileRequest.filename (ht.requests.sent k hk).2
      rw [steps_reserved h₃ hv.reserved, hv.name] at hreq
      exact hreq.symm
    · rw [steps_reserved h₃ hv.reserved]
      exact hv.reserved

/-- In every run, all copies of a chunk are its payload, and a read whose answer has
placements returns the whole data of the call that reserved them. -/
theorem noMixedVersions (hs : Reachable cfg anyStep s) : OneContent s ∧
    ∀ f t resp serve data, GetsFile cfg anyStep s f t resp → Honest cfg anyStep t serve →
      resp.placements ≠ [] → read resp serve = .ok data → WholeVersion t f resp.placements data :=
  ⟨oneContent_of_reachable hs, fun _ _ _ _ _ hget hserve hne hread =>
    wholeVersion_of_read hs hget hserve hne hread⟩

/-- One server, and a create of one byte from its call to its return. -/
def storing : List ClusterAction :=
  [.naming (.registerStorage ['s']), .createCall 0 ['f'] [7], .naming (.create 0 .checkLive),
    .naming (.create 0 (.selectFile .table)), .naming (.create 0 (.place ['c'])),
    .naming (.create 0 (.reserve 0)), .createReply 0, .sendBatch 0 0, .storeItem 0,
    .storeReply 0 0 0, .commitSend 0, .commitExec 0, .commitReply 0]

/-- The server `s` answers every request for the chunk `c`. -/
def serveByte : Serve :=
  fun _ addr ids => if addr = ['s'] then (ids.filter (· = ['c'])).map (·, [7]) else []

theorem mem_serveByte {round : ℕ} {ids : List ChunkId} {x : ChunkId × Bytes} :
    x ∈ serveByte round addr ids ↔ addr = ['s'] ∧ ['c'] ∈ ids ∧ x = (['c'], [7]) := by
  unfold serveByte
  split_ifs with h
  · simp only [List.mem_map, List.mem_filter, decide_eq_true_eq, h, true_and]
    constructor
    · rintro ⟨_, ⟨hin, rfl⟩, rfl⟩
      exact ⟨hin, rfl⟩
    · rintro ⟨hin, rfl⟩
      exact ⟨_, ⟨hin, rfl⟩, rfl⟩
  · simp [h]

theorem noMixedVersions_created : ∃ s resp, GetsFile ⟨1, 60⟩ anyStep s ['f'] s resp ∧
    read resp serveByte = .ok [7] ∧ WholeVersion s ['f'] resp.placements [7] := by
  have hrun : (run (guarded (step ⟨1, 60⟩) anyStep) init storing).any (fun s =>
      let resp := getFileResponse (getFile s.naming.db s.naming.db ['f'])
        (s.naming.registry.liveServers s.naming.now)
      s.file ['s'] ['c'] == some [7] && resp.ok && resp.placements == [⟨0, ['c'], [['s']]⟩]) = true := by
    decide +kernel
  obtain ⟨s, hs, hp⟩ := exists_of_run hrun
  simp only [Bool.and_eq_true, beq_iff_eq] at hp
  obtain ⟨⟨hfile, hok⟩, hplaced⟩ := hp
  have hget : GetsFile ⟨1, 60⟩ anyStep s ['f'] s _ := .answer s s .table .table .refl .refl .refl
  have hhonest : Honest ⟨1, 60⟩ anyStep s serveByte := by
    intro round addr ids x hx
    obtain ⟨rfl, hin, rfl⟩ := mem_serveByte.mp hx
    exact ⟨hin, s, .refl, hfile⟩
  have hsound : ∀ placements, Sound serveByte placements fun _ => [7] := by
    intro placements round addr ids x hx
    obtain ⟨_, hin, rfl⟩ := mem_serveByte.mp hx
    exact ⟨hin, fun _ => rfl⟩
  have hread := read_returns hok (by rw [hplaced]; simp) (hsound _)
    (fun p hp => by
      rw [hplaced, List.mem_singleton] at hp
      subst hp
      exact ⟨['s'], by simp, fun round ids hin => ⟨[7], mem_serveByte.mpr ⟨rfl, hin, rfl⟩⟩⟩)
  rw [hplaced] at hread
  refine ⟨s, _, hget, hread, (noMixedVersions hs).2 _ _ _ _ _ hget hhonest ?_ hread⟩
  show (getFileResponse _ _).placements ≠ []
  intro hnil
  exact absurd (hnil.symm.trans hplaced) (by simp)

end Cluster

end GfsCluster
