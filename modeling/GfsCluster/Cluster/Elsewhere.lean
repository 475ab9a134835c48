import GfsCluster.Cluster.RoundTrip
import GfsCluster.Metadata.OneFile

/-! A file that nobody works on. Whatever other files the clients create, commit and delete,
and whatever the cleanup loop removes, its rows and the bytes of its chunk files stay, and
so does every answer about it. -/

namespace GfsCluster

open StepSystem

namespace NamingServer

variable {cfg : Settings} {n n' : NamingServer} {g : Filename} {a : NamingAction}
  {out : List StorageRpc} {c : ChunkId} {addr : Addr}

/-- The step concerns other files than `g`. There is no healing. -/
def Elsewhere (g : Filename) (n : NamingServer) : NamingAction → Prop
  | .create _ (.receive req) => req.filename ≠ g
  | .create k _ => (n.creates k).req.filename ≠ g
  | .commit f => f ≠ g
  | .delete _ (.receive f) => f ≠ g
  | .delete k _ => (n.deletes k).filename ≠ g
  | .purge i => ∀ e ∈ n.purges[i]?, (n.creates e.1).req.filename ≠ g
  | .cleanup b => n.removes (.cleanup b) ≠ some g
  | .heal _ => False
  | _ => True

instance (g : Filename) (n : NamingServer) (a : NamingAction) : Decidable (Elsewhere g n a) :=
  match a with
  | .create _ (.receive req) => inferInstanceAs (Decidable (req.filename ≠ g))
  | .create k .checkLive | .create k (.selectFile _) | .create k (.selectChunks _)
  | .create k (.place _) | .create k (.reserve _) =>
    inferInstanceAs (Decidable ((n.creates k).req.filename ≠ g))
  | .commit f | .delete _ (.receive f) => inferInstanceAs (Decidable (f ≠ g))
  | .delete k (.selectFile _) | .delete k (.selectChunks _) | .delete k .remove
  | .delete k (.send _ _) | .delete k .reply => inferInstanceAs (Decidable ((n.deletes k).filename ≠ g))
  | .purge i => inferInstanceAs (Decidable (∀ e ∈ n.purges[i]?, (n.creates e.1).req.filename ≠ g))
  | .cleanup b => inferInstanceAs (Decidable (n.removes (.cleanup b) ≠ some g))
  | .heal _ => .isFalse id
  | .registerStorage _ | .heartbeat _ | .tick _ | .get _ _ | .crash => .isTrue trivial

theorem Elsewhere.create {k : ℕ} {b : CreateStep} (h : Elsewhere g n (.create k b))
    (hb : ∀ req, b ≠ .receive req) : (n.creates k).req.filename ≠ g := by
  cases b with
  | receive req => exact absurd rfl (hb req)
  | _ => all_goals exact h

theorem Elsewhere.removes (h : Elsewhere g n a) {f : Filename} (hf : n.removes a = some f) : f ≠ g := by
  cases a with
  | delete k b =>
    cases b with
    | remove =>
      cases hf
      exact h
    | _ => all_goals cases hf
  | cleanup b =>
    rintro rfl
    exact h hf
  | _ => all_goals cases hf

theorem rowsOf_of_step (hc : Consistent cfg n) (hs : n.step cfg a = some (n', out))
    (ha : Elsewhere g n a) : n'.db.rowsOf g = n.db.rowsOf g := by
  cases db_of_step hc hs with
  | keep hdb => rw [hdb]
  | commit f hact hdb =>
    subst hact
    rw [hdb, Db.rowsOf_markCommitted ha]
  | remove f hdb _ hf => rw [hdb, Db.rowsOf_deleteFile (ha.removes hf)]
  | reserve k t chunks hact hphase _ hfiles hchunks hreplicas =>
    subst hact
    have hne := ha.create (by simp)
    rw [Db.rowsOf_of_append hfiles hchunks hreplicas hne, Db.rowsOf_deleteFile hne]
    · intro r hr
      obtain ⟨m, _, rfl⟩ := List.mem_map.mp hr
      exact hne
    · intro r hr
      obtain ⟨m, hm, hr⟩ := List.mem_flatMap.mp hr
      rw [(ChunkMeta.mem_replicaRows.mp hr).1]
      exact List.mem_map_of_mem (f := ChunkRow.chunkId) (List.mem_map_of_mem hm)
  | record _ _ _ _ _ hact => subst hact; exact absurd ha id
  | drop _ _ _ _ _ hact => subst hact; exact absurd ha id

/-- What goes out to be deleted is no chunk of the file. -/
theorem not_row_of_deleteChunk (hc : Consistent cfg n) (hp : PendingDeletes n)
    (hs : n.step cfg a = some (n', out)) (ha : Elsewhere g n a)
    (hout : .deleteChunk addr c ∈ out) : ∀ r ∈ n.db.chunks, r.filename = g → r.chunkId ≠ c := by
  rintro r hr hname rfl
  have halive : ¬ n.Dead r.chunkId := fun hdead => hdead.2 (List.mem_map_of_mem hr)
  rcases deleteChunk_of_step hs hout with ⟨i, k, rfl, hi⟩ | ⟨j, _, _, _, hmem⟩ | ⟨_, hmem⟩
  · -- a purge of a request for another file deletes what was reserved under that name
    have hborn := (hp.purges _ (List.mem_of_getElem? hi)).1
    exact ha _ hi ((hc.filename_of_born hr hborn).symm.trans hname)
  · exact halive ((hp.deletes j).2 _ hmem)
  · exact halive (hp.cleanup.2 _ hmem)

end NamingServer

namespace Cluster

variable {cfg : Settings} {s s' s₀ t : Cluster} {a : ClusterAction} {k : ℕ} {g : Filename}
  {addr : Addr} {c : ChunkId} {ok : Cluster → ClusterAction → Prop}

/-! ### Whose chunks are stored -/

/-- The request was accepted, with the chunk placed on the server. -/
def Assigned (s : Cluster) (k : ℕ) (addr : Addr) (c : ChunkId) : Prop :=
  (s.naming.creates k).phase.reserved = true ∧ ∃ chunks, (s.naming.creates k).phase.plan = some chunks ∧
    ∃ m ∈ chunks, m.chunkId = c ∧ addr ∈ m.locations

/-- A call uploads its own chunks, to the servers where they were placed. -/
structure OwnChunks (s : Cluster) : Prop where
  uploads : ∀ k us, (s.calls k).phase = .uploading us → ∀ u ∈ us, ∀ batch ∈ u.todo, ∀ x ∈ batch,
    s.Assigned k u.addr x.1
  net : ∀ k addr batch j, .storeChunks k addr batch j ∈ s.net → ∀ x ∈ batch, s.Assigned k addr x.1

theorem Assigned.of_step (h : s.Assigned k addr c) (hs : s.step cfg a = some s') :
    s'.Assigned k addr c := by
  rw [Assigned, reserved_of_step hs h.1]
  exact h

theorem Assigned.issued (h : s.Assigned k addr c) (hc : s.naming.Consistent cfg) :
    ∃ i, (⟨c, k, i⟩ : Issue) ∈ s.naming.issued := by
  obtain ⟨_, chunks, hplan, m, hm, rfl, _⟩ := h
  exact ⟨m.index, (hc.plan k chunks hplan).issued_of_mem hm⟩

theorem assigned_of_plan {resp : CreateFileResponse} {plan : List (Addr × List (ChunkId × Bytes))}
    (hresp : (s.naming.creates k).phase = .replied resp) (hok : resp.ok = true)
    (hplan : uploadPlan (splitChunks (s.calls k).data) resp.placements = some plan)
    {w : Addr × List (ChunkId × Bytes)} (hw : w ∈ plan) {x : ChunkId × Bytes} (hx : x ∈ w.2) :
    s.Assigned k w.1 x.1 := by
  obtain ⟨p, hp, haddr, hid, _⟩ := (mem_uploadPlan hplan).mp ⟨w.2, hw, hx⟩
  refine ⟨by rw [hresp]; exact hok, resp.placements.map ChunkPlacement.toMeta, ?_, p.toMeta,
    List.mem_map_of_mem hp, hid, haddr⟩
  rw [hresp]
  simp [CreatePhase.plan, hok]

theorem OwnChunks.uploads_of_step (h : OwnChunks s) (hs : s.step cfg a = some s') {us : List Upload}
    (hp' : (s'.calls k).phase = .uploading us) {u : Upload} (hu : u ∈ us)
    {batch : List (ChunkId × Bytes)} (hbatch : batch ∈ u.todo) {x : ChunkId × Bytes}
    (hx : x ∈ batch) : s.Assigned k u.addr x.1 := by
  cases call_of_step hs k with
  | keep h' => exact h.uploads k us (by rw [← h', hp']) u hu batch hbatch x hx
  | call f data _ _ h' => rw [h'] at hp'; cases hp'
  | reply resp hp hresp h' =>
    rw [h'] at hp'
    simp only [afterCreateFile] at hp'
    split_ifs at hp' with hok
    split at hp'
    · rename_i plan hplan
      cases hp'
      obtain ⟨w, hw, rfl⟩ := List.mem_map.mp hu
      exact assigned_of_plan hresp hok hplan hw (mem_uploadBatches.mp ⟨batch, hbatch, hx⟩)
    · cases hp'
  | upload j us₀ addr todo st st' hp hj _ h' =>
    rw [h'] at hp'
    cases hp'
    rcases List.mem_or_eq_of_mem_set hu with hu | rfl
    · exact h.uploads k us₀ hp u hu batch hbatch x hx
    · exact h.uploads k us₀ hp _ (List.mem_of_getElem? hj) batch hbatch x hx
  | acked j i us₀ addr batch₀ rest hp hj _ _ h' =>
    rw [h'] at hp'
    cases hp'
    rcases List.mem_or_eq_of_mem_set hu with hu | rfl
    · exact h.uploads k us₀ hp u hu batch hbatch x hx
    · exact h.uploads k us₀ hp _ (List.mem_of_getElem? hj) batch (List.mem_cons_of_mem _ hbatch) x hx
  | send _ _ _ h' => rw [h'] at hp'; cases hp'
  | exec _ _ h' => rw [h'] at hp'; exact h.uploads k us hp' u hu batch hbatch x hx
  | lost _ h' => rw [h'] at hp'; exact h.uploads k us hp' u hu batch hbatch x hx
  | finish ok _ _ h' =>
    rw [h'] at hp'
    cases ok <;> cases hp'
  | stop _ h' => rw [h'] at hp'; cases hp'

theorem OwnChunks.net_of_step (h : OwnChunks s) (hs : s.step cfg a = some s')
    {batch : List (ChunkId × Bytes)} {j : ℕ} (hm : .storeChunks k addr batch j ∈ s'.net)
    {x : ChunkId × Bytes} (hx : x ∈ batch) : s.Assigned k addr x.1 := by
  cases Cluster.net_of_step hs hm with
  | old hm => exact h.net k addr batch j hm x hx
  | sent k' l us addr' batch' rest hp hj hm =>
    cases hm
    exact h.uploads k us hp _ (List.mem_of_getElem? hj) batch (by simp) x hx
  | stored k' addr' batch' l hold hm =>
    cases hm
    exact h.net k addr batch l hold x hx
  | rpc b out r _ _ _ hm => cases r <;> cases hm
  | fetched _ _ _ _ _ _ _ hm => cases hm

theorem Reachable.ownChunks (h : Reachable cfg ok s) : OwnChunks s := by
  refine Steps.invariant (P := OwnChunks) h ?_ fun t a u _ hown _ hs => ?_
  · constructor
    · intro k us hp
      cases hp
    · intro k addr batch j hm
      cases hm
  · constructor
    · intro k us hp u hu batch hbatch x hx
      exact (hown.uploads_of_step hs hp hu hbatch hx).of_step hs
    · intro k addr batch j hm x hx
      exact (hown.net_of_step hs hm hx).of_step hs

/-- A chunk of the file was handed out for a call on that file. -/
theorem name_of_issued (hs : Reachable cfg ok s) {r : ChunkRow} (hr : r ∈ s.naming.db.chunks) {i : ℕ}
    (hi : ⟨r.chunkId, k, i⟩ ∈ s.naming.issued) : (s.calls k).filename = r.filename := by
  obtain ⟨F, _, hname, k₀, hv, hi₀⟩ := hs.consistent.row_issued hr
  have he := hs.consistent.issue_unique hi hi₀ rfl
  simp only [Issue.mk.injEq, true_and] at he
  obtain ⟨rfl, _⟩ := he
  have hreq := (hs.requests.sent k (hs.requests.begun hv.reserved)).2
  rw [← hname, ← hv.name, hreq]
  rfl

/-! ### Steps elsewhere -/

/-- The step concerns other files than `g`: requests that name them and what these requests
send. There is no healing and no startup scrub. -/
def Elsewhere (g : Filename) (s : Cluster) : ClusterAction → Prop
  | .naming b => NamingServer.Elsewhere g s.naming b
  | .createCall _ f _ => f ≠ g
  | .createReply k | .sendBatch k _ | .storeReply k _ _ | .uploadFail k _ | .commitSend k
  | .commitExec k | .commitLost k | .commitReply k | .clientStop k => (s.calls k).filename ≠ g
  | .storeItem i =>
    match s.net[i]? with
    | some (.storeChunks k _ _ _) => (s.calls k).filename ≠ g
    | _ => True
  | .deleteExec _ | .drop _ => True
  | .copyFetch _ | .copyStore _ => False
  | .scrubQuery _ _ | .scrubList _ | .scrubRemove _ _ | .scrubStop _ => False

instance (g : Filename) (s : Cluster) (a : ClusterAction) : Decidable (Elsewhere g s a) :=
  match a with
  | .naming b => inferInstanceAs (Decidable (NamingServer.Elsewhere g s.naming b))
  | .createCall _ f _ => inferInstanceAs (Decidable (f ≠ g))
  | .createReply k | .sendBatch k _ | .storeReply k _ _ | .uploadFail k _ | .commitSend k
  | .commitExec k | .commitLost k | .commitReply k | .clientStop k =>
    inferInstanceAs (Decidable ((s.calls k).filename ≠ g))
  | .storeItem i =>
    match hi : s.net[i]? with
    | some (.storeChunks k _ _ _) =>
      decidable_of_iff ((s.calls k).filename ≠ g) (by simp only [Elsewhere, hi])
    | none | some (.deleteChunk _ _) | some (.replicateChunk _ _ _ _)
    | some (.replicateData _ _ _ _) => .isTrue (by simp only [Elsewhere, hi])
  | .deleteExec _ | .drop _ => .isTrue trivial
  | .copyFetch _ | .copyStore _ | .scrubQuery _ _ | .scrubList _ | .scrubRemove _ _
  | .scrubStop _ => .isFalse id

theorem Elsewhere.drives {b : NamingAction} (h : Elsewhere g s a) (hd : s.Drives a b) :
    NamingServer.Elsewhere g s.naming b := by
  cases hd with
  | free _ _ => exact h
  | create _ _ _ _ => exact h
  | commit _ _ => exact h

/-- No DeleteChunk request for a chunk of the file is under way. -/
def NoDeletes (g : Filename) (s : Cluster) : Prop :=
  ∀ addr c, .deleteChunk addr c ∈ s.net → ∀ r ∈ s.naming.db.chunks, r.filename = g → r.chunkId ≠ c

/-- The rows of the file and its chunk files are what they were. -/
structure Unmoved (g : Filename) (s₀ s : Cluster) : Prop where
  rows : s.naming.db.rowsOf g = s₀.naming.db.rowsOf g
  deletes : NoDeletes g s
  bytes : ∀ r ∈ s.naming.db.chunks, r.filename = g → ∀ addr,
    s.file addr r.chunkId = s₀.file addr r.chunkId

theorem Unmoved.refl (h : NoDeletes g s) : Unmoved g s s := ⟨rfl, h, fun _ _ _ _ => rfl⟩

theorem rowsOf_of_step (hc : s.naming.Consistent cfg) (ha : Elsewhere g s a)
    (hs : s.step cfg a = some s') : s'.naming.db.rowsOf g = s.naming.db.rowsOf g := by
  rcases naming_of_step hs with he | ⟨b, out, hd, hn⟩
  · rw [he]
  · exact NamingServer.rowsOf_of_step hc hn (ha.drives hd)

theorem mem_chunks_of_rowsOf (h : s'.naming.db.rowsOf g = s.naming.db.rowsOf g) {r : ChunkRow}
    (hr : r ∈ s'.naming.db.chunks) (hname : r.filename = g) : r ∈ s.naming.db.chunks :=
  (Db.mem_rowsOf_chunks.mp (h ▸ Db.mem_rowsOf_chunks.mpr ⟨hr, hname⟩)).1

theorem Unmoved.of_step (h : Unmoved g s₀ s) (hr : Reachable cfg ok s) (ha : Elsewhere g s a)
    (hs : s.step cfg a = some s') : Unmoved g s₀ s' := by
  have hrows := rowsOf_of_step hr.consistent ha hs
  refine ⟨hrows.trans h.rows, ?_, ?_⟩
  · intro addr c hm r hr' hname
    have hrow := mem_chunks_of_rowsOf hrows hr' hname
    cases net_of_step hs hm with
    | old hold => exact h.deletes addr c hold r hrow hname
    | rpc b out q hact hn hq hm =>
      subst hact
      cases q with
      | replicateChunk => cases hm
      | deleteChunk addr' c' =>
        cases hm
        exact NamingServer.not_row_of_deleteChunk hr.consistent hr.naming.pendingDeletes hn ha hq
          r hrow hname
    | sent _ _ _ _ _ _ _ _ hm => cases hm
    | stored _ _ _ _ _ hm => cases hm
    | fetched _ _ _ _ _ _ _ hm => cases hm
  · intro r hr' hname addr
    have hrow := mem_chunks_of_rowsOf hrows hr' hname
    rw [← h.bytes r hrow hname addr]
    cases file_of_step hs addr r.chunkId with
    | keep h' => exact h'
    | store i k j batch b hact hi hj _ =>
      -- the chunk would have been handed out for a call on the file
      subst hact
      obtain ⟨l, hl⟩ := (hr.ownChunks.net k addr batch j (List.mem_of_getElem? hi) _
        (List.mem_of_getElem? hj)).issued hr.consistent
      simp only [Elsewhere, hi] at ha
      exact absurd ((name_of_issued hr hrow hl).trans hname) ha
    | copy _ _ _ hact => subst hact; exact absurd ha id
    | delete i _ hi _ => exact absurd rfl (h.deletes addr _ (List.mem_of_getElem? hi) r hrow hname)
    | scrub _ hact => subst hact; exact absurd ha id

theorem unmoved_of_steps (hs₀ : Reachable cfg ok s₀) (hclear : NoDeletes g s₀)
    (hrun : Steps (step cfg) (Elsewhere g) s₀ s) : Unmoved g s₀ s := by
  refine hrun.invariant (P := Unmoved g s₀) (.refl hclear) fun t a u ht h ha hs => ?_
  have hreach : Reachable cfg anyStep t := (Steps.unguarded hs₀).trans ht.unguarded
  exact h.of_step hreach ha hs

/-! ### Answers -/

/-- The servers answer each chunk from the disk as it is in some state, or fail. -/
def served (seen : ℕ → Addr → ChunkId → Cluster) (fails : ℕ → Addr → ChunkId → Bool) : Serve :=
  fun round addr ids => ids.filterMap fun c =>
    if fails round addr c then none else ((seen round addr c).file addr c).map (c, ·)

/-- Nothing that can be asked about the file has changed. An answer of GetFile could have been
given before, up to which servers are live now, and a read that works on it returns what it
would have returned before if the same servers failed it. -/
structure Unaffected (cfg : Settings) (g : Filename) (s₀ s : Cluster) : Prop where
  rows : s.naming.db.rowsOf g = s₀.naming.db.rowsOf g
  bytes : ∀ r ∈ s₀.naming.db.chunks, r.filename = g → ∀ addr,
    s.file addr r.chunkId = s₀.file addr r.chunkId
  getFile : ∀ t resp, GetsFile cfg (Elsewhere g) s g t resp → ∃ o₁ o₂ : RowOrder,
    resp = getFileResponse (GfsCluster.getFile (o₁.view s₀.naming.db) (o₂.view s₀.naming.db) g)
      (t.naming.registry.liveServers t.naming.now)
  size : ∀ resp, GetsSize cfg (Elsewhere g) s g resp → ∃ o₁ o₂ : RowOrder,
    resp = getFileSizeResponse (GfsCluster.getFile (o₁.view s₀.naming.db) (o₂.view s₀.naming.db) g)
  read : ∀ t resp, GetsFile cfg (Elsewhere g) s g t resp → ∀ seen fails,
    (∀ round addr c, Steps (step cfg) (Elsewhere g) t (seen round addr c)) →
      read resp (served seen fails) = read resp (served (fun _ _ _ => s₀) fails)

theorem alike_served {seen : ℕ → Addr → ChunkId → Cluster} {placements : List ChunkPlacement}
    (fails : ℕ → Addr → ChunkId → Bool)
    (hfiles : ∀ p ∈ placements, ∀ round addr,
      (seen round addr p.chunkId).file addr p.chunkId = s₀.file addr p.chunkId) :
    Alike placements (served seen fails) (served (fun _ _ _ => s₀) fails) := by
  intro round addr ids hids
  refine List.filterMap_congr fun c hc => ?_
  obtain ⟨p, hp, rfl⟩ := List.mem_map.mp (hids c hc)
  rw [hfiles p hp]

theorem getFile_of_steps (hs₀ : Reachable cfg ok s₀) (hclear : NoDeletes g s₀) {s₁ s₂ : Cluster}
    (h₁ : Steps (step cfg) (Elsewhere g) s₀ s₁) (h₂ : Steps (step cfg) (Elsewhere g) s₀ s₂)
    (o₁ o₂ : RowOrder) : ∃ o₁' o₂' : RowOrder,
      getFile (o₁.view s₁.naming.db) (o₂.view s₂.naming.db) g =
        getFile (o₁'.view s₀.naming.db) (o₂'.view s₀.naming.db) g := by
  obtain ⟨o₁', ho₁⟩ := Db.exists_order (unmoved_of_steps hs₀ hclear h₁).rows o₁
  obtain ⟨o₂', ho₂⟩ := Db.exists_order (unmoved_of_steps hs₀ hclear h₂).rows o₂
  exact ⟨o₁', o₂', Db.getFile_congr ho₁.symm ho₂.symm⟩

/-- The placements of an answer are of chunks of the file. -/
theorem row_of_placement {d₁ d₂ : Db} {live : List Addr} {p : ChunkPlacement}
    (hp : p ∈ (getFileResponse (getFile d₁ d₂ g) live).placements) :
    ∃ r ∈ d₂.chunks, r.filename = g ∧ r.chunkId = p.chunkId := by
  rcases getFileResponse_cases g d₁ d₂ live with ⟨_, he⟩ | ⟨F, _, _, _, he⟩
  · rw [he] at hp
    cases hp
  · rw [he] at hp
    obtain ⟨r, hr, rfl⟩ := List.mem_map.mp hp
    rw [mem_chunkRowsOf] at hr
    exact ⟨r, hr.1, hr.2, rfl⟩

theorem bytes_of_steps (hs₀ : Reachable cfg ok s₀) (hclear : NoDeletes g s₀)
    (hrun : Steps (step cfg) (Elsewhere g) s₀ s) {r : ChunkRow} (hr : r ∈ s₀.naming.db.chunks)
    (hname : r.filename = g) (addr : Addr) : s.file addr r.chunkId = s₀.file addr r.chunkId := by
  have h := unmoved_of_steps hs₀ hclear hrun
  exact h.bytes r (mem_chunks_of_rowsOf h.rows.symm hr hname) hname addr

/-- Work on other files has no effect on a file. -/
theorem unaffected_of_elsewhere (hs₀ : Reachable cfg ok s₀) (hclear : NoDeletes g s₀)
    (hrun : Steps (step cfg) (Elsewhere g) s₀ s) : Unaffected cfg g s₀ s where
  rows := (unmoved_of_steps hs₀ hclear hrun).rows
  bytes r hr hname addr := bytes_of_steps hs₀ hclear hrun hr hname addr
  getFile := by
    rintro t _ ⟨s₁, s₂, o₁, o₂, h₁, h₂, _⟩
    obtain ⟨o₁', o₂', he⟩ := getFile_of_steps hs₀ hclear (hrun.trans h₁)
      ((hrun.trans h₁).trans h₂) o₁ o₂
    exact ⟨o₁', o₂', by rw [he]⟩
  size := by
    rintro _ ⟨s₁, s₂, o₁, o₂, h₁, h₂⟩
    obtain ⟨o₁', o₂', he⟩ := getFile_of_steps hs₀ hclear (hrun.trans h₁)
      ((hrun.trans h₁).trans h₂) o₁ o₂
    exact ⟨o₁', o₂', by rw [he]⟩
  read := by
    rintro t _ ⟨s₁, s₂, o₁, o₂, h₁, h₂, h₃⟩ seen fails hseen
    refine read_congr (alike_served fails fun p hp round addr => ?_)
    have h₀₂ := (hrun.trans h₁).trans h₂
    obtain ⟨r, hr, hname, hid⟩ := row_of_placement hp
    rw [o₂.mem_chunks] at hr
    have hr₀ := mem_chunks_of_rowsOf (unmoved_of_steps hs₀ hclear h₀₂).rows hr hname
    rw [← hid]
    exact bytes_of_steps hs₀ hclear ((h₀₂.trans h₃).trans (hseen round addr _)) hr₀ hname addr

/-- Beside a committed file another one is created, overwritten and deleted. -/
theorem unaffected_of_elsewhere_deleted : ∃ s₀ s,
    (∃ F ∈ s₀.naming.db.files, F.filename = ['g'] ∧ F.status = .committed) ∧
      Unaffected ⟨1, 60⟩ ['g'] s₀ s ∧ s.file ['s'] ['c'] = some [7] ∧ s.file ['s'] ['d'] = none := by
  have hrun : (run (guarded (step ⟨1, 60⟩) anyStep) init
      [.naming (.registerStorage ['s']), .createCall 0 ['g'] [7], .naming (.create 0 .checkLive),
        .naming (.create 0 (.selectFile .table)), .naming (.create 0 (.place ['c'])),
        .naming (.create 0 (.reserve 0)), .createReply 0, .sendBatch 0 0, .storeItem 0,
        .storeReply 0 0 0, .commitSend 0, .commitExec 0, .commitReply 0]).any (fun s₀ =>
      s₀.net.isEmpty && s₀.naming.db.files.any (fun F => F.filename = ['g'] ∧ F.status = .committed) &&
      (run (guarded (step ⟨1, 60⟩) (Elsewhere ['g'])) s₀
        [.createCall 1 ['f'] [8], .naming (.create 1 .checkLive),
          .naming (.create 1 (.selectFile .table)), .naming (.create 1 (.place ['d'])),
          .naming (.create 1 (.reserve 0)), .createReply 1, .sendBatch 1 0, .storeItem 0,
          .storeReply 1 0 0, .commitSend 1, .commitExec 1, .commitReply 1,
          .createCall 2 ['f'] [9], .naming (.create 2 .checkLive),
          .naming (.create 2 (.selectFile .table)), .naming (.create 2 (.selectChunks .table)),
          .naming (.purge 0), .deleteExec 0, .naming (.create 2 (.place ['e'])),
          .naming (.create 2 (.reserve 0)), .naming (.delete 0 (.receive ['f'])),
          .naming (.delete 0 (.selectFile .table)), .naming (.delete 0 (.selectChunks .table)),
          .naming (.delete 0 .remove), .naming (.delete 0 (.send 0 true)), .deleteExec 0]).any
        fun s => s.file ['s'] ['c'] = some [7] ∧ s.file ['s'] ['d'] = none) = true := by
    decide +kernel
  obtain ⟨s₀, hs₀, hp⟩ := exists_of_run hrun
  rw [Bool.and_eq_true, Bool.and_eq_true] at hp
  obtain ⟨⟨hnet, hfile⟩, hp⟩ := hp
  obtain ⟨F, hF, hcom⟩ := List.any_eq_true.mp hfile
  obtain ⟨s, hs, hp⟩ := exists_of_run hp
  have hclear : NoDeletes ['g'] s₀ := by
    intro addr c hm
    rw [List.isEmpty_iff.mp hnet] at hm
    cases hm
  exact ⟨s₀, s, ⟨F, hF, of_decide_eq_true hcom⟩, unaffected_of_elsewhere hs₀ hclear hs,
    of_decide_eq_true hp⟩

end Cluster

end GfsCluster
