import GfsCluster.Naming.Deletion
import GfsCluster.Naming.Pending

/-! One request alone on its file. While no other CreateFile, DeleteFile or cleanup works
on the file of a CreateFile request, the version it reserves stays, and nothing that is
deleted or waits to be deleted is of that version. -/

namespace GfsCluster

open StepSystem

namespace NamingServer

variable {cfg : Settings} {n n' : NamingServer} {k : ℕ} {f g : Filename} {c : ChunkId}
  {a : NamingAction} {out : List StorageRpc} {F : FileRow}

/-- The step is not of another request's work on the file `f` than that of CreateFile `k`. -/
def Alone (f : Filename) (k : ℕ) (n : NamingServer) : NamingAction → Prop
  | .create _ (.receive _) => True
  | .create j _ => j = k ∨ (n.creates j).req.filename ≠ f
  | a => n.removes a ≠ some f

instance (f : Filename) (k : ℕ) (n : NamingServer) (a : NamingAction) :
    Decidable (Alone f k n a) := by
  unfold Alone
  split <;> infer_instance

theorem Alone.of_create {j : ℕ} {b : CreateStep} (h : Alone f k n (.create j b))
    (hb : ∀ req, b ≠ .receive req) : j = k ∨ (n.creates j).req.filename ≠ f := by
  cases b with
  | receive req => exact absurd rfl (hb req)
  | _ => all_goals exact h

theorem Alone.removes (h : Alone f k n a) : n.removes a ≠ some f := by
  cases a with
  | create j b => simp [NamingServer.removes]
  | _ => all_goals exact h

/-! ### The version stays -/

theorem issued_of_reserved (hc : Consistent cfg n) (hs : n.step cfg a = some (n', out))
    (hr : (n.creates k).phase.reserved = true) {i : ℕ} :
    (⟨c, k, i⟩ : Issue) ∈ n'.issued ↔ ⟨c, k, i⟩ ∈ n.issued := by
  obtain ⟨chunks, hp⟩ := reserved_plan hr
  have hp' : (n'.creates k).phase.plan = some chunks := by rwa [step_reserved hs hr]
  rw [(hc.plan k chunks hp).issue, ((hc.of_step hs).plan k chunks hp').issue]

/-- Whatever else a step does, a file whose rows stay keeps its version. -/
theorem VersionOf.of_rows {G : FileRow} (hv : n.VersionOf F k) (hc : Consistent cfg n)
    (hs : n.step cfg a = some (n', out)) (hname : G.filename = F.filename) (hsize : G.size = F.size)
    (hnum : G.numChunks = F.numChunks) (hrows : ∀ r : ChunkRow, r.filename = F.filename →
      (r ∈ n'.db.chunks ↔ r ∈ n.db.chunks)) : n'.VersionOf G k := by
  have he := step_reserved hs hv.reserved
  refine ⟨by rw [he]; exact hv.reserved, by rw [he, hname]; exact hv.name,
    by rw [he, hsize]; exact hv.size, by rw [he, hnum]; exact hv.numChunks, fun c i => ?_⟩
  rw [hname, hrows _ rfl, hv.rows, issued_of_reserved hc hs hv.reserved]

/-- The file has the version that the request reserved. -/
def Holds (n : NamingServer) (f : Filename) (k : ℕ) : Prop :=
  ∃ F ∈ n.db.files, F.filename = f ∧ n.VersionOf F k

theorem Holds.row (h : n.Holds f k) {i : ℕ} (hi : ⟨c, k, i⟩ ∈ n.issued) :
    ⟨c, f, i⟩ ∈ n.db.chunks := by
  obtain ⟨F, _, rfl, hv⟩ := h
  exact (hv.rows c i).mpr hi

theorem Holds.of_step (h : n.Holds f k) (hc : Consistent cfg n) (hs : n.step cfg a = some (n', out))
    (halone : Alone f k n a) : n'.Holds f k := by
  obtain ⟨F, hF, rfl, hv⟩ := h
  cases db_of_step hc hs with
  | keep hdb => exact ⟨F, by rwa [hdb], rfl, hv.of_rows hc hs rfl rfl rfl fun r _ => by rw [hdb]⟩
  | commit g _ hdb =>
    have hrows : ∀ r : ChunkRow, r.filename = F.filename → (r ∈ n'.db.chunks ↔ r ∈ n.db.chunks) := by
      intro r _
      rw [hdb]
      rfl
    by_cases hg : F.filename = g
    · refine ⟨{ F with status := .committed }, ?_, rfl, hv.of_rows hc hs rfl rfl rfl hrows⟩
      rw [hdb]
      exact List.mem_map.mpr ⟨F, hF, by rw [if_pos hg]⟩
    · refine ⟨F, ?_, rfl, hv.of_rows hc hs rfl rfl rfl hrows⟩
      rw [hdb]
      exact List.mem_map.mpr ⟨F, hF, by rw [if_neg hg]⟩
  | remove g hdb _ hg =>
    have hne : F.filename ≠ g := by
      rintro rfl
      exact halone.removes hg
    refine ⟨F, by rw [hdb, Db.mem_deleteFile_files]; exact ⟨hF, hne⟩, rfl,
      hv.of_rows hc hs rfl rfl rfl fun r hr => ?_⟩
    rw [hdb, Db.mem_deleteFile_chunks]
    exact ⟨And.left, fun h => ⟨h, by rw [hr]; exact hne⟩⟩
  | reserve j t chunks ha hphase _ hfiles hchunks =>
    subst ha
    have hne : F.filename ≠ (n.creates j).req.filename := by
      rcases halone.of_create (by simp) with rfl | hne
      · have hr := hv.reserved
        rw [hphase] at hr
        cases hr
      · exact hne.symm
    refine ⟨F, ?_, rfl, hv.of_rows hc hs rfl rfl rfl fun r hr => ?_⟩
    · rw [hfiles, List.mem_append, Db.mem_deleteFile_files]
      exact .inl ⟨hF, hne⟩
    · rw [hchunks, List.mem_append, Db.mem_deleteFile_chunks]
      constructor
      · rintro (h | h)
        · exact h.1
        · obtain ⟨m, _, rfl⟩ := List.mem_map.mp h
          exact absurd hr.symm hne
      · exact fun h => .inl ⟨h, by rw [hr]; exact hne⟩
  | record _ _ _ _ _ _ _ _ hfiles hchunks =>
    exact ⟨F, by rwa [hfiles], rfl, hv.of_rows hc hs rfl rfl rfl fun r _ => by rw [hchunks]⟩
  | drop _ _ _ _ _ _ _ hdb =>
    exact ⟨F, by rw [hdb]; exact hF, rfl, hv.of_rows hc hs rfl rfl rfl fun r _ => by rw [hdb]; rfl⟩

/-- Once reserved, the version is there. -/
def Owned (f : Filename) (k : ℕ) (n : NamingServer) : Prop :=
  (n.creates k).phase.reserved = true → (n.creates k).req.filename = f ∧ n.Holds f k

theorem Owned.of_step (h : Owned f k n) (hc : Consistent cfg n) (hs : n.step cfg a = some (n', out))
    (hname : (n'.creates k).req.filename = f) (halone : Alone f k n a) : Owned f k n' := by
  intro hr'
  refine ⟨hname, ?_⟩
  rcases reserve_of_step hc hs hr' with hr | ⟨chunks, now, hm⟩
  · exact (h hr).2.of_step hc hs halone
  · have hplan := hc.plan k chunks (by rw [hm.phase]; rfl)
    rw [hm.req] at hname
    refine ⟨_, ?_, hname, .of_reserve hplan hr' hm.req hm.issued hm.chunks now⟩
    rw [hm.files]
    simp

/-! ### What is deleted is of other versions -/

/-- The id was handed out for another request. -/
def Apart (k : ℕ) (n : NamingServer) (c : ChunkId) : Prop := ∃ e ∈ n.issued, e.chunkId = c ∧ e.call ≠ k

theorem Apart.of_step (h : Apart k n c) (hs : n.step cfg a = some (n', out)) : Apart k n' c := by
  obtain ⟨e, he, hid, hcall⟩ := h
  exact ⟨e, step_issued hs he, hid, hcall⟩

theorem Apart.not_issued (h : Apart k n c) (hc : Consistent cfg n) {i : ℕ} :
    (⟨c, k, i⟩ : Issue) ∉ n.issued := by
  intro hi
  obtain ⟨e, he, hid, hcall⟩ := h
  rw [hc.issue_unique he hi hid] at hcall
  exact hcall rfl

theorem BornIn.apart (h : n.BornIn g c) (hk : (n.creates k).phase.reserved = true →
    (n.creates k).req.filename ≠ g) : Apart k n c := by
  obtain ⟨j, i, hi, hr, hname⟩ := h
  refine ⟨_, hi, rfl, ?_⟩
  rintro rfl
  exact hk hr hname

theorem Dead.apart (h : n.Dead c) (howned : Owned f k n) : Apart k n c := by
  obtain ⟨⟨g, j, i, hi, hr, _⟩, hrow⟩ := h
  refine ⟨_, hi, rfl, ?_⟩
  rintro rfl
  exact hrow (List.mem_map.mpr ⟨_, (howned hr).2.row hi, rfl⟩)

/-- What the deletion threads are still to delete is of other requests. -/
def PurgesApart (k : ℕ) (n : NamingServer) : Prop := ∀ e ∈ n.purges, Apart k n e.2.2

theorem PurgesApart.of_step (h : PurgesApart k n) (hc : Consistent cfg n) (howned : Owned f k n)
    (hs : n.step cfg a = some (n', out)) (halone : Alone f k n a) : PurgesApart k n' := by
  intro e he
  rcases mem_purges_of_step hs he with he | ⟨o, row, rfl, hphase, hmem⟩
  · exact (h e he).of_step hs
  · refine Apart.of_step ((hc.selected_born o row hmem).apart fun hr hname => ?_) hs
    rcases halone.of_create (by simp) with hk | hne
    · rw [hk] at hphase
      rw [hphase] at hr
      cases hr
    · exact hne (hname.symm.trans (howned hr).1)

theorem apart_of_deleteChunk {addr : Addr} (h : PurgesApart k n) (howned : Owned f k n)
    (hp : PendingDeletes n) (hs : n.step cfg a = some (n', out))
    (hout : .deleteChunk addr c ∈ out) : Apart k n c := by
  rcases deleteChunk_of_step hs hout with ⟨i, j, _, hi⟩ | ⟨j, _, _, _, hmem⟩ | ⟨_, hmem⟩
  · exact h _ (List.mem_of_getElem? hi)
  · exact ((hp.deletes j).2 _ hmem).apart howned
  · exact (hp.cleanup.2 _ hmem).apart howned

end NamingServer

end GfsCluster
