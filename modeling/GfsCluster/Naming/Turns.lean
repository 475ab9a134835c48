import GfsCluster.Client.FileService
import GfsCluster.Naming.Cleanup

/-! The handlers of DeleteFile and GetFile as deletes and looks of the file service. A step of a
handler is one step of its operation or none, and the other threads leave the operations alone. -/

namespace GfsCluster

/-- A delete is over with the removal of the rows, not with its answer. A crash may leave it
anywhere. -/
def DeleteHandler.Does (h : DeleteHandler) (op : DeleteOp) : Prop :=
  match h.phase with
  | .idle => op = .idle
  | .received => op = .called h.filename
  | .row _ | .loaded _ => op = .found h.filename
  | .sending _ _ => op = .done true
  | .replied resp => op = .done resp.ok
  | .failed => True

/-- A look is over with the first SELECT. -/
def GetHandler.Does (h : GetHandler) (op : LookOp) : Prop :=
  match h.phase with
  | .idle => op = .idle
  | .received => op = .called h.filename
  | .row row => op = .done (if row.status = .committed then some row.size else none)
  | .loaded fm => op = .done (if fm.status = .committed then some fm.size else none)
  | .replied resp => op = .done (if resp.ok then some resp.size else none)
  | .failed => True

section Handlers

variable {h : DeleteHandler} {g : GetHandler}

theorem DeleteHandler.Does.crash {op : DeleteOp} (hd : h.Does op) : h.crash.Does op := by
  obtain ⟨f, phase⟩ := h
  cases phase <;> first | exact hd | trivial

theorem GetHandler.Does.crash {op : LookOp} (hd : g.Does op) : g.crash.Does op := by
  obtain ⟨f, phase⟩ := g
  cases phase <;> first | exact hd | trivial

end Handlers

namespace NamingServer

variable {cfg : Settings} {n n' : NamingServer} {b : NamingAction} {k : ℕ} {out : List StorageRpc}

/-- Steps that neither commit, remove nor reserve leave the rows of the files. -/
theorem rows_of_step (hc : Consistent cfg n) (hs : n.step cfg b = some (n', out))
    (hcommit : ∀ f, b ≠ .commit f) (hreserve : ∀ k t, b ≠ .create k (.reserve t))
    (hremove : n.removes b = none) : n'.db.files = n.db.files ∧ n'.db.chunks = n.db.chunks := by
  cases db_of_step hc hs with
  | keep hdb | drop _ _ _ _ _ _ _ hdb =>
    rw [hdb]
    exact ⟨rfl, rfl⟩
  | commit f ha => exact absurd ha (hcommit f)
  | remove f _ _ hf => rw [hremove] at hf; cases hf
  | reserve k t _ ha => exact absurd ha (hreserve k t)
  | record _ _ _ _ _ _ _ _ hfiles hchunks => exact ⟨hfiles, hchunks⟩

theorem reserved_eq_of_step (hc : Consistent cfg n) (hs : n.step cfg b = some (n', out))
    (hreserve : ∀ k t, b ≠ .create k (.reserve t)) (k : ℕ) :
    (n'.creates k).phase.reserved = (n.creates k).phase.reserved := by
  cases hr : (n.creates k).phase.reserved with
  | true => rw [step_reserved hs hr, hr]
  | false =>
    by_contra hne
    rcases reserve_of_step hc hs (by simpa using hne) with hr' | ⟨_, t, hm⟩
    · rw [hr] at hr'
      cases hr'
    · exact hreserve k t hm.action

theorem reserve_cases {t : Seconds} (hc : Consistent cfg n)
    (hs : n.step cfg (.create k (.reserve t)) = some (n', out)) :
    ∃ chunks, Reserves n k (.create k (.reserve t)) n' chunks t ∧
      n'.creates = Function.update n.creates k ⟨(n.creates k).req,
        .replied ⟨true, "reserved", chunks.map ChunkMeta.placement⟩⟩ := by
  obtain ⟨hm, _⟩ := createStep_of_step hs
  cases case_of_createStep hm with
  | reserve now chunks store hphase hall hpend =>
    obtain ⟨db, hdb, hfiles, hchunks, _⟩ := hc.createPending_tables hphase (n.creates k).req.filename
      (n.creates k).req.size (n.creates k).req.numChunks t
    rw [hdb] at hpend
    cases hpend
    exact ⟨chunks, ⟨rfl, hphase, hfiles, hchunks, rfl, by simp [setCreate]⟩, rfl⟩
  | raise now chunks e store hphase hall hpend =>
    obtain ⟨db, hdb, _⟩ := hc.createPending_tables hphase (n.creates k).req.filename
      (n.creates k).req.size (n.creates k).req.numChunks t
    rw [hdb] at hpend
    cases hpend

theorem gets_of_step (hs : n.step cfg b = some (n', out)) (hcrash : b ≠ .crash)
    (hget : ∀ j g, b ≠ .get j g) : n'.gets = n.gets := by
  cases case_of_step hs with
  | create k c n' h => exact (createStep_frame (createStep_of_step hs).1).2.2.1
  | crash => exact absurd rfl hcrash
  | get j g n' h => exact absurd rfl (hget j g)
  | delete k c r h | cleanup c r h | heal c r h => cases h <;> rfl
  | _ => rfl

/-- Steps of others leave the handlers where they are. -/
theorem handlers_of_step {D : ℕ → DeleteOp} {L : ℕ → LookOp} (hs : n.step cfg b = some (n', out))
    (hdelete : ∀ j d, b ≠ .delete j d) (hget : ∀ j g, b ≠ .get j g)
    (hD : ∀ j, (n.deletes j).Does (D j)) (hL : ∀ j, (n.gets j).Does (L j)) :
    (∀ j, (n'.deletes j).Does (D j)) ∧ ∀ j, (n'.gets j).Does (L j) := by
  by_cases hcrash : b = .crash
  · subst hcrash
    cases hs
    exact ⟨fun j => (hD j).crash, fun j => (hL j).crash⟩
  · rw [gets_of_step hs hcrash hget]
    rcases step_frame hs with rfl | ⟨⟨j, d, rfl⟩ | hd, _⟩
    · exact absurd rfl hcrash
    · exact absurd rfl (hdelete j d)
    · rw [hd]
      exact ⟨hD, hL⟩

theorem listed_of_removes {c : CleanupStep} {f : Filename} (hf : n.removes (.cleanup c) = some f) :
    ∃ cutoff, n.cleanup.cutoff = some cutoff ∧ f ∈ n.cleanup.listed := by
  cases c with
  | remove =>
    simp only [removes] at hf
    split at hf
    · rename_i hphase
      cases hf
      exact ⟨_, by rw [hphase]; rfl, by simp [hphase, CleanupPhase.listed]⟩
    · cases hf
  | _ => all_goals cases hf

theorem db_of_removes {f : Filename} (hc : Consistent cfg n) (hs : n.step cfg b = some (n', out))
    (hf : n.removes b = some f) : n'.db = n.db.deleteFile f := by
  have hw : n.store.writer = n.db := hc.clean
  cases b with
  | delete j d =>
    cases deleteCase_of_step hs with
    | remove fm hp =>
      cases hf
      simp [setDelete, removeFile, MetadataStore.deleteFile, hw]
    | _ => cases hf
  | cleanup c =>
    cases cleanupCase_of_step hs with
    | finish cutoff hp => simp [removes, hp] at hf
    | remove cutoff fm stale hp =>
      simp only [removes, hp, Option.some.injEq] at hf
      subst hf
      simp [removeFile, MetadataStore.deleteFile, hw]
    | _ => cases hf
  | _ => all_goals cases hf

/-- What a DeleteFile handler does next, as a step of the delete `op`. -/
inductive DeleteTurn (n n' : NamingServer) (j : ℕ) (op : DeleteOp) : DeleteStep → Prop
  | receive (f : Filename) (hop : op = .idle) (h' : (n'.deletes j).Does (.called f)) :
    DeleteTurn n n' j op (.receive f)
  | look (o : RowOrder) (f : Filename) (hop : op = .called f) (h' : (n'.deletes j).Does
      (if selectFile (o.view n.db) f = none then .done false else .found f)) :
    DeleteTurn n n' j op (.selectFile o)
  | remove (f : Filename) (hop : op = .found f) (hf : n.removes (.delete j .remove) = some f)
      (h' : (n'.deletes j).Does (.done true)) : DeleteTurn n n' j op .remove
  | other (d : DeleteStep) (hd : n.removes (.delete j d) = none) (hinput : ∀ f, d ≠ .receive f)
      (h' : (n'.deletes j).Does op) : DeleteTurn n n' j op d

theorem deleteTurn_of_step {j : ℕ} {d : DeleteStep} {op : DeleteOp}
    (hs : n.step cfg (.delete j d) = some (n', out)) (hop : (n.deletes j).Does op) :
    DeleteTurn n n' j op d := by
  unfold DeleteHandler.Does at hop
  cases deleteCase_of_step hs with
  | receive f hp =>
    rw [hp] at hop
    exact .receive f hop (by simp [DeleteHandler.Does])
  | notFound o hp hrow =>
    rw [hp] at hop
    exact .look o _ hop (by simp [DeleteHandler.Does, setDelete, hrow])
  | selectFile o row hp hrow =>
    rw [hp] at hop
    exact .look o _ hop (by simp [DeleteHandler.Does, setDelete, hrow])
  | remove fm hp =>
    rw [hp] at hop
    exact .remove _ hop rfl (by simp [DeleteHandler.Does, setDelete])
  | _ => exact .other _ rfl (by simp) (by simp_all [DeleteHandler.Does, setDelete])

theorem getStep_other {j : ℕ} {g : GetStep} (hs : n.step cfg (.get j g) = some (n', out)) {i : ℕ}
    (hi : i ≠ j) : n'.gets i = n.gets i := by
  obtain ⟨hm, _⟩ := getStep_of_step hs
  cases case_of_getStep hm <;> simp [setGet, Function.update_of_ne hi]

/-- What the first SELECT of a look tells. -/
def rowSize (row : Option FileRow) : Option ℤ :=
  row.bind fun row => if row.status = .committed then some row.size else none

/-- What a GetFile handler does next, as a step of the look `op`. -/
inductive LookTurn (n n' : NamingServer) (j : ℕ) (op : LookOp) : GetStep → Prop
  | receive (f : Filename) (hop : op = .idle) (h' : (n'.gets j).Does (.called f)) :
    LookTurn n n' j op (.receive f)
  | see (o : RowOrder) (f : Filename) (hop : op = .called f)
      (h' : (n'.gets j).Does (.done (rowSize (selectFile (o.view n.db) f)))) :
    LookTurn n n' j op (.selectFile o)
  | other (g : GetStep) (hinput : ∀ f, g ≠ .receive f) (h' : (n'.gets j).Does op) :
    LookTurn n n' j op g

theorem lookTurn_of_step {j : ℕ} {g : GetStep} {op : LookOp}
    (hs : n.step cfg (.get j g) = some (n', out)) (hop : (n.gets j).Does op) : LookTurn n n' j op g := by
  obtain ⟨hm, _⟩ := getStep_of_step hs
  unfold GetHandler.Does at hop
  cases case_of_getStep hm with
  | receive f hp =>
    rw [hp] at hop
    exact .receive f hop (by simp [GetHandler.Does])
  | notFound o hp hrow =>
    rw [hp] at hop
    exact .see o _ hop (by simp [GetHandler.Does, setGet, hrow, rowSize, getFileResponse])
  | selectFile o row hp hrow =>
    rw [hp] at hop
    exact .see o _ hop (by simp [GetHandler.Does, setGet, hrow, rowSize])
  | selectChunks o row hp =>
    rw [hp] at hop
    exact .other _ (by simp) (by simpa [GetHandler.Does, setGet, FileMeta.ofRow] using hop)
  | reply fm hp =>
    rw [hp] at hop
    refine .other _ (by simp) ?_
    simp only [GetHandler.Does, setGet, Function.update_self, getFileResponse]
    refine hop.trans ?_
    by_cases hst : fm.status = .committed <;> simp [hst]

end NamingServer

end GfsCluster
