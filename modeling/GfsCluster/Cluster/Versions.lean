import GfsCluster.Cluster.Availability
import GfsCluster.Cluster.Sessions
import GfsCluster.Naming.Turns

/-! The tables and the calls of the cluster as versions and `create`s of the file service. The version
of a file is the data of the call that reserved its rows, and it is published when the row is
committed. -/

namespace GfsCluster

open StepSystem

def CallPhase.result : CallPhase → Option Bool
  | .returned => some true
  | .raised => some false
  | _ => none

theorem CallPhase.not_isIdle {p : CallPhase} (h : p ≠ .idle) : p.isIdle = false := by
  cases p <;> first | rfl | exact absurd rfl h

def CreateCall.stage (call : CreateCall) (reserved : Bool) : CreateStage :=
  if call.phase.isIdle then .idle
  else if call.commit = .answered true then .published
  else if reserved then .reserved
  else .called

namespace Cluster

variable {cfg : Settings} {s s' : Cluster} {a : ClusterAction} {k : ℕ} {f : Filename}
  {v : Option FileVersion}

def createOp (s : Cluster) (k : ℕ) : CreateOp where
  filename := (s.calls k).filename
  data := (s.calls k).data
  stage := (s.calls k).stage (s.naming.creates k).phase.reserved
  result := (s.calls k).phase.result

/-- The version that the tables have of a file. -/
def Offers (s : Cluster) (f : Filename) : Option FileVersion → Prop
  | none => ∀ F ∈ s.naming.db.files, F.filename ≠ f
  | some v => ∃ F ∈ s.naming.db.files, F.filename = f ∧ (v.published = true ↔ F.status = .committed) ∧
    ∃ k, s.naming.VersionOf F k ∧ (s.calls k).data = v.data

/-- What every read returns while nothing else moves and the servers of `failed` are out of reach. -/
def ReadsAs (s : Cluster) (failed : Finset Addr) (f : Filename) (r : Except ClientError Bytes) : Prop :=
  ∀ (pool : Pool) (o₁ o₂ : RowOrder) (live : List Addr), pool.Reads (s.onDisks failed) →
    pool.read (getFileResponse (getFile (o₁.view s.naming.db) (o₂.view s.naming.db) f) live) = r

/-- A read returns the content, or which chunks of it are lost. -/
def Returns (s : Cluster) (f : Filename) : Option Bytes → Prop
  | none => ∀ failed, s.ReadsAs failed f (answerOf none)
  | some data => ∃ F ∈ s.naming.db.files, F.filename = f ∧ F.status = .committed ∧
    ∀ failed, s.ReadsAs failed f (if s.lostIndices failed F = [] then .ok data
      else .error (.gfsError ("chunks unavailable after trying every replica: " ++
        ", ".intercalate (((s.lostIndices failed F).map toString).take 10))))

/-- CommitFile is executed on a version of its own call, and while the cleanup loop holds a name,
nobody commits it or reserves it anew. -/
def Regular (s : Cluster) : ClusterAction → Prop
  | .naming b => NamingServer.KeepsListed s.naming b
  | .commitExec k => NamingServer.KeepsListed s.naming (.commit (s.calls k).filename) ∧
    OwnCommit s (.commitExec k) ∧ ∀ F ∈ s.naming.db.files, F.filename = (s.calls k).filename →
      F.size = (s.calls k).data.length
  | _ => True

instance (s : Cluster) (a : ClusterAction) : Decidable (Regular s a) :=
  match a with
  | .naming b => inferInstanceAs (Decidable (NamingServer.KeepsListed s.naming b))
  | .commitExec _ => inferInstanceAs (Decidable (_ ∧ _ ∧ ∀ F ∈ s.naming.db.files, _ → _))
  | .createCall _ _ _ | .createReply _ | .sendBatch _ _ | .storeItem _ | .storeReply _ _ _
  | .uploadFail _ _ | .commitSend _ | .commitLost _ | .commitReply _ | .clientStop _ | .deleteExec _
  | .copyFetch _ | .copyStore _ | .drop _ | .scrubQuery _ _ | .scrubList _ | .scrubRemove _ _
  | .scrubStop _ => .isTrue trivial

/-- The service is in a state that the cluster implements. -/
structure Represents (cfg : Settings) (s : Cluster) (x : FileService) : Prop where
  reachable : Reachable cfg Regular s
  versions : ∀ f, s.Offers f (x.versions f)
  creates : x.creates = s.createOp
  deletes : ∀ j, (s.naming.deletes j).Does (x.deletes j)
  looks : ∀ j, (s.naming.gets j).Does (x.looks j)

/-! ### Versions -/

theorem version_of_step {ok : Cluster → ClusterAction → Prop} {F G : FileRow} (hr : Reachable cfg ok s)
    (hs : s.step cfg a = some s') (hv : s.naming.VersionOf F k) (hname : G.filename = F.filename)
    (hsize : G.size = F.size) (hnum : G.numChunks = F.numChunks) (hchunks : ∀ r : ChunkRow,
      r.filename = F.filename → (r ∈ s'.naming.db.chunks ↔ r ∈ s.naming.db.chunks)) :
    s'.naming.VersionOf G k ∧ (s'.calls k).data = (s.calls k).data := by
  refine ⟨?_, (call_frame hs (hr.requests.begun hv.reserved)).2.1⟩
  rcases naming_of_step hs with he | ⟨b, out, _, hn⟩
  · rw [he]
    exact ⟨hv.reserved, hv.name.trans hname.symm, hv.size.trans hsize.symm, hv.numChunks.trans hnum.symm,
      fun c i => by rw [hname]; exact hv.rows c i⟩
  · exact hv.of_rows hr.consistent hn hname hsize hnum hchunks

namespace Offers

variable {ok : Cluster → ClusterAction → Prop} (h : s.Offers f v) (hr : Reachable cfg ok s)
include h

theorem eq_none_iff (o : RowOrder) : v = none ↔ selectFile (o.view s.naming.db) f = none := by
  rw [selectFile_view, selectFile_eq_none]
  cases v with
  | none => exact ⟨fun _ => h, fun _ => rfl⟩
  | some v =>
    obtain ⟨F, hF, hname, _⟩ := h
    exact ⟨nofun, fun hnone => absurd hname (hnone F hF)⟩

include hr

/-- A file whose rows stay keeps its version. -/
theorem of_rows (hs : s.step cfg a = some s') (hfiles : ∀ F : FileRow, F.filename = f →
      (F ∈ s'.naming.db.files ↔ F ∈ s.naming.db.files))
    (hchunks : ∀ r : ChunkRow, r.filename = f → (r ∈ s'.naming.db.chunks ↔ r ∈ s.naming.db.chunks)) :
    s'.Offers f v := by
  cases v with
  | none => exact fun F hF hname => h F ((hfiles F hname).mp hF) hname
  | some v =>
    obtain ⟨F, hF, rfl, hst, k, hv, hdata⟩ := h
    obtain ⟨hv', hdata'⟩ := version_of_step hr hs hv rfl rfl rfl hchunks
    exact ⟨F, (hfiles F rfl).mpr hF, rfl, hst, k, hv', hdata'.trans hdata⟩

/-- The first SELECT of a look. -/
theorem size {o : RowOrder} {row : FileRow} (hsel : selectFile (o.view s.naming.db) f = some row) :
    (seen v).map (fun b => (b.length : ℤ)) = if row.status = .committed then some row.size else none := by
  rw [selectFile_view, selectFile_eq_some] at hsel
  obtain ⟨hrow, hname⟩ := hsel
  cases v with
  | none => exact absurd hname (h row hrow)
  | some v =>
    obtain ⟨F, hF, hname', hst, k, hv, hdata⟩ := h
    obtain rfl : F = row := s.naming.db.file_unique hF hrow (hname'.trans hname.symm)
    have hsize : F.size = v.data.length := by
      rw [← hv.size, (hr.requests.sent k (hr.requests.begun hv.reserved)).2, ← hdata]
      rfl
    rw [seen, Option.bind_some]
    simp only [hst]
    split_ifs
    · rw [hsize]
      rfl
    · rfl

theorem returns : s.Returns f (seen v) := by
  cases v with
  | none =>
    intro failed pool o₁ o₂ live _
    have hsel : selectFile (o₁.view s.naming.db) f = none := (eq_none_iff h o₁).mp rfl
    rw [getFile, hsel]
    rfl
  | some v =>
    obtain ⟨F, hF, rfl, hst, k, hv, hdata⟩ := h
    rw [seen, Option.bind_some]
    split_ifs with hpublished
    · refine ⟨F, hF, rfl, hst.mp hpublished, fun failed pool o₁ o₂ live hpool => ?_⟩
      rw [read_version hr.unguarded hv hF (hst.mp hpublished) hpool o₁ o₂ live, hdata]
    · intro failed pool o₁ o₂ live _
      have hsel : selectFile (o₁.view s.naming.db) F.filename = some F := by
        rw [selectFile_view]
        exact selectFile_eq_some.mpr ⟨hF, rfl⟩
      have hnot : F.status ≠ .committed := fun hcom => hpublished (hst.mpr hcom)
      rw [getFile, hsel, Option.map_some, getFileResponse, FileMeta.ofRow, if_neg hnot]
      rfl

end Offers

section Tables

variable {ok : Cluster → ClusterAction → Prop} {V : Filename → Option FileVersion} {g : Filename}
  (h : ∀ f, s.Offers f (V f)) (hr : Reachable cfg ok s) (hs : s.step cfg a = some s')
include h hr hs

theorem offers_of_keep (hfiles : s'.naming.db.files = s.naming.db.files)
    (hchunks : s'.naming.db.chunks = s.naming.db.chunks) (f : Filename) : s'.Offers f (V f) :=
  (h f).of_rows hr hs (fun _ _ => by rw [hfiles]) fun _ _ => by rw [hchunks]

theorem offers_of_remove (hdb : s'.naming.db = s.naming.db.deleteFile g) (f : Filename) :
    s'.Offers f (Function.update V g none f) := by
  by_cases hf : f = g
  · subst hf
    rw [Function.update_self]
    intro F hF
    rw [hdb, Db.mem_deleteFile_files] at hF
    exact hF.2
  · rw [Function.update_of_ne hf]
    refine (h f).of_rows hr hs (fun F hF => ?_) fun r hrow => ?_
    · rw [hdb, Db.mem_deleteFile_files, hF]
      exact and_iff_left hf
    · rw [hdb, Db.mem_deleteFile_chunks, hrow]
      exact and_iff_left hf

theorem offers_of_commit (hdb : s'.naming.db = s.naming.db.markCommitted g) {data : Bytes}
    (hdata : (V g).map FileVersion.data = some data) (f : Filename) :
    s'.Offers f (Function.update V g (some ⟨data, true⟩) f) := by
  have hchunks : s'.naming.db.chunks = s.naming.db.chunks := by rw [hdb]; rfl
  by_cases hf : f = g
  · subst hf
    obtain ⟨v, hv, rfl⟩ := Option.map_eq_some_iff.mp hdata
    have hoffer := h f
    rw [hv] at hoffer
    obtain ⟨F, hF, rfl, _, k, hof, hdata⟩ := hoffer
    obtain ⟨hof', hdata'⟩ := version_of_step (G := { F with status := .committed }) hr hs hof rfl rfl
      rfl fun _ _ => by rw [hchunks]
    rw [Function.update_self]
    refine ⟨{ F with status := .committed }, ?_, rfl, by simp, k, hof', hdata'.trans hdata⟩
    rw [hdb, Db.mem_markCommitted]
    exact ⟨F, hF, (if_pos rfl).symm⟩
  · rw [Function.update_of_ne hf]
    refine (h f).of_rows hr hs (fun F hF => ?_) fun _ _ => by rw [hchunks]
    rw [hdb, Db.mem_markCommitted]
    constructor
    · rintro ⟨G, hG, rfl⟩
      split_ifs at hF ⊢ with hname
      · exact absurd (hF.symm.trans hname) hf
      · exact hG
    · exact fun hF' => ⟨F, hF', (if_neg (hF ▸ hf)).symm⟩

theorem offers_of_reserve {chunks : List ChunkMeta} {t : Seconds} {b : NamingAction}
    (hm : NamingServer.Reserves s.naming k b s'.naming chunks t)
    (hres : (s'.naming.creates k).phase.reserved = true) (f : Filename) :
    s'.Offers f (Function.update V (s.calls k).filename (some ⟨(s.calls k).data, false⟩) f) := by
  have hbegun : (s.calls k).phase ≠ .idle := by
    intro hidle
    have hphase := hm.phase
    rw [(hr.requests.idle k hidle).1] at hphase
    cases hphase
  have hname : (s.naming.creates k).req.filename = (s.calls k).filename := by
    rw [(hr.requests.sent k hbegun).2]
    rfl
  by_cases hf : f = (s.calls k).filename
  · subst hf
    have hplan := hr.consistent.plan k chunks (by rw [hm.phase]; rfl)
    rw [Function.update_self]
    refine ⟨_, ?_, hname, by simp, k,
      .of_reserve hplan hres hm.req hm.issued hm.chunks t, (call_frame hs hbegun).2.1⟩
    rw [hm.files]
    exact List.mem_append_right _ (List.mem_singleton_self _)
  · rw [Function.update_of_ne hf]
    have hne : f ≠ (s.naming.creates k).req.filename := hname ▸ hf
    refine (h f).of_rows hr hs (fun F hF => ?_) fun r hrow => ?_
    · subst hF
      rw [hm.files, List.mem_append, Db.mem_deleteFile_files, List.mem_singleton]
      constructor
      · rintro (hF | rfl)
        · exact hF.1
        · exact absurd rfl hne
      · exact fun hF => .inl ⟨hF, hne⟩
    · subst hrow
      rw [hm.chunks, List.mem_append, Db.mem_deleteFile_chunks]
      constructor
      · rintro (hrow | hrow)
        · exact hrow.1
        · obtain ⟨m, _, rfl⟩ := List.mem_map.mp hrow
          exact absurd rfl hne
      · exact fun hrow => .inl ⟨hrow, hne⟩

end Tables

/-- The version that an own CommitFile finds is its call's. -/
theorem Offers.own {ok : Cluster → ClusterAction → Prop} (h : s.Offers (s.calls k).filename v)
    (hr : Reachable cfg ok s) (hok : Regular s (.commitExec k)) (hne : v ≠ none) :
    v.map FileVersion.data = some (s.calls k).data := by
  obtain ⟨_, hown, hsize⟩ := hok
  cases v with
  | none => exact absurd rfl hne
  | some v =>
    obtain ⟨F, hF, hname, _, j, hv, hdata⟩ := h
    rw [Option.map_some, ← hdata]
    have hreq := (hr.requests.sent j (hr.requests.begun hv.reserved)).2
    have hlen : (s.calls j).data.length = (s.calls k).data.length := by
      have hF' := hsize F hF hname
      rw [← hv.size, hreq] at hF'
      exact Int.ofNat_inj.mp hF'
    have hindices := hv.indices hr.consistent
    cases hrows : s.naming.db.chunks.filter (·.filename = F.filename) with
    | nil =>
      -- without chunks both are empty
      rw [hrows, hreq] at hindices
      have hzero : (splitChunks (s.calls j).data).length = 0 := by
        simpa [createRequest] using hindices.length_eq.symm
      rw [length_splitChunks] at hzero
      have hempty : (s.calls j).data.length = 0 := by
        simp only [chunkSize] at hzero
        omega
      have hempty' : (s.calls k).data.length = 0 := hlen ▸ hempty
      rw [List.eq_nil_of_length_eq_zero hempty, List.eq_nil_of_length_eq_zero hempty']
    | cons r rows =>
      have hr' : r ∈ s.naming.db.chunks.filter (·.filename = F.filename) := by rw [hrows]; simp
      simp only [List.mem_filter, decide_eq_true_eq] at hr'
      obtain ⟨e, he, hid, rfl⟩ := hown r hr'.1 (hr'.2.trans hname)
      have hi := (hv.rows r.chunkId r.idx).mp (by rw [← hr'.2]; exact hr'.1)
      rw [hr.consistent.issue_unique he hi hid]

/-! ### Calls -/

theorem createOp_of_naming (hcalls : s'.calls = s.calls) (hres : ∀ k,
      (s'.naming.creates k).phase.reserved = (s.naming.creates k).phase.reserved) :
    s'.createOp = s.createOp := by
  funext k
  rw [createOp, createOp, hcalls, hres]

theorem createOp_of_reserve {f : Filename} {data : Bytes} {result : Option Bool}
    (hcalls : s'.calls = s.calls) (hop : s.createOp k = ⟨f, data, .called, result⟩)
    (hres : (s'.naming.creates k).phase.reserved = true)
    (hother : ∀ j ≠ k, s'.naming.creates j = s.naming.creates j) :
    s'.createOp = Function.update s.createOp k ⟨f, data, .reserved, result⟩ := by
  funext j
  by_cases hj : j = k
  · subst hj
    rw [Function.update_self]
    simp only [createOp, CreateOp.mk.injEq] at hop
    obtain ⟨rfl, rfl, hstage, rfl⟩ := hop
    simp only [createOp, hcalls, hres, CreateOp.mk.injEq, true_and, and_true]
    unfold CreateCall.stage at hstage ⊢
    split_ifs at hstage with hidle hcommit
    rw [if_neg hidle, if_neg hcommit, if_pos rfl]
  · rw [Function.update_of_ne hj, createOp, createOp, hcalls, hother j hj]

theorem createOp_update {call : CreateCall} (hcalls : s'.calls = Function.update s.calls k call)
    (hres : ∀ j, (s'.naming.creates j).phase.reserved = (s.naming.creates j).phase.reserved) :
    s'.createOp = Function.update s.createOp k ⟨call.filename, call.data,
      call.stage (s.naming.creates k).phase.reserved, call.phase.result⟩ := by
  funext j
  by_cases hj : j = k
  · subst hj
    rw [Function.update_self, createOp, hcalls, Function.update_self, hres]
  · rw [Function.update_of_ne hj, createOp, createOp, hcalls, Function.update_of_ne hj, hres]

/-- A call may be answered. -/
def Answers (s s' : Cluster) : Prop :=
  ∃ k ok, (s.createOp k).result = none ∧ (s.createOp k).stage ≠ .idle ∧
    (ok = true → (s.createOp k).stage = .published) ∧
    s'.createOp = Function.update s.createOp k { s.createOp k with result := some ok }

theorem createOp_setPhase {p : CallPhase} (hold : (s.calls k).phase.isIdle = false)
    (hnew : p.isIdle = false) : (s.setPhase k p).createOp =
      Function.update s.createOp k { s.createOp k with result := p.result } := by
  have hcalls : (s.setPhase k p).calls =
    Function.update s.calls k { s.calls k with phase := p } := rfl
  rw [createOp_update hcalls fun _ => rfl]
  simp [createOp, CreateCall.stage, hold, hnew]

/-- A client goes on. -/
theorem createOp_of_setPhase {p q : CallPhase} (hp : (s.calls k).phase = p) (hold : p.isIdle = false)
    (hnew : q.isIdle = false) (hres : q.result = p.result) : (s.setPhase k q).createOp = s.createOp := by
  subst hp
  rw [createOp_setPhase hold hnew, hres]
  exact Function.update_eq_self k s.createOp

theorem answers_of_setPhase {p q : CallPhase} {ok : Bool} (hp : (s.calls k).phase = p)
    (hold : p.isIdle = false) (hnone : p.result = none) (hnew : q.isIdle = false)
    (hres : q.result = some ok) (hok : ok = true → (s.calls k).commit = .answered true) :
    Answers s (s.setPhase k q) := by
  subst hp
  refine ⟨k, ok, hnone, ?_, ?_, by rw [createOp_setPhase hold hnew, hres]⟩
  · simp only [createOp, CreateCall.stage, hold, Bool.false_eq_true, if_false]
    split_ifs <;> simp
  · rintro rfl
    simp [createOp, CreateCall.stage, hold, hok]

theorem createOp_setCommit {c : CommitCall}
    (hc : c = .answered true ↔ (s.calls k).commit = .answered true) :
    (s.setCommit k c).createOp = s.createOp := by
  have hcalls : (s.setCommit k c).calls =
    Function.update s.calls k { s.calls k with commit := c } := rfl
  rw [createOp_update hcalls fun _ => rfl]
  simp only [CreateCall.stage, hc]
  exact Function.update_eq_self k s.createOp

/-- Apart from the calls themselves and their CommitFile, a client's step answers a call at most. -/
theorem answers_of_step (hu : Uploads s) (hs : s.step cfg a = some s') (hnaming : ∀ b, a ≠ .naming b)
    (hcall : ∀ k f data, a ≠ .createCall k f data) (hcommit : ∀ k, a ≠ .commitExec k) :
    s'.naming = s.naming ∧ (s'.createOp = s.createOp ∨ Answers s s') := by
  cases case_of_step hs with
  | naming b => exact absurd rfl (hnaming b)
  | createCall k f data => exact absurd rfl (hcall k f data)
  | commitExec k => exact absurd rfl (hcommit k)
  | createReply k resp hp hresp =>
    refine ⟨rfl, ?_⟩
    rcases afterCreateFile_cases (s.calls k).data resp with he | ⟨_, plan, _, he⟩
    · rw [he]
      exact .inr (answers_of_setPhase hp rfl rfl rfl rfl (by simp))
    · rw [he]
      exact .inl (createOp_of_setPhase hp rfl rfl rfl)
  | commitReply k ok hp hc =>
    cases ok with
    | false => exact ⟨rfl, .inr (answers_of_setPhase hp rfl rfl rfl rfl (by simp))⟩
    | true => exact ⟨rfl, .inr (answers_of_setPhase hp rfl rfl rfl rfl fun _ => hc)⟩
  | clientStop k hp =>
    rcases hp with hp | ⟨us, hp⟩ | hp
    all_goals exact ⟨rfl, .inr (answers_of_setPhase hp rfl rfl rfl rfl (by simp))⟩
  | commitSend k us hp hdone =>
    refine ⟨rfl, .inl (.trans (createOp_setCommit ?_) (createOp_of_setPhase hp rfl rfl rfl))⟩
    simp [setPhase, hu.unsent_of_uploading hp]
  | commitLost k hc => exact ⟨rfl, .inl (createOp_setCommit (by simp [hc]))⟩
  | sendBatch k j us addr batch rest hp hj => exact ⟨rfl, .inl (createOp_of_setPhase hp rfl rfl rfl)⟩
  | uploadFail k j us addr todo hp hj => exact ⟨rfl, .inl (createOp_of_setPhase hp rfl rfl rfl)⟩
  | storeReply k j i us addr batch rest hp hi hj =>
    exact ⟨rfl, .inl (createOp_of_setPhase hp rfl rfl rfl)⟩
  | _ => exact ⟨rfl, .inl rfl⟩

end Cluster

end GfsCluster
