import GfsCluster.Cluster.Durability
import GfsCluster.Cluster.Versions

/-! The whole cluster next to a file service in one piece. Clients cannot tell the two apart, whatever
runs side by side in the cluster, crashes, failing uploads and repairs included, as long as each
CommitFile finds the version of its call and the cleanup loop no name that is written again. -/

namespace GfsCluster

open StepSystem Service

namespace Cluster

def service (cfg : Settings) : Server Cluster ClusterAction FileInput FileKey FileAnswer where
  step := step cfg
  input
    | .createCall k f data => some (.create k f data)
    | .naming (.delete j (.receive f)) => some (.delete j f)
    | .naming (.get j (.receive f)) => some (.look j f)
    | _ => none
  answer s
    | .create k => (s.calls k).phase.result.map .created
    | .delete j =>
      match (s.naming.deletes j).phase with
      | .replied resp => some (.deleted resp.ok)
      | _ => none
    | .look j =>
      match (s.naming.gets j).phase with
      | .replied resp => some (.size (if resp.ok then some resp.size else none))
      | _ => none

variable {cfg : Settings} {s s' : Cluster} {a : ClusterAction} {k : ℕ} {f : Filename}

/-- The service takes no step or one, with the same input. -/
def Followed (cfg : Settings) (input : Option FileInput) (s' : Cluster) (x : FileService) : Prop :=
  (input = none ∧ Represents cfg s' x) ∨
    ∃ b y, x.step b = some y ∧ FileService.service.input b = input ∧ Represents cfg s' y

theorem naming_cases {b : NamingAction} (hs : s.step cfg (.naming b) = some s') :
    s'.calls = s.calls ∧ s.Free b ∧ ∃ out, s.naming.step cfg b = some (s'.naming, out) := by
  simp only [step] at hs
  split_ifs at hs with hfree
  obtain ⟨⟨n, out⟩, hn, rfl⟩ := Option.map_eq_some_iff.mp hs
  exact ⟨rfl, hfree, out, hn⟩

theorem Reachable.keepsListed (h : Reachable cfg Regular s) :
    NamingServer.Reachable cfg NamingServer.KeepsListed s.naming := by
  refine steps_naming h fun s a b hok hd => ?_
  cases hd with
  | free _ _ => exact hok
  | create _ _ _ _ => trivial
  | commit _ _ => exact hok.1

/-! ### One step -/

namespace Represents

variable {x : FileService} (h : Represents cfg s x) (hok : Regular s a) (hs : s.step cfg a = some s')
include h hok hs

/-- A step that no client can see. -/
theorem stays (hfiles : s'.naming.db.files = s.naming.db.files)
    (hchunks : s'.naming.db.chunks = s.naming.db.chunks) (hop : s'.createOp = s.createOp)
    (hdeletes : ∀ j, (s'.naming.deletes j).Does (x.deletes j))
    (hlooks : ∀ j, (s'.naming.gets j).Does (x.looks j)) : Represents cfg s' x where
  reachable := h.reachable.steps (.single hok hs)
  versions := offers_of_keep h.versions h.reachable hs hfiles hchunks
  creates := h.creates.trans hop.symm
  deletes := hdeletes
  looks := hlooks

theorem of_client (hnaming : s'.naming = s.naming) (ha : s'.createOp = s.createOp ∨ Answers s s') :
    Followed cfg none s' x := by
  rcases ha with ha | ⟨k, ok, hnone, hidle, hpublished, hop⟩
  · exact .inl ⟨rfl, h.stays hok hs (by rw [hnaming]) (by rw [hnaming]) ha
      (by rw [hnaming]; exact h.deletes) (by rw [hnaming]; exact h.looks)⟩
  · rw [← h.creates] at hnone hidle hpublished hop
    refine .inr ⟨.finish k ok, _, FileService.step_finish hnone hidle hpublished, rfl, ?_⟩
    exact ⟨h.reachable.steps (.single hok hs),
      offers_of_keep h.versions h.reachable hs (by rw [hnaming]) (by rw [hnaming]), hop.symm,
      by rw [hnaming]; exact h.deletes, by rw [hnaming]; exact h.looks⟩

end Represents

namespace Represents

variable {x : FileService} {data : Bytes}

theorem of_createCall (h : Represents cfg s x) (hs : s.step cfg (.createCall k f data) = some s') :
    Followed cfg (some (.create k f data)) s' x := by
  obtain ⟨hp, hcalls, hcreates, hdb, hdeletes, hgets⟩ : (s.calls k).phase = .idle ∧
      s'.calls = Function.update s.calls k ⟨f, data, .requested, .unsent⟩ ∧
      s'.naming.creates = Function.update s.naming.creates k ⟨createRequest f data, .received⟩ ∧
      s'.naming.db = s.naming.db ∧ s'.naming.deletes = s.naming.deletes ∧
      s'.naming.gets = s.naming.gets := by
    simp only [step] at hs
    split at hs
    · rename_i hp
      simp only [NamingServer.step, NamingServer.createStep, (h.reachable.requests.idle k hp).1] at hs
      cases hs
      exact ⟨hp, rfl, rfl, rfl, rfl, rfl⟩
    · cases hs
  have hidle : (s.naming.creates k).phase.reserved = false := by
    rw [(h.reachable.requests.idle k hp).1]
    rfl
  have hop : s'.createOp = Function.update s.createOp k ⟨f, data, .called, none⟩ := by
    rw [createOp_update hcalls fun j => ?_]
    · simp [CreateCall.stage, CallPhase.isIdle, CallPhase.result, hidle]
    · rw [hcreates]
      by_cases hj : j = k
      · subst hj
        rw [Function.update_self, hidle]
        rfl
      · rw [Function.update_of_ne hj]
  refine .inr ⟨.create k f data, x.setCreate k ⟨f, data, .called, none⟩, ?_, rfl,
    h.reachable.steps (.single (a := .createCall k f data) (by trivial) hs),
    offers_of_keep h.versions h.reachable hs (by rw [hdb]) (by rw [hdb]), ?_,
    by rw [hdeletes]; exact h.deletes, by rw [hgets]; exact h.looks⟩
  · have hstage : (x.creates k).stage = .idle := by
      simp [h.creates, createOp, CreateCall.stage, hp, CallPhase.isIdle]
    simp only [FileService.step, hstage]
  · rw [hop, FileService.setCreate, h.creates]

/-- CommitFile publishes the version of its call if it is still there. -/
theorem of_commitExec (h : Represents cfg s x) (hok : Regular s (.commitExec k))
    (hs : s.step cfg (.commitExec k) = some s') : Followed cfg none s' x := by
  have hclean : s.naming.store.writer = s.naming.db := h.reachable.consistent.clean
  obtain ⟨hsent, hdb⟩ := commitExec_cases h.reachable.consistent hs
  obtain ⟨hcalls, hcreates, hdeletes, hgets⟩ : s'.calls = Function.update s.calls k { s.calls k with
        commit := .answered (s.naming.db.files.any (·.filename = (s.calls k).filename)) } ∧
      s'.naming.creates = s.naming.creates ∧ s'.naming.deletes = s.naming.deletes ∧
      s'.naming.gets = s.naming.gets := by
    simp only [step, hsent, NamingServer.step] at hs
    cases hs
    refine ⟨?_, rfl, rfl, rfl⟩
    rw [← hclean]
    rfl
  have hres : ∀ j, (s'.naming.creates j).phase.reserved = (s.naming.creates j).phase.reserved :=
    fun j => by rw [hcreates]
  have hreach := h.reachable.steps (.single hok hs)
  have hdeletes' : ∀ j, (s'.naming.deletes j).Does (x.deletes j) := by
    rw [hdeletes]
    exact h.deletes
  have hlooks' : ∀ j, (s'.naming.gets j).Does (x.looks j) := by
    rw [hgets]
    exact h.looks
  have hop := createOp_update hcalls hres
  have hreserved := (h.reachable.uploads.sent k (by rw [hsent]; simp)).1
  have hidle := CallPhase.not_isIdle (h.reachable.requests.begun hreserved)
  cases hany : s.naming.db.files.any (·.filename = (s.calls k).filename) with
  | false =>
    -- the file is gone, and the answer says so
    have hno : ∀ F ∈ s.naming.db.files, F.filename ≠ (s.calls k).filename := by
      simpa using hany
    have hfiles : s'.naming.db.files = s.naming.db.files := by
      rw [hdb]
      exact (List.map_congr_left fun F hF => if_neg (hno F hF)).trans (List.map_id _)
    refine .inl ⟨rfl, h.stays hok hs hfiles (by rw [hdb]; rfl) ?_ hdeletes' hlooks'⟩
    rw [hop, hany, Function.update_eq_self_iff]
    simp [createOp, CreateCall.stage, hsent]
  | true =>
    have hne : x.versions (s.calls k).filename ≠ none := by
      intro hnone
      have hoffer := h.versions (s.calls k).filename
      rw [hnone] at hoffer
      obtain ⟨F, hF, hname⟩ := List.any_eq_true.mp hany
      exact hoffer F hF (of_decide_eq_true hname)
    have hdata := (h.versions _).own h.reachable hok hne
    have hx : x.creates k =
        ⟨(s.calls k).filename, (s.calls k).data, .reserved, (s.calls k).phase.result⟩ := by
      simp [h.creates, createOp, CreateCall.stage, hsent, hreserved, hidle]
    have hstep : x.step (.publish k) = some ((x.setCreate k ⟨(s.calls k).filename, (s.calls k).data,
        .published, (s.calls k).phase.result⟩).setVersion (s.calls k).filename
          (some ⟨(s.calls k).data, true⟩)) := by
      simp only [FileService.step, hx]
      rw [if_pos hdata]
    refine .inr ⟨.publish k, _, hstep, rfl, hreach,
      offers_of_commit h.versions h.reachable hs hdb hdata, ?_, hdeletes', hlooks'⟩
    rw [hop, hany, FileService.setVersion, FileService.setCreate, h.creates]
    simp [CreateCall.stage, hidle]

/-! ### Steps of the naming server by themselves -/

variable {b : NamingAction} (h : Represents cfg s x) (hok : Regular s (.naming b))
  (hs : s.step cfg (.naming b) = some s')
include h hok hs

/-- A thread that commits, removes and reserves nothing. -/
theorem of_quiet (hcommit : ∀ f, b ≠ .commit f) (hreserve : ∀ k t, b ≠ .create k (.reserve t))
    (hremove : s.naming.removes b = none) {D : ℕ → DeleteOp} {L : ℕ → LookOp}
    (hD : ∀ j, (s'.naming.deletes j).Does (D j)) (hL : ∀ j, (s'.naming.gets j).Does (L j)) :
    Represents cfg s' { x with deletes := D, looks := L } := by
  obtain ⟨hcalls, _, out, hn⟩ := naming_cases hs
  have hc := h.reachable.consistent
  obtain ⟨hfiles, hchunks⟩ := NamingServer.rows_of_step hc hn hcommit hreserve hremove
  have hop := createOp_of_naming hcalls (NamingServer.reserved_eq_of_step hc hn hreserve)
  exact ⟨h.reachable.steps (.single hok hs),
    offers_of_keep h.versions h.reachable hs hfiles hchunks, h.creates.trans hop.symm, hD, hL⟩

theorem of_reserve {t : Seconds} (hb : b = .create k (.reserve t)) : Followed cfg none s' x := by
  subst hb
  obtain ⟨hcalls, _, out, hn⟩ := naming_cases hs
  have hc := h.reachable.consistent
  obtain ⟨chunks, hm, hcreates⟩ := NamingServer.reserve_cases hc hn
  have hres : (s'.naming.creates k).phase.reserved = true := by
    rw [hcreates, Function.update_self]
    rfl
  have hunreserved : (s.naming.creates k).phase.reserved = false := by
    rw [hm.phase]
    rfl
  have hidle : (s.calls k).phase.isIdle = false := by
    refine CallPhase.not_isIdle fun hidle => ?_
    have hphase := hm.phase
    rw [(h.reachable.requests.idle k hidle).1] at hphase
    cases hphase
  have hcommit : (s.calls k).commit ≠ .answered true := fun hans =>
    not_answered_of_unreserved h.reachable.uploads hunreserved ⟨true, hans⟩
  have hx : s.createOp k =
      ⟨(s.calls k).filename, (s.calls k).data, .called, (s.calls k).phase.result⟩ := by
    simp [createOp, CreateCall.stage, hidle, hcommit, hunreserved]
  have hop := createOp_of_reserve hcalls hx hres fun j hj => by rw [hcreates, Function.update_of_ne hj]
  rw [← h.creates] at hx hop
  have hstep : x.step (.reserve k) = some ((x.setCreate k ⟨(s.calls k).filename, (s.calls k).data,
      .reserved, (s.calls k).phase.result⟩).setVersion (s.calls k).filename
        (some ⟨(s.calls k).data, false⟩)) := by
    simp only [FileService.step, hx]
  obtain ⟨hD, hL⟩ := NamingServer.handlers_of_step hn (by simp) (by simp) h.deletes h.looks
  exact .inr ⟨.reserve k, _, hstep, rfl, h.reachable.steps (.single hok hs),
    offers_of_reserve h.versions h.reachable hs hm hres, hop.symm, hD, hL⟩

/-- A delete looks once, and takes away later whatever is there then. -/
theorem of_delete {j : ℕ} {d : DeleteStep} (hb : b = .delete j d) :
    Followed cfg ((service cfg).input (.naming b)) s' x := by
  subst hb
  obtain ⟨hcalls, _, out, hn⟩ := naming_cases hs
  have hc := h.reachable.consistent
  have hD : ∀ op, (s'.naming.deletes j).Does op →
      ∀ i, (s'.naming.deletes i).Does (Function.update x.deletes j op i) := fun op hop =>
    (Function.forall_update_iff _ fun i op => (s'.naming.deletes i).Does op).mpr
      ⟨hop, fun i hi => by rw [NamingServer.deleteStep_other hn hi]; exact h.deletes i⟩
  have hgets := NamingServer.gets_of_step hn (by simp) (by simp)
  have hL : ∀ i, (s'.naming.gets i).Does (x.looks i) := by
    rw [hgets]
    exact h.looks
  -- unless rows are removed, only the handler is new
  have hkeep : ∀ op, (s'.naming.deletes j).Does op → s.naming.removes (.delete j d) = none →
      Represents cfg s' (x.setDelete j op) := fun op hop hremove =>
    h.of_quiet hok hs (by simp) (by simp) hremove (hD op hop) hL
  cases NamingServer.deleteTurn_of_step hn (h.deletes j) with
  | receive f hop h' =>
    have hstep : x.step (.delete j f) = some (x.setDelete j (.called f)) := by
      simp only [FileService.step, hop]
    exact .inr ⟨_, _, hstep, rfl, hkeep _ h' rfl⟩
  | look o f hop h' =>
    have hstep : x.step (.find j) =
        some (x.setDelete j (if x.versions f = none then .done false else .found f)) := by
      simp only [FileService.step, hop]
    refine .inr ⟨_, _, hstep, rfl, hkeep _ ?_ rfl⟩
    simp only [(h.versions f).eq_none_iff o]
    exact h'
  | remove f hop hf h' =>
    have hstep : x.step (.remove j) = some ((x.setDelete j (.done true)).setVersion f none) := by
      simp only [FileService.step, hop]
    have hcreate := createOp_of_naming hcalls
      (NamingServer.reserved_eq_of_step hc hn (by simp))
    exact .inr ⟨_, _, hstep, rfl, h.reachable.steps (.single hok hs),
      offers_of_remove h.versions h.reachable hs (NamingServer.db_of_removes hc hn hf),
      h.creates.trans hcreate.symm, hD _ h', hL⟩
  | other d hd hinput h' =>
    have hnone : (service cfg).input (.naming (.delete j d)) = none := by
      cases d <;> first | rfl | exact absurd rfl (hinput _)
    have hrep := hkeep _ h' hd
    rw [FileService.setDelete_self] at hrep
    exact .inl ⟨hnone, hrep⟩

theorem of_get {j : ℕ} {g : GetStep} (hb : b = .get j g) :
    Followed cfg ((service cfg).input (.naming b)) s' x := by
  subst hb
  obtain ⟨_, _, out, hn⟩ := naming_cases hs
  have hD : ∀ i, (s'.naming.deletes i).Does (x.deletes i) := by
    obtain ⟨_, _, _, _, _, _, _, _, _, hdeletes⟩ :=
      NamingServer.getStep_frame (NamingServer.getStep_of_step hn).1
    rw [hdeletes]
    exact h.deletes
  have hkeep : ∀ op, (s'.naming.gets j).Does op → Represents cfg s' (x.setLook j op) := by
    intro op hop
    refine h.of_quiet hok hs (by simp) (by simp) rfl hD ?_
    exact (Function.forall_update_iff _ fun i op => (s'.naming.gets i).Does op).mpr
      ⟨hop, fun i hi => by rw [NamingServer.getStep_other hn hi]; exact h.looks i⟩
  cases NamingServer.lookTurn_of_step hn (h.looks j) with
  | receive f hop h' =>
    have hstep : x.step (.look j f) = some (x.setLook j (.called f)) := by
      simp only [FileService.step, hop]
    exact .inr ⟨_, _, hstep, rfl, hkeep _ h'⟩
  | see o f hop h' =>
    have hstep : x.step (.see j) = some (x.setLook j
        (.done ((seen (x.versions f)).map fun b => (b.length : ℤ)))) := by
      simp only [FileService.step, hop]
    refine .inr ⟨_, _, hstep, rfl, hkeep _ ?_⟩
    cases hsel : selectFile (o.view s.naming.db) f with
    | none =>
      rw [((h.versions f).eq_none_iff o).mpr hsel]
      rw [hsel] at h'
      exact h'
    | some row =>
      rw [(h.versions f).size h.reachable hsel]
      rw [hsel] at h'
      exact h'
  | other g hinput h' =>
    have hnone : (service cfg).input (.naming (.get j g)) = none := by
      cases g <;> first | rfl | exact absurd rfl (hinput _)
    have hrep := hkeep _ h'
    rw [FileService.setLook_self] at hrep
    exact .inl ⟨hnone, hrep⟩

/-- What the cleanup loop takes away is not published. -/
theorem of_expire {c : CleanupStep} (hb : b = .cleanup c) (hremove : s.naming.removes b = some f) :
    Followed cfg none s' x := by
  subst hb
  obtain ⟨hcalls, _, out, hn⟩ := naming_cases hs
  have hc := h.reachable.consistent
  have hreach := h.reachable.steps (.single hok hs)
  have hdb := NamingServer.db_of_removes hc hn hremove
  have hop := createOp_of_naming hcalls (NamingServer.reserved_eq_of_step hc hn (by simp))
  obtain ⟨hD, hL⟩ := NamingServer.handlers_of_step hn (by simp) (by simp) h.deletes h.looks
  have hversions := offers_of_remove h.versions h.reachable hs hdb
  have hspared : ∀ F ∈ s.naming.db.files, F.filename = f → F.status ≠ .committed := by
    obtain ⟨cutoff, hcut, hlisted⟩ := NamingServer.listed_of_removes hremove
    have hwatched := h.reachable.keepsListed.watched hcut
    exact fun F hF hname hst => hwatched.listed f hlisted F hF hname (.inl hst)
  have hoffer := h.versions f
  cases hv : x.versions f with
  | none =>
    rw [Function.update_eq_self_iff.mpr hv.symm] at hversions
    exact .inl ⟨rfl, hreach, hversions, h.creates.trans hop.symm, hD, hL⟩
  | some v =>
    rw [hv] at hoffer
    obtain ⟨F, hF, hname, hst, _⟩ := hoffer
    have hpublished : v.published = false := by
      simpa using fun hp => hspared F hF hname (hst.mp hp)
    have hstep : x.step (.expire f) = some (x.setVersion f none) := by
      obtain ⟨data, published⟩ := v
      subst hpublished
      simp only [FileService.step, hv]
    exact .inr ⟨_, _, hstep, rfl, hreach, hversions, h.creates.trans hop.symm, hD, hL⟩

theorem of_naming : Followed cfg ((service cfg).input (.naming b)) s' x := by
  obtain ⟨_, hfree, out, hn⟩ := naming_cases hs
  have hquiet : (∀ f, b ≠ .commit f) → (∀ k t, b ≠ .create k (.reserve t)) → (∀ j d, b ≠ .delete j d) →
      (∀ j g, b ≠ .get j g) → s.naming.removes b = none → Represents cfg s' x := by
    intro hcommit hreserve hdelete hget hremove
    obtain ⟨hD, hL⟩ := NamingServer.handlers_of_step hn hdelete hget h.deletes h.looks
    exact h.of_quiet hok hs hcommit hreserve hremove hD hL
  cases b with
  | create k c =>
    cases c with
    | receive req => exact absurd hfree id
    | reserve t => exact h.of_reserve hok hs rfl
    | _ => all_goals exact .inl ⟨rfl, hquiet (by simp) (by simp) (by simp) (by simp) rfl⟩
  | commit f => exact absurd hfree id
  | delete j d => exact h.of_delete hok hs rfl
  | get j g => exact h.of_get hok hs rfl
  | cleanup c =>
    cases hremove : s.naming.removes (.cleanup c) with
    | none => exact .inl ⟨rfl, hquiet (by simp) (by simp) (by simp) (by simp) hremove⟩
    | some f => exact h.of_expire hok hs rfl hremove
  | _ => all_goals exact .inl ⟨rfl, hquiet (by simp) (by simp) (by simp) (by simp) rfl⟩

end Represents

theorem represents_init : Represents cfg init .init where
  reachable := .refl
  versions f F hF := by cases hF
  creates := rfl
  deletes _ := rfl
  looks _ := rfl

theorem follows : Follows (service cfg) Regular FileService.service (Represents cfg) where
  answer s x key r h hr := by
    cases key with
    | create k =>
      simp only [FileService.service]
      rw [h.creates]
      exact hr
    | delete j =>
      have hx := h.deletes j
      unfold DeleteHandler.Does at hx
      simp only [service] at hr
      split at hr
      · rename_i resp hp
        rw [hp] at hx
        simp only [FileService.service, hx]
        exact hr
      · cases hr
    | look j =>
      have hx := h.looks j
      unfold GetHandler.Does at hx
      simp only [service] at hr
      split at hr
      · rename_i resp hp
        rw [hp] at hx
        simp only [FileService.service, hx]
        exact hr
      · cases hr
  step s x a s' h hok hs := by
    replace hs : s.step cfg a = some s' := hs
    cases a with
    | naming b => exact h.of_naming hok hs
    | createCall k f data => exact h.of_createCall hs
    | commitExec k => exact h.of_commitExec hok hs
    | _ =>
      all_goals
        obtain ⟨hnaming, ha⟩ := answers_of_step h.reachable.uploads hs (by simp) (by simp) (by simp)
        exact h.of_client hok hs hnaming ha

/-! ### Runs -/

/-- Every history of calls and answers of the cluster is one of the file service, and a read that
nothing disturbs returns the content that the service has then, or names the chunks of it that are
lost. -/
theorem serves {o : Observed Cluster FileInput FileKey FileAnswer}
    (h : Steps (service cfg).observe (Serving Regular) (.start init) o) :
    ∃ p, Steps FileService.service.observe anyStep (.start .init) p ∧ p.history = o.history ∧
      ∀ f, o.server.Returns f (seen (p.server.versions f)) := by
  obtain ⟨p, hp, hrep, _, hhistory⟩ := follows.histories represents_init h
  exact ⟨p, hp, hhistory, fun f => (hrep.versions f).returns hrep.reachable⟩

/-- A call, a look at its version, a second call that replaces it and is cut off by a crash, a look
in between, and a delete. -/
theorem serves_overwriting : ∃ (o : Observed Cluster FileInput FileKey FileAnswer)
    (p : Observed FileService FileInput FileKey FileAnswer),
    Steps (service ⟨1, 60⟩).observe (Serving Regular) (.start init) o ∧
      Steps FileService.service.observe anyStep (.start .init) p ∧ p.history = o.history ∧
      (∀ f, o.server.Returns f (seen (p.server.versions f))) ∧
      o.history = [.received (.create 0 ['f'] [7]), .received (.look 0 ['f']),
        .answered (.create 0) (.created true), .received (.create 1 ['f'] [8, 9]),
        .answered (.look 0) (.size (some 1)), .received (.look 1 ['f']),
        .answered (.look 1) (.size none), .answered (.create 1) (.created false),
        .received (.delete 0 ['f']), .answered (.delete 0) (.deleted true)] := by
  have hrun : (run (guarded (service ⟨1, 60⟩).observe (Serving Regular)) (.start init)
      ((storing.take 12).map .step ++ [.step (.naming (.get 0 (.receive ['f']))),
        .step (.naming (.get 0 (.selectFile .table))), .step (.commitReply 0), .answer (.create 0),
        .step (.createCall 1 ['f'] [8, 9]), .step (.naming (.create 1 .checkLive)),
        .step (.naming (.create 1 (.selectFile .table))),
        .step (.naming (.create 1 (.selectChunks .table))), .step (.naming (.create 1 (.place ['d']))),
        .step (.naming (.create 1 (.reserve 1))), .step (.naming (.get 0 (.selectChunks .table))),
        .step (.naming (.get 0 .reply)), .answer (.look 0), .step (.naming (.get 1 (.receive ['f']))),
        .step (.naming (.get 1 (.selectFile .table))), .step (.naming (.get 1 (.selectChunks .table))),
        .step (.naming (.get 1 .reply)), .answer (.look 1), .step (.naming .crash),
        .step (.clientStop 1), .answer (.create 1), .step (.naming (.delete 0 (.receive ['f']))),
        .step (.naming (.delete 0 (.selectFile .table))),
        .step (.naming (.delete 0 (.selectChunks .table))), .step (.naming (.delete 0 .remove)),
        .step (.naming (.delete 0 (.send 0 true))), .step (.naming (.delete 0 .reply)),
        .answer (.delete 0)])).any (fun o => o.history ==
      [.received (.create 0 ['f'] [7]), .received (.look 0 ['f']),
        .answered (.create 0) (.created true), .received (.create 1 ['f'] [8, 9]),
        .answered (.look 0) (.size (some 1)), .received (.look 1 ['f']),
        .answered (.look 1) (.size none), .answered (.create 1) (.created false),
        .received (.delete 0 ['f']), .answered (.delete 0) (.deleted true)]) = true := by
    decide +kernel
  obtain ⟨o, ho, hp⟩ := exists_of_run hrun
  obtain ⟨p, hp', hhistory, hreturns⟩ := serves ho
  exact ⟨o, p, ho, hp', hhistory, hreturns, beq_iff_eq.mp hp⟩

/-! ### Runs in which nothing gets lost -/

theorem halted_empty (s : Cluster) (a : ClusterAction) : Halted ∅ s a := by
  unfold Halted
  repeat' split
  all_goals simp

/-- Any servers may fail at the end of a run, if there are fewer than R. -/
theorem Epochs.of_reachable {failed : Finset Addr}
    (h : Reachable cfg (fun s a => Orderly cfg s a ∧ HostPort s a) s)
    (hlt : failed.card < cfg.replication) : Epochs cfg ∅ failed s := by
  induction failed using Finset.induction_on with
  | empty => exact .steps .init (Steps.mono h fun s a hok => ⟨hok, halted_empty s a⟩)
  | insert addr failed hnew ih =>
    refine .fail addr (ih ?_) (by rwa [Finset.sdiff_empty])
    exact (Finset.card_le_card (Finset.subset_insert addr failed)).trans_lt hlt

/-- Where no overwrite fails between its second SELECT and its reservation and no scrub removes a
file, every history is one of the file service as well, and reads return exactly its content, whichever
fewer than R servers are out of reach. -/
theorem serves_content {o : Observed Cluster FileInput FileKey FileAnswer}
    (h : Steps (service cfg).observe
      (Serving fun s a => Regular s a ∧ Orderly cfg s a ∧ HostPort s a) (.start init) o)
    (hidle : ∀ k chunks, (o.server.naming.creates k).phase ≠ .placing chunks) :
    ∃ p, Steps FileService.service.observe anyStep (.start .init) p ∧ p.history = o.history ∧
      ∀ f failed, failed.card < cfg.replication →
        o.server.ReadsAs failed f (answerOf (seen (p.server.versions f))) := by
  have hregular : Steps (service cfg).observe (Serving Regular) (.start init) o :=
    h.mono fun s a hok => hok.mono fun _ _ hok => hok.1
  obtain ⟨p, hp, hrep, _, hhistory⟩ := follows.histories represents_init hregular
  refine ⟨p, hp, hhistory, fun f failed hlt => ?_⟩
  have hreturns := (hrep.versions f).returns hrep.reachable
  cases hv : seen (p.server.versions f) with
  | none =>
    rw [hv] at hreturns
    exact hreturns failed
  | some data =>
    rw [hv] at hreturns
    obtain ⟨F, hF, rfl, hst, hreads⟩ := hreturns
    have hreach : Reachable cfg (fun s a => Orderly cfg s a ∧ HostPort s a) o.server :=
      (steps_server h).mono fun _ _ hok => hok.2
    have hnot := (Epochs.of_reachable hreach hlt).not_lost (Nat.zero_lt_of_lt hlt) hidle hF hst
    have hread := hreads failed
    rwa [if_pos hnot] at hread

/-- Two servers, one of which is out of reach at the end. -/
theorem serves_content_failing : ∃ (o : Observed Cluster FileInput FileKey FileAnswer)
    (p : Observed FileService FileInput FileKey FileAnswer),
    Steps (service ⟨2, 60⟩).observe
        (Serving fun s a => Regular s a ∧ Orderly ⟨2, 60⟩ s a ∧ HostPort s a) (.start init) o ∧
      Steps FileService.service.observe anyStep (.start .init) p ∧
      o.history = [.received (.create 0 ['f'] [7]), .answered (.create 0) (.created true)] ∧
      p.history = o.history ∧
      o.server.ReadsAs {['s']} ['f'] (answerOf (seen (p.server.versions ['f']))) := by
  have hrun : (run (guarded (service ⟨2, 60⟩).observe (Serving fun s a =>
      (Regular s a ∧ Steady ⟨2, 60⟩ s a ∧ HostPort s a) ∧ Calls 1 a)) (.start init)
      ([.naming (.registerStorage ['s']), .naming (.registerStorage ['t']), .createCall 0 ['f'] [7],
        .naming (.create 0 .checkLive), .naming (.create 0 (.selectFile .table)),
        .naming (.create 0 (.place ['c'])), .naming (.create 0 (.reserve 0)), .createReply 0,
        .sendBatch 0 0, .sendBatch 0 1, .storeItem 0, .storeItem 1, .storeReply 0 0 0,
        .storeReply 0 1 0, .commitSend 0, .commitExec 0, .commitReply 0].map .step ++
        [.answer (.create 0)])).any (fun o => (o.server.naming.creates 0).phase.over &&
      o.history == [.received (.create 0 ['f'] [7]), .answered (.create 0) (.created true)]) = true := by
    decide +kernel
  obtain ⟨o, ho, hp⟩ := exists_of_run hrun
  rw [Bool.and_eq_true, beq_iff_eq] at hp
  obtain ⟨hover, hhistory⟩ := hp
  have ho' : Steps (service ⟨2, 60⟩).observe
      (Serving fun s a => Regular s a ∧ Orderly ⟨2, 60⟩ s a ∧ HostPort s a) (.start init) o :=
    ho.mono fun _ _ hok => hok.mono fun _ _ hok => ⟨hok.1.1, hok.1.2.1.orderly, hok.1.2.2⟩
  have hidle := idle_of_over ((steps_server ho).mono fun _ _ hok => hok.2) hover
  obtain ⟨p, hp, hsame, hreads⟩ := serves_content ho' hidle
  exact ⟨o, p, ho', hp, hhistory, hsame, hreads ['f'] {['s']} (by decide)⟩

end Cluster

end GfsCluster
