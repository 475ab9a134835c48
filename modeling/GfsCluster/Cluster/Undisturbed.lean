import GfsCluster.Cluster.Kept
import GfsCluster.Naming.Alone
import GfsCluster.Naming.Layout

/-! A `create` that nobody disturbs. From the moment its call begins, and while no other
operation works on its file, the version it reserves is the file, its chunks stay where
they were stored, and the file is committed exactly when its CommitFile was executed. -/

namespace GfsCluster

open StepSystem

namespace NamingServer

variable {P : Addr → Prop}

instance [DecidablePred P] (a : NamingAction) : Decidable (Registers P a) :=
  match a with
  | .registerStorage addr | .heartbeat addr => inferInstanceAs (Decidable (P addr))
  | .create _ _ | .tick _ | .commit _ | .delete _ _ | .get _ _ | .purge _ | .cleanup _ | .heal _
  | .crash => .isTrue trivial

end NamingServer

namespace Cluster

variable {cfg : Settings} {s s' s₀ : Cluster} {a : ClusterAction} {k : ℕ} {f : Filename}
  {addr : Addr} {c : ChunkId} {ok : Cluster → ClusterAction → Prop}

/-- Storage servers register as `host:port`. -/
def HostPort (_ : Cluster) : ClusterAction → Prop
  | .naming b => NamingServer.Registers CommaFree b
  | _ => True

instance (s : Cluster) (a : ClusterAction) : Decidable (HostPort s a) := by
  unfold HostPort
  split <;> infer_instance

/-- No other operation works on the file `f` of the call `k`: no other CreateFile or
CommitFile of it, no DeleteFile, no cleanup, and no scrub of its chunks. -/
def LeftAlone (f : Filename) (k : ℕ) (s : Cluster) : ClusterAction → Prop
  | .naming b => NamingServer.Alone f k s.naming b
  | .createCall j g _ => j = k → g = f
  | .commitExec j => j = k ∨ (s.calls j).filename ≠ f
  | .scrubRemove _ c => NamingServer.Apart k s.naming c
  | _ => True

instance (f : Filename) (k : ℕ) (s : Cluster) (a : ClusterAction) : Decidable (LeftAlone f k s a) := by
  unfold LeftAlone NamingServer.Apart
  split <;> infer_instance

def Undisturbed (f : Filename) (k : ℕ) (s : Cluster) (a : ClusterAction) : Prop :=
  HostPort s a ∧ LeftAlone f k s a

instance (f : Filename) (k : ℕ) (s : Cluster) (a : ClusterAction) : Decidable (Undisturbed f k s a) :=
  inferInstanceAs (Decidable (_ ∧ _))

theorem LeftAlone.alone {b : NamingAction} (h : LeftAlone f k s a) (hd : s.Drives a b) :
    NamingServer.Alone f k s.naming b := by
  cases hd with
  | free _ _ => exact h
  | create _ _ _ _ => trivial
  | commit _ _ => simp [NamingServer.Alone, NamingServer.removes]

/-! ### Requests to delete -/

/-- What storage servers are asked to delete was handed out before. -/
theorem Reachable.deletes_born (h : Reachable cfg ok s) :
    ∀ addr c, .deleteChunk addr c ∈ s.net → ∃ f, s.naming.BornIn f c := by
  refine Steps.invariant (P := fun s : Cluster => ∀ addr c, .deleteChunk addr c ∈ s.net →
    ∃ f, s.naming.BornIn f c) h (fun addr c hm => by simp [Cluster.init] at hm) ?_
  intro t a u ht hborn _ hs addr c hm
  have ht : Reachable cfg ok t := ht
  cases net_of_step hs hm with
  | old hold =>
    obtain ⟨f, hf⟩ := hborn addr c hold
    exact ⟨f, born_of_step hf hs⟩
  | rpc b out r _ hn hr hm =>
    cases r with
    | replicateChunk => cases hm
    | deleteChunk addr' c' =>
      cases hm
      have hp := ht.naming.pendingDeletes
      have hbefore : ∃ f, t.naming.BornIn f c := by
        rcases NamingServer.deleteChunk_of_step hn hr with ⟨i, j, _, hi⟩ | ⟨j, _, _, _, hmem⟩ |
          ⟨_, hmem⟩
        · exact ⟨_, (hp.purges _ (List.mem_of_getElem? hi)).1⟩
        · exact ((hp.deletes j).2 _ hmem).1
        · exact (hp.cleanup.2 _ hmem).1
      obtain ⟨f, hf⟩ := hbefore
      exact ⟨f, hf.step hn⟩
  | sent _ _ _ _ _ _ _ _ hm => cases hm
  | stored _ _ _ _ _ hm => cases hm
  | fetched _ _ _ _ _ _ _ hm => cases hm

theorem Payload.born {b : Bytes} (h : s.Payload c b) : ∃ f, s.naming.BornIn f c := by
  obtain ⟨k, i, hi, hr, _⟩ := h
  exact ⟨_, k, i, hi, hr, rfl⟩

theorem Reachable.landed_born (h : Reachable cfg ok s) (hl : s.Landed addr c) :
    ∃ f, s.naming.BornIn f c := by
  have hlisted : s.naming.Listed c := by
    rcases hl with hl | ⟨t, _, hl⟩
    all_goals
      right
      cases hp : s.naming.heal
      all_goals
        rw [hp] at hl
        simp_all [HealPhase.unrecorded, HealPhase.asked, HealPhase.repair]
  exact (h.naming.healsCommitted c hlisted).1

/-! ### The invariant -/

/-- The file is committed by the call's own CommitFile. -/
def CommittedWith (f : Filename) (k : ℕ) (s : Cluster) : Prop :=
  (s.naming.creates k).phase.reserved = true → ∀ F ∈ s.naming.db.files, F.filename = f →
    (F.status = .committed ↔ ∃ ok, (s.calls k).commit = .answered ok)

structure Working (f : Filename) (k : ℕ) (s : Cluster) : Prop where
  name : (s.calls k).phase ≠ .idle → (s.calls k).filename = f
  owned : s.naming.Owned f k
  purges : NamingServer.PurgesApart k s.naming
  deletes : ∀ addr c, .deleteChunk addr c ∈ s.net → NamingServer.Apart k s.naming c
  status : CommittedWith f k s
  kept : Kept (NamingServer.Apart k s.naming) s

namespace Working

/-- Nothing is of a call that has not begun. -/
theorem of_idle (hs : Reachable cfg ok s) (hidle : (s.calls k).phase = .idle) : Working f k s := by
  have hphase := (hs.requests.idle k hidle).1
  have hres : (s.naming.creates k).phase.reserved = false := by rw [hphase]; rfl
  have hnot : (s.naming.creates k).phase.reserved ≠ true := by simp [hres]
  have hapart : ∀ {c : ChunkId}, (∃ f, s.naming.BornIn f c) → NamingServer.Apart k s.naming c := by
    rintro c ⟨f, hf⟩
    exact hf.apart fun hr => absurd hr hnot
  refine ⟨fun h => absurd hidle h, fun h => absurd h hnot, ?_, ?_, fun h => absurd h hnot, ?_, ?_, ?_, ?_⟩
  · intro e he
    exact hapart ⟨_, (hs.naming.pendingDeletes.purges e he).1⟩
  · intro addr c hm
    exact hapart (hs.deletes_born addr c hm)
  · intro j addr batch i hm x hx
    exact .inl (hapart (hs.carried.net _ hm x (List.mem_of_mem_take hx)).born)
  · intro c addr b hx
    exact .inl (hapart (hs.uploads.acked c addr b hx).born)
  · intro c addr hl
    exact .inl (hapart (hs.landed_born hl))
  · intro c addr hcom _
    obtain ⟨r, hr, rfl, _⟩ := hcom
    exact .inl (hapart ⟨_, hs.consistent.row_born hr⟩)

theorem name_of_step (h : Working f k s) (hr : Requests s) (hok : LeftAlone f k s a)
    (hs : s.step cfg a = some s') (hne : (s'.calls k).phase ≠ .idle) : (s'.calls k).filename = f := by
  by_cases hk : (s.calls k).phase = .idle
  · rcases begin_of_step hr hs hk with ⟨he, _⟩ | ⟨g, data, rfl, he, _⟩
    · rw [he] at hne
      exact absurd hk hne
    · rw [he]
      exact hok rfl
  · rw [(call_frame hs hk).1]
    exact h.name hk

theorem req_name (h : Working f k s) (hr : Requests s)
    (hres : (s.naming.creates k).phase.reserved = true) : (s.naming.creates k).req.filename = f := by
  have hk := hr.begun hres
  rw [(hr.sent k hk).2]
  exact h.name hk

end Working

/-- Only the execution of a CommitFile answers it. -/
theorem answered_iff_of_step (hr : Requests s) (hu : Uploads s) (hs : s.step cfg a = some s')
    (ha : a ≠ .commitExec k) :
    (∃ ok, (s'.calls k).commit = .answered ok) ↔ ∃ ok, (s.calls k).commit = .answered ok := by
  constructor
  · rintro ⟨ok, h⟩
    cases call_of_step hs k with
    | exec he => exact absurd he ha
    | call _ _ _ _ h' => rw [h'] at h; cases h
    | send _ _ _ h' => rw [h'] at h; cases h
    | lost _ h' => rw [h'] at h; cases h
    | keep h' => rw [h'] at h; exact ⟨ok, h⟩
    | reply _ _ _ h' => rw [h'] at h; exact ⟨ok, h⟩
    | upload _ _ _ _ _ _ _ _ _ h' => rw [h'] at h; exact ⟨ok, h⟩
    | acked _ _ _ _ _ _ _ _ _ _ h' => rw [h'] at h; exact ⟨ok, h⟩
    | finish _ _ _ h' => rw [h'] at h; exact ⟨ok, h⟩
    | stop _ h' => rw [h'] at h; exact ⟨ok, h⟩
  · rintro ⟨ok, h⟩
    exact ⟨ok, answered_of_step hr hu hs h⟩

/-- A version is not reserved before its CommitFile is sent. -/
theorem not_answered_of_unreserved (hu : Uploads s) (hres : (s.naming.creates k).phase.reserved = false) :
    ¬ ∃ ok, (s.calls k).commit = .answered ok := by
  rintro ⟨ok, h⟩
  have := (hu.sent k (by rw [h]; simp)).1
  rw [hres] at this
  cases this

namespace Working

theorem status_of_step (h : Working f k s) (hs : Reachable cfg ok s) (hok : LeftAlone f k s a)
    (hstep : s.step cfg a = some s') : CommittedWith f k s' := by
  intro hres' F hF hname
  have hc := hs.consistent
  by_cases ha : a = .commitExec k
  · -- the own CommitFile finds the version of its call
    subst ha
    obtain ⟨hsent, hdb⟩ := commitExec_cases hc hstep
    have hres := (hs.uploads.sent k (by rw [hsent]; simp)).1
    have hfile : (s.calls k).filename = f := h.name (hs.requests.begun hres)
    rw [hdb, Db.mem_markCommitted] at hF
    obtain ⟨G, _, rfl⟩ := hF
    have hG : G.filename = (s.calls k).filename := by
      rw [hfile, ← hname]
      split_ifs <;> rfl
    rw [if_pos hG]
    exact ⟨fun _ => answered_of_commitExec hstep, fun _ => rfl⟩
  · rw [answered_iff_of_step hs.requests hs.uploads hstep ha]
    rcases naming_of_step hstep with he | ⟨b, out, hd, hn⟩
    · rw [he] at hres' hF
      exact h.status hres' F hF hname
    · rcases NamingServer.reserve_of_step hc hn hres' with hres | ⟨chunks, now, hm⟩
      · rcases NamingServer.file_of_step hc hn hF with hF | ⟨rfl, _⟩ | ⟨j, now, rfl, rfl, _, hnot⟩
        · exact h.status hres F hF hname
        · obtain ⟨j, rfl, hj⟩ := commit_of_drives hd
          rcases hok with rfl | hne
          · exact absurd rfl ha
          · exact absurd (hj.symm.trans hname) hne
        · rcases (hok.alone hd).of_create (by simp) with rfl | hne
          · rw [hres] at hnot
            cases hnot
          · exact absurd hname hne
      · have hnot : (s.naming.creates k).phase.reserved = false := by rw [hm.phase]; rfl
        have hun := not_answered_of_unreserved hs.uploads hnot
        rw [hm.files, List.mem_append, Db.mem_deleteFile_files] at hF
        have hreq : (s'.naming.creates k).req.filename = f := by
          have hbegun := (Requests.of_step hs.requests hstep).begun hres'
          rw [((Requests.of_step hs.requests hstep).sent k hbegun).2]
          exact h.name_of_step hs.requests hok hstep hbegun
        rcases hF with ⟨_, hne⟩ | hF
        · rw [← hm.req, hreq] at hne
          exact absurd hname hne
        · rw [List.mem_singleton.mp hF]
          exact ⟨nofun, fun he => absurd he hun⟩

/-- A chunk row of the call is under its file. -/
theorem row_name (h : Working f k s) (hs : Reachable cfg ok s) {r : ChunkRow}
    (hr : r ∈ s.naming.db.chunks) {i : ℕ} (hi : ⟨r.chunkId, k, i⟩ ∈ s.naming.issued) :
    (s.naming.creates k).phase.reserved = true ∧ r.filename = f := by
  obtain ⟨F, _, hname, k₀, hv, hi₀⟩ := hs.consistent.row_issued hr
  have hk := hs.consistent.issue_unique hi hi₀ rfl
  simp only [Issue.mk.injEq, true_and] at hk
  obtain ⟨rfl, _⟩ := hk
  exact ⟨hv.reserved, by rw [← hname, ← hv.name]; exact h.req_name hs.requests hv.reserved⟩

theorem committedBy (h : Working f k s) (hs : Reachable cfg ok s) : CommittedBy k s := by
  intro r hr hcom i hi
  obtain ⟨hres, hname⟩ := h.row_name hs hr hi
  obtain ⟨r', hr', hid, F, hF, hF', hst⟩ := hcom
  obtain rfl := s.naming.db.chunk_unique hr hr' hid.symm
  exact (h.status hres F hF (hF'.trans hname)).mp hst

/-- The CommitFile that commits a chunk of the call is its own, and finds it uploaded. -/
theorem cover (h : Working f k s) (hs : Reachable cfg ok s) (hok : LeftAlone f k s a)
    (hstep : s.step cfg a = some s') (j : ℕ) (r : ChunkRow) (addr : Addr) (ha : a = .commitExec j)
    (hr : r ∈ s.naming.db.chunks) (hname : r.filename = (s.calls j).filename)
    (haddr : ⟨r.chunkId, addr⟩ ∈ s.naming.db.replicas) :
    NamingServer.Apart k s.naming r.chunkId ∨ s.Acked r.chunkId addr := by
  subst ha
  obtain ⟨F, _, _, k₀, _, hi⟩ := hs.consistent.row_issued hr
  by_cases hk : k₀ = k
  · subst hk
    right
    have hj : j = k₀ := hok.resolve_right fun hne => hne (hname.symm.trans (h.row_name hs hr hi).2)
    subst hj
    obtain ⟨hsent, _⟩ := commitExec_cases hs.consistent hstep
    exact acked_of_sent hs (h.committedBy hs) hsent hr hi haddr
  · exact .inl ⟨_, hi, rfl, hk⟩

theorem removesOnly (h : Working f k s) (hok : LeftAlone f k s a) :
    RemovesOnly (NamingServer.Apart k s.naming) s a :=
  ⟨h.deletes, by rintro addr c rfl; exact hok⟩

theorem of_step (h : Working f k s) (hs : Reachable cfg ok s) (hok : LeftAlone f k s a)
    (hstep : s.step cfg a = some s') : Working f k s' := by
  have hc := hs.consistent
  have hp := hs.naming.pendingDeletes
  have hapart : ∀ c, NamingServer.Apart k s.naming c → NamingServer.Apart k s'.naming c := by
    intro c hc
    rcases naming_of_step hstep with he | ⟨b, out, _, hn⟩
    · rwa [he]
    · exact hc.of_step hn
  refine ⟨h.name_of_step hs.requests hok hstep, ?_, ?_, ?_, h.status_of_step hs hok hstep, ?_⟩
  · intro hres
    have hr' := Requests.of_step hs.requests hstep
    have hbegun := hr'.begun hres
    have hname : (s'.naming.creates k).req.filename = f := by
      rw [(hr'.sent k hbegun).2]
      exact h.name_of_step hs.requests hok hstep hbegun
    rcases naming_of_step hstep with he | ⟨b, out, hd, hn⟩
    · rw [he] at hres ⊢
      exact h.owned hres
    · exact h.owned.of_step hc hn hname (hok.alone hd) hres
  · rcases naming_of_step hstep with he | ⟨b, out, hd, hn⟩
    · rw [he]
      exact h.purges
    · exact h.purges.of_step hc h.owned hn (hok.alone hd)
  · intro addr c hm
    cases net_of_step hstep hm with
    | old hold => exact hapart c (h.deletes addr c hold)
    | rpc b out r _ hn hr hm =>
      cases r with
      | replicateChunk => cases hm
      | deleteChunk addr' c' =>
        cases hm
        exact hapart c (NamingServer.apart_of_deleteChunk h.purges h.owned hp hn hr)
    | sent _ _ _ _ _ _ _ _ hm => cases hm
    | stored _ _ _ _ _ hm => cases hm
    | fetched _ _ _ _ _ _ _ hm => cases hm
  · have hcover := h.cover hs hok hstep
    refine (h.kept.of_step hc hs.tickets hstep (h.removesOnly hok) ?_).mono hapart
    exact fun j r addr ha hr hname _ haddr => hcover j r addr ha hr hname haddr

end Working

/-! ### What stays -/

theorem HostPort.registers {b : NamingAction} (h : HostPort s a) (hd : s.Drives a b) :
    NamingServer.Registers CommaFree b := by
  cases hd with
  | free _ _ => exact h
  | create _ _ _ _ => trivial
  | commit _ _ => trivial

theorem Reachable.healTracks (h : Reachable cfg HostPort s) : s.naming.HealTracks cfg := by
  have hn : NamingServer.Reachable cfg (fun _ b => NamingServer.Registers CommaFree b) s.naming :=
    steps_naming h fun _ _ _ hok hd => hok.registers hd
  exact NamingServer.Reachable.healTracks hn fun _ _ hok => hok

/-- Every chunk has at least R addresses. -/
theorem Reachable.stocked (h : Reachable cfg HostPort s) : s.naming.Stocked cfg := by
  have hn : NamingServer.Reachable cfg (fun _ b => NamingServer.Registers CommaFree b) s.naming :=
    steps_naming h fun _ _ _ hok hd => hok.registers hd
  exact NamingServer.Reachable.stocked hn fun _ _ hok => hok

/-- A chunk of the call that is on a disk stays there. -/
theorem Working.stored (h : Working f k s) (hs : Reachable cfg ok s)
    (hrun : Steps (step cfg) (LeftAlone f k) s s') {i : ℕ} (hi : ⟨c, k, i⟩ ∈ s.naming.issued)
    (hstored : s.Stored addr c) : s'.Stored addr c := by
  have hinv : Working f k s' ∧ s'.Stored addr c := by
    refine Steps.invariant (P := fun t => Working f k t ∧ t.Stored addr c) hrun ⟨h, hstored⟩ ?_
    rintro t a u ht ⟨hw, hst⟩ hok hstep
    have hreach : Reachable cfg anyStep t := (Steps.unguarded hs).trans ht.unguarded
    refine ⟨hw.of_step hreach hok hstep, ?_⟩
    rcases stored_of_step hst hstep (hw.removesOnly hok) with hapart | hst
    · exact absurd (steps_issued ht hi) (hapart.not_issued hreach.consistent)
    · exact hst
  exact hinv.2

end Cluster

end GfsCluster
