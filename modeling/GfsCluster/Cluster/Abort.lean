import GfsCluster.Cluster.RoundTrip

/-! Overwrites that stop. The reservation of an overwrite takes the old version's rows
away and leaves the file pending, so that no read finds the file again until a CommitFile
is executed, and then it finds the new data. -/

namespace GfsCluster

open StepSystem

namespace Cluster

variable {cfg : Settings} {s s' s₀ t : Cluster} {a : ClusterAction} {k : ℕ} {f : Filename}
  {c : ChunkId} {ok : Cluster → ClusterAction → Prop} {resp : GetFileResponse} {serve : Serve}
  {failed : Finset Addr} {old : Bytes}

/-- The file is committed, and `data` is what its creator gave. -/
def Content (s : Cluster) (f : Filename) (data : Bytes) : Prop :=
  ∃ F ∈ s.naming.db.files, F.filename = f ∧ F.status = .committed ∧
    ∃ k, s.naming.VersionOf F k ∧ (s.calls k).data = data

/-- The content of a file is known from one of its chunks. -/
theorem content_of_row (hs : Reachable cfg ok s) {i j : ℕ} (hrow : ⟨c, f, i⟩ ∈ s.naming.db.chunks)
    (hi : ⟨c, k, j⟩ ∈ s.naming.issued)
    (hcom : ∃ F ∈ s.naming.db.files, F.filename = f ∧ F.status = .committed) :
    s.Content f (s.calls k).data := by
  obtain ⟨F, hF, hname, hst⟩ := hcom
  obtain ⟨G, hG, hname', k₀, hv, hi₀⟩ := hs.consistent.row_issued hrow
  obtain rfl := s.naming.db.file_unique hF hG (hname.trans hname'.symm)
  have hk := hs.consistent.issue_unique hi hi₀ rfl
  simp only [Issue.mk.injEq, true_and] at hk
  obtain ⟨rfl, _⟩ := hk
  exact ⟨F, hF, hname, hst, k, hv, rfl⟩

/-- The call has raised, and none of its requests is still to be executed. -/
def Stopped (s : Cluster) (k : ℕ) : Prop := (s.calls k).phase = .raised ∧ (s.calls k).commit ≠ .sent

/-! ### Nothing happens after the stop -/

theorem raised_of_step (hs : s.step cfg a = some s') (h : (s.calls k).phase = .raised) :
    (s'.calls k).phase = .raised := by
  cases call_of_step hs k with
  | keep h' => rwa [h']
  | call _ _ _ hp => rw [h] at hp; cases hp
  | reply _ hp => rw [h] at hp; cases hp
  | upload _ _ _ _ _ _ hp => rw [h] at hp; cases hp
  | acked _ _ _ _ _ _ hp => rw [h] at hp; cases hp
  | send _ hp => rw [h] at hp; cases hp
  | exec _ _ h' => rwa [h']
  | lost _ h' => rwa [h']
  | finish _ hp => rw [h] at hp; cases hp
  | stop _ h' => rw [h']

/-- A call that has stopped without an executed CommitFile never has one. -/
theorem unanswered_of_step (hs : s.step cfg a = some s') (h : s.Stopped k)
    (hun : ∀ b, (s.calls k).commit ≠ .answered b) :
    s'.Stopped k ∧ ∀ b, (s'.calls k).commit ≠ .answered b := by
  obtain ⟨hraised, hsent⟩ := h
  have hcommit : (s'.calls k).commit ≠ .sent ∧ ∀ b, (s'.calls k).commit ≠ .answered b := by
    cases call_of_step hs k with
    | keep h' => rw [h']; exact ⟨hsent, hun⟩
    | call _ _ _ hp => rw [hraised] at hp; cases hp
    | reply _ hp => rw [hraised] at hp; cases hp
    | upload _ _ _ _ _ _ hp => rw [hraised] at hp; cases hp
    | acked _ _ _ _ _ _ hp => rw [hraised] at hp; cases hp
    | send _ hp => rw [hraised] at hp; cases hp
    | exec _ hc => exact absurd hc hsent
    | lost hc => exact absurd hc hsent
    | finish _ hp => rw [hraised] at hp; cases hp
    | stop _ h' => rw [h']; exact ⟨hsent, hun⟩
  exact ⟨⟨raised_of_step hs hraised, hcommit.1⟩, hcommit.2⟩

theorem unanswered_of_steps (hst : Steps (step cfg) ok s t) (h : s.Stopped k)
    (hun : ∀ b, (s.calls k).commit ≠ .answered b) : ∀ b, (t.calls k).commit ≠ .answered b := by
  have hinv : t.Stopped k ∧ ∀ b, (t.calls k).commit ≠ .answered b :=
    hst.invariant (P := fun t : Cluster => t.Stopped k ∧ ∀ b, (t.calls k).commit ≠ .answered b)
      ⟨h, hun⟩ fun _ _ _ _ h _ hs => unanswered_of_step hs h.1 h.2
  exact hinv.2

/-! ### Reads after the stop -/

/-- The first SELECT finds the file pending. -/
theorem Course.not_found (h : Course cfg f k s) (hres : (s.naming.creates k).phase.reserved = true)
    (hstop : s.Stopped k) (hun : ∀ b, (s.calls k).commit ≠ .answered b)
    (hget : GetsFile cfg (Undisturbed f k) s f t resp) : resp.ok = false := by
  obtain ⟨s₁, s₂, o₁, o₂, h₁, _, _⟩ := hget
  have hc₁ := h.steps h₁
  have hun₁ := unanswered_of_steps h₁ hstop hun
  have hres₁ : (s₁.naming.creates k).phase.reserved = true := by rwa [steps_reserved h₁ hres]
  rcases getFileResponse_cases f (o₁.view s₁.naming.db) (o₂.view s₂.naming.db)
    (t.naming.registry.liveServers t.naming.now) with ⟨_, hresp⟩ | ⟨F, hF, hname, hst, _⟩
  · rw [hresp]
  · obtain ⟨b, hans⟩ := (hc₁.working.status hres₁ F ((o₁.mem_files _).mp hF) hname).mp hst
    exact absurd hans (hun₁ b)

/-- Once call `k` has stopped, a read returns what was there before exactly if its CommitFile was
executed nevertheless and it wrote the same. -/
theorem Course.reads_iff (h : Course cfg f k s) (hres : (s.naming.creates k).phase.reserved = true)
    (hstop : s.Stopped k) (hfailed : failed.card < cfg.replication)
    (hget : GetsFile cfg (Undisturbed f k) s f t resp)
    (hhonest : Honest cfg (Undisturbed f k) t serve)
    (hanswering : Answering cfg (Undisturbed f k) failed t serve) :
    read resp serve = .ok old ↔ (∃ b, (s.calls k).commit = .answered b) ∧ (s.calls k).data = old := by
  by_cases hans : ∃ b, (s.calls k).commit = .answered b
  · obtain ⟨b, hb⟩ := hans
    rw [h.read_returns hb hget hhonest hanswering hfailed, Except.ok.injEq]
    exact ⟨fun heq => ⟨⟨b, hb⟩, heq⟩, And.right⟩
  · have hun : ∀ b, (s.calls k).commit ≠ .answered b := fun b hb => hans ⟨b, hb⟩
    have hnot := h.not_found hres hstop hun hget
    constructor
    · intro hread
      simp [read, hnot] at hread
    · exact fun heq => absurd heq.1 hans

end Cluster

end GfsCluster
