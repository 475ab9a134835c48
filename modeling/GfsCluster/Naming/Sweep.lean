import GfsCluster.Naming.Cleanup

/-! What an iteration of the cleanup loop leaves. A pending file that is old enough when the loop
lists names stays listed until it is gone, whatever happens in between: so none of these is left when
the iteration is over. -/

namespace GfsCluster

open StepSystem

namespace NamingServer

variable {cfg : Settings} {n n' n₁ : NamingServer} {a : NamingAction} {out : List StorageRpc}
  {cutoff : Seconds} {f : Filename}

/-- The iteration under way is going to remove every pending file from before the cutoff. -/
def StaleListed (cutoff : Seconds) (n : NamingServer) : Prop :=
  ∀ F ∈ n.db.files, F.Live cutoff ∨ F.filename ∈ n.cleanup.listed

/-- The process lives on, and no reservation is dated back beyond the cutoff. -/
def Sweeps (cutoff : Seconds) (_ : NamingServer) : NamingAction → Prop
  | .create _ (.reserve t) => cutoff ≤ t
  | .crash => False
  | _ => True

instance (cutoff : Seconds) (n : NamingServer) (a : NamingAction) : Decidable (Sweeps cutoff n a) :=
  match a with
  | .create _ (.reserve t) => inferInstanceAs (Decidable (cutoff ≤ t))
  | .crash => .isFalse id
  | .create _ (.receive _) | .create _ .checkLive | .create _ (.selectFile _)
  | .create _ (.selectChunks _) | .create _ (.place _) | .commit _ | .registerStorage _
  | .heartbeat _ | .tick _ | .delete _ _ | .get _ _ | .purge _ | .cleanup _ | .heal _ => .isTrue trivial

/-- A name goes off the list once no file has it. -/
theorem listed_of_cleanup {b : CleanupStep} (hc : Consistent cfg n)
    (hs : n.step cfg (.cleanup b) = some (n', out)) (hf : f ∈ n.cleanup.listed) :
    f ∈ n'.cleanup.listed ∨ ∀ F ∈ n'.db.files, F.filename ≠ f := by
  cases cleanupCase_of_step hs with
  | listNames now o hp =>
    rw [hp] at hf
    cases hf
  | gone o cutoff g names stale hp hnone =>
    rw [hp] at hf
    rcases List.mem_cons.mp hf with rfl | hf
    · rw [selectFile_view, selectFile_eq_none] at hnone
      exact .inr hnone
    · exact .inl hf
  | selectFile o cutoff g row names stale hp hrow =>
    rw [hp] at hf
    rw [selectFile_view, selectFile_eq_some] at hrow
    refine .inl ?_
    simpa [CleanupPhase.listed, hrow.2] using hf
  | selectChunks o cutoff row names stale hp =>
    rw [hp] at hf
    refine .inl ?_
    simp only [CleanupPhase.listed, List.mem_append, List.mem_cons, List.map_append, List.map_cons,
      List.map_nil, FileMeta.ofRow] at hf ⊢
    tauto
  | finish cutoff hp =>
    rw [hp] at hf
    cases hf
  | remove cutoff fm stale hp =>
    rw [hp] at hf
    rcases List.mem_cons.mp hf with rfl | hf
    · refine .inr fun F hF => ?_
      have hclean : n.store.writer = n.db := hc.clean
      simp only [NamingServer.db, removeFile, MetadataStore.deleteFile, hclean,
        Db.mem_deleteFile_files] at hF
      exact hF.2
    · exact .inl hf
  | listed _ _ _ hp | sent _ _ hp | send _ _ _ _ _ hp =>
    rw [hp] at hf
    exact .inl hf

theorem StaleListed.of_step (h : n.StaleListed cutoff) (hc : Consistent cfg n)
    (hok : Sweeps cutoff n a) (hs : n.step cfg a = some (n', out)) : n'.StaleListed cutoff := by
  intro F hF
  rcases file_of_step hc hs hF with hF' | ⟨_, G, _, rfl⟩ | ⟨k, t, rfl, rfl, _⟩
  · refine (h F hF').imp_right fun hlisted => ?_
    rcases step_frame hs with rfl | ⟨_, ⟨b, rfl⟩ | he, _⟩
    · exact absurd hok id
    · exact (listed_of_cleanup hc hs hlisted).resolve_right fun hgone => hgone F hF rfl
    · rwa [he]
  · exact .inl (.inl rfl)
  · exact .inl (.inr hok)

/-- The loop lists what is stale. -/
theorem staleListed_of_listNames {now : Seconds} {o : RowOrder}
    (hs : n.step cfg (.cleanup (.listNames now o)) = some (n', out)) :
    n'.StaleListed (now - cfg.cleanupMaxAge) := by
  cases cleanupCase_of_step hs with
  | listNames now o hp =>
    intro F hF
    by_cases hlive : F.Live (now - cfg.cleanupMaxAge)
    · exact .inl hlive
    · obtain ⟨hst, hold⟩ := not_or.mp hlive
      refine .inr ?_
      simp only [CleanupPhase.listed, List.map_nil, List.append_nil, stalePendingNames, List.mem_map,
        List.mem_filter, decide_eq_true_eq, RowOrder.mem_files]
      refine ⟨F, ⟨hF, ?_, not_le.mp hold⟩, rfl⟩
      cases hF : F.status with
      | pending => rfl
      | committed => exact absurd hF hst

/-- Nothing that is stale is left by the time the list is empty. -/
theorem StaleListed.live_of_steps (h : n.StaleListed cutoff) (hr : Reachable cfg anyStep n)
    (hrun : Steps (next cfg) (Sweeps cutoff) n n') (hidle : n'.cleanup = .idle) :
    ∀ F ∈ n'.db.files, F.Live cutoff := by
  have hlisted : n'.StaleListed cutoff := by
    refine hrun.invariant (P := StaleListed cutoff) h fun m a m' hm h hok hnext => ?_
    obtain ⟨out, hs⟩ := exists_step_of_next hnext
    exact h.of_step (Reachable.consistent (hr.trans hm.unguarded)) hok hs
  intro F hF
  refine (hlisted F hF).resolve_right ?_
  rw [hidle]
  exact List.not_mem_nil

/-- Once an iteration is over, every file is committed or was created after its cutoff. -/
theorem swept {ok : NamingServer → NamingAction → Prop} {now : Seconds} {o : RowOrder}
    (hr : Reachable cfg ok n) (hs : n.step cfg (.cleanup (.listNames now o)) = some (n₁, out))
    (hrun : Steps (next cfg) (Sweeps (now - cfg.cleanupMaxAge)) n₁ n')
    (hidle : n'.cleanup = .idle) : ∀ F ∈ n'.db.files, F.Live (now - cfg.cleanupMaxAge) := by
  have hr₁ : Reachable cfg anyStep n₁ :=
    .tail hr.unguarded trivial (by rw [next, hs]; rfl)
  exact (staleListed_of_listNames hs).live_of_steps hr₁ hrun hidle

/-- An abandoned file goes while another is being reserved, and one that is young enough stays. -/
theorem swept_abandoned : ∃ n : NamingServer, n.cleanup = .idle ∧
    n.db.files.map FileRow.filename = [['g'], ['h']] ∧ ∀ F ∈ n.db.files, F.Live 40 := by
  have hrun : ((run (guarded (next ⟨1, 60⟩) anyStep) init
      [.registerStorage ['s'], .create 0 (.receive ⟨['f'], 1, 1⟩), .create 0 .checkLive,
        .create 0 (.selectFile .table), .create 0 (.place ['c']), .create 0 (.reserve 0),
        .create 1 (.receive ⟨['g'], 1, 1⟩), .create 1 .checkLive, .create 1 (.selectFile .table),
        .create 1 (.place ['d']), .create 1 (.reserve 90)]).bind fun n =>
      (n.step ⟨1, 60⟩ (.cleanup (.listNames 100 .table))).bind fun r =>
        (run (guarded (next ⟨1, 60⟩) (Sweeps 40)) r.1
          [.cleanup (.selectFile .table), .create 2 (.receive ⟨['h'], 1, 1⟩), .create 2 .checkLive,
            .cleanup (.selectChunks .table), .create 2 (.selectFile .table), .create 2 (.place ['e']),
            .cleanup (.selectFile .table), .create 2 (.reserve 101), .cleanup .remove, .cleanup .send,
            .cleanup .send, .cleanup .remove]).map fun n' => (n, r, n')).any
      (fun x => !x.2.2.cleanup.cutoff.isSome &&
        x.2.2.db.files.map FileRow.filename == [['g'], ['h']]) = true := by
    decide +kernel
  simp only [Option.any_eq_true, Option.bind_eq_some_iff, Option.map_eq_some_iff, Bool.and_eq_true,
    Bool.not_eq_true', Option.isSome_eq_false_iff, Option.isNone_iff_eq_none, beq_iff_eq] at hrun
  obtain ⟨_, ⟨n, hn, ⟨n₁, out⟩, hs, n', hn', rfl⟩, hcut, hnames⟩ := hrun
  have hidle : n'.cleanup = .idle := by
    cases hp : n'.cleanup with
    | idle => rfl
    | _ => simp [hp, CleanupPhase.cutoff] at hcut
  have hr : Reachable ⟨1, 60⟩ anyStep n := steps_of_guarded_run hn
  have hcutoff : (100 : Seconds) - Settings.cleanupMaxAge ⟨1, 60⟩ = 40 := by decide +kernel
  have hlive := swept hr hs (hcutoff ▸ steps_of_guarded_run hn') hidle
  rw [hcutoff] at hlive
  exact ⟨n', hidle, hnames, hlive⟩

end NamingServer

end GfsCluster
