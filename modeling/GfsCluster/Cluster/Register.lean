import GfsCluster.Client.Register
import GfsCluster.Cluster.Service

/-! What one client can rely on that shares a file with others. As long as the calls that write the
file take turns, the cluster is a register for it: reads and looks find what was written last. -/

namespace GfsCluster

open StepSystem Service

namespace Cluster

variable {cfg : Settings}

/-- Where the history settles what was written last, a read that nothing disturbs returns it, and so
does every look that began when it was settled and ended before the next writer. -/
theorem register {o : Observed Cluster FileInput FileKey FileAnswer}
    (h : Steps (service cfg).observe (Serving Regular) (.start init) o) (f : Filename) :
    (∀ c, (writers f o.history).last = .settled c → o.server.Returns f c) ∧
      ∀ H H' j c r, o.history = H ++ .received (.look j f) :: H' → (writers f H).last = .settled c →
        (∀ e ∈ H', ¬ Writes f e) → .answered (.look j) r ∈ H' →
          r = .size (c.map fun b => (b.length : ℤ)) := by
  obtain ⟨p, hp, hrep, _, hhistory⟩ := follows.histories represents_init h
  constructor
  · intro c hc
    rw [← hhistory] at hc
    have hreturns := (hrep.versions f).returns hrep.reachable
    rwa [FileService.seen_of_settled hp hc] at hreturns
  · intro H H' j c r hh hc hno hr
    rw [← hhistory] at hh
    exact FileService.looks_of_settled hp hh hc hno hr

/-- A file is created and deleted, and then looked at. -/
theorem register_deleted : ∃ o : Observed Cluster FileInput FileKey FileAnswer,
    Steps (service ⟨1, 60⟩).observe (Serving Regular) (.start init) o ∧
      o.history = [.received (.create 0 ['f'] [7]), .answered (.create 0) (.created true),
        .received (.delete 0 ['f']), .answered (.delete 0) (.deleted true),
        .received (.look 0 ['f']), .answered (.look 0) (.size none)] ∧
      (writers ['f'] o.history).last = .settled none ∧ o.server.Returns ['f'] none ∧
      ∀ r, .answered (.look 0) r ∈ o.history → r = .size none := by
  have hrun : (run (guarded (service ⟨1, 60⟩).observe (Serving Regular)) (.start init)
      (storing.map .step ++ [.answer (.create 0), .step (.naming (.delete 0 (.receive ['f']))),
        .step (.naming (.delete 0 (.selectFile .table))),
        .step (.naming (.delete 0 (.selectChunks .table))), .step (.naming (.delete 0 .remove)),
        .step (.naming (.delete 0 (.send 0 true))), .step (.naming (.delete 0 .reply)),
        .answer (.delete 0), .step (.naming (.get 0 (.receive ['f']))),
        .step (.naming (.get 0 (.selectFile .table))), .answer (.look 0)])).any (fun o => o.history ==
      [.received (.create 0 ['f'] [7]), .answered (.create 0) (.created true),
        .received (.delete 0 ['f']), .answered (.delete 0) (.deleted true),
        .received (.look 0 ['f']), .answered (.look 0) (.size none)]) = true := by
    decide +kernel
  obtain ⟨o, ho, hp⟩ := exists_of_run hrun
  have hhistory := beq_iff_eq.mp hp
  have hsettled : (writers ['f'] o.history).last = .settled none := by
    rw [hhistory]
    decide
  obtain ⟨hreturns, hlooks⟩ := register ho ['f']
  refine ⟨o, ho, hhistory, hsettled, hreturns none hsettled, fun r hr => ?_⟩
  have hlast : .answered (.look 0) r ∈
      ([.answered (.look 0) (.size none)] : List (Event FileInput FileKey FileAnswer)) := by
    rw [hhistory] at hr
    simpa using hr
  exact hlooks [.received (.create 0 ['f'] [7]), .answered (.create 0) (.created true),
    .received (.delete 0 ['f']), .answered (.delete 0) (.deleted true)]
    [.answered (.look 0) (.size none)] 0 none r hhistory (by decide) (by simp [Writes]) hlast

end Cluster

end GfsCluster
