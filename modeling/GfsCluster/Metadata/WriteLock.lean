import GfsCluster.Lib.Mutex
import GfsCluster.Metadata.Refinement

/-! The write lock of the store. Every write method holds `_write_lock` while its statements run
one after the other on the writer's connection and until the transaction is committed; an exception
gives the lock back with the transaction open. Readers take no lock and see what is committed. So
the write calls of any number of threads happen one at a time, each at its commit or at the
statement that raises, and no read sees a write half done. -/

namespace GfsCluster

open Mutex StepSystem

/-- The statements of the write methods. -/
inductive WriteStatement
  | plain (s : Statement)
  | update (f : Filename)
  | delete (f : Filename)
  | insertOrIgnore (row : ReplicaRow)
  | deleteReplica (c : ChunkId) (addr : Addr)

namespace WriteStatement

/-- Whether `rowcount` is positive, where the method reads it, and the tables after the
statement. -/
def exec (db : Db) : WriteStatement → Except SqlError (Option Bool × Db)
  | .plain s => (s.exec db).map (none, ·)
  | .update f => .ok (some (db.files.any (·.filename = f)), db.markCommitted f)
  | .delete f => .ok (some (db.files.any (·.filename = f)), db.deleteFile f)
  | .insertOrIgnore row =>
    if row ∈ db.replicas then .ok (some false, db) else (db.insertReplica row).map (some true, ·)
  | .deleteReplica c addr => .ok (some (decide (⟨c, addr⟩ ∈ db.replicas)), db.deleteReplica c addr)

end WriteStatement

/-- Where a write method is: the statements to come, and the `rowcount` of the last one. -/
structure WritePlace where
  todo : List WriteStatement
  rowcount : Option Bool

def Write.statements : Write → List WriteStatement
  | .createPending f size numChunks chunks now =>
    (MetadataStore.createPendingStatements f size numChunks chunks now).map .plain
  | .commitFile f => [.update f]
  | .deleteFile f => [.delete f]
  | .addReplica c addr => [.insertOrIgnore ⟨c, addr⟩]
  | .removeReplica c addr => [.deleteReplica c addr]

namespace MetadataStore

/-- The next statement on the writer's connection, or the commit. -/
def nextStatement (p : WritePlace) (m : MetadataStore) :
    (WritePlace ⊕ Except SqlError (Option Bool)) × MetadataStore :=
  match p.todo with
  | [] => (.inr (.ok p.rowcount), ⟨m.writer, m.writer⟩)
  | s :: todo =>
    match s.exec m.writer with
    | .ok (rowcount, db) => (.inl ⟨todo, rowcount⟩, ⟨m.committed, db⟩)
    | .error e => (.inr (.error e), m)

/-- What every write method does under the lock. -/
def writing : Body MetadataStore Write WritePlace (Except SqlError (Option Bool)) where
  enter w := ⟨w.statements, none⟩
  move := nextStatement

variable {m m' : MetadataStore} {p p' : WritePlace} {r : Except SqlError (Option Bool)}

/-- Readers see nothing of a transaction before its commit. -/
theorem committed_of_statement (h : nextStatement p m = (.inl p', m')) : m'.committed = m.committed := by
  unfold nextStatement at h
  split at h
  · cases h
  · split at h
    · cases h
      rfl
    · cases h

/-- The rest of a method, without interruption. -/
def finish (m : MetadataStore) : List WriteStatement → Option Bool →
    Except SqlError (Option Bool) × MetadataStore
  | [], rowcount => (.ok rowcount, ⟨m.writer, m.writer⟩)
  | s :: todo, _ =>
    match s.exec m.writer with
    | .ok (rowcount, db) => finish ⟨m.committed, db⟩ todo rowcount
    | .error e => (.error e, m)

theorem finish_of_runs (h : writing.Runs p m r m') : m.finish p.todo p.rowcount = (r, m') := by
  induction h with
  | @last p m m' r hlast =>
    simp only [writing, nextStatement] at hlast
    split at hlast
    · rename_i htodo
      cases hlast
      rw [htodo]
      rfl
    · rename_i s todo htodo
      split at hlast
      · cases hlast
      · rename_i e he
        cases hlast
        rw [htodo, finish, he]
  | @next p p' m m' m'' r hnext _ ih =>
    simp only [writing, nextStatement] at hnext
    split at hnext
    · cases hnext
    · rename_i s todo htodo
      split at hnext
      · rename_i rowcount db hs
        cases hnext
        rw [htodo, finish, hs]
        exact ih
      · cases hnext

theorem finish_plain (m : MetadataStore) (ss : List Statement) : m.finish (ss.map .plain) none =
    match execAll ss m.writer with
    | (.ok (), db) => (.ok none, ⟨db, db⟩)
    | (.error e, db) => (.error e, ⟨m.committed, db⟩) := by
  induction ss generalizing m with
  | nil => rfl
  | cons s ss ih =>
    rw [List.map_cons, finish, WriteStatement.exec, execAll]
    cases hs : s.exec m.writer with
    | ok db => exact ih ⟨m.committed, db⟩
    | error e => rfl

theorem finish_statements (m : MetadataStore) (w : Write) : m.finish w.statements none = w.exec m := by
  cases w with
  | createPending f size numChunks chunks now =>
    rw [Write.statements, finish_plain, Write.exec, createPending]
    cases execAll (createPendingStatements f size numChunks chunks now) m.writer with
    | mk res db => cases res <;> rfl
  | addReplica c addr =>
    simp only [Write.statements, finish, WriteStatement.exec, Write.exec, addReplica]
    split_ifs
    · rfl
    · cases m.writer.insertReplica ⟨c, addr⟩ <;> rfl
  | _ => rfl

/-- Threads that write and read under the lock cannot be told from threads whose writes happen at
once: calls, returned values and exceptions, and the database seen by each read are those of some
run of the plain methods, which is in the same state whenever the lock is free. -/
theorem locked_refines (m : MetadataStore)
    {s : Locked MetadataStore Db Write WritePlace (Except SqlError (Option Bool))}
    (h : Steps (Locked.step writing committed) anyStep (Locked.init m) s) :
    ∃ a, Steps (Atomic.step (fun w m => w.exec m) committed) anyStep (Atomic.init m) a ∧
      a.trace = s.trace ∧ (s.lock = none → a.shared = s.shared) ∧
      a.shared.committed = s.shared.committed := by
  obtain ⟨a, ha, hf⟩ := refines writing committed (fun w m => w.exec m)
    (fun _ _ _ _ => committed_of_statement)
    (fun w x _ _ hr => (finish_statements x w).symm.trans (finish_of_runs hr)) h
  exact ⟨a, ha, hf.trace, fun hlock => (hf.free hlock).symm, hf.view_eq.symm⟩

/-- A reservation is under way when a deletion is called and a reader looks. -/
theorem locked_refines_reservation : ∃ (s : Locked MetadataStore Db Write WritePlace _) (a : Atomic _ _ _ _),
    Steps (Locked.step writing committed) anyStep (Locked.init .init) s ∧
      Steps (Atomic.step (fun w m => Write.exec m w) committed) anyStep (Atomic.init .init) a ∧
      a.trace = s.trace ∧ s.trace.length = 6 ∧ s.shared.committed.files = [] := by
  have hrun : (run (guarded (Locked.step writing committed) anyStep) (Locked.init .init)
      [.call 0 (.createPending ['f'] 1 1 [⟨['c'], 0, [['s']]⟩] 0), .acquire 0, .move 0, .move 0,
        .call 1 (.deleteFile ['f']), .read 2, .move 0, .move 0, .move 0, .release 0, .acquire 1,
        .ret 0, .move 1, .read 2, .move 1, .release 1, .ret 1]).any
      (fun s => s.trace.length == 6 && s.shared.committed.files.isEmpty) = true := by
    decide +kernel
  obtain ⟨s, hs, hp⟩ := exists_of_run hrun
  simp only [Bool.and_eq_true, beq_iff_eq, List.isEmpty_iff] at hp
  obtain ⟨a, ha, htrace, _⟩ := locked_refines _ hs
  exact ⟨s, a, hs, ha, htrace, hp⟩

end MetadataStore

end GfsCluster
