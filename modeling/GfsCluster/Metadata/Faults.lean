import Mathlib.Data.Fintype.EquivFin
import GfsCluster.Metadata.Refinement

/-! A reservation that raises. `create_pending` runs its statements in one transaction and
commits at the end; no path rolls back. What the statements before the exception did stays in
the open transaction of the writer's connection, and the next write commits it with its own. -/

namespace GfsCluster

open StepSystem

/-! ### The same rows -/

namespace Db

/-- The same rows in every table; the order of rows carries no data. -/
structure SameRows (db db' : Db) : Prop where
  files : db.files.Perm db'.files
  chunks : db.chunks.Perm db'.chunks
  replicas : db.replicas.Perm db'.replicas

namespace SameRows

variable {db db' db'' : Db}

theorem refl (db : Db) : db.SameRows db := ⟨.refl _, .refl _, .refl _⟩

theorem symm (h : db.SameRows db') : db'.SameRows db := ⟨h.files.symm, h.chunks.symm, h.replicas.symm⟩

theorem trans (h : db.SameRows db') (h' : db'.SameRows db'') : db.SameRows db'' :=
  ⟨h.files.trans h'.files, h.chunks.trans h'.chunks, h.replicas.trans h'.replicas⟩

theorem mem_filenames (h : db.SameRows db') {f : Filename} :
    f ∈ db.files.map FileRow.filename ↔ f ∈ db'.files.map FileRow.filename :=
  (h.files.map _).mem_iff

theorem mem_chunkIds (h : db.SameRows db') {c : ChunkId} :
    c ∈ db.chunks.map ChunkRow.chunkId ↔ c ∈ db'.chunks.map ChunkRow.chunkId :=
  (h.chunks.map _).mem_iff

theorem deleteFile (h : db.SameRows db') (f : Filename) :
    (db.deleteFile f).SameRows (db'.deleteFile f) := by
  refine ⟨h.files.filter _, h.chunks.filter _, ?_⟩
  have hsame : ∀ r : ReplicaRow,
      r.chunkId ∈ (db.chunks.filter (·.filename = f)).map ChunkRow.chunkId ↔
        r.chunkId ∈ (db'.chunks.filter (·.filename = f)).map ChunkRow.chunkId := fun r =>
    ((h.chunks.filter _).map _).mem_iff
  have hfilter : (db.deleteFile f).replicas = db.replicas.filter fun r =>
      r.chunkId ∉ (db'.chunks.filter (·.filename = f)).map ChunkRow.chunkId :=
    List.filter_congr fun r _ => by simp only [hsame]
  rw [hfilter]
  exact h.replicas.filter _

theorem markCommitted (h : db.SameRows db') (f : Filename) :
    (db.markCommitted f).SameRows (db'.markCommitted f) :=
  ⟨h.files.map _, h.chunks, h.replicas⟩

theorem deleteReplica (h : db.SameRows db') (c : ChunkId) (addr : Addr) :
    (db.deleteReplica c addr).SameRows (db'.deleteReplica c addr) :=
  ⟨h.files, h.chunks, h.replicas.filter _⟩

end SameRows

/-- Deleting a name without a row. -/
theorem deleteFile_of_absent {db : Db} {f : Filename} (h : f ∉ db.files.map FileRow.filename) :
    (db.deleteFile f).SameRows db := by
  have hfiles : ∀ F ∈ db.files, F.filename ≠ f := fun F hF he => h (he ▸ List.mem_map_of_mem hF)
  have hchunks : ∀ c ∈ db.chunks, c.filename ≠ f := by
    rintro c hc rfl
    exact h (db.chunks_fk c hc)
  have hnone : db.chunks.filter (·.filename = f) = [] :=
    List.filter_eq_nil_iff.mpr fun c hc => by simpa using hchunks c hc
  exact ⟨.of_eq (List.filter_eq_self.mpr fun F hF => by simpa using hfiles F hF),
    .of_eq (List.filter_eq_self.mpr fun c hc => by simpa using hchunks c hc),
    .of_eq (List.filter_eq_self.mpr fun r _ => by simp [hnone])⟩

end Db

/-- The same exception, or the same rows after the statements. -/
def SameResult {ε : Type*} : Except ε Db → Except ε Db → Prop
  | .ok db, .ok db' => db.SameRows db'
  | .error e, .error e' => e = e'
  | _, _ => False

theorem Statement.exec_sameRows {db db' : Db} (h : db.SameRows db') (s : Statement) :
    SameResult (s.exec db) (s.exec db') := by
  cases s with
  | deleteFile f => exact h.deleteFile f
  | insertFile row =>
    simp only [Statement.exec, Db.insertFile, h.mem_filenames]
    split_ifs
    · rfl
    · exact ⟨h.files.append_right _, h.chunks, h.replicas⟩
  | insertChunk row =>
    simp only [Statement.exec, Db.insertChunk, h.mem_chunkIds, h.mem_filenames]
    split_ifs
    · rfl
    · exact ⟨h.files, h.chunks.append_right _, h.replicas⟩
    · rfl
  | insertReplica row =>
    simp only [Statement.exec, Db.insertReplica, h.mem_chunkIds, h.replicas.mem_iff]
    split_ifs
    · rfl
    · exact ⟨h.files, h.chunks, h.replicas.append_right _⟩
    · rfl

theorem execAll_sameRows {db db' : Db} (h : db.SameRows db') (ss : List Statement) :
    (execAll ss db).1 = (execAll ss db').1 ∧ (execAll ss db).2.SameRows (execAll ss db').2 := by
  induction ss generalizing db db' with
  | nil => exact ⟨rfl, h⟩
  | cons s ss ih =>
    have hs := s.exec_sameRows h
    simp only [execAll]
    cases he : s.exec db with
    | ok d =>
      cases he' : s.exec db' with
      | ok d' =>
        rw [he, he'] at hs
        exact ih hs
      | error e =>
        rw [he, he'] at hs
        cases hs
    | error e =>
      cases he' : s.exec db' with
      | ok d' =>
        rw [he, he'] at hs
        cases hs
      | error e' =>
        rw [he, he'] at hs
        obtain rfl : e = e' := hs
        exact ⟨rfl, h⟩

namespace MetadataStore

variable {m m' : MetadataStore}

/-- The same rows are committed, and the writer sees the same rows. -/
structure SameRows (m m' : MetadataStore) : Prop where
  committed : m.committed.SameRows m'.committed
  writer : m.writer.SameRows m'.writer

/-- A write of stores with the same rows answers the same and leaves the same rows. It
commits what the writer sees, so what was committed before makes no difference. -/
theorem exec_sameRows (h : m.writer.SameRows m'.writer) (w : Write) :
    (w.exec m).1 = (w.exec m').1 ∧ ((w.exec m).1.isOk = true → (w.exec m).2.SameRows (w.exec m').2) := by
  have hboth : ∀ {db db' : Db}, db.SameRows db' → SameRows ⟨db, db⟩ ⟨db', db'⟩ := fun h => ⟨h, h⟩
  have hany : ∀ f, (m.writer.files.any (·.filename = f)) = m'.writer.files.any (·.filename = f) :=
    fun f => h.files.any_eq
  cases w with
  | createPending f size numChunks chunks now =>
    obtain ⟨hres, hdb⟩ := execAll_sameRows h (createPendingStatements f size numChunks chunks now)
    simp only [Write.exec, createPending]
    cases he : execAll (createPendingStatements f size numChunks chunks now) m.writer with
    | mk res db =>
      cases he' : execAll (createPendingStatements f size numChunks chunks now) m'.writer with
      | mk res' db' =>
        rw [he, he'] at hres hdb
        obtain rfl : res = res' := hres
        cases res with
        | ok u => exact ⟨rfl, fun _ => hboth hdb⟩
        | error e => exact ⟨rfl, fun hok => by cases hok⟩
  | commitFile f =>
    simp only [Write.exec, commitFile, hany]
    exact ⟨trivial, fun _ => hboth (h.markCommitted f)⟩
  | deleteFile f =>
    simp only [Write.exec, deleteFile, hany]
    exact ⟨trivial, fun _ => hboth (h.deleteFile f)⟩
  | removeReplica c addr =>
    simp only [Write.exec, removeReplica, h.replicas.mem_iff]
    exact ⟨trivial, fun _ => hboth (h.deleteReplica c addr)⟩
  | addReplica c addr =>
    have hs := (Statement.insertReplica ⟨c, addr⟩).exec_sameRows h
    simp only [Statement.exec] at hs
    simp only [Write.exec, addReplica, h.replicas.mem_iff]
    split_ifs
    · exact ⟨rfl, fun _ => hboth h⟩
    · cases he : m.writer.insertReplica ⟨c, addr⟩ with
      | ok db =>
        cases he' : m'.writer.insertReplica ⟨c, addr⟩ with
        | ok db' =>
          rw [he, he'] at hs
          exact ⟨rfl, fun _ => hboth hs⟩
        | error e =>
          rw [he, he'] at hs
          cases hs
      | error e =>
        cases he' : m'.writer.insertReplica ⟨c, addr⟩ with
        | ok db' =>
          rw [he, he'] at hs
          cases hs
        | error e' =>
          rw [he, he'] at hs
          obtain rfl : e = e' := hs
          exact ⟨rfl, fun hok => by cases hok⟩

/-- Calls that all return. -/
def writeAll (m : MetadataStore) : List Write → Option MetadataStore
  | [] => some m
  | w :: ws => if (w.exec m).1.isOk then writeAll (w.exec m).2 ws else none

theorem writeAll_sameRows (h : m.SameRows m') {ws : List Write} {m₁ : MetadataStore}
    (hw : m.writeAll ws = some m₁) : ∃ m₂, m'.writeAll ws = some m₂ ∧ m₁.SameRows m₂ := by
  induction ws generalizing m m' with
  | nil =>
    simp only [writeAll, Option.some.injEq] at hw
    exact ⟨m', rfl, hw ▸ h⟩
  | cons w ws ih =>
    obtain ⟨hres, hsame⟩ := exec_sameRows h.writer w
    simp only [writeAll] at hw
    split_ifs at hw with hok
    obtain ⟨m₂, hm₂, hrows⟩ := ih (hsame hok) hw
    exact ⟨m₂, by simp only [writeAll, ← hres, hok, if_true, hm₂], hrows⟩

end MetadataStore

/-! ### A call that raises -/

/-- The arguments of a reservation and the time it is stamped with. -/
structure PendingCall where
  filename : Filename
  size : ℤ
  numChunks : ℤ
  chunks : List ChunkMeta
  now : Seconds

def PendingCall.statements (p : PendingCall) : List Statement :=
  MetadataStore.createPendingStatements p.filename p.size p.numChunks p.chunks p.now

/-- An error of the database itself: the number of statements that have run when it is
reported, and whether SQLite rolls the transaction back by itself. When all have run, it is
the commit that fails. -/
structure Fault where
  ran : ℕ
  rollsBack : Bool

inductive StoreError
  | integrity (e : SqlError)
  | database
  deriving DecidableEq

namespace MetadataStore

variable {m : MetadataStore} {p : PendingCall} {fault : Option Fault} {k : ℕ} {back : Bool}

/-- `create_pending` on a database that may fail. -/
def createPendingUnder (m : MetadataStore) (p : PendingCall) :
    Option Fault → Except StoreError Unit × MetadataStore
  | none =>
    match execAll p.statements m.writer with
    | (.ok (), db) => (.ok (), ⟨db, db⟩)
    | (.error e, db) => (.error (.integrity e), ⟨m.committed, db⟩)
  | some x =>
    match execAll (p.statements.take x.ran) m.writer with
    | (.error e, db) => (.error (.integrity e), ⟨m.committed, db⟩)
    | (.ok (), db) => (.error .database, ⟨m.committed, if x.rollsBack then m.committed else db⟩)

/-- The call raises after its first `k` statements: at one that breaks a key, or because the
database fails there. `back` says that SQLite has rolled the transaction back. -/
inductive RaisesAt (m : MetadataStore) (p : PendingCall) (fault : Option Fault) : ℕ → Bool → Prop
  | conflict (k : ℕ) (s : Statement) (db : Db) (e : SqlError)
      (hran : execAll (p.statements.take k) m.writer = (.ok (), db))
      (hs : p.statements[k]? = some s) (he : s.exec db = .error e)
      (hfault : ∀ x, fault = some x → k < x.ran) : RaisesAt m p fault k false
  | database (x : Fault) (db : Db) (hfault : fault = some x)
      (hran : execAll (p.statements.take x.ran) m.writer = (.ok (), db)) :
      RaisesAt m p fault x.ran x.rollsBack

end MetadataStore

/-- The first statement that fails, and what the ones before it made. -/
theorem exists_of_execAll_error {ss : List Statement} {db db' : Db} {e : SqlError}
    (h : execAll ss db = (.error e, db')) : ∃ k s, k < ss.length ∧
      execAll (ss.take k) db = (.ok (), db') ∧ ss[k]? = some s ∧ s.exec db' = .error e := by
  induction ss generalizing db with
  | nil => cases h
  | cons s ss ih =>
    simp only [execAll] at h
    cases hs : s.exec db with
    | ok d =>
      rw [hs] at h
      obtain ⟨k, s', hk, hran, hs', he⟩ := ih h
      refine ⟨k + 1, s', by simpa using hk, ?_, hs', he⟩
      simp only [List.take_succ_cons, execAll, hs, hran]
    | error e' =>
      rw [hs] at h
      cases h
      exact ⟨0, s, by simp, rfl, rfl, hs⟩

theorem execAll_error_of_take {ss : List Statement} {s : Statement} {db db' : Db} {e : SqlError} {k : ℕ}
    (h : execAll (ss.take k) db = (.ok (), db')) (hs : ss[k]? = some s) (he : s.exec db' = .error e) :
    execAll ss db = (.error e, db') := by
  obtain ⟨hk, rfl⟩ := List.getElem?_eq_some_iff.mp hs
  have hsplit : ss = ss.take k ++ ss[k] :: ss.drop (k + 1) := by simp
  rw [hsplit, execAll_append h]
  simp only [execAll, he]

namespace MetadataStore

/-- What the writer sees after the exception. -/
theorem RaisesAt.store (h : RaisesAt m p fault k back) : ∃ e db,
    execAll (p.statements.take k) m.writer = (.ok (), db) ∧
      m.createPendingUnder p fault = (.error e, ⟨m.committed, if back then m.committed else db⟩) := by
  cases h with
  | conflict k s db e hran hs he hfault =>
    refine ⟨.integrity e, db, hran, ?_⟩
    cases fault with
    | none => simp only [createPendingUnder, execAll_error_of_take hran hs he, Bool.false_eq_true, if_false]
    | some x =>
      -- the statement is among those that run before the database would fail
      have hk := hfault x rfl
      have hran' : execAll ((p.statements.take x.ran).take k) m.writer = (.ok (), db) := by
        rwa [List.take_take, min_eq_left hk.le]
      have hs' : (p.statements.take x.ran)[k]? = some s := by rw [List.getElem?_take_of_lt hk, hs]
      simp only [createPendingUnder, execAll_error_of_take hran' hs' he, Bool.false_eq_true, if_false]
  | database x db hfault hran =>
    refine ⟨.database, db, hran, ?_⟩
    subst hfault
    simp only [createPendingUnder, hran]

/-- Every call that raises does so after some of its statements. -/
theorem exists_raisesAt (h : (m.createPendingUnder p fault).1.isOk = false) :
    ∃ k back, RaisesAt m p fault k back := by
  cases fault with
  | none =>
    simp only [createPendingUnder] at h
    split at h
    · cases h
    · rename_i e db he
      obtain ⟨k, s, _, hran, hs, hexec⟩ := exists_of_execAll_error he
      exact ⟨k, false, .conflict k s db e hran hs hexec (fun _ hx => by cases hx)⟩
  | some x =>
    cases hrun : execAll (p.statements.take x.ran) m.writer with
    | mk res db =>
      cases res with
      | ok u => exact ⟨x.ran, x.rollsBack, .database x db rfl hrun⟩
      | error e =>
        obtain ⟨k, s, hk, hran, hs, hexec⟩ := exists_of_execAll_error hrun
        rw [List.length_take] at hk
        have hlt : k < x.ran := by omega
        rw [List.take_take, min_eq_left hlt.le] at hran
        rw [List.getElem?_take_of_lt hlt] at hs
        exact ⟨k, false, .conflict k s db e hran hs hexec (fun _ hx => by cases hx; exact hlt)⟩

end MetadataStore

/-! ### What the open transaction holds -/

namespace Statement

def fileRow : Statement → Option FileRow
  | insertFile row => some row
  | _ => none

def chunkRow : Statement → Option ChunkRow
  | insertChunk row => some row
  | _ => none

def replicaRow : Statement → Option ReplicaRow
  | insertReplica row => some row
  | _ => none

def isDelete : Statement → Bool
  | deleteFile _ => true
  | _ => false

end Statement

theorem execAll_inserts {ss : List Statement} {db db' : Db} (hins : ∀ s ∈ ss, s.isDelete = false)
    (h : execAll ss db = (.ok (), db')) : db'.files = db.files ++ ss.filterMap Statement.fileRow ∧
      db'.chunks = db.chunks ++ ss.filterMap Statement.chunkRow ∧
      db'.replicas = db.replicas ++ ss.filterMap Statement.replicaRow := by
  induction ss generalizing db with
  | nil =>
    cases h
    simp
  | cons s ss ih =>
    have hrest : ∀ t ∈ ss, t.isDelete = false := fun t ht => hins t (List.mem_cons_of_mem _ ht)
    simp only [execAll] at h
    cases s with
    | deleteFile f => exact absurd (hins _ List.mem_cons_self) Bool.true_eq_false.mp
    | insertFile row =>
      simp only [Statement.exec, Db.insertFile] at h
      split_ifs at h with hrow
      · cases h
      · obtain ⟨hf, hc, hr⟩ := ih hrest h
        simp [hf, hc, hr, List.filterMap_cons, Statement.fileRow, Statement.chunkRow, Statement.replicaRow]
    | insertChunk row =>
      simp only [Statement.exec, Db.insertChunk] at h
      split_ifs at h with hrow hfile
      · cases h
      · obtain ⟨hf, hc, hr⟩ := ih hrest h
        simp [hf, hc, hr, List.filterMap_cons, Statement.fileRow, Statement.chunkRow, Statement.replicaRow]
      · cases h
    | insertReplica row =>
      simp only [Statement.exec, Db.insertReplica] at h
      split_ifs at h with hrow hchunk
      · cases h
      · obtain ⟨hf, hc, hr⟩ := ih hrest h
        simp [hf, hc, hr, List.filterMap_cons, Statement.fileRow, Statement.chunkRow, Statement.replicaRow]
      · cases h

/-- The rows that go with the file row of `f`. -/
def Db.replicasOf (db : Db) (f : Filename) : List ReplicaRow :=
  db.replicas.filter fun r => r.chunkId ∈ (db.chunks.filter (·.filename = f)).map ChunkRow.chunkId

/-- The rows of the name are the very rows that the first `k` statements insert. -/
structure Reinserted (db : Db) (p : PendingCall) (k : ℕ) : Prop where
  files : (db.files.filter (·.filename = p.filename)).Perm
    ((p.statements.take k).filterMap Statement.fileRow)
  chunks : (db.chunks.filter (·.filename = p.filename)).Perm
    ((p.statements.take k).filterMap Statement.chunkRow)
  replicas : (db.replicasOf p.filename).Perm ((p.statements.take k).filterMap Statement.replicaRow)

/-- Taking out the rows of `q` and adding others makes no difference when they are the same. -/
theorem filter_append_perm_iff {α : Type*} {q : α → Bool} {l new : List α} :
    (l.filter (fun a => !q a) ++ new).Perm l ↔ (l.filter q).Perm new := by
  have hsplit : (l.filter (fun a => !q a) ++ l.filter q).Perm l :=
    List.perm_append_comm.trans (List.filter_append_perm q l)
  constructor
  · intro h
    exact ((List.perm_append_left_iff _).mp (h.trans hsplit.symm)).symm
  · intro h
    exact ((List.perm_append_left_iff _).mpr h.symm).trans hsplit

namespace PendingCall

variable (p : PendingCall)

/-- What a reservation does after the DELETE. -/
def inserts : List Statement :=
  .insertFile ⟨p.filename, p.size, p.numChunks, .pending, p.now⟩ ::
    ((p.chunks.map (·.row p.filename)).map .insertChunk ++
      (p.chunks.flatMap ChunkMeta.replicaRows).map .insertReplica)

theorem take_statements (k : ℕ) :
    p.statements.take (k + 1) = .deleteFile p.filename :: p.inserts.take k := rfl

theorem isDelete_of_mem_take (k : ℕ) : ∀ s ∈ p.inserts.take k, s.isDelete = false := by
  intro s hs
  have hs := List.mem_of_mem_take hs
  simp only [inserts, List.mem_cons, List.mem_append, List.mem_map] at hs
  rcases hs with rfl | ⟨_, _, rfl⟩ | ⟨_, _, rfl⟩
  · rfl
  · rfl
  · rfl

/-- The tables after the first statements have the old rows exactly when these have put
back what the DELETE took. -/
theorem sameRows_iff {db db' : Db} {k : ℕ} (h : execAll (p.statements.take k) db = (.ok (), db')) :
    db'.SameRows db ↔ k = 0 ∨ Reinserted db p k := by
  cases k with
  | zero =>
    cases h
    exact iff_of_true (.refl _) (.inl rfl)
  | succ k =>
    have htake := p.take_statements k
    have hins := p.isDelete_of_mem_take k
    generalize p.inserts.take k = ss at htake hins
    rw [htake] at h
    have hrun : execAll ss (db.deleteFile p.filename) = (.ok (), db') := h
    obtain ⟨hf, hc, hr⟩ := execAll_inserts hins hrun
    have hfiles : db'.files.Perm db.files ↔
        (db.files.filter (·.filename = p.filename)).Perm (ss.filterMap Statement.fileRow) := by
      rw [hf, ← filter_append_perm_iff]
      simp [Db.deleteFile]
    have hchunks : db'.chunks.Perm db.chunks ↔
        (db.chunks.filter (·.filename = p.filename)).Perm (ss.filterMap Statement.chunkRow) := by
      rw [hc, ← filter_append_perm_iff]
      simp [Db.deleteFile]
    have hreplicas : db'.replicas.Perm db.replicas ↔
        (db.replicasOf p.filename).Perm (ss.filterMap Statement.replicaRow) := by
      have hkept : (db.deleteFile p.filename).replicas = db.replicas.filter fun r =>
          !decide (r.chunkId ∈ (db.chunks.filter (·.filename = p.filename)).map ChunkRow.chunkId) :=
        List.filter_congr fun r _ => decide_not
      rw [hr, hkept, Db.replicasOf, ← filter_append_perm_iff]
    have hrows : Reinserted db p (k + 1) ↔
        (db.files.filter (·.filename = p.filename)).Perm (ss.filterMap Statement.fileRow) ∧
        (db.chunks.filter (·.filename = p.filename)).Perm (ss.filterMap Statement.chunkRow) ∧
        (db.replicasOf p.filename).Perm (ss.filterMap Statement.replicaRow) := by
      constructor
      · rintro ⟨h₁, h₂, h₃⟩
        rw [htake] at h₁ h₂ h₃
        exact ⟨h₁, h₂, h₃⟩
      · rintro ⟨h₁, h₂, h₃⟩
        exact ⟨by rw [htake]; exact h₁, by rw [htake]; exact h₂, by rw [htake]; exact h₃⟩
    rw [hrows, ← hfiles, ← hchunks, ← hreplicas]
    constructor
    · rintro ⟨h₁, h₂, h₃⟩
      exact .inr ⟨h₁, h₂, h₃⟩
    · rintro (h₀ | ⟨h₁, h₂, h₃⟩)
      · cases h₀
      · exact ⟨h₁, h₂, h₃⟩

end PendingCall

/-! ### What later writes commit -/

namespace MetadataStore

variable {m : MetadataStore} {p : PendingCall} {fault : Option Fault} {k : ℕ} {back : Bool}

/-- After any further calls that return, these return without the failed one as well, and
the same rows are committed. -/
def LeavesNoTrace (m : MetadataStore) (p : PendingCall) (fault : Option Fault) : Prop :=
  ∀ ws m₁, (m.createPendingUnder p fault).2.writeAll ws = some m₁ →
    ∃ m₂, m.writeAll ws = some m₂ ∧ m₁.committed.SameRows m₂.committed

/-- The next write commits what the writer sees. -/
theorem sameRows_iff_forall_writes {db : Db} :
    (∀ ws m₁, writeAll ⟨m.committed, db⟩ ws = some m₁ →
      ∃ m₂, m.writeAll ws = some m₂ ∧ m₁.committed.SameRows m₂.committed) ↔ db.SameRows m.writer := by
  constructor
  · intro h
    obtain ⟨f, hf⟩ := Infinite.exists_notMem_finset
      (db.files.map FileRow.filename ++ m.writer.files.map FileRow.filename).toFinset
    simp only [List.mem_toFinset, List.mem_append, not_or] at hf
    -- removing a name that is not there commits the rest
    obtain ⟨m₂, hm₂, hrows⟩ := h [.deleteFile f] _ rfl
    cases hm₂
    exact ((Db.deleteFile_of_absent hf.1).symm.trans hrows).trans (Db.deleteFile_of_absent hf.2)
  · intro h ws m₁ hw
    cases ws with
    | nil =>
      cases hw
      exact ⟨m, rfl, .refl _⟩
    | cons w ws =>
      have hexec : (w.exec ⟨m.committed, db⟩).1 = (w.exec m).1 ∧ ((w.exec ⟨m.committed, db⟩).1.isOk = true →
          (w.exec ⟨m.committed, db⟩).2.SameRows (w.exec m).2) := exec_sameRows h w
      simp only [writeAll] at hw
      split_ifs at hw with hok
      obtain ⟨m₂, hm₂, hrows⟩ := writeAll_sameRows (hexec.2 hok) hw
      exact ⟨m₂, by simp only [writeAll, ← hexec.1, hok, if_true, hm₂], hrows.committed⟩

/-- A call that raises leaves no trace if and only if SQLite rolled it back and no older
transaction was open, or it had run nothing yet, or it had put back the very rows it deleted. -/
theorem leavesNoTrace_iff (h : RaisesAt m p fault k back) : LeavesNoTrace m p fault ↔
    if back then m.committed.SameRows m.writer else k = 0 ∨ Reinserted m.writer p k := by
  obtain ⟨e, db, hran, hcall⟩ := h.store
  rw [LeavesNoTrace, hcall, sameRows_iff_forall_writes]
  cases back with
  | true => exact Iff.rfl
  | false => exact p.sameRows_iff hran

/-- One file with one chunk, committed. -/
def oneFile : List Write := [.createPending ['f'] 1 1 [⟨['c'], 0, [['s']]⟩] 0, .commitFile ['f']]

/-- An overwrite of the file. -/
def overwrite : PendingCall := ⟨['f'], 2, 1, [⟨['d'], 0, [['s']]⟩], 5⟩

/-- The disk is full at the third statement, and SQLite brings the old version back. -/
theorem leavesNoTrace_iff_rolledBack : ∃ m, init.writeAll oneFile = some m ∧
    m.committed.files = [⟨['f'], 1, 1, .committed, 0⟩] ∧
      LeavesNoTrace m overwrite (some ⟨2, true⟩) := by
  have hrun : (init.writeAll oneFile).any (fun m =>
      m.committed.files == [⟨['f'], 1, 1, .committed, 0⟩] && m.writer.files == m.committed.files &&
        m.writer.chunks == m.committed.chunks && m.writer.replicas == m.committed.replicas &&
        (execAll (overwrite.statements.take 2) m.writer).1.isOk) = true := by
    decide +kernel
  simp only [Option.any_eq_true, Bool.and_eq_true, beq_iff_eq] at hrun
  obtain ⟨m, hm, ⟨⟨⟨hold, hfiles⟩, hchunks⟩, hreplicas⟩, hok⟩ := hrun
  cases hran : execAll (overwrite.statements.take 2) m.writer with
  | mk result db =>
    rw [hran] at hok
    cases result with
    | error e => cases hok
    | ok u => exact ⟨m, hm, hold, (leavesNoTrace_iff (.database ⟨2, true⟩ db rfl hran)).mpr
        ⟨.of_eq hfiles.symm, .of_eq hchunks.symm, .of_eq hreplicas.symm⟩⟩

/-- Whatever raises, a reservation that raises leaves no trace. -/
def FailsCleanly : Prop :=
  ∀ m p fault, (createPendingUnder m p fault).1.isOk = false → LeavesNoTrace m p fault

/-- A reservation that repeats a chunk id. -/
def repeatedId : PendingCall := ⟨['f'], 2, 2, [⟨['d'], 0, [['s']]⟩, ⟨['d'], 1, [['s']]⟩], 5⟩

/-- The repeated id raises. The next write, to a name that does not exist, commits the
removal of the old version and the rows inserted so far. -/
theorem not_failsCleanly : ¬ FailsCleanly := by
  intro h
  have hrun : (init.writeAll oneFile).any (fun m =>
      !(m.createPendingUnder repeatedId none).1.isOk &&
        ((m.createPendingUnder repeatedId none).2.writeAll [.deleteFile ['g']]).any (fun m₁ =>
          m₁.committed.files == [⟨['f'], 2, 2, .pending, 5⟩]) &&
        (m.writeAll [.deleteFile ['g']]).any (fun m₂ =>
          m₂.committed.files == [⟨['f'], 1, 1, .committed, 0⟩])) = true := by
    decide +kernel
  simp only [Option.any_eq_true, Bool.and_eq_true, Bool.not_eq_true', beq_iff_eq] at hrun
  obtain ⟨m, _, ⟨hraises, m₁, hm₁, hfiles₁⟩, m₂, hm₂, hfiles₂⟩ := hrun
  obtain ⟨m₂', hm₂', hrows⟩ := h m repeatedId none hraises _ m₁ hm₁
  obtain rfl := Option.some.inj (hm₂.symm.trans hm₂')
  have hmem := hrows.files.mem_iff.mpr (hfiles₂ ▸ List.mem_singleton_self _)
  rw [hfiles₁] at hmem
  exact absurd hmem (by decide)

end MetadataStore

end GfsCluster
