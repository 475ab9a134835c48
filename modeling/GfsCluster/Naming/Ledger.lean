import GfsCluster.Naming.Deletion

/-! Who deletes what. The ledger books every DeleteChunk request under the operation that
issues it, and every version whose rows an operation removed, with the tables as they were
before. What an operation has put on order it has sent or still has to send. -/

namespace GfsCluster

open StepSystem

/-- The operations that remove metadata: requests, and the removals of the cleanup loop. -/
inductive Deleter
  | create (k : ℕ)
  | delete (k : ℕ)
  | cleanup (turn : ℕ)
  deriving DecidableEq

/-- The pair is recorded for a chunk of the file. -/
def Db.Records (db : Db) (f : Filename) (p : Addr × ChunkId) : Prop :=
  ⟨p.2, p.1⟩ ∈ db.replicas ∧ ∃ row ∈ db.chunks, row.chunkId = p.2 ∧ row.filename = f

theorem Db.Records.file {db : Db} {f : Filename} {p : Addr × ChunkId} (h : db.Records f p) :
    ∃ F ∈ db.files, F.filename = f := by
  obtain ⟨_, row, hrow, _, rfl⟩ := h
  exact db.exists_file hrow

/-- What the second SELECT of `get_file` collects is what is recorded for the name. -/
theorem FileMeta.mem_selected_pairs {db : Db} {o : RowOrder} {row : FileRow} {f : Filename}
    {p : Addr × ChunkId} :
    p ∈ (FileMeta.ofRow row (collectChunks (selectChunks (o.view db) f))).pairs ↔ db.Records f p := by
  obtain ⟨addr, c⟩ := p
  simp only [FileMeta.mem_pairs, FileMeta.ofRow, collectChunks_selectChunks, List.mem_map,
    mem_chunkRowsOf, RowOrder.mem_chunks, Db.Records]
  constructor
  · rintro ⟨_, ⟨r, ⟨hr, hf⟩, rfl⟩, haddr, rfl⟩
    simp only [ChunkRow.meta, Db.mem_locations, RowOrder.mem_replicas] at haddr
    exact ⟨haddr, r, hr, rfl, hf⟩
  · rintro ⟨haddr, r, hr, rfl, hf⟩
    exact ⟨_, ⟨r, ⟨hr, hf⟩, rfl⟩, by simpa [ChunkRow.meta] using haddr, rfl⟩

/-- The lists of the deletion threads of CreateFile change by the step that starts one, and
by their own steps. -/
theorem NamingServer.purges_of_step {cfg : Settings} {n n' : NamingServer} {a : NamingAction}
    {out : List StorageRpc} (hs : n.step cfg a = some (n', out)) (hcrash : a ≠ .crash)
    (hpurge : ∀ i, a ≠ .purge i) (hcreate : ∀ k o, a ≠ .create k (.selectChunks o)) :
    n'.purges = n.purges := by
  cases case_of_step hs with
  | create k b n' h =>
    cases h with
    | selectChunks o _ _ => exact absurd rfl (hcreate k o)
    | _ => rfl
  | purge i _ _ _ _ => exact absurd rfl (hpurge i)
  | crash => exact absurd rfl hcrash
  | delete k b r h => exact (deleteStep_moves hs).2.2.2.2.2.2.2
  | cleanup b r h => exact (cleanupStep_moves hs).2.2.2.2.2.2.2
  | heal b r h => exact (healStep_frame hs).2.2.2.2.2.2
  | get k b n' h =>
    obtain ⟨hm, _⟩ := getStep_of_step hs
    exact (getStep_frame hm).2.2.2.2.2.2.2.2.1
  | _ => rfl

theorem NamingServer.deleteStep_pending {n n' : NamingServer} {k : ℕ} {b : DeleteStep}
    {out : List StorageRpc} (hs : n.deleteStep k b = some (n', out)) (hremove : b ≠ .remove)
    (hsend : ∀ i ok, b ≠ .send i ok) (j : ℕ) :
    (n'.deletes j).phase.pending = (n.deletes j).phase.pending := by
  by_cases hj : j = k
  · subst hj
    cases case_of_deleteStep hs with
    | remove _ _ => exact absurd rfl hremove
    | send i ok _ _ _ _ _ _ => exact absurd rfl (hsend i ok)
    | _ => simp [setDelete, DeletePhase.pending, *]
  · rw [deleteStep_other hs hj]

theorem NamingServer.cleanupStep_pending {cfg : Settings} {n n' : NamingServer} {b : CleanupStep}
    {out : List StorageRpc} (hs : n.cleanupStep cfg b = some (n', out)) (hremove : b ≠ .remove)
    (hsend : b ≠ .send) : n'.cleanup.pending = n.cleanup.pending := by
  cases case_of_cleanupStep hs with
  | finish | remove => exact absurd rfl hremove
  | sent | send => exact absurd rfl hsend
  | _ => simp [CleanupPhase.pending, *]

/-- `turn` counts the removals of the cleanup loop. -/
structure Ledger where
  naming : NamingServer
  turn : ℕ
  sent : List (Deleter × Addr × ChunkId)
  removed : List (Deleter × Filename × Db)

/-- The request has not started a deletion thread yet. -/
def CreatePhase.early : CreatePhase → Bool
  | .idle | .received | .checked | .oldRow _ => true
  | _ => false

namespace Ledger

def init : Ledger := ⟨.init, 0, [], []⟩

variable (L : Ledger)

/-- What the operation still has to send. -/
def pending : Deleter → List (Addr × ChunkId)
  | .create k => (L.naming.purges.filter (·.1 = k)).map Prod.snd
  | .delete k => (L.naming.deletes k).phase.pending
  | .cleanup i => if i = L.turn then L.naming.cleanup.pending else []

/-- The operation has sent the DeleteChunk request or still has to. -/
def Ordered (d : Deleter) (p : Addr × ChunkId) : Prop := (d, p) ∈ L.sent ∨ p ∈ L.pending d

/-- The DeleteChunk request that goes out in the step. -/
def issues : NamingAction → List (Deleter × Addr × ChunkId)
  | .purge i => L.naming.purges[i]?.toList.map fun e => (.create e.1, e.2)
  | .delete k (.send i _) => ((L.naming.deletes k).phase.pending[i]?).toList.map (.delete k, ·)
  | .cleanup .send => L.naming.cleanup.pending.head?.toList.map (.cleanup L.turn, ·)
  | _ => []

/-- What the step puts on order. -/
def orders : NamingAction → List (Deleter × Addr × ChunkId)
  | .create k (.selectChunks o) =>
    match (L.naming.creates k).phase with
    | .oldRow row => (FileMeta.ofRow row (collectChunks (selectChunks (o.view L.naming.db)
        (L.naming.creates k).req.filename))).pairs.map (.create k, ·)
    | _ => []
  | .delete k .remove =>
    match (L.naming.deletes k).phase with
    | .loaded fm => fm.pairs.map (.delete k, ·)
    | _ => []
  | .cleanup .remove =>
    match L.naming.cleanup with
    | .removing _ (fm :: _) => fm.pairs.map (.cleanup (L.turn + 1), ·)
    | _ => []
  | _ => []

/-- The operation that removes the rows of a file in the step to `n'`, and the file. -/
def remover (n' : NamingServer) : NamingAction → Option (Deleter × Filename)
  | .create k (.reserve _) =>
    if (n'.creates k).phase.reserved then some (.create k, (L.naming.creates k).req.filename)
    else none
  | .delete k .remove => some (.delete k, (L.naming.deletes k).filename)
  | .cleanup .remove =>
    match L.naming.cleanup with
    | .removing _ (fm :: _) => some (.cleanup (L.turn + 1), fm.filename)
    | _ => none
  | _ => none

/-- The version that the step to `n'` removes, if the file has one. -/
def removal (n' : NamingServer) (a : NamingAction) : List (Deleter × Filename × Db) :=
  match L.remover n' a with
  | some (d, f) => if L.naming.db.files.any (·.filename = f) then [(d, f, L.naming.db)] else []
  | none => []

def nextTurn : NamingAction → ℕ
  | .cleanup .remove =>
    match L.naming.cleanup with
    | .removing _ (_ :: _) => L.turn + 1
    | _ => L.turn
  | _ => L.turn

def step (cfg : Settings) (L : Ledger) (a : NamingAction) : Option Ledger :=
  (L.naming.step cfg a).map fun p =>
    ⟨p.1, L.nextTurn a, L.sent ++ L.issues a, L.removed ++ L.removal p.1 a⟩

variable {L} {cfg : Settings} {L' : Ledger} {a : NamingAction} {d : Deleter} {p : Addr × ChunkId}
  {f : Filename}

/-! ### One step -/

theorem fst_of_some {n n' : NamingServer} {out out' : List StorageRpc}
    (h : some (n, out) = some (n', out')) : n = n' :=
  congrArg Prod.fst (Option.some.inj h)

/-- A step of the ledger is one of the naming server, booked. -/
theorem step_eq_some : L.step cfg a = some L' ↔ ∃ out, L.naming.step cfg a = some (L'.naming, out) ∧
    L'.turn = L.nextTurn a ∧ L'.sent = L.sent ++ L.issues a ∧
    L'.removed = L.removed ++ L.removal L'.naming a := by
  simp only [step, Option.map_eq_some_iff, Prod.exists]
  constructor
  · rintro ⟨n', out, hs, rfl⟩
    exact ⟨out, hs, rfl, rfl, rfl⟩
  · rintro ⟨out, hs, hturn, hsent, hremoved⟩
    refine ⟨L'.naming, out, hs, ?_⟩
    rw [← hturn, ← hsent, ← hremoved]

@[simp] theorem mem_pending_create {k : ℕ} : p ∈ L.pending (.create k) ↔ (k, p) ∈ L.naming.purges := by
  simp [pending]

/-- A step that sends nothing and puts nothing on order, and keeps the lists. -/
theorem ordered_of_frame (hs : L.step cfg a = some L') (hissues : L.issues a = [])
    (horders : L.orders a = []) (hturn : L.nextTurn a = L.turn)
    (hpurges : L'.naming.purges = L.naming.purges)
    (hdeletes : ∀ k, (L'.naming.deletes k).phase.pending = (L.naming.deletes k).phase.pending)
    (hcleanup : L'.naming.cleanup.pending = L.naming.cleanup.pending) :
    L'.Ordered d p ↔ L.Ordered d p ∨ (d, p) ∈ L.orders a := by
  obtain ⟨_, _, hturn', hsent, _⟩ := step_eq_some.mp hs
  have hpending : L'.pending d = L.pending d := by
    cases d with
    | create k => rw [pending, pending, hpurges]
    | delete k => exact hdeletes k
    | cleanup i => rw [pending, pending, hturn', hturn, hcleanup]
  rw [Ordered, Ordered, hsent, hissues, horders, hpending]
  simp

theorem ordered_of_create {k : ℕ} {b : CreateStep} (hs : L.step cfg (.create k b) = some L') :
    L'.Ordered d p ↔ L.Ordered d p ∨ (d, p) ∈ L.orders (.create k b) := by
  obtain ⟨_, hstep, hturn, hsent, _⟩ := step_eq_some.mp hs
  have hn := hstep
  obtain ⟨hm, _⟩ := NamingServer.createStep_of_step hn
  obtain ⟨_, hdeletes, _, hcleanup, _⟩ := NamingServer.createStep_frame hm
  cases b with
  | selectChunks o =>
    simp only [NamingServer.createStep] at hm
    split at hm
    · rename_i row hp
      have hpurges : L'.naming.purges = L.naming.purges ++ (FileMeta.ofRow row (collectChunks
          (selectChunks (o.view L.naming.db) (L.naming.creates k).req.filename))).pairs.map (k, ·) := by
        rw [← Option.some.inj hm]
      simp only [Ordered, hsent, issues, List.append_nil, orders, hp]
      cases d with
      | create j =>
        simp only [mem_pending_create, hpurges, List.mem_append, List.mem_map, Prod.mk.injEq,
          Deleter.create.injEq, or_assoc]
      | delete j => simp [pending, hdeletes]
      | cleanup i => simp [pending, hturn, nextTurn, hcleanup]
    · cases hm
  | _ =>
    all_goals
      exact ordered_of_frame hs rfl rfl rfl
        (NamingServer.purges_of_step hstep (by simp) (by simp) (by simp))
        (fun j => by rw [hdeletes]) (by rw [hcleanup])

theorem ordered_of_purge {i : ℕ} (hs : L.step cfg (.purge i) = some L') :
    L'.Ordered d p ↔ L.Ordered d p := by
  obtain ⟨_, hn, hturn, hsent, _⟩ := step_eq_some.mp hs
  simp only [NamingServer.step] at hn
  split at hn
  · rename_i k addr c hi
    simp only [Option.some.injEq, Prod.mk.injEq] at hn
    obtain ⟨hn, _⟩ := hn
    simp only [Ordered, hsent, issues, hi, Option.toList_some, List.map_cons, List.map_nil,
      List.mem_append, List.mem_singleton, or_assoc]
    refine or_congr_right ?_
    cases d with
    | create j =>
      rw [mem_pending_create, mem_pending_create, Lists.mem_iff_eraseIdx hi, ← hn]
      simp
    | delete j => simp [pending, ← hn]
    | cleanup j => simp [pending, ← hn, hturn, nextTurn]
  · cases hn

/-- For the operations that the step is not of. -/
theorem ordered_of_other {X : Deleter} (hs : L.step cfg a = some L') (hd : d ≠ X)
    (hissues : ∀ e ∈ L.issues a, e.1 = X) (horders : ∀ e ∈ L.orders a, e.1 = X)
    (hpending : L'.pending d = L.pending d) :
    L'.Ordered d p ↔ L.Ordered d p ∨ (d, p) ∈ L.orders a := by
  obtain ⟨_, _, _, hsent, _⟩ := step_eq_some.mp hs
  have hnot : (d, p) ∉ L.orders a := fun h => hd (horders _ h)
  have hnot' : (d, p) ∉ L.issues a := fun h => hd (hissues _ h)
  simp only [Ordered, hsent, hpending, List.mem_append, hnot, hnot', or_false]

theorem ordered_of_delete {k : ℕ} {b : DeleteStep} (hs : L.step cfg (.delete k b) = some L') :
    L'.Ordered d p ↔ L.Ordered d p ∨ (d, p) ∈ L.orders (.delete k b) := by
  obtain ⟨_, hn, hturn, hsent, _⟩ := step_eq_some.mp hs
  simp only [NamingServer.step] at hn
  obtain ⟨_, _, _, _, _, _, hcleanup, hpurges⟩ := NamingServer.deleteStep_moves hn
  by_cases hd : d = .delete k
  · subst hd
    cases b with
    | remove =>
      simp only [NamingServer.deleteStep] at hn
      split at hn
      · rename_i fm hp
        have hp' : (L'.naming.deletes k).phase = .sending fm.pairs 0 := by
          rw [← fst_of_some hn]
          simp [NamingServer.setDelete]
        simp [Ordered, hsent, issues, orders, pending, DeletePhase.pending, hp, hp']
      · cases hn
    | send i ok =>
      simp only [NamingServer.deleteStep] at hn
      split at hn
      · rename_i ps failures hp
        split at hn
        · rename_i addr c hi
          have hp' : ∃ failures', (L'.naming.deletes k).phase = .sending (ps.eraseIdx i) failures' := by
            rw [← fst_of_some hn]
            exact ⟨_, by simp [NamingServer.setDelete]; rfl⟩
          obtain ⟨failures', hp'⟩ := hp'
          simp only [Ordered, hsent, issues, orders, pending, DeletePhase.pending, hp, hp', hi,
            Option.toList_some, List.map_cons, List.map_nil, List.mem_append, List.mem_singleton,
            Prod.mk.injEq, true_and, List.not_mem_nil, or_false, or_assoc,
            Lists.mem_iff_eraseIdx hi]
        · cases hn
      · cases hn
    | _ =>
      all_goals
        exact ordered_of_frame hs rfl rfl rfl hpurges
          (NamingServer.deleteStep_pending hn (by simp) (by simp)) (by rw [hcleanup])
  · refine ordered_of_other hs hd ?_ ?_ ?_
    · intro e he
      cases b with
      | send i ok =>
        obtain ⟨_, _, rfl⟩ := List.mem_map.mp he
        rfl
      | _ => all_goals cases he
    · intro e he
      cases b with
      | remove =>
        simp only [orders] at he
        split at he
        · obtain ⟨_, _, rfl⟩ := List.mem_map.mp he
          rfl
        · cases he
      | _ => all_goals cases he
    · cases d with
      | create j => rw [pending, pending, hpurges]
      | delete j => rw [pending, pending, NamingServer.deleteStep_other hn fun h => hd (h ▸ rfl)]
      | cleanup i => rw [pending, pending, hcleanup, hturn]; rfl

theorem ordered_of_cleanup {b : CleanupStep} (hs : L.step cfg (.cleanup b) = some L') :
    L'.Ordered d p ↔ L.Ordered d p ∨ (d, p) ∈ L.orders (.cleanup b) := by
  obtain ⟨_, hn, hturn, hsent, _⟩ := step_eq_some.mp hs
  simp only [NamingServer.step] at hn
  obtain ⟨_, _, _, _, _, _, hdeletes, hpurges⟩ := NamingServer.cleanupStep_moves hn
  cases b with
  | remove =>
    simp only [NamingServer.cleanupStep] at hn
    split at hn
    · rename_i cutoff hp
      have hp' : L'.naming.cleanup = .idle := by
        rw [← fst_of_some hn]
      refine ordered_of_frame hs rfl ?_ ?_ hpurges (fun j => by rw [hdeletes]) ?_
      · simp [orders, hp]
      · simp [nextTurn, hp]
      · simp [hp, hp', CleanupPhase.pending]
    · rename_i cutoff fm stale hp
      have hp' : L'.naming.cleanup = .sending cutoff fm.pairs stale := by
        rw [← fst_of_some hn]
      have hturn' : L'.turn = L.turn + 1 := by simp [hturn, nextTurn, hp]
      simp only [Ordered, hsent, issues, List.append_nil, orders, hp]
      cases d with
      | create j => simp [hpurges]
      | delete j => simp [pending, hdeletes]
      | cleanup i =>
        simp only [pending, hturn', hp, hp', CleanupPhase.pending]
        by_cases hi : i = L.turn + 1
        · subst hi
          simp
        · simp [hi, Ne.symm hi]
    · cases hn
  | send =>
    simp only [NamingServer.cleanupStep] at hn
    split at hn
    · rename_i cutoff stale hp
      have hp' : L'.naming.cleanup = .removing cutoff stale := by
        rw [← fst_of_some hn]
      refine ordered_of_frame hs ?_ rfl rfl hpurges (fun j => by rw [hdeletes]) ?_
      · simp [issues, hp, CleanupPhase.pending]
      · simp [hp, hp', CleanupPhase.pending]
    · rename_i cutoff addr c ps stale hp
      have hp' : L'.naming.cleanup = .sending cutoff ps stale := by
        rw [← fst_of_some hn]
      have hturn' : L'.turn = L.turn := hturn
      simp only [Ordered, hsent, issues, orders, hp, CleanupPhase.pending, List.head?_cons,
        Option.toList_some, List.map_cons, List.map_nil, List.mem_append, List.mem_singleton,
        List.not_mem_nil, or_false, or_assoc]
      refine or_congr_right ?_
      cases d with
      | create j => simp [hpurges]
      | delete j => simp [pending, hdeletes]
      | cleanup i =>
        simp only [pending, hturn', hp, hp', CleanupPhase.pending]
        by_cases hi : i = L.turn
        · subst hi
          simp
        · simp [hi]
    · cases hn
  | _ =>
    all_goals
      exact ordered_of_frame hs rfl rfl rfl hpurges (fun j => by rw [hdeletes])
        (NamingServer.cleanupStep_pending hn (by simp) (by simp))

/-- Every step of the lists, but for a restart. -/
theorem ordered_of_step (hs : L.step cfg a = some L') (hcrash : a ≠ .crash) :
    L'.Ordered d p ↔ L.Ordered d p ∨ (d, p) ∈ L.orders a := by
  cases a with
  | create k b => exact ordered_of_create hs
  | purge i => simpa [orders] using ordered_of_purge hs
  | delete k b => exact ordered_of_delete hs
  | cleanup b => exact ordered_of_cleanup hs
  | crash => exact absurd rfl hcrash
  | _ =>
    all_goals
      obtain ⟨_, hn, _⟩ := step_eq_some.mp hs
      have hframe := (NamingServer.step_frame hn).resolve_left hcrash
      simp only [reduceCtorEq, exists_false, false_or] at hframe
      exact ordered_of_frame hs rfl rfl rfl
        (NamingServer.purges_of_step hn hcrash (by simp) (by simp)) (fun j => by rw [hframe.1])
        (by rw [hframe.2.1])

/-! ### The course of a CreateFile request -/

/-- A step of a CreateFile request, by what becomes of the request and of what it has put on
order. -/
inductive CreateTurn (cfg : Settings) (k : ℕ) (L : Ledger) (b : CreateStep) (L' : Ledger) : Prop
  | early (hb : ∀ id, b ≠ .place id) (hphase : (L.naming.creates k).phase.early = true)
      (hphase' : (L'.naming.creates k).phase.early = true ∨
        ∃ msg, (L'.naming.creates k).phase = .replied ⟨false, msg, []⟩)
      (hstore : L'.naming.store = L.naming.store)
      (hord : ∀ p, L'.Ordered (.create k) p ↔ L.Ordered (.create k) p)
  | start (hb : ∀ id, b ≠ .place id) (hphase : (L.naming.creates k).phase.early = true)
      (hphase' : (L'.naming.creates k).phase = .placing [])
      (hstore : L'.naming.store = L.naming.store)
      (hreq : (L'.naming.creates k).req = (L.naming.creates k).req)
      (hord : ∀ p, L'.Ordered (.create k) p ↔ L.Ordered (.create k) p ∨
        L.naming.db.Records (L.naming.creates k).req.filename p)
  | place (chunks chunks' : List ChunkMeta) (id : ChunkId) (hb : b = .place id)
      (hlive : cfg.replication ≤ (L.naming.registry.liveServers L.naming.now).length)
      (hphase : (L.naming.creates k).phase = .placing chunks)
      (hphase' : (L'.naming.creates k).phase = .placing chunks')
      (hstore : L'.naming.store = L.naming.store)
      (hreq : (L'.naming.creates k).req = (L.naming.creates k).req)
      (hord : ∀ p, L'.Ordered (.create k) p ↔ L.Ordered (.create k) p)
  | short (chunks : List ChunkMeta) (msg : String) (id : ChunkId) (hb : b = .place id)
      (hlive : (L.naming.registry.liveServers L.naming.now).length < cfg.replication)
      (hphase : (L.naming.creates k).phase = .placing chunks)
      (hphase' : (L'.naming.creates k).phase = .replied ⟨false, msg, []⟩)
      (hstore : L'.naming.store = L.naming.store)
      (hreq : (L'.naming.creates k).req = (L.naming.creates k).req)
      (hord : ∀ p, L'.Ordered (.create k) p ↔ L.Ordered (.create k) p)
  | finish (chunks : List ChunkMeta) (now : Seconds) (hb : b = .reserve now)
      (hphase : (L.naming.creates k).phase = .placing chunks)
      (hphase' : (L'.naming.creates k).phase.reserved = true ∨ (L'.naming.creates k).phase = .failed)
      (hreq : (L'.naming.creates k).req = (L.naming.creates k).req)
      (hord : ∀ p, L'.Ordered (.create k) p ↔ L.Ordered (.create k) p)

theorem createTurn_of_step {k : ℕ} {b : CreateStep} (hs : L.step cfg (.create k b) = some L') :
    CreateTurn cfg k L b L' := by
  obtain ⟨_, hn, _⟩ := step_eq_some.mp hs
  simp only [NamingServer.step, Option.map_eq_some_iff, Prod.mk.injEq] at hn
  obtain ⟨m, hm, hm', _⟩ := hn
  have hord : ∀ p, L'.Ordered (.create k) p ↔ L.Ordered (.create k) p ∨
      (.create k, p) ∈ L.orders (.create k b) := fun p => ordered_of_create hs
  cases b with
  | receive req =>
    simp only [NamingServer.createStep] at hm
    split at hm
    · rename_i hp
      cases hm
      exact .early (by simp) (by rw [hp]; rfl) (.inl (by simp [← hm', CreatePhase.early])) (by rw [← hm'])
        (by simpa [orders] using hord)
    · cases hm
  | checkLive =>
    simp only [NamingServer.createStep] at hm
    split at hm
    · rename_i hp
      have hord' : ∀ p, L'.Ordered (.create k) p ↔ L.Ordered (.create k) p := by
        simpa [orders] using hord
      split_ifs at hm <;> cases hm
      · exact .early (by simp) (by rw [hp]; rfl) (.inr ⟨_, by simp [← hm', NamingServer.setCreate]; rfl⟩)
          (by rw [← hm']; rfl) hord'
      · exact .early (by simp) (by rw [hp]; rfl)
          (.inl (by simp [← hm', NamingServer.setCreate, CreatePhase.early]))
          (by rw [← hm']; rfl) hord'
    · cases hm
  | selectFile o =>
    simp only [NamingServer.createStep] at hm
    split at hm
    · rename_i hp
      have hord' : ∀ p, L'.Ordered (.create k) p ↔ L.Ordered (.create k) p := by
        simpa [orders] using hord
      split at hm <;> cases hm
      · rename_i hnone
        refine .start (by simp) (by rw [hp]; rfl) (by simp [← hm', NamingServer.setCreate])
          (by rw [← hm']; rfl)
          (by simp [← hm', NamingServer.setCreate]) fun p => ?_
        rw [hord', iff_self_or]
        intro hrec
        obtain ⟨F, hF, hname⟩ := hrec.file
        rw [selectFile_view] at hnone
        exact absurd hname (selectFile_eq_none.mp hnone F hF)
      · exact .early (by simp) (by rw [hp]; rfl)
          (.inl (by simp [← hm', NamingServer.setCreate, CreatePhase.early]))
          (by rw [← hm']; rfl) hord'
    · cases hm
  | selectChunks o =>
    simp only [NamingServer.createStep] at hm
    split at hm
    · rename_i row hp
      cases hm
      refine .start (by simp) (by rw [hp]; rfl) (by simp [← hm', NamingServer.setCreate]) (by rw [← hm']; rfl)
        (by simp [← hm', NamingServer.setCreate]) fun p => ?_
      rw [hord]
      simp only [orders, hp, List.mem_map, Prod.mk.injEq, true_and, exists_eq_right,
        FileMeta.mem_selected_pairs]
    · cases hm
  | place id =>
    simp only [NamingServer.createStep] at hm
    split at hm
    · rename_i chunks hp
      have hord' : ∀ p, L'.Ordered (.create k) p ↔ L.Ordered (.create k) p := by
        simpa [orders] using hord
      have hpick := L.naming.registry.length_pick L.naming.now cfg.replication
      split_ifs at hm with hlt hshort hissued <;> cases hm
      · exact .short chunks _ id rfl (by omega) hp (by simp [← hm', NamingServer.setCreate]; rfl)
          (by rw [← hm']; rfl) (by simp [← hm', NamingServer.setCreate]) hord'
      · exact .place chunks _ id rfl (by omega) hp (by simp [← hm', NamingServer.setCreate]; rfl)
          (by rw [← hm']; rfl) (by simp [← hm', NamingServer.setCreate]) hord'
    · cases hm
  | reserve now =>
    simp only [NamingServer.createStep] at hm
    split at hm
    · rename_i chunks hp
      have hord' : ∀ p, L'.Ordered (.create k) p ↔ L.Ordered (.create k) p := by
        simpa [orders] using hord
      split_ifs at hm with hlt
      split at hm <;> cases hm
      · exact .finish chunks now rfl hp (.inl (by simp [← hm', NamingServer.setCreate, CreatePhase.reserved]))
          (by simp [← hm', NamingServer.setCreate]) hord'
      · exact .finish chunks now rfl hp (.inr (by simp [← hm', NamingServer.setCreate]))
          (by simp [← hm', NamingServer.setCreate]) hord'
    · cases hm

end Ledger

end GfsCluster
