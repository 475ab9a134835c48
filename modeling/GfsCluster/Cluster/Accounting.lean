import GfsCluster.Cluster.Elsewhere
import GfsCluster.Cluster.Sessions
import GfsCluster.Naming.Exactness

/-! Disk accounting. As long as every request to delete reaches its server, each chunk file
is recorded where it is, or its deletion is due. Where operations follow one another and
wait for their deletions, nothing is due between them, and no server has more than what is
recorded for it. -/

namespace GfsCluster

open StepSystem

namespace NamingServer

variable {cfg : Settings} {n n' : NamingServer} {a : NamingAction} {out : List StorageRpc}
  {f : Filename} {p : Addr × ChunkId} {c : ChunkId} {addr : Addr}

/-! ### What is due -/

/-- A DeleteChunk request for the chunk file still has to be sent. -/
def Due (n : NamingServer) (p : Addr × ChunkId) : Prop :=
  (∃ k, (k, p) ∈ n.purges) ∨ (∃ j, p ∈ (n.deletes j).phase.pending) ∨ p ∈ n.cleanup.pending

/-- An empty ledger. -/
def ledger (n : NamingServer) : Ledger := ⟨n, 0, [], []⟩

/-- A step, booked in an empty ledger. -/
theorem ledger_of_step (hs : n.step cfg a = some (n', out)) : n.ledger.step cfg a =
    some ⟨n', n.ledger.nextTurn a, n.ledger.issues a, n.ledger.removal n' a⟩ :=
  Ledger.step_eq_some.mpr ⟨out, hs, rfl, rfl, rfl⟩

theorem due_of_pending {L : Ledger} {d : Deleter} (h : p ∈ L.pending d) : L.naming.Due p := by
  cases d with
  | create k => exact .inl ⟨k, Ledger.mem_pending_create.mp h⟩
  | delete j => exact .inr (.inl ⟨j, h⟩)
  | cleanup i =>
    simp only [Ledger.pending] at h
    split_ifs at h
    · exact .inr (.inr h)
    · cases h

theorem Due.ordered (h : n.Due p) : ∃ d, n.ledger.Ordered d p := by
  rcases h with ⟨k, h⟩ | ⟨j, h⟩ | h
  · exact ⟨.create k, .inr (Ledger.mem_pending_create.mpr h)⟩
  · exact ⟨.delete j, .inr h⟩
  · exact ⟨.cleanup 0, .inr h⟩

theorem sent_of_issues {L : Ledger} {d : Deleter} (hs : L.naming.step cfg a = some (n', out))
    (h : (d, p) ∈ L.issues a) : .deleteChunk p.1 p.2 ∈ out := by
  cases case_of_step hs with
  | purge i k addr c hi =>
    simp only [Ledger.issues, hi, Option.toList_some, List.map_cons, List.map_nil,
      List.mem_singleton, Prod.mk.injEq] at h
    obtain ⟨_, rfl⟩ := h
    simp
  | delete k b r hcase =>
    cases hcase with
    | send i ok ps failures addr c hp hi =>
      simp only [Ledger.issues, hp, DeletePhase.pending, hi, Option.toList_some, List.map_cons,
        List.map_nil, List.mem_singleton, Prod.mk.injEq] at h
      obtain ⟨_, rfl⟩ := h
      simp
    | _ => cases h
  | cleanup b r hcase =>
    cases hcase with
    | sent cutoff stale hp => simp [Ledger.issues, hp, CleanupPhase.pending] at h
    | send cutoff addr c ps stale hp =>
      simp only [Ledger.issues, hp, CleanupPhase.pending, List.head?_cons, Option.toList_some,
        List.map_cons, List.map_nil, List.mem_singleton, Prod.mk.injEq] at h
      obtain ⟨_, rfl⟩ := h
      simp
    | _ => cases h
  | _ => cases h

/-- What is due, or put on order in the step, stays due until the request goes out. -/
theorem due_of_step (hs : n.step cfg a = some (n', out)) (hcrash : a ≠ .crash)
    (h : n.Due p ∨ ∃ d, (d, p) ∈ n.ledger.orders a) : n'.Due p ∨ .deleteChunk p.1 p.2 ∈ out := by
  obtain ⟨d, hd⟩ : ∃ d, n.ledger.Ordered d p ∨ (d, p) ∈ n.ledger.orders a := by
    rcases h with h | ⟨d, h⟩
    · obtain ⟨d, hd⟩ := h.ordered
      exact ⟨d, .inl hd⟩
    · exact ⟨d, .inr h⟩
  rcases (Ledger.ordered_of_step (ledger_of_step hs) hcrash).mpr hd with hsent | hpending
  · exact .inr (sent_of_issues hs hsent)
  · exact .inl (due_of_pending hpending)

/-! ### Rows that go and rows that come -/

/-- A replica row stays, unless the rows of its file go. -/
theorem replica_or_taken (hc : Consistent cfg n) (hs : n.step cfg a = some (n', out))
    (hheal : ∀ b, a ≠ .heal b) (hr : ⟨c, addr⟩ ∈ n.db.replicas) : ⟨c, addr⟩ ∈ n'.db.replicas ∨
      ∃ f, n.db.Records f (addr, c) ∧ (n.removes a = some f ∨
        ∃ k chunks, (n.creates k).phase = .placing chunks ∧ (n.creates k).req.filename = f) := by
  have hdelete : ∀ f, ⟨c, addr⟩ ∈ (n.db.deleteFile f).replicas ∨ n.db.Records f (addr, c) := by
    intro f
    rw [Db.mem_deleteFile_replicas]
    by_cases hf : ∃ row ∈ n.db.chunks, row.chunkId = c ∧ row.filename = f
    · exact .inr ⟨hr, hf⟩
    · exact .inl ⟨hr, fun row hrow hid hname => hf ⟨row, hrow, hid, hname⟩⟩
  cases db_of_step hc hs with
  | keep hdb => exact .inl (by rwa [hdb])
  | commit f _ hdb => exact .inl (by rwa [hdb])
  | record _ _ _ _ _ _ _ _ _ _ hreplicas =>
    exact .inl (by rw [hreplicas]; exact List.mem_append_left _ hr)
  | drop _ _ _ _ _ ha => exact absurd ha (hheal _)
  | remove f hdb _ hf =>
    rw [hdb]
    exact (hdelete f).imp_right fun h => ⟨f, h, .inl hf⟩
  | reserve k t chunks _ hphase _ _ _ hreplicas =>
    rw [hreplicas, List.mem_append]
    exact (hdelete _).imp .inl fun h => ⟨_, h, .inr ⟨k, chunks, hphase, rfl⟩⟩

/-- What is recorded for a file was, unless the step reserves it. -/
theorem records_before_step (hc : Consistent cfg n) (hs : n.step cfg a = some (n', out))
    (hheal : ∀ b, a ≠ .heal b) (h : n'.db.Records f p) : n.db.Records f p ∨
      ∃ k t, a = .create k (.reserve t) ∧ (n.creates k).req.filename = f := by
  cases db_of_step hc hs with
  | keep hdb => exact .inl (by rwa [hdb] at h)
  | commit g _ hdb => exact .inl (by rwa [hdb] at h)
  | record _ _ _ _ _ ha => exact absurd ha (hheal _)
  | drop _ _ _ _ _ ha => exact absurd ha (hheal _)
  | remove g hdb =>
    rw [hdb] at h
    obtain ⟨hrep, row, hrow, hid, hname⟩ := h
    exact .inl ⟨(Db.mem_deleteFile_replicas.mp hrep).1, row, (Db.mem_deleteFile_chunks.mp hrow).1,
      hid, hname⟩
  | reserve k t chunks ha _ _ _ hchunks hreplicas =>
    by_cases hf : (n.creates k).req.filename = f
    · exact .inr ⟨k, t, ha, hf⟩
    · left
      rwa [Db.records_of_append hchunks hreplicas (Ne.symm hf), Db.records_deleteFile (Ne.symm hf)] at h

/-- No other operation than CreateFile `k` holds what it has read of a file. -/
def Sole (k : ℕ) (n : NamingServer) : Prop :=
  (∀ j ≠ k, ∀ chunks, (n.creates j).phase ≠ .placing chunks) ∧
    (∀ j fm, (n.deletes j).phase ≠ .loaded fm) ∧ n.cleanup.stale = []

/-- Files are reserved by one operation at a time, nothing is healed, and the server does
not die. -/
def Careful (n : NamingServer) : NamingAction → Prop
  | .create k (.reserve _) => Sole k n
  | .heal _ | .crash => False
  | _ => True

theorem Careful.not_heal (h : Careful n a) : (∀ b, a ≠ .heal b) ∧ a ≠ .crash := by
  constructor
  · rintro b rfl
    exact h
  · rintro rfl
    exact h

end NamingServer

namespace Cluster

variable {cfg : Settings} {s s' t : Cluster} {a : ClusterAction} {b : NamingAction}
  {out : List StorageRpc} {k : ℕ} {f : Filename} {p : Addr × ChunkId} {c : ChunkId} {addr : Addr}
  {ok : Cluster → ClusterAction → Prop}

/-! ### One step -/

/-- A DeleteChunk request for the chunk file is under way or still has to be sent. -/
def Due (s : Cluster) (p : Addr × ChunkId) : Prop :=
  s.naming.Due p ∨ .deleteChunk p.1 p.2 ∈ s.net

/-- No request to delete is lost, and a chunk is stored where it is recorded, while no file
is about to be reserved. There is no healing and no startup scrub. -/
def Careful (s : Cluster) : ClusterAction → Prop
  | .naming b => NamingServer.Careful s.naming b
  | .storeItem i => ∀ k addr batch j, s.net[i]? = some (.storeChunks k addr batch j) →
      (∀ x ∈ batch, ⟨x.1, addr⟩ ∈ s.naming.db.replicas) ∧
        ∀ k chunks, (s.naming.creates k).phase ≠ .placing chunks
  | .drop i => ∀ addr c, s.net[i]? ≠ some (.deleteChunk addr c)
  | .copyFetch _ | .copyStore _ => False
  | .scrubQuery _ _ | .scrubList _ | .scrubRemove _ _ | .scrubStop _ => False
  | _ => True

theorem Careful.drives (h : Careful s a) (hd : s.Drives a b) : NamingServer.Careful s.naming b := by
  cases hd with
  | free _ _ => exact h
  | create _ _ _ _ => trivial
  | commit _ _ => trivial

/-- What the naming server sends goes under way. -/
theorem net_of_drives (hs : s.step cfg a = some s') (hd : s.Drives a b)
    (hn : s.naming.step cfg b = some (s'.naming, out)) {r : StorageRpc} (hr : r ∈ out) :
    r.message ∈ s'.net := by
  cases hd with
  | free _ hfree =>
    simp only [step, if_pos hfree, hn, Option.map_some, Option.some.injEq] at hs
    rw [← hs]
    exact List.mem_append_right _ (List.mem_map_of_mem hr)
  | create k f data _ =>
    obtain ⟨_, rfl⟩ := NamingServer.createStep_of_step hn
    cases hr
  | commit k _ =>
    simp only [NamingServer.step, Option.some.injEq, Prod.mk.injEq] at hn
    obtain ⟨_, rfl⟩ := hn
    cases hr

theorem due_of_drives (hs : s.step cfg a = some s') (hd : s.Drives a b) (hcrash : b ≠ .crash)
    (hn : s.naming.step cfg b = some (s'.naming, out))
    (h : s.naming.Due p ∨ ∃ d, (d, p) ∈ s.naming.ledger.orders b) : s'.Due p := by
  rcases NamingServer.due_of_step hn hcrash h with hdue | hsent
  · exact .inl hdue
  · exact .inr (net_of_drives hs hd hn hsent)

/-- A request to delete stays under way until it is executed. -/
theorem deleteChunk_of_step (hs : s.step cfg a = some s') (ha : Careful s a)
    (hm : .deleteChunk addr c ∈ s.net) : .deleteChunk addr c ∈ s'.net ∨ s'.file addr c = none := by
  cases netChange_of_step hs with
  | keep h' => exact .inl (h' ▸ hm)
  | rpcs _ _ _ _ h' | sent _ _ _ _ _ _ _ _ _ h' =>
    all_goals exact .inl (h' ▸ List.mem_append_left _ hm)
  | stored i k addr' batch j _ _ hi _ _ h' =>
    exact .inl (h' ▸ (Lists.eq_or_mem_set _ hm hi).resolve_left (by simp))
  | fetched i ticket addr' c' source _ hi _ h' =>
    exact .inl (h' ▸ (Lists.eq_or_mem_set _ hm hi).resolve_left (by simp))
  | deleted i addr' c' hi hf h' =>
    rcases (Lists.mem_iff_eraseIdx hi).mp hm with he | hm
    · cases he
      exact .inr hf
    · exact .inl (h' ▸ hm)
  | dropped i m hact hi h' =>
    subst hact
    exact .inl (h' ▸ ((Lists.mem_iff_eraseIdx hi).mp hm).resolve_left fun he =>
      ha addr c (he ▸ hi))
  | answered i m hi hne h' =>
    exact .inl (h' ▸ ((Lists.mem_iff_eraseIdx hi).mp hm).resolve_left fun he => hne addr c he.symm)

theorem due_of_step (hs : s.step cfg a = some s') (ha : Careful s a) (h : s.Due p) :
    s'.Due p ∨ s'.file p.1 p.2 = none := by
  rcases h with h | h
  · left
    rcases naming_of_step hs with he | ⟨b, out, hd, hn⟩
    · exact .inl (he ▸ h)
    · exact due_of_drives hs hd (ha.drives hd).not_heal.2 hn (.inl h)
  · exact (deleteChunk_of_step hs ha h).imp_left .inr

/-- What is stored was stored, or has just been where it is recorded. -/
theorem stored_before (ha : Careful s a) (hs : s.step cfg a = some s') (hst : s'.Stored addr c) :
    s.Stored addr c ∨ s'.naming = s.naming ∧ ⟨c, addr⟩ ∈ s.naming.db.replicas ∧
      ∀ k chunks, (s.naming.creates k).phase ≠ .placing chunks := by
  cases file_of_step hs addr c with
  | keep h' =>
    left
    rwa [Stored, h'] at hst
  | store i k j batch b hact hi hj _ =>
    subst hact
    obtain ⟨hrec, hno⟩ := ha k addr batch j hi
    refine .inr ⟨?_, hrec _ (List.mem_of_getElem? hj), hno⟩
    rcases naming_of_step hs with he | ⟨_, _, hd, _⟩
    · exact he
    · cases hd
  | copy _ _ _ hact => subst hact; exact absurd ha id
  | delete _ _ _ h' => exact absurd h' hst
  | scrub _ hact => subst hact; exact absurd ha id

/-! ### The invariant -/

/-- Every chunk file is recorded or its deletion is due, and so that it stays like this, what
an operation holds covers what is recorded for the file that it is going to remove. -/
structure Accounted (s : Cluster) : Prop where
  stored : ∀ p : Addr × ChunkId, s.Stored p.1 p.2 → ⟨p.2, p.1⟩ ∈ s.naming.db.replicas ∨ s.Due p
  creates : ∀ k chunks, (s.naming.creates k).phase = .placing chunks →
    ∀ p, s.naming.db.Records (s.naming.creates k).req.filename p → s.Stored p.1 p.2 → s.Due p
  deletes : ∀ k fm, (s.naming.deletes k).phase = .loaded fm →
    ∀ p, s.naming.db.Records (s.naming.deletes k).filename p → p ∈ fm.pairs
  stale : ∀ fm ∈ s.naming.cleanup.stale, ∀ p, s.naming.db.Records fm.filename p → p ∈ fm.pairs

namespace Accounted

theorem init : Accounted Cluster.init where
  stored p h := absurd rfl h
  creates k chunks h := by cases h
  deletes k fm h := by cases h
  stale fm h := by cases h

theorem ordered_of_removes (h : Accounted s) {n' : NamingServer}
    (hn : s.naming.step cfg b = some (n', out)) (hf : s.naming.removes b = some f)
    (hp : s.naming.db.Records f p) : ∃ d, (d, p) ∈ s.naming.ledger.orders b := by
  cases b with
  | delete k b =>
    cases b with
    | remove =>
      cases hf
      cases NamingServer.deleteCase_of_step hn with
      | remove fm hphase =>
        refine ⟨.delete k, ?_⟩
        simp only [Ledger.orders, NamingServer.ledger, hphase]
        exact List.mem_map_of_mem (h.deletes k fm hphase p hp)
    | _ => all_goals cases hf
  | cleanup b =>
    cases b with
    | remove =>
      simp only [NamingServer.removes] at hf
      split at hf
      · rename_i cutoff fm stale hphase
        cases hf
        refine ⟨.cleanup 1, ?_⟩
        simp only [Ledger.orders, NamingServer.ledger, hphase]
        exact List.mem_map_of_mem (h.stale fm (by simp [hphase, CleanupPhase.stale]) p hp)
      · cases hf
    | _ => all_goals cases hf
  | _ => all_goals cases hf

theorem stored_of_step (h : Accounted s) (hr : Reachable cfg ok s) (ha : Careful s a)
    (hs : s.step cfg a = some s') (hst : s'.Stored p.1 p.2) :
    ⟨p.2, p.1⟩ ∈ s'.naming.db.replicas ∨ s'.Due p := by
  rcases stored_before ha hs hst with hst₀ | ⟨he, hrec, _⟩
  · have hdue : s.Due p → s'.Due p := fun hd => (due_of_step hs ha hd).resolve_right hst
    rcases h.stored p hst₀ with hrec | hd
    · rcases naming_of_step hs with he | ⟨b, out, hd, hn⟩
      · exact .inl (he ▸ hrec)
      · have hcareful := ha.drives hd
        rcases NamingServer.replica_or_taken hr.consistent hn hcareful.not_heal.1 hrec with
          hrec | ⟨f, hrec, hf | ⟨k, chunks, hphase, rfl⟩⟩
        · exact .inl hrec
        · exact .inr (due_of_drives hs hd hcareful.not_heal.2 hn
            (.inr (h.ordered_of_removes hn hf hrec)))
        · exact .inr (hdue (h.creates k chunks hphase p hrec hst₀))
    · exact .inr (hdue hd)
  · exact .inl (he ▸ hrec)

/-- A request that goes on to place its chunks has given order to delete what is recorded. -/
theorem creates_of_step (h : Accounted s) (hr : Reachable cfg ok s) (ha : Careful s a)
    (hs : s.step cfg a = some s') {chunks : List ChunkMeta}
    (hphase : (s'.naming.creates k).phase = .placing chunks)
    (hrec : s'.naming.db.Records (s'.naming.creates k).req.filename p) (hst : s'.Stored p.1 p.2) :
    s'.Due p := by
  rcases stored_before ha hs hst with hst₀ | ⟨he, _, hno⟩
  · have hdue : s.Due p → s'.Due p := fun hd => (due_of_step hs ha hd).resolve_right hst
    rcases naming_of_step hs with he | ⟨b, out, hd, hn⟩
    · rw [he] at hphase hrec
      exact hdue (h.creates k chunks hphase p hrec hst₀)
    · have hcareful := ha.drives hd
      by_cases hown : ∃ b', b = .create k b'
      · obtain ⟨b', rfl⟩ := hown
        cases Ledger.createTurn_of_step (NamingServer.ledger_of_step hn) with
        | early _ _ hphase' =>
          rw [hphase] at hphase'
          rcases hphase' with he | ⟨_, he⟩ <;> cases he
        | start _ _ _ hstore hreq hord =>
          rw [NamingServer.db, hstore, hreq] at hrec
          rcases (hord p).mpr (.inr hrec) with hsent | hpending
          · cases hsent
          · exact .inl (NamingServer.due_of_pending hpending)
        | place chunks _ _ _ _ hphase₀ _ hstore hreq =>
          rw [NamingServer.db, hstore, hreq] at hrec
          exact hdue (h.creates k chunks hphase₀ p hrec hst₀)
        | short _ _ _ _ _ _ hphase' => rw [hphase] at hphase'; cases hphase'
        | finish _ _ _ _ hphase' =>
          rw [hphase] at hphase'
          rcases hphase' with he | he <;> cases he
      · rw [(NamingServer.requests_of_step hn hcareful.not_heal.2 k).1.resolve_left hown]
          at hphase hrec
        rcases NamingServer.records_before_step hr.consistent hn hcareful.not_heal.1 hrec with
          hrec | ⟨j, t, rfl, _⟩
        · exact hdue (h.creates k chunks hphase p hrec hst₀)
        · by_cases hj : k = j
          · exact absurd ⟨_, by rw [hj]⟩ hown
          · exact absurd hphase (hcareful.1 k hj chunks)
  · rw [he] at hphase
    exact absurd hphase (hno k chunks)

theorem deletes_of_step (h : Accounted s) (hr : Reachable cfg ok s) (ha : Careful s a)
    (hs : s.step cfg a = some s') {fm : FileMeta} (hphase : (s'.naming.deletes k).phase = .loaded fm)
    (hrec : s'.naming.db.Records (s'.naming.deletes k).filename p) : p ∈ fm.pairs := by
  rcases naming_of_step hs with he | ⟨b, out, hd, hn⟩
  · rw [he] at hphase hrec
    exact h.deletes k fm hphase p hrec
  · have hcareful := ha.drives hd
    rcases NamingServer.loaded_of_step hn hcareful.not_heal.2 hphase with hkeep | ⟨hdb, hpairs⟩
    · rw [hkeep] at hphase hrec
      rcases NamingServer.records_before_step hr.consistent hn hcareful.not_heal.1 hrec with
        hrec | ⟨j, t, rfl, _⟩
      · exact h.deletes k fm hphase p hrec
      · exact absurd hphase (hcareful.2.1 k fm)
    · rw [hpairs, ← hdb]
      exact hrec

theorem stale_of_step (h : Accounted s) (hr : Reachable cfg ok s) (ha : Careful s a)
    (hs : s.step cfg a = some s') {fm : FileMeta} (hfm : fm ∈ s'.naming.cleanup.stale)
    (hrec : s'.naming.db.Records fm.filename p) : p ∈ fm.pairs := by
  rcases naming_of_step hs with he | ⟨b, out, hd, hn⟩
  · rw [he] at hfm hrec
    exact h.stale fm hfm p hrec
  · have hcareful := ha.drives hd
    rcases NamingServer.stale_of_step hn hcareful.not_heal.2 hfm with hfm | ⟨hdb, hpairs⟩
    · rcases NamingServer.records_before_step hr.consistent hn hcareful.not_heal.1 hrec with
        hrec | ⟨j, t, rfl, _⟩
      · exact h.stale fm hfm p hrec
      · have hnil : s.naming.cleanup.stale = [] := hcareful.2.2
        rw [hnil] at hfm
        cases hfm
    · rw [hpairs, ← hdb]
      exact hrec

theorem of_step (h : Accounted s) (hr : Reachable cfg ok s) (ha : Careful s a)
    (hs : s.step cfg a = some s') : Accounted s' where
  stored _ hst := h.stored_of_step hr ha hs hst
  creates _ _ hphase _ hrec hst := h.creates_of_step hr ha hs hphase hrec hst
  deletes _ _ hphase _ hrec := h.deletes_of_step hr ha hs hphase hrec
  stale _ hfm _ hrec := h.stale_of_step hr ha hs hfm hrec

end Accounted

end Cluster

end GfsCluster
