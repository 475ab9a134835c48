import Mathlib.Data.Finset.Card
import Mathlib.SetTheory.Cardinal.Finite
import GfsCluster.Naming.Deployments
import GfsCluster.Naming.Sources

/-! The early return of `heal_once`. When every known address is live the pass returns
without listing anything, on the ground that new chunks are always placed on R live servers.
That counts on the target of today: a chunk placed under a smaller target is recorded on live
servers only and still too few of them. -/

namespace GfsCluster

open StepSystem

namespace NamingServer

variable {cfg : Settings} {n n₀ n' : NamingServer} {a : NamingAction} {out : List StorageRpc} {db : Db}

/-- When every known address is live, there is nothing to list, and a pass that went on
would ask for nothing and write nothing. -/
def HidesNothing (cfg : Settings) (db : Db) : Prop :=
  ∀ (live : List Addr) (o : RowOrder), live.Nodup → cfg.replication ≤ live.length →
    (∀ addr ∈ knownReplicaAddresses db, addr ∈ live) →
    underReplicatedChunks (o.view db) live cfg.replication = [] ∧
      ∀ copies, passSends cfg copies db o live = [] ∧ passEdits cfg copies db o live = []

/-- Every committed chunk is recorded on the target number of servers. -/
def Floor (cfg : Settings) (db : Db) : Prop :=
  ∀ r ∈ db.chunks, db.CommittedChunk r.chunkId → cfg.replication ≤ (db.locations r.chunkId).length

/-- With every known address live, the live locations of a committed chunk are all of them. -/
theorem live_locations_of_known {live : List Addr} {r : ChunkRow} (hr : r ∈ db.chunks)
    (hcom : db.CommittedChunk r.chunkId) (hknown : ∀ addr ∈ knownReplicaAddresses db, addr ∈ live) :
    (db.locations r.chunkId).filter (· ∈ live) = db.locations r.chunkId :=
  List.filter_eq_self.mpr fun addr ha =>
    decide_eq_true (hknown addr (mem_knownReplicaAddresses.mpr ⟨r, hr, hcom, ha⟩))

theorem exists_live (known : List Addr) (replication : ℕ) :
    ∃ live : List Addr, live.Nodup ∧ replication ≤ live.length ∧ ∀ addr ∈ known, addr ∈ live := by
  obtain ⟨s, hsub, hcard⟩ := Infinite.exists_superset_card_eq known.toFinset
    (max replication known.toFinset.card) (le_max_right _ _)
  refine ⟨s.toList, s.nodup_toList, ?_, fun addr ha => ?_⟩
  · rw [Finset.length_toList, hcard]
    exact le_max_left _ _
  · rw [Finset.mem_toList]
    exact hsub (List.mem_toFinset.mpr ha)

theorem hidesNothing_iff : HidesNothing cfg db ↔ Floor cfg db := by
  constructor
  · intro h r hr hcom
    obtain ⟨live, hnd, hlen, hknown⟩ := exists_live (knownReplicaAddresses db) cfg.replication
    by_contra hlt
    have hmem : ∃ m, m ∈ underReplicatedChunks (RowOrder.table.view db) live cfg.replication := by
      refine ⟨_, mem_underReplicatedChunks.mpr ⟨r, hr, hcom, ?_, rfl⟩⟩
      rw [liveCount_leftJoin, length_live_view, live_locations_of_known hr hcom hknown]
      exact not_le.mp hlt
    obtain ⟨m, hm⟩ := hmem
    rw [(h live .table hnd hlen hknown).1] at hm
    cases hm
  · intro h live o _ _ hknown
    have hnone : underReplicatedChunks (o.view db) live cfg.replication = [] := by
      refine List.eq_nil_iff_forall_not_mem.mpr fun m hm => ?_
      obtain ⟨r, hr, hcom, hlt, _⟩ := mem_underReplicatedChunks.mp hm
      rw [o.mem_chunks] at hr
      rw [o.committedChunk] at hcom
      rw [liveCount_leftJoin, length_live_view, live_locations_of_known hr hcom hknown] at hlt
      exact absurd (h r hr hcom) (not_le.mpr hlt)
    exact ⟨hnone, fun copies => by simp [passSends, passEdits, hnone]⟩

/-! ### Runs -/

/-- Addresses have the form `host:port`, and a file that an earlier run has left pending is
committed only if all its chunks have their target of addresses. -/
def Stocking (cfg : Settings) (n₀ n : NamingServer) : NamingAction → Prop
  | .registerStorage addr | .heartbeat addr => CommaFree addr
  | .commit f => ∀ r ∈ n.db.chunks, r ∈ n₀.db.chunks → r.filename = f →
    cfg.replication ≤ (n.db.locations r.chunkId).length
  | _ => True

theorem Stocking.registers (h : Stocking cfg n₀ n a) : Registers CommaFree a := by
  cases a <;> first | exact h | trivial

/-- Committed chunks and those of this run have their target number of addresses, and one
more while one is replaced. -/
def KeepsTarget (cfg : Settings) (n₀ n : NamingServer) : Prop :=
  ∀ r ∈ n.db.chunks, n.db.CommittedChunk r.chunkId ∨ r ∉ n₀.db.chunks →
    cfg.replication + n.replacing r.chunkId ≤ (n.db.locations r.chunkId).length

theorem KeepsTarget.of_step (h : KeepsTarget cfg n₀ n) (hc : Consistent cfg n) (ht : HealTracks cfg n)
    (hok : Stocking cfg n₀ n a) (hs : n.step cfg a = some (n', out)) : KeepsTarget cfg n₀ n' := by
  intro r hr' hold
  by_cases hcrash : a = .crash
  · subst hcrash
    cases hs
    have hlen := h r hr' hold
    show cfg.replication + 0 ≤ (n.db.locations r.chunkId).length
    omega
  by_cases hr : r ∈ n.db.chunks
  · by_cases hkept : n.db.CommittedChunk r.chunkId ∨ r ∉ n₀.db.chunks
    · have hlen := h r hr hkept
      have hbal := balance_of_step hc ht hr hcrash hs hr' (by omega)
      omega
    · -- a file that was left pending is committed now, and the healer has never listed it
      rw [not_or, not_not] at hkept
      have hcom := hold.resolve_right (not_not.mpr hkept.2)
      have ha := (committed_before_step hc hs hr hr' hcom).resolve_left hkept.1
      have hlen : cfg.replication ≤ (n.db.locations r.chunkId).length := by
        rw [ha] at hok
        exact hok r hr hkept.2 rfl
      have hnot : n.heal.dropped ≠ some r.chunkId := by
        intro hd
        obtain ⟨w, hw, hid⟩ := repair_of_dropped hd
        exact hkept.1 (hid ▸ ((ht.knows w hw).recorded r hr hid.symm).1)
      have hbal := balance_of_step hc ht hr hcrash hs hr' hlen
      have hzero : n.replacing r.chunkId = 0 := if_neg hnot
      omega
  · obtain ⟨hlen, hzero⟩ := count_of_new_row hc ht hs hr' hr
    omega

/-- Twins have the same tables and the same pass. -/
theorem Twin.keepsTarget {m : NamingServer} (h : Twin n m) :
    KeepsTarget cfg n₀ m ↔ KeepsTarget cfg n₀ n := by
  rw [h.same]
  exact Iff.rfl

theorem Twin.stocking {m : NamingServer} (h : Twin n m) :
    Stocking cfg n₀ m a ↔ Stocking cfg n₀ n a := by
  rw [h.same]
  exact Iff.rfl

theorem KeepsTarget.of_run (h₀ : Deployed n₀) (hfloor : Floor cfg n₀.db)
    (hrun : Steps (NamingServer.next cfg) (Stocking cfg n₀) n₀ n) : KeepsTarget cfg n₀ n := by
  have hstart : KeepsTarget cfg n₀ n₀ := by
    intro r hr hold
    have hidle : n₀.heal = .idle := by cases h₀ <;> rfl
    have hlen := hfloor r hr (hold.resolve_right (not_not.mpr hr))
    simpa [replacing, hidle, HealPhase.dropped] using hlen
  refine Steps.invariant (P := KeepsTarget cfg n₀) hrun hstart ?_
  intro n a n' hr hkeeps hok hnext
  obtain ⟨out, hs⟩ := exists_step_of_next hnext
  obtain ⟨m, htwin, hc, ht, _⟩ := (h₀.sound cfg).of_steps (fun _ _ h => h.registers) hr
  obtain ⟨m', hs', htwin'⟩ := htwin.of_step hs
  exact htwin'.keepsTarget.mp
    ((htwin.keepsTarget.mpr hkeeps).of_step hc ht (htwin.stocking.mpr hok) hs')

theorem Floor.of_keeps (h : KeepsTarget cfg n₀ n) : Floor cfg n.db := by
  intro r hr hcom
  have := h r hr (.inl hcom)
  omega

/-- Committing a file commits its chunks where they are. -/
theorem floor_of_commit (hclean : n.store.Clean) {f : Filename}
    (hs : n.next cfg (.commit f) = some n') (h : Floor cfg n'.db) {r : ChunkRow} (hr : r ∈ n.db.chunks)
    (hf : r.filename = f) : cfg.replication ≤ (n.db.locations r.chunkId).length := by
  have hw : n.store.writer = n.db := hclean
  simp only [NamingServer.next, step, Option.map_some, Option.some.injEq] at hs
  subst hs
  simp only [NamingServer.db, MetadataStore.commitFile, hw] at h
  refine h r hr ⟨r, hr, rfl, ?_⟩
  obtain ⟨F, hF, hname⟩ := n.db.exists_file hr
  refine ⟨_, Db.mem_markCommitted.mpr ⟨F, hF, rfl⟩, ?_⟩
  rw [if_pos (hname.trans hf)]
  exact ⟨hname, rfl⟩

/-- On a database that earlier runs have left, with whatever targets: nothing is hidden when
the process starts if and only if every committed chunk has the target of today; and from then
on nothing is hidden as long as the files left pending are committed with that target only,
while a step that commits one with less hides its chunks. -/
theorem hidesNothing_of_run (h₀ : Deployed n₀) : (HidesNothing cfg n₀.db ↔ Floor cfg n₀.db) ∧
    ∀ n, Floor cfg n₀.db → Steps (NamingServer.next cfg) (Stocking cfg n₀) n₀ n →
      HidesNothing cfg n.db ∧ ∀ a n', Registers CommaFree a → n.next cfg a = some n' →
        (HidesNothing cfg n'.db ↔ Stocking cfg n₀ n a) := by
  refine ⟨hidesNothing_iff, fun n hfloor hrun => ?_⟩
  have hfloor_of : ∀ {n}, Steps (NamingServer.next cfg) (Stocking cfg n₀) n₀ n → Floor cfg n.db :=
    fun hrun => .of_keeps (KeepsTarget.of_run h₀ hfloor hrun)
  refine ⟨hidesNothing_iff.mpr (hfloor_of hrun), fun a n' haddr hnext => hidesNothing_iff.trans ?_⟩
  constructor
  · intro h
    cases a with
    | commit f =>
      obtain ⟨m, htwin, hc, _⟩ := (h₀.sound cfg).of_steps (fun _ _ h => h.registers) hrun
      have hclean : n.store.Clean := by
        have := hc.clean
        rwa [htwin.same] at this
      exact fun r hr _ hf => floor_of_commit hclean hnext h hr hf
    | registerStorage addr => exact haddr
    | heartbeat addr => exact haddr
    | _ => trivial
  · exact fun hok => hfloor_of (hrun.tail hok hnext)

/-! ### Another target -/

/-- One file of one chunk is committed on the servers `s` and `t`. -/
def twoCopies : List NamingAction :=
  [.registerStorage ['s'], .registerStorage ['t'], .create 0 (.receive ⟨['f'], 1, 1⟩),
    .create 0 .checkLive, .create 0 (.selectFile .table), .create 0 (.place ['c']),
    .create 0 (.reserve 0), .commit ['f']]

theorem exists_twoCopies : ∃ n : NamingServer, Deployed n ∧ n.db.chunks = [⟨['c'], ['f'], 0⟩] ∧
    n.db.CommittedChunk ['c'] ∧ n.db.locations ['c'] = [['s'], ['t']] := by
  have hrun : (run (guarded (NamingServer.next ⟨2, 60⟩) CommaFreeAddresses) NamingServer.init twoCopies).any
      (fun n => n.db.chunks == [⟨['c'], ['f'], 0⟩] && n.db.files == [⟨['f'], 1, 1, .committed, 0⟩] &&
        n.db.locations ['c'] == [['s'], ['t']]) = true := by
    decide +kernel
  obtain ⟨n, hr, hn⟩ := exists_of_run hrun
  simp only [Bool.and_eq_true, beq_iff_eq] at hn
  obtain ⟨⟨hchunks, hfiles⟩, hlocs⟩ := hn
  refine ⟨n.crash, .again ⟨2, 60⟩ .first hr, hchunks, ⟨⟨['c'], ['f'], 0⟩, ?_, rfl,
    ⟨['f'], 1, 1, .committed, 0⟩, ?_, rfl, rfl⟩, hlocs⟩
  · show _ ∈ n.db.chunks
    simp [hchunks]
  · show _ ∈ n.db.files
    simp [hfiles]

/-- Restarted with the same target, the server commits nothing below it. -/
theorem hidesNothing_of_run_twoCopies : ∃ n₀ n : NamingServer, n₀.db.locations ['c'] = [['s'], ['t']] ∧
    n₀.next ⟨2, 60⟩ (.commit ['f']) = some n ∧ HidesNothing ⟨2, 60⟩ n.db := by
  obtain ⟨n₀, h₀, hchunks, _, hlocs⟩ := exists_twoCopies
  have hlen : ∀ r ∈ n₀.db.chunks, 2 ≤ (n₀.db.locations r.chunkId).length := by
    intro r hr
    rw [hchunks, List.mem_singleton] at hr
    rw [hr, hlocs]
    exact le_rfl
  have hok : Stocking ⟨2, 60⟩ n₀ n₀ (.commit ['f']) := fun r hr _ _ => hlen r hr
  refine ⟨n₀, _, hlocs, rfl, ?_⟩
  exact ((hidesNothing_of_run h₀).2 _ (fun r hr _ => hlen r hr) (.single hok rfl)).1

/-- Nothing is ever hidden, whatever the databases of earlier runs. -/
def NeverHides (cfg : Settings) : Prop :=
  ∀ n₀ n, Deployed n₀ → Steps (NamingServer.next cfg) (fun _ a => Registers CommaFree a) n₀ n →
    HidesNothing cfg n.db

/-- A server that is restarted with a target of three keeps a file of two copies as it is. -/
theorem not_neverHides : ¬ NeverHides ⟨3, 60⟩ := by
  obtain ⟨n₀, h₀, hchunks, hcom, hlocs⟩ := exists_twoCopies
  intro h
  have hlen := hidesNothing_iff.mp (h n₀ n₀ h₀ .refl) ⟨['c'], ['f'], 0⟩ (by simp [hchunks]) hcom
  simp only [hlocs] at hlen
  exact absurd hlen (by decide)

end NamingServer

end GfsCluster
