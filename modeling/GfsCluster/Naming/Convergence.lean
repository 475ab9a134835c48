import GfsCluster.Naming.HealOnce
import GfsCluster.Naming.Layout

/-! Passes after restarts. A repair is two transactions, and a restart between them leaves
a chunk with one address too many; later passes replace addresses but never reduce their
number. -/

namespace GfsCluster

open StepSystem Edits

namespace NamingServer

variable {cfg : Settings} {n n₂ n' : NamingServer} {b : HealStep} {sent : List StorageRpc}
  {c : ChunkId} {copies : ChunkId → Addr → Bool}

/-- Storage servers register addresses without a comma; anything else may happen, restarts
included. -/
def CommaFreeAddresses (_ : NamingServer) (a : NamingAction) : Prop := Registers CommaFree a

instance (n : NamingServer) (a : NamingAction) : Decidable (CommaFreeAddresses n a) :=
  match a with
  | .registerStorage addr | .heartbeat addr => inferInstanceAs (Decidable (CommaFree addr))
  | .tick _ | .create _ _ | .commit _ | .delete _ _ | .get _ _ | .purge _ | .cleanup _ | .heal _
  | .crash => .isTrue trivial

theorem Reachable.commaFree (h : Reachable cfg CommaFreeAddresses n) : AddrsIn CommaFree n := by
  refine Steps.invariant (P := AddrsIn CommaFree) h AddrsIn.init ?_
  intro m b m' hr ha hok hnext
  obtain ⟨out, hs⟩ := exists_step_of_next hnext
  exact ha.of_step (Reachable.consistent hr) hok hs

/-- Exactly the target number of addresses, all of them live. -/
def Exact (cfg : Settings) (db : Db) (live : List Addr) (c : ChunkId) : Prop :=
  (db.locations c).length = cfg.replication ∧ ∀ addr ∈ db.locations c, addr ∈ live

/-- A committed chunk with a live address. -/
def Healable (db : Db) (live : List Addr) (c : ChunkId) : Prop :=
  c ∈ db.chunks.map ChunkRow.chunkId ∧ db.CommittedChunk c ∧ ∃ addr ∈ db.locations c, addr ∈ live

theorem all_live {as live : List Addr} (h : as.length ≤ (as.filter (· ∈ live)).length) :
    ∀ addr ∈ as, addr ∈ live := by
  have heq := List.filter_sublist.eq_of_length_le h
  intro addr ha
  rw [← heq, List.mem_filter, decide_eq_true_eq] at ha
  exact ha.2

/-- A complete pass with enough live servers in which every copy succeeds leaves a chunk
exact when it had its target number of addresses before, and only then. -/
theorem exact_after_pass_iff (hr : Reachable cfg CommaFreeAddresses n)
    (hpass : HealPass cfg (PassAlone cfg fun _ _ => true) n n₂ n' b sent)
    (hlen : cfg.replication ≤ n.live.length) (hc : Healable n.db n.live c) :
    Exact cfg n'.db n.live c ↔ (n.db.locations c).length = cfg.replication := by
  obtain ⟨hmem, hcom, addr, haddr, haddr_live⟩ := hc
  have hclean := (Reachable.consistent hr).clean
  have hcomma := (Reachable.commaFree hr).recorded
  have hfloor : cfg.replication ≤ (n.db.locations c).length := by
    obtain ⟨r, hrow, rfl⟩ := List.mem_map.mp hmem
    have := Reachable.stocked hr (fun _ _ h => h) r hrow
    omega
  by_cases hs : Short cfg n.db n.live c
  · have hrep := hpass.repaired hclean hcomma hlen hs hfloor
    have hreach := hrep.reaches (fun _ => rfl) n.live_nodup (n.db.locations_nodup c) hlen hs.2.2.2.le
    constructor
    · rintro ⟨hcount, _⟩
      rw [← hrep.length, hcount]
    · intro hcount
      have hcount' : (n'.db.locations c).length = cfg.replication := hrep.length.trans hcount
      exact ⟨hcount', all_live (by rw [hreach, hcount'])⟩
  · rw [Exact, (hpass.others hclean hcomma hs).1]
    constructor
    · exact And.left
    · intro hcount
      -- a chunk that is not short has its whole target live
      have hpos : 0 < ((n.db.locations c).filter (· ∈ n.live)).length :=
        List.length_pos_of_mem (List.mem_filter.mpr ⟨haddr, decide_eq_true haddr_live⟩)
      have hlive : cfg.replication ≤ ((n.db.locations c).filter (· ∈ n.live)).length := by
        by_contra hlt
        exact hs ⟨hmem, hcom, hpos, not_le.mp hlt⟩
      exact ⟨hcount, all_live (by rw [hcount]; exact hlive)⟩

/-! ### A restart between the two writes -/

/-- The healer's own steps after the first one, with every copy successful. -/
def Healing (_ : NamingServer × List StorageRpc) : NamingAction → Prop
  | .heal .count => False
  | .heal (.answer ok) => ok = true
  | .heal _ => True
  | _ => False

instance (s : NamingServer × List StorageRpc) (a : NamingAction) : Decidable (Healing s a) :=
  match a with
  | .heal (.answer ok) => inferInstanceAs (Decidable (ok = true))
  | .heal .pick | .heal (.known _) | .heal (.scan _) | .heal .next | .heal .copy | .heal .record
  | .heal .drop | .heal (.refresh _) => .isTrue trivial
  | .heal .count | .registerStorage _ | .heartbeat _ | .tick _ | .create _ _ | .commit _
  | .delete _ _ | .get _ _ | .purge _ | .cleanup _ | .crash => .isFalse id

theorem Healing.passAlone (cfg : Settings) {s : NamingServer × List StorageRpc} {a : NamingAction}
    (h : Healing s a) :
    PassAlone cfg (fun _ _ => true) s a := by
  cases a with
  | heal b =>
    cases b with
    | count => exact h
    | answer ok =>
      simp only [PassAlone, Outcomes]
      split
      · exact h
      · trivial
    | _ => trivial
  | _ => exact h.elim

/-- Run the listed actions, then a pass of the listed steps up to the end of its loop. -/
def healAfter (cfg : Settings) (before : List NamingAction) (pass : List HealStep) :
    Option (NamingServer × NamingServer) :=
  (run (guarded (NamingServer.next cfg) CommaFreeAddresses) NamingServer.init before).bind fun n =>
    (n.step cfg (.heal .count)).bind fun n₁ =>
      (run (guarded (sendStep cfg) Healing) n₁ (pass.map .heal)).bind fun s =>
        (s.1.step cfg (.heal .next)).map fun n' => (n, n'.1)

theorem busy_of_next {out : List StorageRpc} (hs : n.step cfg (.heal .next) = some (n', out)) :
    n.heal.over = false := by
  cases healCase_of_step hs with
  | finish _ _ hp | skip _ _ _ _ hp | start _ _ _ _ _ hp =>
    rw [hp]
    rfl

theorem exists_of_healAfter {before : List NamingAction} {pass : List HealStep}
    {p : NamingServer × NamingServer → Bool}
    (h : (healAfter cfg before pass).any (fun r => r.2.heal.over && p r) = true) :
    ∃ n n₂ n' sent, Reachable cfg CommaFreeAddresses n ∧
      HealPass cfg (PassAlone cfg fun _ _ => true) n n₂ n' .next sent ∧ p (n, n') = true := by
  simp only [healAfter, Option.any_eq_true, Option.bind_eq_some_iff, Option.map_eq_some_iff,
    Bool.and_eq_true] at h
  obtain ⟨_, ⟨n, hn, ⟨n₁, out⟩, hcount, s, hs, n', hlast, rfl⟩, hover, hp⟩ := h
  have hrun := (steps_of_guarded_run hs).mono fun _ _ h => Healing.passAlone cfg h
  refine ⟨n, s.1, n'.1, s.2 ++ n'.2, steps_of_guarded_run hn,
    ⟨⟨s.2, n'.2, ⟨n₁, out, hcount, hrun⟩, trivial, hlast, rfl⟩, busy_of_next hlast, hover⟩, hp⟩

/-- Two servers hold the chunk and one of them goes quiet. The chunk is recorded on a third
one, the naming server restarts, and the two servers that are still there register again. -/
def interrupted : List NamingAction :=
  quietServer ++ [.heal .count, .heal .pick, .heal (.known .table), .heal (.scan .table), .heal .next,
    .heal .copy, .heal (.answer true), .heal .record, .crash, .registerStorage ['t'],
    .registerStorage ['u']]

/-- A pass that finds too few live addresses is exact on the chunk it repairs. -/
theorem exact_after_pass_iff_quietServer : ∃ n n' : NamingServer,
    n.db.locations ['c'] = [['s'], ['t']] ∧ Exact ⟨2, 60⟩ n'.db n.live ['c'] := by
  have hrun : (healAfter ⟨2, 60⟩ quietServer [.pick, .known .table, .scan .table, .next, .copy,
      .answer true, .record, .drop, .copy]).any (fun r => r.2.heal.over &&
        (r.1.db.locations ['c'] == [['s'], ['t']] && r.1.live == [['u'], ['t']] &&
          r.1.db.chunks == [⟨['c'], ['f'], 0⟩] &&
          r.1.db.files == [⟨['f'], 1, 1, .committed, 0⟩])) = true := by
    decide +kernel
  obtain ⟨n, n₂, n', sent, hr, hpass, hn⟩ := exists_of_healAfter hrun
  simp only [Bool.and_eq_true, beq_iff_eq] at hn
  obtain ⟨⟨⟨hlocs, hlive⟩, hchunks⟩, hfiles⟩ := hn
  refine ⟨n, n', hlocs, (exact_after_pass_iff hr hpass (by rw [hlive]; decide) ?_).mpr (by rw [hlocs]; rfl)⟩
  refine ⟨by rw [hchunks]; decide, ⟨⟨['c'], ['f'], 0⟩, by rw [hchunks]; decide, rfl, ?_⟩, ['t'],
    by rw [hlocs]; decide, by rw [hlive]; decide⟩
  exact ⟨⟨['f'], 1, 1, .committed, 0⟩, by rw [hfiles]; decide, rfl, rfl⟩

/-- Every complete pass with enough live servers in which every copy succeeds leaves every
healable chunk exact. -/
def ConvergesToTarget (cfg : Settings) : Prop :=
  ∀ n n₂ n' b sent c, Reachable cfg CommaFreeAddresses n →
    HealPass cfg (PassAlone cfg fun _ _ => true) n n₂ n' b sent → cfg.replication ≤ n.live.length →
    Healable n.db n.live c → Exact cfg n'.db n.live c

/-- After the restart the chunk has three addresses at a target of two, and as two of them
are live the pass does not even list it. -/
theorem not_convergesToTarget : ¬ ConvergesToTarget ⟨2, 60⟩ := by
  have hrun : (healAfter ⟨2, 60⟩ interrupted [.pick, .known .table, .scan .table]).any
      (fun r => r.2.heal.over && (r.1.db.locations ['c'] == [['s'], ['t'], ['u']] &&
        r.2.db.locations ['c'] == [['s'], ['t'], ['u']] && r.1.live == [['u'], ['t']] &&
          r.1.db.chunks == [⟨['c'], ['f'], 0⟩] &&
          r.1.db.files == [⟨['f'], 1, 1, .committed, 0⟩])) = true := by
    decide +kernel
  obtain ⟨n, n₂, n', sent, hr, hpass, hn⟩ := exists_of_healAfter hrun
  simp only [Bool.and_eq_true, beq_iff_eq] at hn
  obtain ⟨⟨⟨⟨hlocs, hlocs'⟩, hlive⟩, hchunks⟩, hfiles⟩ := hn
  intro h
  have hexact := h n n₂ n' .next sent ['c'] hr hpass (by rw [hlive]; decide)
    ⟨by rw [hchunks]; decide, ⟨⟨['c'], ['f'], 0⟩, by rw [hchunks]; decide, rfl,
      ⟨['f'], 1, 1, .committed, 0⟩, by rw [hfiles]; decide, rfl, rfl⟩, ['t'],
      by rw [hlocs]; decide, by rw [hlive]; decide⟩
  rw [Exact, hlocs'] at hexact
  exact absurd hexact.1 (by decide)

end NamingServer

end GfsCluster
