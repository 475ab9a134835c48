import Mathlib.Data.List.AList
import Mathlib.Data.List.Sort
import GfsCluster.Basic
import GfsCluster.Lib.RoundRobin

/-! Liveness of the storage servers: last heartbeats and the round-robin cursor. -/

namespace GfsCluster

open RoundRobin

structure StorageRegistry where
  lastSeen : AList fun _ : Addr => Seconds
  rr : ℕ

namespace StorageRegistry

def init : StorageRegistry := ⟨∅, 0⟩

variable (reg : StorageRegistry) (now : Seconds)

def markAlive (addr : Addr) : StorageRegistry := { reg with lastSeen := reg.lastSeen.insert addr now }

def liveServers : List Addr :=
  (reg.lastSeen.entries.filter fun e => now - e.2 ≤ heartbeatTimeout).map Sigma.fst

/-- Up to `count` distinct live servers, round-robin. The cursor advances only when some
server is live. -/
def pick (count : ℕ) : List Addr × StorageRegistry :=
  let live := (reg.liveServers now).insertionSort (· ≤ ·)
  if live = [] then ([], reg)
  else
    let start := reg.rr % live.length
    ((live.drop start ++ live.take start).take count, { reg with rr := reg.rr + 1 })

theorem liveServers_nodup : (reg.liveServers now).Nodup :=
  reg.lastSeen.nodupKeys.sublist List.filter_sublist

theorem mem_lastSeen_of_live {addr : Addr} (h : addr ∈ reg.liveServers now) :
    addr ∈ reg.lastSeen := by
  obtain ⟨e, he, rfl⟩ := List.mem_map.mp h
  exact List.mem_map_of_mem (List.mem_filter.mp he).1

/-! ### Turns -/

/-- The order in which live servers take their turns. -/
def ring : List Addr := (reg.liveServers now).insertionSort (· ≤ ·)

theorem ring_perm : (reg.ring now).Perm (reg.liveServers now) := List.perm_insertionSort _ _

theorem ring_nodup : (reg.ring now).Nodup :=
  (reg.ring_perm now).nodup_iff.mpr (reg.liveServers_nodup now)

/-- The order does not depend on when servers were heard of. -/
theorem ring_eq {reg reg' : StorageRegistry} {now now' : Seconds}
    (h : (reg'.liveServers now').Perm (reg.liveServers now)) : reg'.ring now' = reg.ring now := by
  have hperm := (reg'.ring_perm now').trans (h.trans (reg.ring_perm now).symm)
  apply hperm.eq_of_sortedLE
  · exact List.sortedLE_insertionSort
  · exact List.sortedLE_insertionSort

/-- A pick is one turn. -/
theorem pick_eq_turn (count : ℕ) : (reg.pick now count).1 = turn (reg.ring now) count reg.rr := by
  simp only [pick]
  split_ifs with h
  · rw [ring, h, turn, List.rotate_nil, List.take_nil]
  · rw [turn, ring, List.rotate_eq_drop_append_take_mod]

theorem pick_rr (count : ℕ) (h : reg.liveServers now ≠ []) :
    (reg.pick now count).2.rr = reg.rr + 1 := by
  have hring : (reg.liveServers now).insertionSort (· ≤ ·) ≠ [] := by
    intro he
    have hperm := reg.ring_perm now
    rw [ring, he] at hperm
    exact h hperm.nil_eq.symm
  simp only [pick, if_neg hring]

theorem pick_nodup (count : ℕ) : (reg.pick now count).1.Nodup := by
  rw [pick_eq_turn]
  exact turn_nodup (reg.ring_nodup now)

theorem mem_live_of_mem_pick {count : ℕ} {addr : Addr} (h : addr ∈ (reg.pick now count).1) :
    addr ∈ reg.liveServers now := by
  rw [pick_eq_turn] at h
  exact (reg.ring_perm now).mem_iff.mp (mem_of_mem_turn h)

theorem length_pick (count : ℕ) :
    (reg.pick now count).1.length = min count (reg.liveServers now).length := by
  rw [pick_eq_turn, length_turn, (reg.ring_perm now).length_eq]

/-- Asked for as many as are live or more, the registry picks all of them. -/
theorem perm_pick {count : ℕ} (h : (reg.liveServers now).length ≤ count) :
    (reg.pick now count).1.Perm (reg.liveServers now) := by
  have hperm := reg.ring_perm now
  rw [pick_eq_turn]
  exact (turn_perm (hperm.length_eq.trans_le h)).trans hperm

@[simp] theorem pick_lastSeen (count : ℕ) : (reg.pick now count).2.lastSeen = reg.lastSeen := by
  simp only [pick]
  split_ifs <;> rfl

end StorageRegistry

end GfsCluster
