import GfsCluster.Cluster.Payload

/-! Copies made for the healer. Its requests carry tickets, so that an answer is known to
be of the request under way; a copy it holds to be made was written to the target's disk
after the healer asked for it. -/

namespace GfsCluster

open StepSystem

namespace HealPhase

/-- The copy asked for and not answered: its ticket, target and chunk. -/
def asked : HealPhase → Option (ℕ × Addr × ChunkId)
  | copying _ _ _ w target ticket => some (ticket, target, w.chunkId)
  | _ => none

/-- The copy answered and not recorded: its target and chunk. -/
def unrecorded : HealPhase → Option (Addr × ChunkId)
  | copied _ _ _ w target => some (target, w.chunkId)
  | _ => none

end HealPhase

namespace NamingServer

variable {cfg : Settings} {n n' : NamingServer} {a : NamingAction} {out : List StorageRpc} {t : ℕ}
  {addr source : Addr} {c : ChunkId}

/-- The healer's variables change by its own steps and by a restart. -/
theorem heal_frame (hs : n.step cfg a = some (n', out)) :
    n'.heal = n.heal ∧ n'.ticket = n.ticket ∨ n'.heal = .idle ∧ n'.ticket = n.ticket ∨
      ∃ b, a = .heal b ∧ n.healStep cfg b = some (n', out) := by
  rcases step_frame hs with rfl | ⟨_, _, ⟨b, rfl⟩ | ⟨hheal, hticket⟩, _⟩
  · cases hs
    exact .inr (.inl ⟨rfl, rfl⟩)
  · exact .inr (.inr ⟨b, rfl, hs⟩)
  · exact .inl ⟨hheal, hticket⟩

theorem asked_of_step (hs : n.step cfg a = some (n', out)) (h : n'.heal.asked = some (t, addr, c)) :
    n'.heal = n.heal ∧ n'.ticket = n.ticket ∨ t = n.ticket ∧ n'.ticket = n.ticket + 1 := by
  rcases heal_frame hs with he | ⟨he, _⟩ | ⟨b, _, hb⟩
  · exact .inl he
  · rw [he] at h
    cases h
  · right
    cases case_of_healStep hb <;> simp_all [HealPhase.asked]

theorem unrecorded_of_step (hs : n.step cfg a = some (n', out))
    (h : n'.heal.unrecorded = some (addr, c)) : n'.heal = n.heal ∨
      a = .heal (.answer true) ∧ ∃ t, n.heal.asked = some (t, addr, c) := by
  rcases heal_frame hs with ⟨he, _⟩ | ⟨he, _⟩ | ⟨b, rfl, hb⟩
  · exact .inl he
  · rw [he] at h
    cases h
  · right
    cases case_of_healStep hb with
    | copied live rest repaired w target ticket hp =>
      simp only [HealPhase.unrecorded, Option.some.injEq, Prod.mk.injEq] at h
      obtain ⟨rfl, rfl⟩ := h
      exact ⟨rfl, ticket, by rw [hp]; rfl⟩
    | _ => cases h

/-- A ReplicateChunk request that goes out is the one the healer then waits for. -/
theorem replicateChunk_of_step (hs : n.step cfg a = some (n', out))
    (hout : .replicateChunk t addr c source ∈ out) :
    t = n.ticket ∧ n'.ticket = n.ticket + 1 ∧ n'.heal.asked = some (t, addr, c) := by
  cases case_of_step hs with
  | heal b r h =>
    cases h with
    | copy live rest repaired w target source' candidates sources hp hcand hlive hlt =>
      simp only [List.mem_singleton, StorageRpc.replicateChunk.injEq] at hout
      obtain ⟨rfl, rfl, rfl, _⟩ := hout
      exact ⟨rfl, rfl, rfl⟩
    | _ => cases hout
  | delete k b r h => cases h <;> simp at hout
  | cleanup b r h => cases h <;> simp at hout
  | purge i k addr c hi => simp at hout
  | _ => cases hout

theorem ticket_le_of_step (hs : n.step cfg a = some (n', out)) : n.ticket ≤ n'.ticket := by
  rcases heal_frame hs with ⟨_, he⟩ | ⟨_, he⟩ | ⟨b, rfl, hb⟩
  · omega
  · omega
  · cases case_of_healStep hb <;> simp

end NamingServer

namespace Cluster

variable {cfg : Settings} {s s' : Cluster} {a : ClusterAction} {t : ℕ} {addr : Addr} {c : ChunkId}
  {ok : Cluster → ClusterAction → Prop}

/-- The request is one for the copy, fetched or not. -/
def Message.copies : Message → Option (ℕ × Addr × ChunkId)
  | .replicateChunk ticket addr c _ | .replicateData ticket addr c _ => some (ticket, addr, c)
  | .storeChunks _ _ _ _ | .deleteChunk _ _ => none

/-- Tickets are given out once, and what goes by the healer's current ticket is the copy
it waits for. -/
structure Tickets (s : Cluster) : Prop where
  net : ∀ m ∈ s.net, ∀ t addr c, Message.copies m = some (t, addr, c) → t < s.naming.ticket ∧
    ∀ addr' c', s.naming.heal.asked = some (t, addr', c') → addr' = addr ∧ c' = c
  copies : ∀ t ∈ s.copies, t < s.naming.ticket
  asked : ∀ t addr c, s.naming.heal.asked = some (t, addr, c) → t < s.naming.ticket

theorem asked_of_step (ht : Tickets s) (hs : s.step cfg a = some s')
    (h : s'.naming.heal.asked = some (t, addr, c)) : t < s'.naming.ticket ∧
      (s.naming.heal.asked = some (t, addr, c) ∨ t = s.naming.ticket) := by
  rcases naming_of_step hs with he | ⟨b, out, _, hn⟩
  · rw [he] at h ⊢
    exact ⟨ht.asked _ _ _ h, .inl h⟩
  · rcases NamingServer.asked_of_step hn h with ⟨hheal, hticket⟩ | ⟨rfl, hticket⟩
    · rw [hheal] at h
      have := ht.asked _ _ _ h
      exact ⟨by omega, .inl h⟩
    · exact ⟨by omega, .inr rfl⟩

theorem ticket_le_of_step (hs : s.step cfg a = some s') : s.naming.ticket ≤ s'.naming.ticket := by
  rcases naming_of_step hs with he | ⟨b, out, _, hn⟩
  · rw [he]
  · exact NamingServer.ticket_le_of_step hn

namespace Tickets

theorem init : Tickets Cluster.init where
  net m hm := by simp [Cluster.init] at hm
  copies t ht := by simp [Cluster.init] at ht
  asked t addr c h := by simp [Cluster.init, NamingServer.init, HealPhase.asked] at h

theorem net_of_step (h : Tickets s) (hs : s.step cfg a = some s') {m : Message} (hm : m ∈ s'.net)
    (hcopy : Message.copies m = some (t, addr, c)) : t < s'.naming.ticket ∧
      ∀ addr' c', s'.naming.heal.asked = some (t, addr', c') → addr' = addr ∧ c' = c := by
  have hle := ticket_le_of_step hs
  have hold : ∀ m₀ ∈ s.net, Message.copies m₀ = some (t, addr, c) → t < s'.naming.ticket ∧
      ∀ addr' c', s'.naming.heal.asked = some (t, addr', c') → addr' = addr ∧ c' = c := by
    intro m₀ hm₀ hcopy₀
    obtain ⟨hlt, hasked⟩ := h.net m₀ hm₀ t addr c hcopy₀
    refine ⟨by omega, fun addr' c' h' => ?_⟩
    rcases (asked_of_step h hs h').2 with h' | rfl
    · exact hasked addr' c' h'
    · omega
  cases Cluster.net_of_step hs hm with
  | old hm => exact hold m hm hcopy
  | sent _ _ _ _ _ _ _ _ hm => subst hm; cases hcopy
  | stored _ _ _ _ _ hm => subst hm; cases hcopy
  | fetched ticket addr' c' source b hmem _ hm =>
    subst hm
    exact hold _ hmem hcopy
  | rpc b out r _ hn hr hm =>
    subst hm
    cases r with
    | deleteChunk => cases hcopy
    | replicateChunk ticket target c' source =>
      cases hcopy
      obtain ⟨ht, hticket, hasked⟩ := NamingServer.replicateChunk_of_step hn hr
      refine ⟨by omega, fun addr' c'' h' => ?_⟩
      rw [hasked, Option.some.injEq, Prod.mk.injEq, Prod.mk.injEq] at h'
      exact ⟨h'.2.1.symm, h'.2.2.symm⟩

theorem of_step (h : Tickets s) (hs : s.step cfg a = some s') : Tickets s' where
  net _ hm _ _ _ hcopy := h.net_of_step hs hm hcopy
  copies t ht := by
    have hle := ticket_le_of_step hs
    rcases copies_of_step hs with he | ⟨i, ticket, addr, c, b, _, hi, _, he⟩
    · rw [he] at ht
      have := h.copies t ht
      omega
    · rw [he, List.mem_cons] at ht
      rcases ht with rfl | ht
      · have := (h.net _ (List.mem_of_getElem? hi) t addr c rfl).1
        omega
      · have := h.copies t ht
        omega
  asked _ _ _ h' := (asked_of_step h hs h').1

end Tickets

theorem Reachable.tickets (h : Reachable cfg ok s) : Tickets s :=
  Steps.invariant h Tickets.init fun _ _ _ _ ht _ hs => ht.of_step hs

/-- The copy the healer is about to record has been written. -/
def Landed (s : Cluster) (addr : Addr) (c : ChunkId) : Prop :=
  s.naming.heal.unrecorded = some (addr, c) ∨
    ∃ t ∈ s.copies, s.naming.heal.asked = some (t, addr, c)

/-- A copy lands by being written. -/
theorem landed_of_step (ht : Tickets s) (hs : s.step cfg a = some s') (h : s'.Landed addr c) :
    s.Landed addr c ∨ ∃ i t b, a = .copyStore i ∧ s.net[i]? = some (.replicateData t addr c b) := by
  have hcopies : ∀ t ∈ s'.copies, s.naming.heal.asked = some (t, addr, c) →
      s.Landed addr c ∨ ∃ i t b, a = .copyStore i ∧ s.net[i]? = some (.replicateData t addr c b) := by
    intro t htc hasked
    rcases copies_of_step hs with he | ⟨i, ticket, addr', c', b, ha, hi, _, he⟩
    · exact .inl (.inr ⟨t, he ▸ htc, hasked⟩)
    · rw [he, List.mem_cons] at htc
      rcases htc with rfl | htc
      · obtain ⟨rfl, rfl⟩ := (ht.net _ (List.mem_of_getElem? hi) t addr' c' rfl).2 addr c hasked
        exact .inr ⟨i, t, b, ha, hi⟩
      · exact .inl (.inr ⟨t, htc, hasked⟩)
  rcases h with h | ⟨t, htc, hasked⟩
  · rcases naming_of_step hs with he | ⟨b, out, hd, hn⟩
    · rw [he] at h
      exact .inl (.inl h)
    · rcases NamingServer.unrecorded_of_step hn h with he | ⟨rfl, t, hasked⟩
      · rw [he] at h
        exact .inl (.inl h)
      · -- the answer is ok because the copy was stored
        cases hd with
        | free _ hfree =>
          refine .inl (.inr ⟨t, ?_, hasked⟩)
          simp only [Free] at hfree
          split at hfree
          · rename_i hheal
            rw [hheal] at hasked
            cases hasked
            exact hfree
          · exact absurd hfree id
  · rcases (asked_of_step ht hs hasked).2 with hold | rfl
    · exact hcopies t htc hold
    · have hlt : s.naming.ticket < s.naming.ticket := by
        rcases copies_of_step hs with he | ⟨i, ticket, addr', c', b, _, hi, _, he⟩
        · exact ht.copies _ (he ▸ htc)
        · rw [he, List.mem_cons] at htc
          rcases htc with heq | htc
          · rw [heq]
            exact heq ▸ (ht.net _ (List.mem_of_getElem? hi) ticket addr' c' rfl).1
          · exact ht.copies _ htc
      omega

/-! ### Records and files -/

/-- A replica that a step records is of a new chunk, or the healer's. -/
theorem recorded_of_step (hc : s.naming.Consistent cfg) (hs : s.step cfg a = some s')
    (h : ⟨c, addr⟩ ∈ s'.naming.db.replicas) : ⟨c, addr⟩ ∈ s.naming.db.replicas ∨
      (∀ f, ¬ s.naming.BornIn f c) ∨
        a = .naming (.heal .record) ∧ s.naming.heal.unrecorded = some (addr, c) := by
  rcases naming_of_step hs with he | ⟨b, out, hd, hn⟩
  · rw [he] at h
    exact .inl h
  · rcases NamingServer.replica_of_step hc hn h with h | ⟨k, now, chunks, _, hphase, m, hm, hr⟩ |
      ⟨live, rest, repaired, w, target, rfl, hheal, hr⟩
    · exact .inl h
    · refine .inr (.inl fun f => ?_)
      obtain ⟨hid, _⟩ := ChunkMeta.mem_replicaRows.mp hr
      obtain ⟨i, hi⟩ := List.getElem?_of_mem hm
      have hissue := ((hc.plan k chunks (by rw [hphase]; rfl)).issue c i).mpr ⟨m, hi, hid.symm⟩
      exact hc.not_born (by rw [hphase]; rfl) hissue
    · have hu : s.naming.heal.unrecorded = some (addr, c) := by
        rw [ReplicaRow.mk.injEq] at hr
        rw [hheal, hr.1, hr.2]
        rfl
      cases hd with
      | free _ _ => exact .inr (.inr ⟨rfl, hu⟩)

/-- What is written on a disk in a step was handed out before it. -/
theorem born_of_stored {b : Bytes} (hcar : Carried s) (hs : s.step cfg a = some s')
    (h : s'.file addr c = some b) : ∃ f, s.naming.BornIn f c := by
  have hborn : ∀ {b' : Bytes}, s.Payload c b' → ∃ f, s.naming.BornIn f c := by
    rintro b' ⟨k, i, hi, hr, _⟩
    exact ⟨_, k, i, hi, hr, rfl⟩
  cases file_of_step hs addr c with
  | keep h' => exact hborn (hcar.files addr c b (h' ▸ h))
  | store i k j batch b' _ hi hj _ =>
    exact hborn (hcar.net _ (List.mem_of_getElem? hi) _ (List.mem_of_getElem? hj))
  | copy i ticket b' _ hi _ => exact hborn (hcar.net _ (List.mem_of_getElem? hi))
  | delete _ _ _ h' => rw [h'] at h; cases h
  | scrub _ _ _ _ h' => rw [h'] at h; cases h

theorem born_of_step {f : Filename} (h : s.naming.BornIn f c) (hs : s.step cfg a = some s') :
    s'.naming.BornIn f c := by
  rcases naming_of_step hs with he | ⟨b, out, _, hn⟩
  · rwa [he]
  · exact h.step hn

end Cluster

end GfsCluster
