import GfsCluster.Naming.Healer

/-! The shape of the metadata at a constant replication target: every file has its
chunks, numbered from zero, and every chunk its target of distinct addresses, one more
while the healer is between the two writes of a replacement. -/

namespace GfsCluster

open StepSystem

namespace NamingServer

variable {cfg : Settings} {n n' : NamingServer} {k : ℕ} {f : Filename} {c : ChunkId}
  {a : NamingAction} {out : List StorageRpc}

/-- Addresses of the form `host:port`, no negative number of chunks, and no restart. -/
def Tidy (_ : NamingServer) : NamingAction → Prop
  | .registerStorage addr | .heartbeat addr => CommaFree addr
  | .create _ (.receive req) => 0 ≤ req.numChunks
  | .crash => False
  | _ => True

instance (n : NamingServer) (a : NamingAction) : Decidable (Tidy n a) :=
  match a with
  | .registerStorage addr | .heartbeat addr => inferInstanceAs (Decidable (CommaFree addr))
  | .create _ (.receive req) => inferInstanceAs (Decidable (0 ≤ req.numChunks))
  | .crash => .isFalse id
  | .create _ .checkLive | .create _ (.selectFile _) | .create _ (.selectChunks _)
  | .create _ (.place _) | .create _ (.reserve _) | .tick _ | .commit _ | .delete _ _
  | .get _ _ | .purge _ | .cleanup _ | .heal _ => .isTrue trivial

structure Layout (cfg : Settings) (n : NamingServer) : Prop where
  indices : ∀ F ∈ n.db.files, ∃ count : ℕ, F.numChunks = count ∧
    ((n.db.chunks.filter (·.filename = F.filename)).map ChunkRow.idx).Perm (List.range count)
  chunk_file : ∀ r ∈ n.db.chunks, ∃ F ∈ n.db.files, F.filename = r.filename
  replica_chunk : ∀ r ∈ n.db.replicas, ∃ row ∈ n.db.chunks, row.chunkId = r.chunkId
  distinct : ∀ r ∈ n.db.chunks, (n.db.locations r.chunkId).Nodup
  count : ∀ r ∈ n.db.chunks, (n.db.locations r.chunkId).length =
    if n.heal.dropped = some r.chunkId then cfg.replication + 1 else cfg.replication

/-! ### Indices -/

theorem numChunks_of_step (h : ∀ k, 0 ≤ (n.creates k).req.numChunks) (hok : Tidy n a)
    (hs : n.step cfg a = some (n', out)) : ∀ k, 0 ≤ (n'.creates k).req.numChunks := by
  intro k
  rcases step_moves hs with ⟨j, b, rfl, hm⟩ | ⟨_, rfl⟩ | ⟨_, hcreates, _⟩
  · rcases createStep_req hm k with he | ⟨rfl, rfl⟩
    · rw [he]
      exact h k
    · exact hok
  · exact absurd hok (by simp_all [Tidy])
  · rw [hcreates]
    exact h k

/-! ### Counts -/

def Counted (cfg : Settings) (n : NamingServer) : Prop :=
  ∀ r ∈ n.db.chunks, (n.db.locations r.chunkId).length =
    if n.heal.dropped = some r.chunkId then cfg.replication + 1 else cfg.replication

theorem repair_of_dropped (h : n.heal.dropped = some c) :
    ∃ w, n.heal.repair = some w ∧ w.chunkId = c := by
  cases hp : n.heal with
  | dropping live rest repaired w x =>
    rw [hp] at h
    simp only [HealPhase.dropped, Option.some.injEq] at h
    exact ⟨{ w with stale := x :: w.stale }, rfl, h⟩
  | _ =>
    rw [hp] at h
    cases h

/-- The replacement of an address starts and ends with the healer's two writes. -/
theorem dropped_of_step (hs : n.step cfg a = some (n', out))
    (ha : a ≠ .crash ∧ a ≠ .heal .record ∧ a ≠ .heal .drop) : n'.heal.dropped = n.heal.dropped := by
  rcases step_frame hs with hcrash | ⟨_, _, ⟨b, rfl⟩ | ⟨he, _⟩, _⟩
  · exact absurd hcrash ha.1
  · cases healCase_of_step hs with
    | raise | record | replace => exact absurd rfl ha.2.1
    | drop => exact absurd rfl ha.2.2
    | _ => simp_all [HealPhase.dropped]
  · rw [he]

/-- One while an address of the chunk is being replaced, and zero otherwise. -/
def replacing (n : NamingServer) (c : ChunkId) : ℕ := if n.heal.dropped = some c then 1 else 0

/-- A chunk of the plan just reserved has the addresses it was placed on. -/
theorem count_of_new_row (hc : Consistent cfg n) (ht : HealTracks cfg n)
    (hs : n.step cfg a = some (n', out)) {r : ChunkRow} (hr' : r ∈ n'.db.chunks)
    (hr : r ∉ n.db.chunks) :
    (n'.db.locations r.chunkId).length = cfg.replication ∧ n'.replacing r.chunkId = 0 := by
  obtain ⟨k, t, chunks, rfl, hphase, _, m, hm, hid, hlocs⟩ := locations_of_new_row hc hs hr' hr
  have hplan := hc.plan k chunks (by rw [hphase]; rfl)
  have hnot : n.heal.dropped ≠ some r.chunkId := by
    intro hd
    obtain ⟨w, hw, hw'⟩ := repair_of_dropped hd
    obtain ⟨f, hb⟩ := (ht.knows w hw).born
    rw [hw', ← hid] at hb
    exact hc.not_born (by rw [hphase]; rfl) (hplan.issued_of_mem hm) hb
  unfold replacing
  rw [hlocs, dropped_of_step hs (by simp), if_neg hnot]
  exact ⟨(hc.placed k chunks (by rw [hphase]; rfl) m hm).2, rfl⟩

section Balance

variable {r : ChunkRow} (hc : Consistent cfg n) (ht : HealTracks cfg n) (hr : r ∈ n.db.chunks)

include hc ht hr

/-- The healer adds an address to a chunk that has too few live ones, hence a stale one
to drop next. -/
theorem balance_of_record (hs : n.healStep cfg .record = some (n', out))
    (hfloor : cfg.replication ≤ (n.db.locations r.chunkId).length) :
    (n'.db.locations r.chunkId).length + n.replacing r.chunkId =
      (n.db.locations r.chunkId).length + n'.replacing r.chunkId := by
  have hstart : ∀ {live rest repaired w target}, n.heal = .copied live rest repaired w target →
      n.heal.repair = some { w with candidates := target :: w.candidates } ∧
        n.replacing r.chunkId = 0 := by
    intro live rest repaired w target hp
    exact ⟨by rw [hp]; rfl, by simp [replacing, hp, HealPhase.dropped]⟩
  have hadds : ∀ {live rest repaired w target added}, n.heal = .copied live rest repaired w target →
      n.store.addReplica w.chunkId target = (.ok added, n'.store) →
      n'.db.replicas = n.db.replicas ++ [⟨w.chunkId, target⟩] := fun hp hadd =>
    (ht.record_adds hc hp (by rw [hadd]) (by rw [hadd])).2.2
  cases case_of_healStep hs with
  | raise live rest repaired w target e store hp hadd =>
    -- the chunk is gone and the pass ends with an exception
    obtain ⟨_, hzero⟩ := hstart hp
    obtain ⟨_, ⟨_, _, hm, _⟩ | ⟨he, _⟩ | ⟨he, _⟩⟩ :=
      MetadataStore.addReplica_cases hc.clean w.chunkId target
    · rw [hadd] at hm
      subst hm
      rw [hzero]
      rfl
    · rw [hadd] at he
      cases he
    · rw [hadd] at he
      cases he
  | record live rest repaired w target added store hp hadd hstale =>
    -- fewer than the target are live, so one recorded address of the chunk is stale
    obtain ⟨hrepair, hzero⟩ := hstart hp
    have hid : w.chunkId ≠ r.chunkId := by
      intro hid
      have hlen := ((ht.knows _ hrepair).recorded r hr hid.symm).2.length_eq
      have hshort := ht.short (by rw [hp]; rfl) _ hrepair
      have hlt : w.live.length < cfg.replication := hshort
      simp only [hid, hstale, List.append_nil] at hlen
      omega
    rw [hzero, Db.locations_append (hadds hp hadd)]
    simp [replacing, HealPhase.dropped, hid]
  | replace live rest repaired w target x stale added store hp hadd hstale =>
    obtain ⟨_, hzero⟩ := hstart hp
    rw [hzero, Db.locations_append (hadds hp hadd), List.length_append]
    by_cases hid : w.chunkId = r.chunkId <;> simp [replacing, HealPhase.dropped, hid]

theorem balance_of_drop (hs : n.healStep cfg .drop = some (n', out)) :
    (n'.db.locations r.chunkId).length + n.replacing r.chunkId =
      (n.db.locations r.chunkId).length + n'.replacing r.chunkId := by
  have hw : n.store.writer = n.db := hc.clean
  cases case_of_healStep hs with
  | drop live rest repaired w x hp =>
    have hrepair : n.heal.repair = some { w with stale := x :: w.stale } := by
      rw [hp]
      rfl
    simp only [replacing, hp, NamingServer.db, MetadataStore.removeReplica, hw, HealPhase.dropped,
      Option.some.injEq, reduceCtorEq, if_false]
    by_cases hid : w.chunkId = r.chunkId
    · have hperm := ((ht.knows _ hrepair).recorded r hr hid.symm).2
      have hlen := hperm.length_eq
      have hlen' := (Lists.filter_ne_perm (n.db.locations_nodup _) hperm).length_eq
      simp only [hid, List.length_append, List.length_cons] at hlen hlen'
      rw [hid, Db.locations_deleteReplica, hlen', hlen]
      simp only [if_true]
      omega
    · rw [Db.locations_deleteReplica_of_ne (Ne.symm hid), if_neg hid]

/-- The addresses of a chunk that stays grow and shrink with the healer's replacements. -/
theorem balance_of_step (hcrash : a ≠ .crash) (hs : n.step cfg a = some (n', out))
    (hr' : r ∈ n'.db.chunks) (hfloor : cfg.replication ≤ (n.db.locations r.chunkId).length) :
    (n'.db.locations r.chunkId).length + n.replacing r.chunkId =
      (n.db.locations r.chunkId).length + n'.replacing r.chunkId := by
  by_cases hrec : a = .heal .record
  · subst hrec
    exact balance_of_record hc ht hr hs hfloor
  · by_cases hdrop : a = .heal .drop
    · subst hdrop
      exact balance_of_drop hc ht hr hs
    · unfold replacing
      rw [dropped_of_step hs ⟨hcrash, hrec, hdrop⟩]
      rcases locations_of_step hc hs hr hr' with he | ⟨_, _, _, _, _, ha, _⟩ | ⟨_, _, _, _, _, ha, _⟩
      · rw [he]
      · exact absurd ha hrec
      · exact absurd ha hdrop

end Balance

theorem Counted.of_step (h : Counted cfg n) (hc : Consistent cfg n) (ht : HealTracks cfg n)
    (hcrash : a ≠ .crash) (hs : n.step cfg a = some (n', out)) : Counted cfg n' := by
  intro r hr'
  by_cases hr : r ∈ n.db.chunks
  · have hcount := h r hr
    have hfloor : cfg.replication ≤ (n.db.locations r.chunkId).length := by
      rw [hcount]
      split_ifs <;> omega
    have hbal := balance_of_step hc ht hr hcrash hs hr' hfloor
    unfold replacing at hbal
    split_ifs at hcount hbal ⊢ <;> omega
  · obtain ⟨hlen, hzero⟩ := count_of_new_row hc ht hs hr' hr
    have hnot : n'.heal.dropped ≠ some r.chunkId := by simpa [replacing] using hzero
    rw [if_neg hnot, hlen]

/-- At least the target number of addresses of the chunk satisfy `p`, and one more while one is
replaced. A restart may leave it with the one more. -/
def Among (cfg : Settings) (n : NamingServer) (p : Addr → Bool) (c : ChunkId) : Prop :=
  cfg.replication + n.replacing c ≤ ((n.db.locations c).filter p).length

/-- Where all that the healer records satisfies `p`. -/
theorem Among.of_step {p : Addr → Bool} {r : ChunkRow} (h : n.Among cfg p r.chunkId)
    (hc : Consistent cfg n) (ht : HealTracks cfg n) (hs : n.step cfg a = some (n', out))
    (hr : r ∈ n.db.chunks) (hr' : r ∈ n'.db.chunks)
    (hp : ∀ live rest repaired w target, n.heal = .copied live rest repaired w target →
      w.chunkId = r.chunkId → p target = true) : n'.Among cfg p r.chunkId := by
  unfold Among at h ⊢
  by_cases hcrash : a = .crash
  · subst hcrash
    cases hs
    show cfg.replication + 0 ≤ ((n.db.locations r.chunkId).filter p).length
    omega
  · have hle := List.length_filter_le p (n.db.locations r.chunkId)
    have hbal := balance_of_step hc ht hr hcrash hs hr' (by omega)
    have hone : n'.replacing r.chunkId ≤ 1 := by
      unfold replacing
      split_ifs <;> omega
    rcases locations_of_step hc hs hr hr' with he | ⟨live, rest, repaired, w, target, _, hheal, hid, he⟩ |
      ⟨live, rest, repaired, w, addr, _, hheal, hid, he⟩
    · rw [he] at hbal ⊢
      omega
    · have htarget : [target].filter p = [target] :=
        List.filter_cons_of_pos (hp live rest repaired w target hheal hid)
      rw [he, List.length_append, List.length_singleton] at hbal
      rw [he, List.filter_append, htarget, List.length_append, List.length_singleton]
      omega
    · have herase : ∀ {as : List Addr}, as.Nodup → as.filter (· ≠ addr) = as.erase addr := by
        intro as hnd
        rw [hnd.erase_eq_filter]
        exact List.filter_congr fun x _ => Bool.eq_iff_iff.mpr (by simp)
      have hnd := n.db.locations_nodup r.chunkId
      rw [he, herase hnd] at hbal
      rw [he, List.filter_comm, herase (hnd.filter p)]
      by_cases hmem : addr ∈ n.db.locations r.chunkId
      · have hlen := List.le_length_erase (a := addr) (l := (n.db.locations r.chunkId).filter p)
        have hpos := List.length_pos_of_mem hmem
        rw [List.length_erase_of_mem hmem] at hbal
        omega
      · rw [List.erase_of_not_mem hmem] at hbal
        rw [List.erase_of_not_mem fun hin => hmem (List.mem_filter.mp hin).1]
        omega

/-- Every chunk has its target number of addresses. -/
def Stocked (cfg : Settings) (n : NamingServer) : Prop :=
  ∀ r ∈ n.db.chunks, cfg.replication + n.replacing r.chunkId ≤ (n.db.locations r.chunkId).length

theorem among_true : n.Among cfg (fun _ => true) c ↔
    cfg.replication + n.replacing c ≤ (n.db.locations c).length := by
  rw [Among, List.filter_true]

theorem Stocked.of_step (h : Stocked cfg n) (hc : Consistent cfg n) (ht : HealTracks cfg n)
    (hs : n.step cfg a = some (n', out)) : Stocked cfg n' := by
  intro r hr'
  by_cases hr : r ∈ n.db.chunks
  · exact among_true.mp ((among_true.mpr (h r hr)).of_step hc ht hs hr hr' fun _ _ _ _ _ _ _ => rfl)
  · obtain ⟨hlen, hzero⟩ := count_of_new_row hc ht hs hr' hr
    omega

theorem Reachable.healTracks {ok : NamingServer → NamingAction → Prop} (h : Reachable cfg ok n)
    (hok : ∀ m b, ok m b → Registers CommaFree b) : HealTracks cfg n := by
  refine Steps.invariant (P := fun m => HealTracks cfg m ∧ AddrsIn CommaFree m) h
    ⟨HealTracks.init, AddrsIn.init⟩ ?_ |>.1
  rintro m b m' hr ⟨ht, ha⟩ hb hnext
  obtain ⟨out, hs⟩ := exists_step_of_next hnext
  have hc := Reachable.consistent hr
  have ha' := ha.of_step hc (hok m b hb) hs
  exact ⟨ht.of_step hc (hc.of_step hs) ha' hs, ha'⟩

/-- Every chunk has at least R addresses. -/
theorem Reachable.stocked {ok : NamingServer → NamingAction → Prop} (h : Reachable cfg ok n)
    (hok : ∀ m b, ok m b → Registers CommaFree b) : Stocked cfg n := by
  refine Steps.invariant (P := Stocked cfg) h (fun r hr => by cases hr) ?_
  intro m b m' hr hm _ hnext
  obtain ⟨out, hs⟩ := exists_step_of_next hnext
  exact hm.of_step (Reachable.consistent hr) (Reachable.healTracks hr hok) hs

theorem Tidy.registers (h : Tidy n a) : Registers CommaFree a := by
  cases a <;> first | exact h | trivial

theorem layout_of_reachable (h : Reachable cfg Tidy n) : Layout cfg n := by
  have hcount : Counted cfg n := by
    refine Steps.invariant (P := Counted cfg) h (fun r hr => by cases hr) ?_
    intro m b m' hr hm hok hnext
    obtain ⟨out, hs⟩ := exists_step_of_next hnext
    have ht := Reachable.healTracks hr fun _ _ => Tidy.registers
    exact hm.of_step (Reachable.consistent hr) ht (by rintro rfl; exact hok) hs
  have hpos : ∀ k, 0 ≤ (n.creates k).req.numChunks := by
    refine Steps.invariant (P := fun m : NamingServer => ∀ k, 0 ≤ (m.creates k).req.numChunks) h
      (fun _ => le_rfl) ?_
    intro m b m' _ hm hok hnext
    obtain ⟨out, hs⟩ := exists_step_of_next hnext
    exact numChunks_of_step hm hok hs
  refine ⟨fun F hF => ?_, fun r hr => n.db.exists_file hr,
    fun r hr => n.db.exists_chunk hr, fun r _ => n.db.locations_nodup r.chunkId, hcount⟩
  obtain ⟨k, hv⟩ := h.consistent.version F hF
  exact ⟨_, by rw [← hv.numChunks, Int.toNat_of_nonneg (hpos k)], hv.indices h.consistent⟩

/-- One of two servers goes quiet, and the healer has just recorded the chunk on a third:
three addresses at a target of two. -/
theorem layout_of_reachable_replacing : ∃ n : NamingServer, Layout ⟨2, 60⟩ n ∧
    n.heal.dropped = some ['c'] ∧ n.db.locations ['c'] = [['s'], ['t'], ['u']] := by
  have hrun : (run (guarded (NamingServer.next ⟨2, 60⟩) Tidy) NamingServer.init
      [.registerStorage ['s'], .registerStorage ['t'], .create 0 (.receive ⟨['f'], 1, 1⟩),
        .create 0 .checkLive, .create 0 (.selectFile .table), .create 0 (.place ['c']),
        .create 0 (.reserve 0), .commit ['f'], .tick 10, .heartbeat ['t'], .registerStorage ['u'],
        .tick 10, .heal .count, .heal .pick, .heal (.known .table), .heal (.scan .table),
        .heal .next, .heal .copy, .heal (.answer true), .heal .record]).any
      (fun n => n.heal.dropped == some ['c'] &&
        n.db.locations ['c'] == [['s'], ['t'], ['u']]) = true := by
    decide +kernel
  obtain ⟨n, hr, hn⟩ := exists_of_run hrun
  rw [Bool.and_eq_true, beq_iff_eq, beq_iff_eq] at hn
  exact ⟨n, layout_of_reachable hr, hn⟩

end NamingServer

end GfsCluster
