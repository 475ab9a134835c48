import GfsCluster.Naming.Pass

/-! A pass of `heal_once` with no other writer. The pass is then a function of the tables,
the live servers and the outcomes of the copies: which copies it asks for, what it writes
and what it returns. -/

namespace GfsCluster

open StepSystem Edits

namespace NamingServer

variable {cfg : Settings} {n n₂ n' : NamingServer} {a : NamingAction} {b : HealStep}
  {out sent : List StorageRpc} {copies : ChunkId → Addr → Bool}

/-- The steps of a pass and steps of others that write nothing and leave the same servers
live. ReplicateChunk answers as `copies` says. -/
def PassAlone (cfg : Settings) (copies : ChunkId → Addr → Bool) (s : NamingServer × List StorageRpc) :
    NamingAction → Prop
  | .heal .count | .crash => False
  | .heal b => Outcomes copies s.1 (.heal b)
  | a => ∀ n' out, s.1.step cfg a = some (n', out) →
    n'.store = s.1.store ∧ ∀ addr, addr ∈ n'.live ↔ addr ∈ s.1.live

/-- The edits of a pass that works on the servers `live`. -/
def passEdits (cfg : Settings) (copies : ChunkId → Addr → Bool) (db : Db) (o : RowOrder)
    (live : List Addr) : List ReplicaEdit :=
  (underReplicatedChunks (o.view db) live cfg.replication).flatMap (repairsOf cfg copies live)

/-- The copies that it asks for. -/
def passSends (cfg : Settings) (copies : ChunkId → Addr → Bool) (db : Db) (o : RowOrder)
    (live : List Addr) : List (ChunkId × Addr) :=
  (underReplicatedChunks (o.view db) live cfg.replication).flatMap (sendsOf cfg copies live)

/-! ### The run -/

/-- Up to its listing the pass has read the live servers and nothing has been written. -/
structure Counting (cfg : Settings) (n₀ n : NamingServer) : Prop where
  store : n.store = n₀.store
  live : ∀ addr, addr ∈ n.live ↔ addr ∈ n₀.live
  counted : ∀ count, n.heal = .counted count → count = n₀.live.length
  picks : Picks cfg (·.Perm n₀.live) n

theorem live_nodup (n : NamingServer) : n.live.Nodup := n.registry.liveServers_nodup n.now

theorem PassAlone.pass {s : NamingServer × List StorageRpc} (h : PassAlone cfg copies s a) :
    a ≠ .heal .count ∧ a ≠ .crash ∧ Outcomes copies s.1 a := by
  refine ⟨?_, ?_, ?_⟩
  · rintro rfl
    exact h
  · rintro rfl
    exact h
  · cases a with
    | heal b => cases b <;> first | exact h | trivial
    | _ => trivial

theorem PassAlone.others {s : NamingServer × List StorageRpc} (h : PassAlone cfg copies s a)
    (ha : ∀ b, a ≠ .heal b) (hs : s.1.step cfg a = some (n', out)) :
    n'.store = s.1.store ∧ ∀ addr, addr ∈ n'.live ↔ addr ∈ s.1.live := by
  cases a with
  | heal b => exact absurd rfl (ha b)
  | crash => exact absurd h id
  | _ => exact h _ _ hs

theorem letsHeal_passAlone : LetsHeal copies (PassAlone cfg copies) := by
  rintro s b hb hok
  cases b with
  | count => exact absurd rfl hb
  | _ => exact hok

namespace Counting

theorem live_perm (h : Counting cfg n n') : n'.live.Perm n.live :=
  (List.perm_ext_iff_of_nodup n'.live_nodup n.live_nodup).mpr h.live

/-- Asked for as many as were counted, the registry picks all that are live. -/
theorem perm_pick (h : Counting cfg n n₂) {count : ℕ} (hp : n₂.heal = .counted count) :
    (n₂.registry.pick n₂.now count).1.Perm n.live := by
  have hcount : n₂.live.length ≤ count := by rw [h.counted count hp, h.live_perm.length_eq]
  exact (n₂.registry.perm_pick n₂.now hcount).trans h.live_perm

theorem of_heal (h : Counting cfg n n₂) (hl : n₂.heal.listed = false) (hb : b ≠ .count)
    (hs : n₂.step cfg (.heal b) = some (n', out)) : Counting cfg n n' := by
  have hpick : b = .pick → ∀ count, n₂.heal = .counted count →
      (n₂.registry.pick n₂.now count).1.Perm n.live := fun _ count hp => h.perm_pick hp
  obtain ⟨_, _, _, hseen, _⟩ := healStep_frame hs
  refine ⟨(unlisted_of_step hl hs).1.trans h.store, fun addr => ?_, ?_, h.picks.of_heal hl hpick hs⟩
  · rw [← h.live addr, NamingServer.live, NamingServer.live, StorageRegistry.liveServers,
      StorageRegistry.liveServers, hseen, now_of_heal hs]
  · intro count hc
    exact absurd hc (not_counted_of_step hb hs count)

theorem of_step {s : NamingServer × List StorageRpc} (h : Counting cfg n s.1)
    (hl : s.1.heal.listed = false) (hok : PassAlone cfg copies s a)
    (hs : s.1.step cfg a = some (n', out)) : Counting cfg n n' := by
  by_cases ha : ∃ b, a = .heal b
  · obtain ⟨b, rfl⟩ := ha
    exact h.of_heal hl (fun hb => hok.pass.1 (by rw [hb])) hs
  · rw [not_exists] at ha
    obtain ⟨hstore, hlive⟩ := hok.others ha hs
    have hheal := heal_of_others hs hok.pass.2.1 ha
    exact ⟨hstore.trans h.store, fun addr => (hlive addr).trans (h.live addr),
      fun count hc => h.counted count (hheal ▸ hc), fun live hp => h.picks live (hheal ▸ hp)⟩

end Counting

/-- Whatever the others do, the pass is on its way with nothing but its own writes. -/
theorem InPass.passing (hclean : n.store.Clean) (h : InPass cfg (PassAlone cfg copies) n n₂ sent) :
    Passing cfg copies (fun _ => True) (Counting cfg n) (fun _ _ => True) n₂ sent ∧
      n₂.db.files = n.db.files ∧ n₂.db.chunks = n.db.chunks := by
  obtain ⟨_, hrun⟩ := inPass_iff.mp h
  have hstart : Passing cfg copies (fun _ => True) (Counting cfg n) (fun _ _ => True) n.counting [] := by
    have hcounting : Counting cfg n n.counting := by
      refine ⟨rfl, fun _ => .rfl, ?_, by simp [counting, Picks]⟩
      rintro count hc
      cases hc
      rfl
    refine ⟨hclean, ?_, .before hcounting rfl rfl⟩
    intro c addr hmem
    cases hmem
  have hreach : ∀ s, Steps (sendStep cfg) (PassAlone cfg copies) (n.counting, []) s →
      Passing cfg copies (fun _ => True) (Counting cfg n) (fun _ _ => True) s.1 s.2 := by
    rintro ⟨m, sent⟩ hr
    refine hstart.of_steps hr (fun _ _ hok => hok.pass) ?_ ?_ fun _ _ _ => trivial
    · intro s a n' out _ hp hok ha hs
      have hstore := (hok.others ha hs).1
      have hdb : n'.db = s.1.db := by rw [NamingServer.db, hstore]
      refine ⟨hstore ▸ hp.clean, fun c _ => by rw [hdb], fun c addr hmem => ?_⟩
      rw [hdb]
      exact hp.backed c addr hmem
    · intro s a n' out _ hok hl hs hE
      exact hE.of_step hl hok hs
  refine ⟨hreach _ hrun, ?_⟩
  refine Steps.invariant (P := fun s : NamingServer × List StorageRpc =>
    s.1.db.files = n.db.files ∧ s.1.db.chunks = n.db.chunks) hrun ⟨rfl, rfl⟩ ?_
  rintro s a ⟨n', sent'⟩ hr ⟨hf, hch⟩ hok hs
  obtain ⟨out, hs, rfl⟩ := sendStep_eq_some.mp hs
  have hp := hreach s hr
  by_cases ha : ∃ b, a = .heal b
  · obtain ⟨b, rfl⟩ := ha
    cases hl : s.1.heal.listed with
    | false =>
      have hstore := (unlisted_of_step hl hs).1
      simp only at hstore ⊢
      rw [NamingServer.db, hstore]
      exact ⟨hf, hch⟩
    | true =>
      cases (pass_of_step hp.clean (hp.pass.sourced hl) hl hok.pass.2.2 hp.backed.not_raises hs).2 with
      | done _ _ _ _ hdb => exact ⟨hdb ▸ hf, hdb ▸ hch⟩
      | edit _ _ _ _ _ _ _ hf' hch' _ => exact ⟨hf'.trans hf, hch'.trans hch⟩
  · have hstore := (hok.others (not_exists.mp ha) hs).1
    simp only at hstore ⊢
    rw [NamingServer.db, hstore]
    exact ⟨hf, hch⟩

/-- What the pass has done by the time it has come to `n₂`: the first edits and the first
copies of the listing it made. -/
theorem InPass.done_so_far (hclean : n.store.Clean) (hbusy : n₂.heal.over = false)
    (h : InPass cfg (PassAlone cfg copies) n n₂ sent) :
    (n₂.heal.listed = false ∧ n₂.store = n.store ∧ attempts sent = [] ∧ Counting cfg n n₂) ∨
      ∃ o live es, live.Perm n.live ∧ cfg.replication ≤ live.length ∧
        n₂.heal.listed = true ∧ n₂.heal.live = live ∧
        passEdits cfg copies n.db o live = es ++ n₂.heal.todo cfg copies ∧
        passSends cfg copies n.db o live = attempts sent ++ n₂.heal.sends cfg copies ∧
        n₂.heal.repaired = es.countP Edit.isAdd ∧
        ∀ c, n₂.db.locations c = afterAll c (n.db.locations c) es := by
  obtain ⟨hp, _⟩ := h.passing hclean
  cases hp.pass with
  | before hE hl hsent => exact .inl ⟨hl, hE.store, hsent, hE⟩
  | listed n₁ o live hE _ h₁ hpart =>
    obtain ⟨hperm, hlen⟩ := hE.picks live (.inr h₁)
    obtain ⟨es, htodo, hrepaired, hlocs⟩ := hpart.edits
    have hdb : n₁.db = n.db := by rw [NamingServer.db, hE.store]
    refine .inr ⟨o, live, es, hperm, hlen, hpart.listed, hpart.live, ?_, ?_, ?_, fun c => ?_⟩
    · rw [← htodo, passEdits, ← hdb]
      rfl
    · rw [← hpart.sends, passSends, ← hdb]
      rfl
    · rw [hrepaired]
      exact Nat.zero_add _
    · rw [hlocs c trivial, ← hdb]
      rfl
  | ended h =>
    rw [h] at hbusy
    cases hbusy

/-- What a pass amounts to: nothing without enough live servers or when every known address
is live, and otherwise all edits and all copies of the listing. -/
theorem HealPass.cases (hclean : n.store.Clean)
    (h : HealPass cfg (PassAlone cfg copies) n n₂ n' b sent) :
    ¬ n₂.Raises (.heal b) ∧ n'.store.Clean ∧ n'.db.files = n.db.files ∧ n'.db.chunks = n.db.chunks ∧
      ((n.live.length < cfg.replication ∨ cfg.replication ≤ n.live.length ∧
          ∀ addr ∈ knownReplicaAddresses n.db, addr ∈ n.live) ∧
        n'.db = n.db ∧ attempts sent = [] ∧ n₂.heal.repaired = 0 ∨
      cfg.replication ≤ n.live.length ∧ ∃ o live, live.Perm n.live ∧
        attempts sent = passSends cfg copies n.db o live ∧
        n₂.heal.repaired = (passEdits cfg copies n.db o live).countP Edit.isAdd ∧
        ∀ c, n'.db.locations c = afterAll c (n.db.locations c) (passEdits cfg copies n.db o live)) := by
  obtain ⟨⟨sent₂, out, hin, hok, hs, rfl⟩, hbusy, hover⟩ := h
  obtain ⟨hp, hfiles, hchunks⟩ := hin.passing hclean
  obtain ⟨hstore, rfl, _, hlast⟩ := last_step hp.backed hp.clean hbusy hover hs
  have hdb : n'.db = n₂.db := by rw [NamingServer.db, hstore]
  rw [hdb, List.append_nil, hstore]
  refine ⟨hp.backed.not_raises, hp.clean, hfiles, hchunks, ?_⟩
  rcases hin.done_so_far hclean hbusy with ⟨hl, hstore₂, hsent, hcount⟩ |
    ⟨o, live, es, hperm, hlen, hl, hlive, hedits, hsends, hrepaired, hlocs⟩
  · left
    have hdb₂ : n₂.db = n.db := by rw [NamingServer.db, hstore₂]
    refine ⟨?_, hdb₂, hsent, ?_⟩
    · rcases hlast with ⟨count, _, hp, hlt⟩ | ⟨live, hp, hall⟩ | ⟨live, repaired, hp⟩
      · rw [(hcount.perm_pick hp).length_eq] at hlt
        exact .inl hlt
      · obtain ⟨hperm, hlen⟩ := hcount.picks live (.inl hp)
        rw [hdb₂] at hall
        exact .inr ⟨hperm.length_eq ▸ hlen, fun addr ha => hperm.mem_iff.mp (hall addr ha)⟩
      · simp [hp, HealPhase.listed] at hl
    · cases hp₂ : n₂.heal with
      | idle | counted | picked | known | refreshing => rfl
      | scanning | repairing | copying | copied | dropping => simp [hp₂, HealPhase.listed] at hl
  · right
    rcases hlast with ⟨count, _, hp, _⟩ | ⟨live, hp, _⟩ | ⟨live', repaired, hp⟩
    · simp [hp, HealPhase.listed] at hl
    · simp [hp, HealPhase.listed] at hl
    · rw [hp] at hedits hsends
      simp only [HealPhase.todo, HealPhase.sends, List.flatMap_nil, List.append_nil] at hedits hsends
      refine ⟨hperm.length_eq ▸ hlen, o, live, hperm, hsends.symm, ?_, ?_⟩
      · rw [hrepaired, hedits]
      · rw [hedits]
        exact hlocs

/-! ### The end of a call -/

/-- With its `try` behind it a pass writes nothing and asks for nothing. -/
theorem over_of_steps {s t : NamingServer × List StorageRpc}
    (h : Steps (sendStep cfg) (PassAlone cfg copies) s t) (hover : s.1.heal.over = true) :
    (t.1.heal = s.1.heal ∨ t.1.heal = .idle) ∧ t.1.store = s.1.store ∧ attempts t.2 = attempts s.2 := by
  have hwaits : ∀ t, Steps (sendStep cfg) (PassAlone cfg copies) s t →
      t.1.heal = s.1.heal ∨ t.1.heal = .idle := fun t ht =>
    refreshing_of_steps (fun _ _ ha => ⟨ha.pass.1, ha.pass.2.1⟩) ht hover
  refine ⟨hwaits t h, ?_⟩
  refine Steps.invariant (P := fun t : NamingServer × List StorageRpc =>
    t.1.store = s.1.store ∧ attempts t.2 = attempts s.2) h ⟨rfl, rfl⟩ ?_
  rintro t a ⟨n', sent'⟩ ht ⟨hstore, hsent⟩ hok hs
  obtain ⟨out, hs, rfl⟩ := sendStep_eq_some.mp hs
  rw [attempts_append]
  by_cases ha : ∃ b, a = .heal b
  · obtain ⟨b, rfl⟩ := ha
    have hl : t.1.heal.listed = false := by
      rcases hwaits t ht with he | he
      · rw [he]
        exact HealPhase.not_listed_of_over hover
      · rw [he]
        rfl
    obtain ⟨hsame, rfl, _⟩ := unlisted_of_step hl hs
    exact ⟨hsame.trans hstore, (List.append_nil _).trans hsent⟩
  · rw [not_exists] at ha
    rw [attempts_of_step hs ha, List.append_nil]
    exact ⟨(hok.others ha hs).1.trans hstore, hsent⟩

/-- A pass that is over has come to the end of its `try`. -/
theorem InPass.exists_healPass (h : InPass cfg (PassAlone cfg copies) n n₂ sent)
    (hover : n₂.heal.over = true) :
    ∃ m m' b sent', HealPass cfg (PassAlone cfg copies) n m m' b sent' ∧
      Steps (sendStep cfg) (PassAlone cfg copies) (m', sent') (n₂, sent) := by
  obtain ⟨hidle, hrun⟩ := inPass_iff.mp h
  have hnot : ¬ n.counting.heal.over = true := by simp [counting, HealPhase.over]
  obtain ⟨⟨m, sent₂⟩, ⟨m', sent'⟩, a, hin, hbusy, hok, hs, hended, hrest⟩ :=
    hrun.exists_crossing (Q := fun s => s.1.heal.over = true) hnot hover
  obtain ⟨out', hs, hsent⟩ := sendStep_eq_some.mp hs
  by_cases ha : ∃ b, a = .heal b
  · obtain ⟨b, rfl⟩ := ha
    exact ⟨m, m', b, sent', ⟨⟨sent₂, out', inPass_iff.mpr ⟨hidle, hin⟩, hok, hs, hsent⟩,
      Bool.eq_false_iff.mpr hbusy, hended⟩, hrest⟩
  · have hsame : m'.heal = m.heal := heal_of_others hs hok.pass.2.1 (not_exists.mp ha)
    exact absurd (hsame ▸ hended) hbusy

theorem HealPass.refreshing (hclean : n.store.Clean)
    (h : HealPass cfg (PassAlone cfg copies) n n₂ n' b sent) :
    n'.heal = .refreshing (some n₂.heal.repaired) := by
  obtain ⟨⟨sent₂, out, hin, _, hs, _⟩, hbusy, hended⟩ := h
  obtain ⟨hp, _⟩ := hin.passing hclean
  exact (last_step hp.backed hp.clean hbusy hended hs).2.2.1

/-- After its pass a call returns what was repaired, unless the total of the sizes overflows. -/
theorem HealCall.pass (hclean : n.store.Clean) {result : Option ℕ}
    (h : HealCall cfg (PassAlone cfg copies) n n' sent result) :
    ∃ m m' b sent', ∃ o : RowOrder, HealPass cfg (PassAlone cfg copies) n m m' b sent' ∧
      n'.store = m'.store ∧ attempts sent = attempts sent' ∧
      result = (committedBytes (o.view n'.db)).map fun _ => m.heal.repaired := by
  obtain ⟨n₂, n₃, n₄, b, sent₃, o, hpass, hrest, _, hs, hresult⟩ := h
  obtain ⟨hheal, hstore, hsent⟩ := over_of_steps hrest hpass.ended
  cases healCase_of_step hs with
  | refresh _ r hp =>
    refine ⟨n₂, n₃, b, sent₃, o, hpass, hstore, hsent, ?_⟩
    simp only at hheal
    rw [hp, hpass.refreshing hclean] at hheal
    rcases hheal with hheal | hheal
    · cases hheal
      rw [hresult, healResult, hp]
      exact Option.map_eq_bind.symm
    · cases hheal

/-- A call that is let go on comes to its end, whatever the order in which it reads the sizes. -/
theorem exists_healCall (cfg : Settings) (copies : ChunkId → Addr → Bool) (hclean : n.store.Clean)
    (hidle : n.heal = .idle) (o : RowOrder) :
    ∃ n' sent result, HealCall cfg (PassAlone cfg copies) n n' sent result ∧
      n'.db.files = n.db.files ∧ result.isSome = (committedBytes (o.view n'.db)).isSome := by
  have hends : Ends cfg (PassAlone cfg copies) n.counting := ends_of_pass letsHeal_passAlone _
  obtain ⟨s, hrun, hend⟩ := hends []
  have hin : InPass cfg (PassAlone cfg copies) n s.1 s.2 := inPass_iff.mpr ⟨hidle, hrun⟩
  obtain ⟨m, m', b, sent', hpass, _⟩ := hin.exists_healPass (by rw [hend]; rfl)
  have hheal := hpass.refreshing hclean
  obtain ⟨_, _, hfiles, _⟩ := hpass.cases hclean
  have hs : m'.step cfg (.heal (.refresh o)) = some ({ m' with heal := .idle }, []) := by
    simp only [step, healStep, hheal]
  refine ⟨_, sent', m'.healResult o, ⟨m, m', m', b, sent', o, hpass, .refl, trivial, hs, rfl⟩, hfiles, ?_⟩
  rw [healResult, hheal]
  show ((committedBytes (o.view m'.db)).bind fun _ => some m.heal.repaired).isSome =
    (committedBytes (o.view m'.db)).isSome
  cases committedBytes (o.view m'.db) <;> rfl

/-! ### One chunk -/

/-- Committed, with some but too few of its addresses among `live`. -/
def Short (cfg : Settings) (db : Db) (live : List Addr) (c : ChunkId) : Prop :=
  c ∈ db.chunks.map ChunkRow.chunkId ∧ db.CommittedChunk c ∧
    0 < ((db.locations c).filter (· ∈ live)).length ∧
    ((db.locations c).filter (· ∈ live)).length < cfg.replication

section Chunk

variable {db : Db} {o : RowOrder} {live : List Addr} {c : ChunkId}

theorem view_commaFree (hcomma : ∀ addr ∈ db.locations c, CommaFree addr) :
    ∀ addr ∈ (o.view db).locations c, CommaFree addr := by
  intro addr ha
  exact hcomma addr ((o.locations_perm db c).mem_iff.mp ha)

theorem locations_commaFree (hcomma : ∀ r ∈ db.replicas, CommaFree r.address) :
    ∀ addr ∈ db.locations c, CommaFree addr :=
  fun addr ha => hcomma ⟨c, addr⟩ (db.mem_locations.mp ha)

theorem length_live_view (c : ChunkId) : (((o.view db).locations c).filter (· ∈ live)).length =
    ((db.locations c).filter (· ∈ live)).length :=
  ((o.locations_perm db c).filter _).length_eq

/-- The loop does something for short chunks only. -/
theorem short_of_repair {m : ChunkMeta} {w : Repair}
    (hcomma : ∀ addr ∈ db.locations m.chunkId, CommaFree addr)
    (hm : m ∈ underReplicatedChunks (o.view db) live cfg.replication)
    (hw : startRepair cfg live m = some w) : Short cfg db live m.chunkId := by
  obtain ⟨r, hr, hcom, hlt, rfl⟩ := mem_underReplicatedChunks.mp hm
  obtain ⟨_, hwl, hne, _⟩ := startRepair_eq_some hw
  rw [o.mem_chunks] at hr
  rw [o.committedChunk] at hcom
  rw [liveCount_leftJoin, length_live_view] at hlt
  refine ⟨List.mem_map_of_mem hr, hcom, ?_, hlt⟩
  rcases splitAddrs_groupConcat (view_commaFree hcomma) with he | he
  · rw [he, Lists.eraseDups_of_nodup ((o.view db).locations_nodup _)] at hwl
    rw [← length_live_view, ← hwl]
    exact List.length_pos_iff.mpr hne
  · rw [he] at hwl
    exact absurd (by simpa using hwl) hne

/-- With its target of addresses a short chunk has more than one. -/
theorem Short.ne_singleton (hc : Short cfg db live c) (hfull : cfg.replication ≤ (db.locations c).length)
    (addr : Addr) : db.locations c ≠ [addr] := by
  obtain ⟨_, _, hpos, hlt⟩ := hc
  intro he
  rw [he, List.length_singleton] at hfull
  omega

variable (hcomma : ∀ addr ∈ db.locations c, CommaFree addr)

include hcomma

/-- A short chunk whose addresses can be told apart in the listing is listed and repaired. -/
theorem repair_of_short (hc : Short cfg db live c) (hne : db.locations c ≠ [[]]) :
    ∃ m ∈ underReplicatedChunks (o.view db) live cfg.replication, m.chunkId = c ∧
      m.locations = (o.view db).locations c ∧
      startRepair cfg live m = some ⟨c, m.locations.filter (· ∈ live), m.locations.filter (· ∉ live),
        live.filter (· ∉ m.locations)⟩ := by
  obtain ⟨hmem, hcom, hpos, hlt⟩ := hc
  obtain ⟨r, hr, rfl⟩ := List.mem_map.mp hmem
  have hsplit := splitAddrs_groupConcat_of_ne (view_commaFree hcomma (o := o) (c := r.chunkId))
    fun he => hne (List.perm_singleton.mp (he ▸ (o.locations_perm db r.chunkId).symm))
  have hlive : ((o.view db).locations r.chunkId).filter (· ∈ live) ≠ [] :=
    List.ne_nil_of_length_pos (by rw [length_live_view]; exact hpos)
  refine ⟨⟨r.chunkId, r.idx, splitAddrs (groupConcat (leftJoinReplicas (o.view db) r))⟩,
    mem_underReplicatedChunks.mpr ⟨r, by simpa using hr, by simpa using hcom, ?_, rfl⟩, rfl, hsplit, ?_⟩
  · rw [liveCount_leftJoin, length_live_view]
    exact hlt
  · simp only [startRepair, hsplit, Lists.eraseDups_of_nodup ((o.view db).locations_nodup _)]
    rw [if_neg (by rw [length_live_view]; omega), if_neg hlive]

variable (copies) in
/-- The edits and the copies for a short chunk are those of its repair. -/
theorem pass_of_short (hc : Short cfg db live c) (hne : db.locations c ≠ [[]]) :
    ∃ w : Repair, w.chunkId = c ∧ w.live = ((o.view db).locations c).filter (· ∈ live) ∧
      w.stale = ((o.view db).locations c).filter (· ∉ live) ∧
      w.candidates = live.filter (· ∉ (o.view db).locations c) ∧
      (passEdits cfg copies db o live).filter (·.key = c) = w.todo cfg copies ∧
      (passSends cfg copies db o live).filter (·.1 = c) = w.sends cfg copies := by
  obtain ⟨m, hm, rfl, hlocs, hw⟩ := repair_of_short hcomma (o := o) hc hne
  have hkeys := underReplicatedChunks_nodup (o.view db) live cfg.replication
  rw [hlocs] at hw
  refine ⟨⟨m.chunkId, _, _, _⟩, rfl, rfl, rfl, rfl, ?_, ?_⟩
  · rw [passEdits, Lists.filter_flatMap_key hkeys (fun _ _ he => key_of_mem_repairsOf he) hm,
      repairsOf, hw]
  · rw [passSends, Lists.filter_flatMap_key hkeys (fun _ _ he => key_of_mem_sendsOf he) hm, sendsOf, hw]

variable (copies) in
/-- Nothing is done for another chunk. -/
theorem pass_of_not_short (hc : ¬ Short cfg db live c) :
    (∀ e ∈ passEdits cfg copies db o live, e.key ≠ c) ∧
      ∀ x ∈ passSends cfg copies db o live, x.1 ≠ c := by
  have hnone : ∀ m ∈ underReplicatedChunks (o.view db) live cfg.replication, m.chunkId = c →
      startRepair cfg live m = none := by
    rintro m hm rfl
    rw [Option.eq_none_iff_forall_ne_some]
    exact fun w hw => hc (short_of_repair hcomma hm hw)
  constructor
  · intro e he hk
    obtain ⟨m, hm, he⟩ := List.mem_flatMap.mp he
    rw [key_of_mem_repairsOf he] at hk
    simp [repairsOf, hnone m hm hk] at he
  · intro x hx hk
    obtain ⟨m, hm, hx⟩ := List.mem_flatMap.mp hx
    rw [key_of_mem_sendsOf hx] at hk
    simp [sendsOf, hnone m hm hk] at hx

end Chunk

/-- The servers that were asked for a copy of `c`. -/
def asked (sent : List (ChunkId × Addr)) (c : ChunkId) : List Addr :=
  (sent.filter (·.1 = c)).map Prod.snd

/-- What a pass makes of a short chunk recorded at `before`: the servers `asked` are live
and had no copy, as many of them succeed as the chunk is short of or as there are, and each
success takes the place of one address that is not live. -/
structure Repaired (cfg : Settings) (ok : Addr → Bool) (live before asked after : List Addr) : Prop where
  asked_nodup : asked.Nodup
  asked_live : ∀ addr ∈ asked, addr ∈ live ∧ addr ∉ before
  successes : (asked.filter ok).length = min (cfg.replication - (before.filter (· ∈ live)).length)
    (live.filter fun addr => addr ∉ before ∧ ok addr).length
  replaced : ∃ dropped : List Addr, dropped.Nodup ∧ dropped.length = (asked.filter ok).length ∧
    (∀ addr ∈ dropped, addr ∈ before ∧ addr ∉ live) ∧
    ∀ addr, addr ∈ after ↔ addr ∈ before ∧ addr ∉ dropped ∨ addr ∈ asked ∧ ok addr
  length : after.length = before.length
  live_length : (after.filter (· ∈ live)).length =
    (before.filter (· ∈ live)).length + (asked.filter ok).length

theorem Repaired.of_perm {ok : Addr → Bool} {live live' before asked after : List Addr}
    (h : Repaired cfg ok live before asked after) (hperm : live.Perm live') :
    Repaired cfg ok live' before asked after := by
  have hmem : ∀ addr, addr ∈ live' ↔ addr ∈ live := fun addr => hperm.symm.mem_iff
  obtain ⟨hnd, hlive, hsucc, hrep, hlen, hcount⟩ := h
  refine ⟨hnd, ?_, ?_, ?_, hlen, ?_⟩
  · simpa only [hmem] using hlive
  · simp only [hmem]
    rw [hsucc, (hperm.filter _).length_eq]
  · simpa only [hmem] using hrep
  · simpa only [hmem] using hcount

/-- The live servers are those that have no copy and those that have one. -/
theorem length_spare_add {live before : List Addr} (hlive : live.Nodup) (hbefore : before.Nodup) :
    (live.filter (· ∉ before)).length + (before.filter (· ∈ live)).length = live.length := by
  have hhave : (live.filter (· ∈ before)).Perm (before.filter (· ∈ live)) := by
    refine (List.perm_ext_iff_of_nodup (hlive.filter _) (hbefore.filter _)).mpr fun addr => ?_
    simp only [List.mem_filter, decide_eq_true_eq]
    exact And.comm
  have hsplit := List.length_eq_length_filter_add (l := live) (· ∈ before)
  simp only [← decide_not] at hsplit
  rw [hhave.length_eq] at hsplit
  omega

/-- When every copy succeeds, a short chunk gets all the live addresses it is short of. -/
theorem Repaired.reaches {ok : Addr → Bool} {live before asked after : List Addr}
    (h : Repaired cfg ok live before asked after) (hok : ∀ addr, ok addr = true) (hlive : live.Nodup)
    (hbefore : before.Nodup) (hlen : cfg.replication ≤ live.length)
    (hlt : (before.filter (· ∈ live)).length ≤ cfg.replication) :
    (after.filter (· ∈ live)).length = cfg.replication := by
  have hfree : (live.filter fun addr => addr ∉ before ∧ ok addr) = live.filter (· ∉ before) :=
    List.filter_congr fun addr _ => by simp [hok]
  have hsplit := length_spare_add hlive hbefore
  rw [h.live_length, h.successes, hfree]
  omega

section RepairOf

variable {w : Repair} {before walked live : List Addr} (copies) (hperm : walked.Perm before)

include hperm

omit copies in
theorem stale_of_repair (hws : w.stale = walked.filter (· ∉ live)) :
    ∀ addr ∈ w.stale, addr ∈ before ∧ addr ∉ live := by
  intro addr ha
  rw [hws, List.mem_filter, decide_eq_true_eq, hperm.mem_iff] at ha
  exact ha

variable (hlive : live.Nodup) (hwc : w.candidates = live.filter (· ∉ walked))

include hlive hwc

theorem tries_of_repair (cfg : Settings) :
    (w.tries cfg copies).Nodup ∧ ∀ addr ∈ w.tries cfg copies, addr ∈ live ∧ addr ∉ before := by
  refine ⟨(hwc ▸ hlive.filter _).sublist (Lists.tried_prefix _ _ _).sublist, fun addr ha => ?_⟩
  have ha := (Lists.tried_prefix _ _ _).subset ha
  rw [hwc, List.mem_filter, decide_eq_true_eq, hperm.mem_iff] at ha
  exact ha

theorem targets_of_repair (cfg : Settings) :
    (w.targets cfg copies).Nodup ∧ ∀ addr ∈ w.targets cfg copies, addr ∈ live ∧ addr ∉ before := by
  obtain ⟨hnd, htries⟩ := tries_of_repair copies hperm hlive hwc cfg
  exact ⟨hnd.filter _, fun addr ha => htries addr (List.mem_filter.mp ha).1⟩

omit hlive in
/-- As many copies succeed as the chunk is short of, or as there are. -/
theorem length_targets_of_repair (cfg : Settings) (hwl : w.live = walked.filter (· ∈ live)) :
    (w.targets cfg copies).length = min (cfg.replication - (before.filter (· ∈ live)).length)
      (live.filter fun addr => addr ∉ before ∧ copies w.chunkId addr).length := by
  have hlen : w.live.length = (before.filter (· ∈ live)).length := by
    rw [hwl, (hperm.filter _).length_eq]
  have hcand : (w.candidates.filter (copies w.chunkId)).length =
      (live.filter fun addr => addr ∉ before ∧ copies w.chunkId addr).length := by
    rw [hwc, List.filter_filter]
    congr 1
    refine List.filter_congr fun addr _ => ?_
    simp [hperm.mem_iff, Bool.and_comm]
  rw [Repair.targets, Repair.tries, Lists.filter_tried, List.length_take, hlen, hcand]

variable (hws : w.stale = walked.filter (· ∉ live))

include hws

/-- The targets take the place of the first stale addresses. -/
theorem afterAll_of_repair : afterAll w.chunkId before (w.todo cfg copies) =
    before.filter (· ∉ w.stale.take (w.targets cfg copies).length) ++ w.targets cfg copies := by
  obtain ⟨hnd, htargets⟩ := targets_of_repair copies hperm hlive hwc cfg
  refine (afterAll_replace hnd (fun addr ha => (htargets addr ha).2)
    fun addr ha hs => (stale_of_repair hperm hws addr hs).2 (htargets addr ha).1).trans ?_
  congr 1
  exact List.filter_congr fun addr _ => by simp

/-- A repair drops no live address. -/
theorem live_length_of_repair :
    ((afterAll w.chunkId before (w.todo cfg copies)).filter (· ∈ live)).length =
      (before.filter (· ∈ live)).length + (w.targets cfg copies).length := by
  have hdropped : ∀ addr ∈ w.stale.take (w.targets cfg copies).length, addr ∉ live := fun addr ha =>
    (stale_of_repair hperm hws addr (List.mem_of_mem_take ha)).2
  have htargets := (targets_of_repair copies hperm hlive hwc cfg).2
  rw [afterAll_of_repair copies hperm hlive hwc hws,
    Lists.filter_replaced (fun addr ha => decide_eq_false (hdropped addr ha))
      fun addr ha => decide_eq_true (htargets addr ha).1, List.length_append]

/-- The repair of a chunk recorded at `before`, which the query walked as `walked`. -/
theorem repaired_of_repair (hnd : before.Nodup) (hfull : cfg.replication ≤ before.length)
    (hwl : w.live = walked.filter (· ∈ live)) :
    Repaired cfg (copies w.chunkId) live before (w.tries cfg copies)
      (afterAll w.chunkId before (w.todo cfg copies)) := by
  obtain ⟨htries_nd, htries⟩ := tries_of_repair copies hperm hlive hwc cfg
  have hstale := stale_of_repair hperm hws
  have hstale_nd : w.stale.Nodup := hws ▸ (hperm.nodup_iff.mpr hnd).filter _
  have hcount := length_targets_of_repair copies hperm hwc cfg hwl
  -- a stale address for every success
  have hsplit : w.stale.length + (before.filter (· ∈ live)).length = before.length := by
    have hle := List.length_eq_length_filter_add (l := walked) (· ∈ live)
    simp only [← decide_not] at hle
    rw [hws, ← (hperm.filter _).length_eq, ← hperm.length_eq]
    omega
  set dropped := w.stale.take (w.targets cfg copies).length with hdropped
  have hdropped_len : dropped.length = (w.targets cfg copies).length := by
    rw [hdropped, List.length_take]
    omega
  have hdropped_nd : dropped.Nodup := hstale_nd.sublist (List.take_sublist _ _)
  have hdropped_stale : ∀ addr ∈ dropped, addr ∈ before ∧ addr ∉ live := fun addr ha =>
    hstale addr (List.mem_of_mem_take ha)
  have hafter : afterAll w.chunkId before (w.todo cfg copies) =
      before.filter (· ∉ dropped) ++ w.targets cfg copies :=
    afterAll_of_repair copies hperm hlive hwc hws
  have hkept := Lists.length_filter_not_mem hnd hdropped_nd fun addr ha => (hdropped_stale addr ha).1
  refine ⟨htries_nd, htries, hcount, ⟨dropped, hdropped_nd, hdropped_len, hdropped_stale, ?_⟩, ?_, ?_⟩
  · intro addr
    simp only [hafter, List.mem_append, List.mem_filter, decide_eq_true_eq, Repair.targets]
  · rw [hafter, List.length_append, ← hdropped_len]
    exact hkept
  · exact live_length_of_repair copies hperm hlive hwc hws

end RepairOf

/-- Every success is recorded once. -/
theorem countP_passEdits (db : Db) (o : RowOrder) (live : List Addr) :
    (passEdits cfg copies db o live).countP Edit.isAdd =
      ((passSends cfg copies db o live).filter fun x => copies x.1 x.2).length := by
  have hone : ∀ m, (repairsOf cfg copies live m).countP Edit.isAdd =
      ((sendsOf cfg copies live m).filter fun x => copies x.1 x.2).length := by
    intro m
    unfold repairsOf sendsOf
    cases startRepair cfg live m with
    | none => rfl
    | some w =>
      show (w.todo cfg copies).countP Edit.isAdd =
        ((w.sends cfg copies).filter fun x => copies x.1 x.2).length
      rw [Repair.todo, countP_isAdd_replace, Repair.sends, List.filter_map, List.length_map,
        Repair.targets]
      rfl
  unfold passEdits passSends
  induction underReplicatedChunks (o.view db) live cfg.replication with
  | nil => rfl
  | cons m ms ih =>
    rw [List.flatMap_cons, List.countP_append, hone, ih, List.flatMap_cons, List.filter_append,
      List.length_append]

theorem not_live_of_remove {db : Db} {o : RowOrder} {live : List Addr} {c : ChunkId} {addr : Addr}
    (h : .remove c addr ∈ passEdits cfg copies db o live) : addr ∉ live := by
  obtain ⟨m, _, he⟩ := List.mem_flatMap.mp h
  unfold repairsOf at he
  split at he
  · cases he
  · rename_i w hw
    obtain ⟨_, _, _, hws, _⟩ := startRepair_eq_some hw
    have hstale := mem_of_remove_mem_replace he
    rw [hws, List.mem_filter, decide_eq_true_eq] at hstale
    exact hstale.2

/-! ### The whole pass -/

/-- The pass changes nothing and asks for nothing. -/
structure Rests (n n' : NamingServer) (sent : List StorageRpc) : Prop where
  files : n'.db.files = n.db.files
  chunks : n'.db.chunks = n.db.chunks
  locations : ∀ c, n'.db.locations c = n.db.locations c
  asked : attempts sent = []

/-- What one call of `heal_once` does to metadata in which every committed chunk has its target of
addresses, and what a second one does. -/
structure RepairsExactly (cfg : Settings) (copies : ChunkId → Addr → Bool) (n : NamingServer) :
    Prop where
  ends : ∀ n₂ sent, InPass cfg (PassAlone cfg copies) n n₂ sent →
    ∃ s, Steps (sendStep cfg) (PassAlone cfg copies) (n₂, sent) s ∧ s.1.heal = .idle
  keeps : ∀ n₂ sent, InPass cfg (PassAlone cfg copies) n n₂ sent →
    ∀ c, ∀ addr ∈ n.live, addr ∈ n.db.locations c → addr ∈ n₂.db.locations c
  drops : ∀ n₂ sent live rest repaired w addr, InPass cfg (PassAlone cfg copies) n n₂ sent →
    n₂.heal = .dropping live rest repaired w addr → addr ∉ n.live
  returns : ∀ n' sent result, HealCall cfg (PassAlone cfg copies) n n' sent result →
    result = some ((attempts sent).filter fun x => copies x.1 x.2).length
  few : ∀ n' sent result, HealCall cfg (PassAlone cfg copies) n n' sent result →
    n.live.length < cfg.replication → n'.db = n.db ∧ attempts sent = []
  repaired : ∀ n' sent result, HealCall cfg (PassAlone cfg copies) n n' sent result →
    cfg.replication ≤ n.live.length → ∀ c, Short cfg n.db n.live c →
    (n'.db.locations c).length = cfg.replication ∧
      Repaired cfg (copies c) n.live (n.db.locations c) (asked (attempts sent) c) (n'.db.locations c)
  others : ∀ n' sent result, HealCall cfg (PassAlone cfg copies) n n' sent result →
    n'.db.files = n.db.files ∧ n'.db.chunks = n.db.chunks ∧ ∀ c, ¬ Short cfg n.db n.live c →
    n'.db.locations c = n.db.locations c ∧ asked (attempts sent) c = []
  again : (∀ c addr, copies c addr = true) →
    ∀ n' sent result, HealCall cfg (PassAlone cfg copies) n n' sent result →
    ∀ m copies' m' sent' result', m.store = n'.store → (∀ addr, addr ∈ m.live ↔ addr ∈ n.live) →
    HealCall cfg (PassAlone cfg copies') m m' sent' result' →
    Rests m m' sent' ∧ result' = some 0

theorem short_perm {db : Db} {live live' : List Addr} {c : ChunkId} (hperm : live.Perm live') :
    Short cfg db live c ↔ Short cfg db live' c := by
  have hlive : (db.locations c).filter (· ∈ live) = (db.locations c).filter (· ∈ live') :=
    List.filter_congr fun addr _ => by simp [hperm.mem_iff]
  rw [Short, Short, hlive]

section Exact

variable (hclean : n.store.Clean) (hcomma : ∀ r ∈ n.db.replicas, CommaFree r.address)

include hclean

theorem InPass.keeps_busy (h : InPass cfg (PassAlone cfg copies) n n₂ sent)
    (hbusy : n₂.heal.over = false) (c : ChunkId) {addr : Addr} (hlive : addr ∈ n.live)
    (ha : addr ∈ n.db.locations c) : addr ∈ n₂.db.locations c := by
  rcases h.done_so_far hclean hbusy with ⟨_, hstore, _⟩ | ⟨o, live, es, hperm, _, _, _, hedits, _, _, hlocs⟩
  · rwa [NamingServer.db, hstore]
  · rw [hlocs]
    refine mem_afterAll ha fun hmem => ?_
    exact not_live_of_remove (hedits ▸ List.mem_append_left _ hmem) (hperm.mem_iff.mpr hlive)

theorem InPass.keeps (h : InPass cfg (PassAlone cfg copies) n n₂ sent) (c : ChunkId) {addr : Addr}
    (hlive : addr ∈ n.live) (ha : addr ∈ n.db.locations c) : addr ∈ n₂.db.locations c := by
  cases hover : n₂.heal.over with
  | false => exact h.keeps_busy hclean hover c hlive ha
  | true =>
    obtain ⟨m, m', b, sent', hpass, hafter⟩ := h.exists_healPass hover
    obtain ⟨⟨sent₂, out, hin, _, hs, _⟩, hbusy, hended⟩ := hpass
    obtain ⟨hp, _⟩ := hin.passing hclean
    have hstore : n₂.store = m.store :=
      (over_of_steps hafter hended).2.1.trans (last_step hp.backed hp.clean hbusy hended hs).1
    rw [NamingServer.db, hstore]
    exact hin.keeps_busy hclean hbusy c hlive ha

theorem InPass.drops (h : InPass cfg (PassAlone cfg copies) n n₂ sent) {live : List Addr}
    {rest : List ChunkMeta} {repaired : ℕ} {w : Repair} {addr : Addr}
    (hp : n₂.heal = .dropping live rest repaired w addr) : addr ∉ n.live := by
  rcases h.done_so_far hclean (by rw [hp]; rfl) with ⟨hl, _⟩ | ⟨o, live', es, hperm, _, _, _, hedits, _⟩
  · simp [hp, HealPhase.listed] at hl
  · rw [hp] at hedits
    have hmem : .remove w.chunkId addr ∈ passEdits cfg copies n.db o live' := by
      rw [hedits]
      simp [HealPhase.todo]
    exact fun hlive => not_live_of_remove hmem (hperm.mem_iff.mpr hlive)

include hcomma

/-- A short chunk rules out the ways of returning early. -/
theorem HealPass.repaired (h : HealPass cfg (PassAlone cfg copies) n n₂ n' b sent)
    (hlen : cfg.replication ≤ n.live.length) {c : ChunkId} (hc : Short cfg n.db n.live c)
    (hfull : cfg.replication ≤ (n.db.locations c).length) :
    Repaired cfg (copies c) n.live (n.db.locations c) (asked (attempts sent) c) (n'.db.locations c) := by
  obtain ⟨_, _, _, _, ⟨hearly, _⟩ | ⟨_, o, live, hperm, hsent, _, hlocs⟩⟩ := h.cases hclean
  · rcases hearly with hlt | ⟨_, hknown⟩
    · omega
    · -- every address of the chunk would be live
      obtain ⟨hmem, hcom, hpos, hlt⟩ := hc
      obtain ⟨r, hr, rfl⟩ := List.mem_map.mp hmem
      have hall : (n.db.locations r.chunkId).filter (· ∈ n.live) = n.db.locations r.chunkId :=
        List.filter_eq_self.mpr fun addr ha => decide_eq_true
          (hknown addr (mem_knownReplicaAddresses.mpr ⟨r, hr, hcom, ha⟩))
      rw [hall] at hlt
      omega
  · obtain ⟨w, rfl, hwl, hws, hwc, hedits, hsends⟩ :=
      pass_of_short copies (locations_commaFree hcomma) (o := o) ((short_perm hperm).mpr hc)
        (hc.ne_singleton hfull _)
    have hrep := repaired_of_repair copies (o.locations_perm n.db w.chunkId)
      (hperm.nodup_iff.mpr n.live_nodup) hwc hws (n.db.locations_nodup _) hfull hwl
    have hasked : asked (attempts sent) w.chunkId = w.tries cfg copies := by
      rw [asked, hsent, hsends, Repair.sends, List.map_map]
      simp [Function.comp_def]
    rw [hlocs, ← afterAll_filter, hedits, hasked]
    exact hrep.of_perm hperm

theorem HealPass.others (h : HealPass cfg (PassAlone cfg copies) n n₂ n' b sent) {c : ChunkId}
    (hc : ¬ Short cfg n.db n.live c) :
    n'.db.locations c = n.db.locations c ∧ asked (attempts sent) c = [] := by
  obtain ⟨_, _, _, _, ⟨_, hdb, hsent, _⟩ | ⟨_, o, live, hperm, hsent, _, hlocs⟩⟩ := h.cases hclean
  · rw [hdb, hsent]
    exact ⟨rfl, rfl⟩
  · obtain ⟨hedits, hsends⟩ := pass_of_not_short copies (locations_commaFree hcomma) (o := o)
      (fun hs => hc ((short_perm hperm).mp hs))
    rw [hlocs, hsent, asked, List.filter_eq_nil_iff.mpr fun x hx => by simpa using hsends x hx]
    exact ⟨afterAll_of_ne hedits _, rfl⟩

end Exact

theorem HealPass.total (hclean : n.store.Clean)
    (h : HealPass cfg (PassAlone cfg copies) n n₂ n' b sent) :
    n₂.heal.repaired = ((attempts sent).filter fun x => copies x.1 x.2).length := by
  obtain ⟨_, _, _, _, ⟨_, _, hsent, hrepaired⟩ | ⟨_, o, live, _, hsent, hrepaired, _⟩⟩ := h.cases hclean
  · rw [hsent, hrepaired]
    rfl
  · rw [hsent, hrepaired]
    exact countP_passEdits n.db o live

section Again

variable (hclean : n.store.Clean) (hcomma : ∀ r ∈ n.db.replicas, CommaFree r.address)
  (h : HealPass cfg (PassAlone cfg copies) n n₂ n' b sent)

include hclean hcomma h

/-- Without short chunks there is nothing to do. -/
theorem HealPass.rests (hshort : cfg.replication ≤ n.live.length → ∀ c, ¬ Short cfg n.db n.live c) :
    Rests n n' sent ∧ n₂.heal.repaired = 0 := by
  obtain ⟨_, _, hfiles, hchunks, ⟨_, hdb, hsent, hrepaired⟩ |
    ⟨hlen, o, live, hperm, hsent, hrepaired, hlocs⟩⟩ := h.cases hclean
  · exact ⟨⟨hfiles, hchunks, fun c => by rw [hdb], hsent⟩, hrepaired⟩
  · have hnot : ∀ c, ¬ Short cfg n.db live c := fun c hc => hshort hlen c ((short_perm hperm).mp hc)
    have hedits : passEdits cfg copies n.db o live = [] :=
      List.eq_nil_iff_forall_not_mem.mpr fun e he =>
        (pass_of_not_short copies (locations_commaFree hcomma) (hnot e.key)).1 e he rfl
    have hsends : passSends cfg copies n.db o live = [] :=
      List.eq_nil_iff_forall_not_mem.mpr fun x hx =>
        (pass_of_not_short copies (locations_commaFree hcomma) (hnot x.1)).2 x hx rfl
    rw [hedits] at hrepaired hlocs
    exact ⟨⟨hfiles, hchunks, hlocs, hsent.trans hsends⟩, hrepaired⟩

variable (hfloor : ∀ c, Short cfg n.db n.live c → cfg.replication ≤ (n.db.locations c).length)

include hfloor

/-- The addresses of the pass are recorded ones and live ones. -/
theorem HealPass.commaFree (hlive : ∀ addr ∈ n.live, CommaFree addr) :
    ∀ r ∈ n'.db.replicas, CommaFree r.address := by
  rintro ⟨c, addr⟩ hr
  rw [← Db.mem_locations] at hr
  have hold : addr ∈ n.db.locations c → CommaFree addr := fun ha =>
    hcomma ⟨c, addr⟩ (n.db.mem_locations.mp ha)
  by_cases hc : Short cfg n.db n.live c
  · obtain ⟨_, _, _, _, ⟨_, hdb, _⟩ | ⟨hlen, _⟩⟩ := h.cases hclean
    · exact hold (hdb ▸ hr)
    · have hrep := h.repaired hclean hcomma hlen hc (hfloor c hc)
      obtain ⟨dropped, _, _, _, hafter⟩ := hrep.replaced
      rcases (hafter addr).mp hr with ⟨ha, _⟩ | ⟨ha, _⟩
      · exact hold ha
      · exact hlive addr (hrep.asked_live addr ha).1
  · rw [(h.others hclean hcomma hc).1] at hr
    exact hold hr

/-- When every copy succeeds, no chunk is short after the pass. -/
theorem HealPass.settled (hok : ∀ c addr, copies c addr = true) (hlen : cfg.replication ≤ n.live.length)
    (c : ChunkId) : ¬ Short cfg n'.db n.live c := by
  rintro ⟨hmem, hcom, hpos, hlt⟩
  obtain ⟨_, _, hfiles, hchunks, _⟩ := h.cases hclean
  have hcom : n.db.CommittedChunk c := by
    simpa only [Db.CommittedChunk, hfiles, hchunks] using hcom
  rw [hchunks] at hmem
  by_cases hc : Short cfg n.db n.live c
  · have hrep := h.repaired hclean hcomma hlen hc (hfloor c hc)
    rw [hrep.reaches (hok c) n.live_nodup (n.db.locations_nodup c) hlen hc.2.2.2.le] at hlt
    exact absurd hlt (lt_irrefl _)
  · rw [(h.others hclean hcomma hc).1] at hpos hlt
    exact hc ⟨hmem, hcom, hpos, hlt⟩

end Again

/-- With sizes whose sum never overflows the call does exactly the needed repairs. -/
theorem repairsExactly_of_summable (hclean : n.store.Clean)
    (hfull : ∀ r ∈ n.db.chunks, n.db.CommittedChunk r.chunkId →
      (n.db.locations r.chunkId).length = cfg.replication)
    (hcomma : ∀ r ∈ n.db.replicas, CommaFree r.address) (hlive : ∀ addr ∈ n.live, CommaFree addr)
    (hsum : n.db.Summable) : RepairsExactly cfg copies n := by
  have hfloor : ∀ {c}, Short cfg n.db n.live c → (n.db.locations c).length = cfg.replication := by
    rintro c ⟨hmem, hcom, _⟩
    obtain ⟨r, hr, rfl⟩ := List.mem_map.mp hmem
    exact hfull r hr hcom
  have hfloor' : ∀ c, Short cfg n.db n.live c → cfg.replication ≤ (n.db.locations c).length :=
    fun c hc => (hfloor hc).ge
  have hresult : ∀ {db : Db} {o : RowOrder} {k : ℕ}, db.files = n.db.files →
      (committedBytes (o.view db)).map (fun _ => k) = some k := by
    intro db o k hfiles
    obtain ⟨total, htotal⟩ := Option.isSome_iff_exists.mp ((hsum.of_files hfiles).view o)
    rw [htotal, Option.map_some]
  refine ⟨?_, ?_, ?_, ?_, ?_, ?_, ?_, ?_⟩
  · intro n₂ sent _
    exact ends_of_pass letsHeal_passAlone n₂ sent
  · intro n₂ sent h c addr ha hmem
    exact h.keeps hclean c ha hmem
  · intro n₂ sent live rest repaired w addr h hp
    exact h.drops hclean hp
  · intro n' sent result h
    obtain ⟨m, m', b, sent', o, hpass, hstore, hsent, rfl⟩ := h.pass hclean
    obtain ⟨_, _, hfiles, _⟩ := hpass.cases hclean
    rw [hresult (by rw [NamingServer.db, hstore]; exact hfiles), hpass.total hclean, hsent]
  · intro n' sent result h hlt
    obtain ⟨m, m', b, sent', o, hpass, hstore, hsent, _⟩ := h.pass hclean
    obtain ⟨_, _, _, _, ⟨_, hdb, hnone, _⟩ | ⟨hlen, _⟩⟩ := hpass.cases hclean
    · exact ⟨by rw [NamingServer.db, hstore]; exact hdb, hsent.trans hnone⟩
    · omega
  · intro n' sent result h hlen c hc
    obtain ⟨m, m', b, sent', o, hpass, hstore, hsent, _⟩ := h.pass hclean
    have hrep := hpass.repaired hclean hcomma hlen hc (hfloor hc).ge
    rw [NamingServer.db, hstore, hsent]
    exact ⟨hrep.length.trans (hfloor hc), hrep⟩
  · intro n' sent result h
    obtain ⟨m, m', b, sent', o, hpass, hstore, hsent, _⟩ := h.pass hclean
    obtain ⟨_, _, hfiles, hchunks, _⟩ := hpass.cases hclean
    rw [NamingServer.db, hstore, hsent]
    exact ⟨hfiles, hchunks, fun c hc => hpass.others hclean hcomma hc⟩
  · intro hok n' sent result h m copies' m' sent' result' hstore hsame h'
    obtain ⟨m₁, n₁, b, sent₁, o, hpass, hstore₁, _, _⟩ := h.pass hclean
    have hstore : m.store = n₁.store := hstore.trans hstore₁
    have hdb : m.db = n₁.db := by rw [NamingServer.db, hstore]
    have hclean' : m.store.Clean := hstore ▸ (hpass.cases hclean).2.1
    obtain ⟨m₂, m₃, b', sent₃, o', hpass', hstore', hsent', rfl⟩ := h'.pass hclean'
    have hperm : m.live.Perm n.live := (List.perm_ext_iff_of_nodup m.live_nodup n.live_nodup).mpr hsame
    have hnot : cfg.replication ≤ m.live.length → ∀ c, ¬ Short cfg m.db m.live c := by
      intro hlen c hc
      rw [hdb] at hc
      exact hpass.settled hclean hcomma hfloor' hok (hperm.length_eq ▸ hlen) c
        ((short_perm hperm).mp hc)
    have hcomma' : ∀ r ∈ m.db.replicas, CommaFree r.address := by
      rw [hdb]
      exact hpass.commaFree hclean hcomma hfloor' hlive
    obtain ⟨hrests, hnone⟩ := hpass'.rests hclean' hcomma' hnot
    have hfiles : m'.db.files = n.db.files := by
      rw [NamingServer.db, hstore', ← NamingServer.db, hrests.files, hdb]
      exact (hpass.cases hclean).2.2.1
    have hdb' : m'.db = m₃.db := by rw [NamingServer.db, hstore']
    refine ⟨⟨?_, ?_, ?_, hsent'.trans hrests.asked⟩, by rw [hresult hfiles, hnone]⟩
    · rw [hdb', hrests.files]
    · rw [hdb', hrests.chunks]
    · intro c
      rw [hdb', hrests.locations]

/-- A call that returns whatever the order of the rows needs a total that never overflows. -/
theorem summable_of_repairsExactly (hclean : n.store.Clean) (hidle : n.heal = .idle)
    (h : RepairsExactly cfg copies n) : n.db.Summable := by
  intro rows hrows
  obtain ⟨o, ho⟩ := exists_walk rows
  obtain ⟨n', sent, result, hcall, hfiles, hsome⟩ := exists_healCall cfg copies hclean hidle o
  rw [h.returns n' sent result hcall, committedBytes, ho _ (hfiles ▸ hrows)] at hsome
  exact hsome.symm

theorem repairsExactly_iff_summable (hidle : n.heal = .idle) (hclean : n.store.Clean)
    (hfull : ∀ r ∈ n.db.chunks, n.db.CommittedChunk r.chunkId →
      (n.db.locations r.chunkId).length = cfg.replication)
    (hcomma : ∀ r ∈ n.db.replicas, CommaFree r.address) (hlive : ∀ addr ∈ n.live, CommaFree addr) :
    RepairsExactly cfg copies n ↔ n.db.Summable :=
  ⟨summable_of_repairsExactly hclean hidle, repairsExactly_of_summable hclean hfull hcomma hlive⟩

/-- One of the two servers of a chunk has gone quiet, and a third one is there. -/
def quietServer : List NamingAction :=
  [.registerStorage ['s'], .registerStorage ['t'], .create 0 (.receive ⟨['f'], 1, 1⟩),
    .create 0 .checkLive, .create 0 (.selectFile .table), .create 0 (.place ['c']),
    .create 0 (.reserve 0), .commit ['f'], .tick 10, .heartbeat ['t'], .registerStorage ['u'],
    .tick 10]

theorem repairsExactly_iff_summable_quietServer : ∃ n : NamingServer,
    n.db.locations ['c'] = [['s'], ['t']] ∧ n.live = [['u'], ['t']] ∧
      RepairsExactly ⟨2, 60⟩ (fun _ _ => true) n := by
  have hrun : (run (guarded (NamingServer.next ⟨2, 60⟩) anyStep) NamingServer.init quietServer).any
      (fun n => n.heal.isIdle && (n.db.files.map FileRow.size == [1] &&
        n.db.chunks.map ChunkRow.chunkId == [['c']] &&
        n.db.replicas.map ReplicaRow.address == [['s'], ['t']] &&
        n.db.locations ['c'] == [['s'], ['t']] && n.live == [['u'], ['t']] &&
        (committedSizes n.db.files).sum == 1)) = true := by
    decide +kernel
  obtain ⟨n, hr, hn⟩ := exists_of_run hrun
  simp only [Bool.and_eq_true, beq_iff_eq] at hn
  obtain ⟨hidle, ⟨⟨⟨⟨hsizes, hchunks⟩, hreplicas⟩, hlocs⟩, hlive⟩, hsum⟩ := hn
  have hsummable : n.db.Summable := by
    refine Db.summable_of_nonneg (fun F hF => ?_) (by omega)
    have hmem : F.size ∈ [(1 : ℤ)] := hsizes ▸ List.mem_map_of_mem hF
    rw [List.mem_singleton.mp hmem]
    decide
  refine ⟨n, hlocs, hlive, (repairsExactly_iff_summable (HealPhase.eq_idle hidle)
    (Reachable.consistent hr).clean ?_ ?_ ?_).mpr hsummable⟩
  · intro r hr _
    have hid : r.chunkId ∈ [['c']] := hchunks ▸ List.mem_map_of_mem hr
    rw [List.mem_singleton.mp hid, hlocs]
    rfl
  · intro r hr
    have ha : r.address ∈ [['s'], ['t']] := hreplicas ▸ List.mem_map_of_mem hr
    simp only [List.mem_cons, List.not_mem_nil, or_false] at ha
    rcases ha with ha | ha
    · rw [ha]
      decide
    · rw [ha]
      decide
  · rw [hlive]
    decide

/-- One server, and two empty files that claim to be as large as integers get and one byte more. -/
def hugeFiles : List NamingAction :=
  [.registerStorage ['s'], .create 0 (.receive ⟨['f'], 2 ^ 63 - 1, 0⟩), .create 0 .checkLive,
    .create 0 (.selectFile .table), .create 0 (.reserve 0), .commit ['f'],
    .create 1 (.receive ⟨['g'], 1, 0⟩), .create 1 .checkLive, .create 1 (.selectFile .table),
    .create 1 (.reserve 0), .commit ['g']]

/-- No chunk is there to be repaired, and yet the call raises. -/
theorem not_repairsExactly : ∃ n, run (NamingServer.next ⟨1, 60⟩) .init hugeFiles = some n ∧
    n.heal = .idle ∧ n.store.Clean ∧ n.db.chunks = [] ∧ n.db.replicas = [] ∧ n.live = [['s']] ∧
    (∃ n' sent, HealCall ⟨1, 60⟩ (PassAlone ⟨1, 60⟩ fun _ _ => true) n n' sent none) ∧
    ¬ RepairsExactly ⟨1, 60⟩ (fun _ _ => true) n := by
  have hrun : (run (NamingServer.next ⟨1, 60⟩) .init hugeFiles).any (fun n => n.heal.isIdle &&
      (n.db.chunks == [] && n.db.replicas == [] && n.live == [['s']] &&
        committedSizes n.db.files == [2 ^ 63 - 1, 1])) = true := by
    decide +kernel
  obtain ⟨n, hn, hp⟩ := (Option.any_eq_true _ _).mp hrun
  simp only [Bool.and_eq_true, beq_iff_eq] at hp
  obtain ⟨hidle, ⟨⟨hchunks, hreplicas⟩, hlive⟩, hsizes⟩ := hp
  have hidle := HealPhase.eq_idle hidle
  have hclean : n.store.Clean := (Reachable.consistent (steps_of_run hn)).clean
  have hover : committedBytes n.db = none := by
    rw [committedBytes, hsizes]
    decide
  have hcall := exists_healCall ⟨1, 60⟩ (fun _ _ => true) hclean hidle .table
  obtain ⟨n', sent, result, hcall, hfiles, hsome⟩ := hcall
  have hsame : committedBytes n'.db = none := by
    rw [committedBytes, hfiles]
    exact hover
  have hnone : result = none := by
    rw [show RowOrder.table.view n'.db = n'.db from rfl, hsame] at hsome
    exact Option.isSome_eq_false_iff.mp hsome |> Option.isNone_iff_eq_none.mp
  subst hnone
  refine ⟨n, hn, hidle, hclean, hchunks, hreplicas, hlive, ⟨n', sent, hcall⟩, fun h => ?_⟩
  have hsome := h.returns n' sent none hcall
  cases hsome

end NamingServer

end GfsCluster
