import GfsCluster.Naming.Convergence
import GfsCluster.Storage.Server

/-! Where a pass takes its copies from. `heal_once` asks every target to fetch the chunk
from the first of its live locations, in the order in which the query lists them, and that
server stays the source while the candidates are used up. -/

namespace GfsCluster

open StepSystem Edits

namespace NamingServer

variable {cfg : Settings} {n n₀ n₂ n' : NamingServer} {a : NamingAction} {b : HealStep}
  {out sent : List StorageRpc} {c : ChunkId} {o : RowOrder}
  {answers : ChunkId → Addr → Option GetChunkResponse}

/-- `addr` is up and its disk still has the chunk. -/
def Supplies (answers : ChunkId → Addr → Option GetChunkResponse) (c : ChunkId) (addr : Addr) : Bool :=
  (getChunkFrom (answers c addr)).isSome

/-- The first live address of a chunk in the order in which the query walks the rows. -/
def firstLive (db : Db) (o : RowOrder) (live : List Addr) (c : ChunkId) : Option Addr :=
  (((o.view db).locations c).filter (· ∈ live)).head?

/-- The copies that succeed when every target can store what it fetches. -/
def served (answers : ChunkId → Addr → Option GetChunkResponse) (db : Db) (o : RowOrder)
    (live : List Addr) (c : ChunkId) (_ : Addr) : Bool :=
  (firstLive db o live c).any (Supplies answers c)

/-- The steps of a pass that walks the rows as `o` does, and steps of others that write
nothing and leave the same servers live. A target handles ReplicateChunk with whatever disk
it has; its source answers GetChunk as `answers` says, and nothing keeps it from writing. -/
def Fetching (cfg : Settings) (answers : ChunkId → Addr → Option GetChunkResponse) (o : RowOrder)
    (s : NamingServer × List StorageRpc) : NamingAction → Prop
  | .heal .count | .crash => False
  | .heal (.scan o') => o' = o
  | .heal (.answer ok) =>
    match s.1.heal with
    | .copying _ _ _ w _ _ => ∃ disk : StorageServer,
      ok = (disk.replicateChunk w.chunkId (w.live.head?.bind (answers w.chunkId)) .done).1.ok
    | _ => True
  | .heal _ => True
  | a => ∀ n' out, s.1.step cfg a = some (n', out) →
    n'.store = s.1.store ∧ ∀ addr, addr ∈ n'.live ↔ addr ∈ s.1.live

/-- A target that can write answers ok exactly when its source serves the chunk. -/
theorem replicateChunk_ok (disk : StorageServer) (c : ChunkId) (source : Option Addr) :
    (disk.replicateChunk c (source.bind (answers c)) .done).1.ok = source.any (Supplies answers c) := by
  have hstore : ∀ data, (disk.storeChunk ⟨c, data, .done⟩).1.ok = true := by
    intro data
    simp only [StorageServer.storeChunk, Directory.writeChunk]
    split_ifs <;> rfl
  cases source with
  | none => rfl
  | some addr =>
    simp only [StorageServer.replicateChunk, Option.bind_some, Option.any_some, Supplies]
    cases getChunkFrom (answers c addr) with
    | none => rfl
    | some data => simpa using hstore data

/-! ### The source of a repair -/

/-- Every repair of the pass has the first live address of its chunk in front. -/
structure Led (cfg : Settings) (o : RowOrder) (n₀ n : NamingServer) : Prop where
  live : n.heal.live.Perm n₀.live
  rest : ∀ m ∈ n.heal.rest, m ∈ underReplicatedChunks (o.view n₀.db) n.heal.live cfg.replication
  source : ∀ w, n.heal.repair = some w →
    ∃ addr, firstLive n₀.db o n₀.live w.chunkId = some addr ∧ w.live.head? = some addr

namespace Led

theorem of_scanning {live : List Addr} {rest : List ChunkMeta} {repaired : ℕ}
    (hlive : live.Perm n₀.live)
    (hrest : ∀ m ∈ rest, m ∈ underReplicatedChunks (o.view n₀.db) live cfg.replication)
    (hp : n.heal = .scanning live rest repaired) : Led cfg o n₀ n := by
  refine ⟨by rw [hp]; exact hlive, by rw [hp]; exact hrest, ?_⟩
  intro w hw
  rw [hp] at hw
  cases hw

/-- A step that goes on with the repair under way. -/
theorem goes_on (h : Led cfg o n₀ n) (w w' : Repair) (hlive : n'.heal.live = n.heal.live)
    (hrest : n'.heal.rest = n.heal.rest) (hw : n.heal.repair = some w) (hw' : n'.heal.repair = some w')
    (hid : w'.chunkId = w.chunkId) (hfront : w.live <+: w'.live) : Led cfg o n₀ n' := by
  refine ⟨hlive ▸ h.live, hrest ▸ hlive ▸ h.rest, ?_⟩
  rintro v hv
  obtain rfl : w' = v := Option.some.inj (hw'.symm.trans hv)
  obtain ⟨addr, hfirst, hhead⟩ := h.source w hw
  obtain ⟨added, hadded⟩ := hfront
  refine ⟨addr, hid ▸ hfirst, ?_⟩
  rw [← hadded, List.head?_append, hhead]
  rfl

/-- The repair that has just been started. -/
theorem of_start (hcomma : ∀ r ∈ n₀.db.replicas, CommaFree r.address) {live : List Addr}
    {m : ChunkMeta} {w : Repair} (hlive : live.Perm n₀.live)
    (hm : m ∈ underReplicatedChunks (o.view n₀.db) live cfg.replication)
    (hw : startRepair cfg live m = some w) :
    ∃ addr, firstLive n₀.db o n₀.live w.chunkId = some addr ∧ w.live.head? = some addr := by
  obtain ⟨r, _, _, _, rfl⟩ := mem_underReplicatedChunks.mp hm
  obtain ⟨hid, hwl, hne, _⟩ := startRepair_eq_some hw
  have hsame : ((o.view n₀.db).locations r.chunkId).filter (· ∈ live) =
      ((o.view n₀.db).locations r.chunkId).filter (· ∈ n₀.live) :=
    List.filter_congr fun addr _ => by simp [hlive.mem_iff]
  rcases splitAddrs_groupConcat (view_commaFree (locations_commaFree hcomma)) with he | he
  · rw [he, Lists.eraseDups_of_nodup ((o.view n₀.db).locations_nodup _), hsame] at hwl
    obtain ⟨addr, addrs, hcons⟩ := List.exists_cons_of_ne_nil hne
    refine ⟨addr, ?_, by rw [hcons]; rfl⟩
    rw [firstLive, hid, ← hwl, hcons]
    rfl
  · rw [he] at hwl
    exact absurd (by simpa using hwl) hne

theorem of_heal (hcomma : ∀ r ∈ n₀.db.replicas, CommaFree r.address) (h : Led cfg o n₀ n)
    (hl : n.heal.listed = true) (hl' : n'.heal.listed = true)
    (hs : n.step cfg (.heal b) = some (n', out)) : Led cfg o n₀ n' := by
  cases heal_of_step hs with
  | stop h' =>
    rcases h' with h' | ⟨count, h'⟩
    · rw [HealPhase.not_listed_of_over h'] at hl'
      cases hl'
    · simp [h', HealPhase.listed] at hl'
  | pick count h' => simp [h', HealPhase.listed] at hl'
  | known live hp h' => simp [hp, HealPhase.listed] at hl
  | scan o live hp => simp [hp, HealPhase.listed] at hl
  | skip rest repaired hsub h' =>
    exact .of_scanning h.live (fun m hm => h.rest m (hsub.subset hm)) h'
  | start live m rest repaired w hp hw h' =>
    obtain ⟨hlive, hrest, _⟩ := h
    rw [hp] at hlive hrest
    refine ⟨by rw [h']; exact hlive, by rw [h']; exact fun x hx => hrest x (List.mem_cons_of_mem _ hx), ?_⟩
    intro w' hw'
    rw [h'] at hw'
    cases hw'
    exact of_start hcomma hlive (hrest m List.mem_cons_self) hw
  | copy live rest repaired w target candidates _ hp hw _ h' =>
    exact h.goes_on w { w with candidates := target :: candidates } (by rw [hp, h']; rfl)
      (by rw [hp, h']; rfl) (by rw [hp]; rfl) (by rw [h']; rfl) rfl List.prefix_rfl
  | answer live rest repaired w target ticket ok _ hp h' =>
    rcases h' with h' | h'
    · exact h.goes_on { w with candidates := target :: w.candidates }
        { w with candidates := target :: w.candidates } (by rw [hp, h']; rfl) (by rw [hp, h']; rfl)
        (by rw [hp]; rfl) (by rw [h']; rfl) rfl List.prefix_rfl
    · exact h.goes_on { w with candidates := target :: w.candidates } w (by rw [hp, h']; rfl)
        (by rw [hp, h']; rfl) (by rw [hp]; rfl) (by rw [h']; rfl) rfl List.prefix_rfl
  | record live rest repaired w target added hp _ _ h' =>
    have hfront : w.live <+: w.live ++ [target] := List.prefix_append _ _
    cases hstale : w.stale with
    | nil =>
      rw [hstale] at h'
      exact h.goes_on { w with candidates := target :: w.candidates }
        { w with live := w.live ++ [target], stale := [] } (by rw [hp, h']; rfl) (by rw [hp, h']; rfl)
        (by rw [hp]; rfl) (by rw [h']; rfl) rfl hfront
    | cons x stale =>
      rw [hstale] at h'
      exact h.goes_on { w with candidates := target :: w.candidates }
        { w with live := w.live ++ [target], stale := x :: stale } (by rw [hp, h']; rfl)
        (by rw [hp, h']; rfl) (by rw [hp]; rfl) (by rw [h']; rfl) rfl hfront
  | drop live rest repaired w x hp _ h' =>
    exact h.goes_on { w with stale := x :: w.stale } w (by rw [hp, h']; rfl) (by rw [hp, h']; rfl)
      (by rw [hp]; rfl) (by rw [h']; rfl) rfl List.prefix_rfl

end Led

/-! ### The pass -/

/-- Some recorded address of a committed chunk is not live. -/
def SomeDead (n : NamingServer) : Prop := ∃ addr ∈ knownReplicaAddresses n.db, addr ∉ n.live

theorem mem_known_view {db : Db} {addr : Addr} :
    addr ∈ knownReplicaAddresses (o.view db) ↔ addr ∈ knownReplicaAddresses db := by
  simp only [mem_knownReplicaAddresses, o.mem_chunks, o.committedChunk,
    (o.locations_perm db _).mem_iff]

/-- A pass goes past its early return only when a known address is not among its servers. -/
theorem unknown_of_step (hs : n.step cfg (.heal b) = some (n', out)) {live : List Addr}
    (hp : n'.heal = .known live) : ∃ addr ∈ knownReplicaAddresses n.db, addr ∉ live := by
  cases healCase_of_step hs with
  | known o live' _ hall =>
    cases hp
    simpa only [not_forall, exists_prop, mem_known_view] using hall
  | _ => cases hp

/-- In a pass whose targets can write, the copies succeed as their first source allows. -/
theorem Fetching.passAlone {s : NamingServer × List StorageRpc} (h : Fetching cfg answers o s a)
    (hled : s.1.heal.listed = true → Led cfg o n s.1) :
    PassAlone cfg (served answers n.db o n.live) s a := by
  cases a with
  | heal b =>
    cases b with
    | answer ok =>
      simp only [PassAlone, Outcomes]
      split
      · rename_i live rest repaired w target ticket hp
        simp only [Fetching, hp] at h
        obtain ⟨disk, rfl⟩ := h
        obtain ⟨addr, hfirst, hhead⟩ := (hled (by rw [hp]; rfl)).source _ (by rw [hp]; rfl)
        simp only at hfirst hhead
        rw [replicateChunk_ok, served, hfirst, hhead]
      · trivial
    | count => exact h
    | _ => trivial
  | crash => exact h
  | _ => exact h

/-- What a pass that has come to `n₂` has read. -/
structure Read (cfg : Settings) (o : RowOrder) (n n₂ : NamingServer) : Prop where
  led : n₂.heal.listed = true → Led cfg o n n₂
  dead : (∃ live, n₂.heal = .known live) ∨ n₂.heal.listed = true → n.SomeDead

section Run

variable (hclean : n.store.Clean) (hcomma : ∀ r ∈ n.db.replicas, CommaFree r.address)

include hclean hcomma

theorem Read.of_step {s : NamingServer × List StorageRpc} {copies : ChunkId → Addr → Bool}
    (hin : InPass cfg (PassAlone cfg copies) n s.1 s.2) (h : Read cfg o n s.1)
    (hok : Fetching cfg answers o s a) (halone : PassAlone cfg copies s a)
    (hs : s.1.step cfg a = some (n', out)) : Read cfg o n n' := by
  by_cases ha : ∃ b, a = .heal b
  · obtain ⟨b, rfl⟩ := ha
    cases hl : s.1.heal.listed with
    | true =>
      refine ⟨fun hl' => (h.led hl).of_heal hcomma hl hl' hs, fun _ => h.dead (.inr hl)⟩
    | false =>
      obtain ⟨hpass, _⟩ := hin.passing hclean
      cases hpass.pass with
      | listed _ _ _ _ _ _ hpart => simp [hpart.listed] at hl
      | ended hover =>
        rcases over_of_step hover hs with rfl | hidle
        · exact halone.elim
        · refine ⟨fun h' => ?_, fun h' => ?_⟩
          · rw [hidle] at h'
            cases h'
          · rw [hidle] at h'
            obtain ⟨live, hp⟩ | hp := h'
            · cases hp
            · cases hp
      | before hE _ _ =>
        have hdb : s.1.db = n.db := by rw [NamingServer.db, hE.store]
        obtain ⟨_, _, hl' | ⟨o', live, rfl, hp, rfl⟩⟩ := unlisted_of_step hl hs
        · refine ⟨fun h' => absurd (hl'.symm.trans h') Bool.false_ne_true, fun h' => ?_⟩
          obtain ⟨live, hp⟩ := h'.resolve_right (by rw [hl']; exact Bool.false_ne_true)
          obtain ⟨addr, ha, hdead⟩ := unknown_of_step hs hp
          have hperm := ((hE.of_step hl halone hs).picks live (.inr hp)).1
          exact ⟨addr, hdb ▸ ha, fun hlive => hdead (hperm.mem_iff.mpr hlive)⟩
        · obtain rfl : o' = o := hok
          refine ⟨fun _ => ?_, fun _ => h.dead (.inl ⟨live, hp⟩)⟩
          exact .of_scanning (hE.picks live (.inr hp)).1 (fun m hm => hdb ▸ hm) rfl
  · rw [not_exists] at ha
    have hheal := heal_of_others hs halone.pass.2.1 ha
    refine ⟨fun hl => ?_, fun hp => h.dead (hheal ▸ hp)⟩
    obtain ⟨hlive, hrest, hsource⟩ := h.led (hheal ▸ hl)
    exact ⟨by rwa [hheal], by rwa [hheal], by rwa [hheal]⟩

/-- Such a pass is one whose copies succeed as the first sources allow. -/
theorem inPass_of_fetching (h : InPass cfg (Fetching cfg answers o) n n₂ sent) :
    InPass cfg (PassAlone cfg (served answers n.db o n.live)) n n₂ sent ∧ Read cfg o n n₂ := by
  obtain ⟨hidle, hrun⟩ := inPass_iff.mp h
  have hstart : Read cfg o n n.counting :=
    ⟨by simp [counting, HealPhase.listed], by simp [counting, HealPhase.listed]⟩
  have hboth : Steps (sendStep cfg) (PassAlone cfg (served answers n.db o n.live)) (n.counting, [])
      (n₂, sent) ∧ Read cfg o n n₂ := by
    refine Steps.invariant (P := fun s => Steps (sendStep cfg)
      (PassAlone cfg (served answers n.db o n.live)) (n.counting, []) s ∧ Read cfg o n s.1) hrun
      ⟨.refl, hstart⟩ ?_
    rintro s a ⟨n', sent'⟩ _ ⟨hsteps, hread⟩ hok hs
    have halone := hok.passAlone hread.led
    refine ⟨hsteps.tail halone hs, ?_⟩
    obtain ⟨out', hs, rfl⟩ := sendStep_eq_some.mp hs
    exact hread.of_step hclean hcomma (inPass_iff.mpr ⟨hidle, hsteps⟩) hok halone hs
  exact ⟨inPass_iff.mpr ⟨hidle, hboth.1⟩, hboth.2⟩

end Run

/-! ### The chunk afterwards -/

/-- The chunk has its target number of live addresses. -/
def AtTarget (cfg : Settings) (db : Db) (live : List Addr) (c : ChunkId) : Prop :=
  ((db.locations c).filter (· ∈ live)).length = cfg.replication

/-- A committed chunk below target, with a live address that serves it. -/
structure Recoverable (cfg : Settings) (answers : ChunkId → Addr → Option GetChunkResponse) (db : Db)
    (live : List Addr) (c : ChunkId) : Prop where
  row : c ∈ db.chunks.map ChunkRow.chunkId
  committed : db.CommittedChunk c
  below : ((db.locations c).filter (· ∈ live)).length < cfg.replication
  served : ∃ addr ∈ db.locations c, addr ∈ live ∧ Supplies answers c addr = true

theorem Recoverable.short {db : Db} {live : List Addr} (h : Recoverable cfg answers db live c) :
    Short cfg db live c := by
  obtain ⟨hrow, hcom, hlt, addr, haddr, hlive, _⟩ := h
  exact ⟨hrow, hcom, List.length_pos_of_mem (List.mem_filter.mpr ⟨haddr, decide_eq_true hlive⟩), hlt⟩

/-- What a pass leaves of a short chunk when all its copies succeed or all fail. -/
theorem live_length_of_pass {db : Db} {live : List Addr} {ok : Bool} (copies : ChunkId → Addr → Bool)
    (hcopies : ∀ addr, copies c addr = ok) (hlive : live.Nodup) (hlen : cfg.replication ≤ live.length)
    (hcomma : ∀ addr ∈ db.locations c, CommaFree addr) (hne : db.locations c ≠ [[]])
    (hc : Short cfg db live c) :
    ((afterAll c (db.locations c) (passEdits cfg copies db o live)).filter (· ∈ live)).length =
      if ok then cfg.replication else ((db.locations c).filter (· ∈ live)).length := by
  obtain ⟨w, rfl, hwl, hws, hwc, hedits, _⟩ := pass_of_short copies hcomma (o := o) hc hne
  have hperm := o.locations_perm db w.chunkId
  rw [← afterAll_filter, hedits, live_length_of_repair copies hperm hlive hwc hws,
    length_targets_of_repair copies hperm hwc cfg hwl]
  simp only [hcopies]
  cases ok with
  | false => simp
  | true =>
    -- enough servers are live and have no copy yet
    have hsplit := length_spare_add hlive (db.locations_nodup w.chunkId)
    have hlt := hc.2.2.2
    simp only [and_true, if_true]
    omega

/-- A complete pass whose targets can all write brings a chunk to its target if and only
if some known address is not live and the first live address of the chunk serves it. -/
theorem atTarget_iff (hclean : n.store.Clean) (hcomma : ∀ r ∈ n.db.replicas, CommaFree r.address)
    (hne : ∀ r ∈ n.db.replicas, r.address ≠ [])
    (hpass : HealPass cfg (Fetching cfg answers o) n n₂ n' b sent)
    (hlen : cfg.replication ≤ n.live.length) (hc : Recoverable cfg answers n.db n.live c) :
    AtTarget cfg n'.db n.live c ↔
      n.SomeDead ∧ (firstLive n.db o n.live c).any (Supplies answers c) = true := by
  obtain ⟨⟨sent₂, out, hin, hok, hs, hsent⟩, hbusy, hidle⟩ := hpass
  obtain ⟨halone, hread⟩ := inPass_of_fetching hclean hcomma hin
  have hpass : HealPass cfg (PassAlone cfg (served answers n.db o n.live)) n n₂ n' b sent :=
    ⟨⟨sent₂, out, halone, hok.passAlone hread.led, hs, hsent⟩, hbusy, hidle⟩
  have hbelow := hc.below
  obtain ⟨_, _, _, _, ⟨hearly, hdb, _⟩ | ⟨_, o', live, hperm, _, _, hlocs⟩⟩ := hpass.cases hclean
  · rw [AtTarget, hdb]
    constructor
    · intro h
      omega
    · rintro ⟨⟨addr, hknown, hdead⟩, _⟩
      rcases hearly with hlt | ⟨_, hall⟩
      · omega
      · exact absurd (hall addr hknown) hdead
  · have hcount := live_length_of_pass (o := o') (served answers n.db o n.live)
      (fun _ => rfl) (hperm.nodup_iff.mpr n.live_nodup) (hperm.length_eq ▸ hlen)
      (locations_commaFree hcomma) (fun he => ?_) ((short_perm hperm).mpr hc.short)
    · have hsame : ∀ locs : List Addr, locs.filter (· ∈ live) = locs.filter (· ∈ n.live) := fun locs =>
        List.filter_congr fun addr _ => by simp [hperm.mem_iff]
      rw [← hlocs, hsame, hsame] at hcount
      rw [AtTarget, hcount]
      split_ifs with hfirst
      · refine ⟨fun _ => ⟨?_, hfirst⟩, fun _ => rfl⟩
        cases hl : n₂.heal.listed with
        | true => exact hread.dead (.inr hl)
        | false =>
          -- without a listing nothing would have changed
          obtain ⟨_, hstore, _⟩ := (halone.done_so_far hclean hbusy).resolve_right (by
            rintro ⟨_, _, _, _, _, hl', _⟩
            exact absurd (hl.symm.trans hl') Bool.false_ne_true)
          have hdb : n'.db = n.db := by
            rw [NamingServer.db, (unlisted_of_step hl hs).1, hstore]
          rw [hdb, if_pos hfirst] at hcount
          omega
      · exact ⟨fun h => by omega, fun h => absurd h.2 hfirst⟩
    · have haddr : [] ∈ n.db.locations c := by rw [he]; exact List.mem_singleton_self _
      exact hne _ (n.db.mem_locations.mp haddr) rfl

/-! ### A lost disk -/

/-- The server `lost` is up, but the disk it comes back with is empty. -/
def lostDisk (lost : Addr) (_ : ChunkId) (addr : Addr) : Option GetChunkResponse :=
  some (if addr = lost then ⟨false, "chunk not found", []⟩ else ⟨true, "ok", []⟩)

/-- The healer's own steps, its listing apart, while `lost` has nothing. -/
def Losing (lost : Addr) (s : NamingServer × List StorageRpc) : NamingAction → Prop
  | .heal (.answer ok) =>
    match s.1.heal with
    | .copying _ _ _ w _ _ => ok = w.live.head?.any (· ≠ lost)
    | _ => True
  | .heal .count | .heal (.scan _) => False
  | .heal _ => True
  | _ => False

instance (lost : Addr) (s : NamingServer × List StorageRpc) (a : NamingAction) :
    Decidable (Losing lost s a) :=
  match a with
  | .heal (.answer ok) =>
    match hp : s.1.heal with
    | .copying _ _ _ w _ _ => decidable_of_iff (ok = w.live.head?.any (· ≠ lost)) (by simp [Losing, hp])
    | .idle | .counted _ | .picked _ | .known _ | .scanning _ _ _ | .repairing _ _ _ _
    | .copied _ _ _ _ _ | .dropping _ _ _ _ _ | .refreshing _ => .isTrue (by simp [Losing, hp])
  | .heal .pick | .heal (.known _) | .heal .next | .heal .copy | .heal .record
  | .heal .drop | .heal (.refresh _) => .isTrue trivial
  | .heal .count | .heal (.scan _) | .registerStorage _ | .heartbeat _ | .tick _ | .create _ _ | .commit _
  | .delete _ _ | .get _ _ | .purge _ | .cleanup _ | .crash => .isFalse id

theorem supplies_lostDisk (lost : Addr) (c : ChunkId) (addr : Addr) :
    Supplies (lostDisk lost) c addr = decide (addr ≠ lost) := by
  unfold Supplies lostDisk getChunkFrom
  split_ifs with h <;> simp [h]

theorem Losing.fetching {lost : Addr} {s : NamingServer × List StorageRpc} (h : Losing lost s a) :
    Fetching cfg (lostDisk lost) o s a := by
  cases a with
  | heal b =>
    cases b with
    | answer ok =>
      simp only [Losing] at h
      simp only [Fetching]
      split
      · rename_i live rest repaired w target ticket hp
        rw [hp] at h
        refine ⟨.start ∅, ?_⟩
        rw [replicateChunk_ok, funext (supplies_lostDisk lost w.chunkId)]
        exact h
      · trivial
    | scan _ => exact h.elim
    | count => exact h
    | _ => trivial
  | _ => exact h.elim

/-- Run the listed actions, then a pass that lists the rows in their order in the table
and goes on with the listed steps up to the end of its loop. -/
def losingPass (cfg : Settings) (lost : Addr) (before : List NamingAction) (pass : List HealStep) :
    Option (NamingServer × NamingServer) :=
  (run (guarded (NamingServer.next cfg) CommaFreeAddresses) NamingServer.init before).bind fun n =>
    (n.step cfg (.heal .count)).bind fun s₀ =>
      (run (guarded (sendStep cfg) (Losing lost)) s₀ [.heal .pick, .heal (.known .table)]).bind fun s₁ =>
        (sendStep cfg s₁ (.heal (.scan .table))).bind fun s₂ =>
          (run (guarded (sendStep cfg) (Losing lost)) s₂ (pass.map .heal)).bind fun s₃ =>
            (s₃.1.step cfg (.heal .next)).map fun s' => (n, s'.1)

theorem exists_of_losingPass {lost : Addr} {before : List NamingAction} {pass : List HealStep}
    {p : NamingServer × NamingServer → Bool}
    (h : (losingPass cfg lost before pass).any (fun r => r.2.heal.over && p r) = true) :
    ∃ n n₂ n' sent, Reachable cfg CommaFreeAddresses n ∧
      HealPass cfg (Fetching cfg (lostDisk lost) .table) n n₂ n' .next sent ∧ p (n, n') = true := by
  simp only [losingPass, Option.any_eq_true, Option.bind_eq_some_iff, Option.map_eq_some_iff,
    Bool.and_eq_true] at h
  obtain ⟨_, ⟨n, hn, ⟨n₁, out⟩, hcount, s₁, hs₁, s₂, hscan, s₃, hs₃, n', hlast, rfl⟩, hover, hp⟩ := h
  have hfetch : ∀ s a, Losing lost s a → Fetching cfg (lostDisk lost) .table s a :=
    fun _ _ h => h.fetching
  have hrun := (((steps_of_guarded_run hs₁).mono hfetch).tail (by exact rfl) hscan).trans
    ((steps_of_guarded_run hs₃).mono hfetch)
  refine ⟨n, s₃.1, n'.1, s₃.2 ++ n'.2, steps_of_guarded_run hn,
    ⟨⟨s₃.2, n'.2, ⟨n₁, out, hcount, hrun⟩, trivial, hlast, rfl⟩, busy_of_next hlast, hover⟩, hp⟩

/-- Of the three servers of a chunk one goes quiet, and a fourth one is there. -/
def quietThird : List NamingAction :=
  [.registerStorage ['s'], .registerStorage ['t'], .registerStorage ['u'],
    .create 0 (.receive ⟨['f'], 1, 1⟩), .create 0 .checkLive, .create 0 (.selectFile .table),
    .create 0 (.place ['c']), .create 0 (.reserve 0), .commit ['f'], .tick 10, .heartbeat ['s'],
    .heartbeat ['t'], .registerStorage ['v'], .tick 10]

/-- What the runs below need to know of the state in which their pass begins. -/
def isQuietThird (n : NamingServer) : Bool :=
  n.db.replicas == [⟨['c'], ['s']⟩, ⟨['c'], ['t']⟩, ⟨['c'], ['u']⟩] &&
    n.live == [['v'], ['t'], ['s']] && n.db.chunks == [⟨['c'], ['f'], 0⟩] &&
    n.db.files == [⟨['f'], 1, 1, .committed, 0⟩]

theorem locations_quietThird (h : isQuietThird n = true) :
    n.db.locations ['c'] = [['s'], ['t'], ['u']] ∧ n.live = [['v'], ['t'], ['s']] := by
  simp only [isQuietThird, Bool.and_eq_true, beq_iff_eq] at h
  obtain ⟨⟨⟨hreplicas, hlive⟩, _⟩, _⟩ := h
  refine ⟨?_, hlive⟩
  rw [Db.locations, hreplicas]
  rfl

theorem committed_quietThird (h : isQuietThird n = true) :
    n.db.replicas = [⟨['c'], ['s']⟩, ⟨['c'], ['t']⟩, ⟨['c'], ['u']⟩] ∧ ⟨['c'], ['f'], 0⟩ ∈ n.db.chunks ∧
      n.db.CommittedChunk ['c'] := by
  simp only [isQuietThird, Bool.and_eq_true, beq_iff_eq] at h
  obtain ⟨⟨⟨hreplicas, _⟩, hchunks⟩, hfiles⟩ := h
  have hrow : ⟨['c'], ['f'], 0⟩ ∈ n.db.chunks := by simp [hchunks]
  exact ⟨hreplicas, hrow, ⟨⟨['c'], ['f'], 0⟩, hrow, rfl, ⟨['f'], 1, 1, .committed, 0⟩,
    by simp [hfiles], rfl, rfl⟩⟩

/-- The two servers that are left are live, and one of them has its disk. -/
theorem recoverable_quietThird (lost : Addr) (h : isQuietThird n = true) :
    Recoverable ⟨3, 60⟩ (lostDisk lost) n.db n.live ['c'] := by
  obtain ⟨hlocs, hlive⟩ := locations_quietThird h
  obtain ⟨_, hrow, hcom⟩ := committed_quietThird h
  refine ⟨List.mem_map_of_mem hrow, hcom, by rw [hlocs, hlive]; decide, ?_⟩
  rw [hlocs, hlive]
  by_cases hne : lost = ['s']
  · exact ⟨['t'], by decide, by decide, by rw [supplies_lostDisk, hne]; decide⟩
  · exact ⟨['s'], by decide, by decide, by rw [supplies_lostDisk]; exact decide_eq_true (Ne.symm hne)⟩

/-- The second server has lost its disk, and the first one is the source. -/
theorem atTarget_iff_quietThird : ∃ n n' : NamingServer, n.db.locations ['c'] = [['s'], ['t'], ['u']] ∧
    n.live = [['v'], ['t'], ['s']] ∧ AtTarget ⟨3, 60⟩ n'.db n.live ['c'] := by
  have hrun : (losingPass ⟨3, 60⟩ ['t'] quietThird [.next, .copy, .answer true, .record, .drop,
      .copy]).any (fun r => r.2.heal.over && (isQuietThird r.1 &&
        (RowOrder.table.view r.1.db).locations ['c'] == [['s'], ['t'], ['u']])) = true := by
    decide +kernel
  obtain ⟨n, n₂, n', sent, hr, hpass, hn⟩ := exists_of_losingPass hrun
  simp only [Bool.and_eq_true, beq_iff_eq] at hn
  obtain ⟨hn, hwalk⟩ := hn
  obtain ⟨hlocs, hlive⟩ := locations_quietThird hn
  obtain ⟨hreplicas, hrow, hcom⟩ := committed_quietThird hn
  refine ⟨n, n', hlocs, hlive, (atTarget_iff (Reachable.consistent hr).clean (by rw [hreplicas]; decide)
    (by rw [hreplicas]; decide) hpass (by rw [hlive]; decide) (recoverable_quietThird ['t'] hn)).mpr
      ⟨⟨['u'], ?_, by rw [hlive]; decide⟩, ?_⟩⟩
  · exact mem_knownReplicaAddresses.mpr ⟨_, hrow, hcom, by rw [hlocs]; decide⟩
  · rw [firstLive, hwalk, hlive]
    decide

/-- A pass whose targets can all write brings every recoverable chunk to its target. -/
def HealsFromAnySource (cfg : Settings) : Prop :=
  ∀ answers o n n₂ n' b sent c, Reachable cfg CommaFreeAddresses n →
    HealPass cfg (Fetching cfg answers o) n n₂ n' b sent → cfg.replication ≤ n.live.length →
    Recoverable cfg answers n.db n.live c → AtTarget cfg n'.db n.live c

/-- The first live address of the chunk is that of the lost disk. The one spare server is
asked to copy from there and used up; nobody asks the other live server. -/
theorem not_healsFromAnySource : ¬ HealsFromAnySource ⟨3, 60⟩ := by
  have hrun : (losingPass ⟨3, 60⟩ ['s'] quietThird [.next, .copy, .answer false, .copy]).any
      (fun r => r.2.heal.over && (isQuietThird r.1 && isQuietThird r.2)) = true := by
    decide +kernel
  obtain ⟨n, n₂, n', sent, hr, hpass, hn⟩ := exists_of_losingPass hrun
  simp only [Bool.and_eq_true] at hn
  obtain ⟨hlocs', _⟩ := locations_quietThird hn.2
  obtain ⟨_, hlive⟩ := locations_quietThird hn.1
  intro h
  have hafter := h _ _ n n₂ n' _ sent ['c'] hr hpass (by rw [hlive]; decide)
    (recoverable_quietThird ['s'] hn.1)
  rw [AtTarget, hlocs', hlive] at hafter
  exact absurd hafter (by decide)

end NamingServer

end GfsCluster
