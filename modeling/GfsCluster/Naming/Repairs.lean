import GfsCluster.Lib.Edits
import GfsCluster.Naming.Healer

/-! The repairs of a pass. When the outcome of every copy is given, the copies that the
loops of `heal_once` are still going to ask for and what they are still going to write are
functions of the phase, and each step takes the first of them or leaves them as they are. -/

namespace GfsCluster

open StepSystem Edits

/-! ### What a pass is going to write -/

/-- A call of `add_replica` or `remove_replica`. -/
abbrev ReplicaEdit := Edit ChunkId Addr

/-- The chunk and the target of a ReplicateChunk request. -/
def StorageRpc.attempt : StorageRpc → Option (ChunkId × Addr)
  | .replicateChunk _ target c _ => some (c, target)
  | .deleteChunk _ _ => none

section Todo

variable (cfg : Settings) (copies : ChunkId → Addr → Bool)

/-- The candidates that will be asked for a copy: one after the other, until enough
copies succeed. -/
def Repair.tries (w : Repair) : List Addr :=
  Lists.tried (copies w.chunkId) (cfg.replication - w.live.length) w.candidates

/-- The servers the chunk will be copied to. -/
def Repair.targets (w : Repair) : List Addr := (w.tries cfg copies).filter (copies w.chunkId)

def Repair.sends (w : Repair) : List (ChunkId × Addr) := (w.tries cfg copies).map (w.chunkId, ·)

def Repair.todo (w : Repair) : List ReplicaEdit :=
  replace w.chunkId (w.targets cfg copies) w.stale

/-- What the loop writes for one listed chunk. -/
def repairsOf (live : List Addr) (m : ChunkMeta) : List ReplicaEdit :=
  match NamingServer.startRepair cfg live m with
  | none => []
  | some w => w.todo cfg copies

/-- The copies the loop asks for on behalf of one listed chunk. -/
def sendsOf (live : List Addr) (m : ChunkMeta) : List (ChunkId × Addr) :=
  match NamingServer.startRepair cfg live m with
  | none => []
  | some w => w.sends cfg copies

/-- The repair once the copy to `target` has been answered. -/
def Repair.answered (w : Repair) (target : Addr) : Repair :=
  if copies w.chunkId target then { w with live := w.live ++ [target] } else w

namespace HealPhase

/-- The copies that the pass will ask for. -/
def sends : HealPhase → List (ChunkId × Addr)
  | idle | counted _ | picked _ | known _ | refreshing _ => []
  | scanning live rest _ => rest.flatMap (sendsOf cfg copies live)
  | repairing live rest _ w | dropping live rest _ w _ =>
    w.sends cfg copies ++ rest.flatMap (sendsOf cfg copies live)
  | copying live rest _ w target _ =>
    (w.answered copies target).sends cfg copies ++ rest.flatMap (sendsOf cfg copies live)
  | copied live rest _ w target =>
    { w with live := w.live ++ [target] }.sends cfg copies ++
      rest.flatMap (sendsOf cfg copies live)

/-- What the pass will write. -/
def todo : HealPhase → List ReplicaEdit
  | idle | counted _ | picked _ | known _ | refreshing _ => []
  | scanning live rest _ => rest.flatMap (repairsOf cfg copies live)
  | repairing live rest _ w => w.todo cfg copies ++ rest.flatMap (repairsOf cfg copies live)
  | copying live rest _ w target _ =>
    { w with candidates := target :: w.candidates }.todo cfg copies ++
      rest.flatMap (repairsOf cfg copies live)
  | copied live rest _ w target =>
    replace w.chunkId (target :: { w with live := w.live ++ [target] }.targets cfg copies) w.stale ++
      rest.flatMap (repairsOf cfg copies live)
  | dropping live rest _ w x =>
    .remove w.chunkId x :: (w.todo cfg copies ++ rest.flatMap (repairsOf cfg copies live))

/-- The chunks below target have been listed. -/
def listed : HealPhase → Bool
  | idle | counted _ | picked _ | known _ | refreshing _ => false
  | scanning _ _ _ | repairing _ _ _ _ | copying _ _ _ _ _ _ | copied _ _ _ _ _
  | dropping _ _ _ _ _ => true

theorem not_listed_of_over {p : HealPhase} (h : p.over = true) : p.listed = false := by
  cases p <;> first | rfl | cases h

/-- The local variable `repaired` of `heal_once`, which is what it returns. -/
def repaired : HealPhase → ℕ
  | idle | counted _ | picked _ | known _ | refreshing _ => 0
  | scanning _ _ repaired | repairing _ _ repaired _ | copying _ _ repaired _ _ _
  | copied _ _ repaired _ _ | dropping _ _ repaired _ _ => repaired

/-- A chunk under repair has a source, and is copied only while it is below target. -/
def Sourced (cfg : Settings) (p : HealPhase) : Prop :=
  (∀ w, p.repair = some w → w.live ≠ []) ∧
    (p.inCopy = true → ∀ w, p.repair = some w → w.live.length < cfg.replication)

end HealPhase

end Todo

namespace NamingServer

variable {cfg : Settings} {n n' : NamingServer} {c : ChunkId} {b : HealStep}
  {out : List StorageRpc} {copies : ChunkId → Addr → Bool}

/-- ReplicateChunk answers as `copies` says. -/
def Outcomes (copies : ChunkId → Addr → Bool) (n : NamingServer) : NamingAction → Prop
  | .heal (.answer ok) =>
    match n.heal with
    | .copying _ _ _ w target _ => ok = copies w.chunkId target
    | _ => True
  | _ => True

/-- `add_replica` raises because the chunk is gone. -/
def Raises (n : NamingServer) : NamingAction → Prop
  | .heal .record =>
    match n.heal with
    | .copied _ _ _ w _ => w.chunkId ∉ n.db.chunks.map ChunkRow.chunkId
    | _ => False
  | _ => False

/-- One step of the loops of `heal_once`. -/
inductive PassMove (cfg : Settings) (copies : ChunkId → Addr → Bool) (n n' : NamingServer)
    (out : List StorageRpc) : Prop
  | done (live : List Addr) (repaired : ℕ) (h : n.heal = .scanning live [] repaired)
      (h' : n'.heal = .refreshing (some repaired)) (hdb : n'.db = n.db) (hout : out = [])
  | edit (es : List ReplicaEdit) (htodo : n.heal.todo cfg copies = es ++ n'.heal.todo cfg copies)
      (hsends : n.heal.sends cfg copies =
        out.filterMap StorageRpc.attempt ++ n'.heal.sends cfg copies)
      (hlisted : n'.heal.listed = true) (hlive : n'.heal.live = n.heal.live)
      (hsourced : n'.heal.Sourced cfg)
      (hrepaired : n'.heal.repaired = n.heal.repaired + es.countP Edit.isAdd)
      (hfiles : n'.db.files = n.db.files) (hchunks : n'.db.chunks = n.db.chunks)
      (hlocs : ∀ c, n'.db.locations c = afterAll c (n.db.locations c) es)

theorem tries_of_full {w : Repair} (h : cfg.replication ≤ w.live.length) : w.tries cfg copies = [] := by
  rw [Repair.tries, Nat.sub_eq_zero_of_le h, Lists.tried_zero]

theorem tries_of_no_candidates {w : Repair} (h : w.candidates = []) : w.tries cfg copies = [] := by
  rw [Repair.tries, h, Lists.tried_nil]

/-- Below target the next candidate is tried. -/
theorem tries_of_copy {w : Repair} {target : Addr} (hlt : w.live.length < cfg.replication) :
    { w with candidates := target :: w.candidates }.tries cfg copies =
      target :: (w.answered copies target).tries cfg copies := by
  have hsucc : cfg.replication - w.live.length = cfg.replication - (w.live.length + 1) + 1 := by omega
  unfold Repair.tries Repair.answered
  rw [hsucc, Lists.tried]
  split_ifs with hok
  · simp
  · rw [← hsucc]

/-- A copy that succeeds is the next to be recorded. -/
theorem targets_of_copied {w : Repair} {target : Addr} (hlt : w.live.length < cfg.replication)
    (hok : copies w.chunkId target = true) :
    { w with candidates := target :: w.candidates }.targets cfg copies =
      target :: { w with live := w.live ++ [target] }.targets cfg copies := by
  rw [Repair.targets, tries_of_copy hlt, List.filter_cons_of_pos hok, Repair.answered, if_pos hok]
  rfl

/-- The loop goes on with the next candidate when a copy fails. -/
theorem targets_of_failed {w : Repair} {target : Addr} (hlt : w.live.length < cfg.replication)
    (hok : copies w.chunkId target = false) :
    { w with candidates := target :: w.candidates }.targets cfg copies = w.targets cfg copies := by
  have hno : ¬ copies w.chunkId target = true := by simp [hok]
  rw [Repair.targets, tries_of_copy hlt, List.filter_cons_of_neg hno, Repair.answered, if_neg hno]
  rfl

end NamingServer

/-! ### The two writes -/

namespace MetadataStore

variable {m : MetadataStore} {c : ChunkId}

theorem addReplica_edit (h : m.Clean) (addr : Addr) (hc : c ∈ m.committed.chunks.map ChunkRow.chunkId) :
    ∃ added, (m.addReplica c addr).1 = .ok added ∧ (m.addReplica c addr).2.Clean ∧
      (m.addReplica c addr).2.committed.files = m.committed.files ∧
      (m.addReplica c addr).2.committed.chunks = m.committed.chunks ∧
      ∀ c', (m.addReplica c addr).2.committed.locations c' =
        after c' (m.committed.locations c') (.add c addr) := by
  obtain ⟨hclean, ⟨_, _, _, hno⟩ | ⟨hok, hm, hin⟩ | ⟨hok, hnew, hf, hch, hr⟩⟩ :=
    addReplica_cases h c addr
  · exact absurd hc hno
  · refine ⟨false, hok, hclean, by rw [hm], by rw [hm], fun c' => ?_⟩
    rw [hm, after, if_neg]
    rintro ⟨rfl, hno⟩
    exact hno (m.committed.mem_locations.mpr hin)
  · refine ⟨true, hok, hclean, hf, hch, fun c' => ?_⟩
    rw [Db.locations_append hr, after]
    by_cases he : c = c'
    · subst he
      have hno : addr ∉ m.committed.locations c := fun hm => hnew (m.committed.mem_locations.mp hm)
      simp [hno]
    · simp [he]

theorem removeReplica_edit (h : m.Clean) (c : ChunkId) (addr : Addr) : (m.removeReplica c addr).2.Clean ∧
    (m.removeReplica c addr).2.committed.files = m.committed.files ∧
    (m.removeReplica c addr).2.committed.chunks = m.committed.chunks ∧
    ∀ c', (m.removeReplica c addr).2.committed.locations c' =
      after c' (m.committed.locations c') (.remove c addr) := by
  obtain ⟨db, w⟩ := m
  obtain rfl : w = db := h
  refine ⟨rfl, rfl, rfl, fun c' => ?_⟩
  simp only [removeReplica, after]
  split_ifs with hc
  · subst hc
    exact Db.locations_deleteReplica c addr
  · exact Db.locations_deleteReplica_of_ne (Ne.symm hc) addr

end MetadataStore

/-! ### One step of the loops -/

namespace NamingServer

variable {cfg : Settings} {n n' : NamingServer} {b : HealStep} {out : List StorageRpc}
  {copies : ChunkId → Addr → Bool}

/-- A step that writes nothing and goes on. -/
theorem PassMove.quiet (hdb : n'.db = n.db) (htodo : n.heal.todo cfg copies = n'.heal.todo cfg copies)
    (hsends : n.heal.sends cfg copies =
      out.filterMap StorageRpc.attempt ++ n'.heal.sends cfg copies) (hlisted : n'.heal.listed = true)
    (hlive : n'.heal.live = n.heal.live)
    (hsourced : n'.heal.Sourced cfg) (hrepaired : n'.heal.repaired = n.heal.repaired) :
    PassMove cfg copies n n' out :=
  .edit [] htodo hsends hlisted hlive hsourced (by simpa using hrepaired) (by rw [hdb]) (by rw [hdb])
    fun c => by rw [hdb]; rfl

section Steps

variable (hclean : n.store.Clean) (hsourced : n.heal.Sourced cfg)
include hclean

theorem pass_of_next (hs : n.step cfg (.heal .next) = some (n', out)) :
    n'.store.Clean ∧ PassMove cfg copies n n' out := by
  cases healCase_of_step hs with
  | finish live repaired hp => exact ⟨hclean, .done live repaired hp rfl rfl rfl⟩
  | skip live m rest repaired hp hstart =>
    refine ⟨hclean, .quiet rfl ?_ ?_ rfl (by rw [hp]; rfl) ⟨?_, ?_⟩ (by rw [hp]; rfl)⟩
    · simp [hp, HealPhase.todo, repairsOf, hstart]
    · simp [hp, HealPhase.sends, sendsOf, hstart]
    · simp [HealPhase.repair]
    · simp [HealPhase.inCopy]
  | start live m rest repaired w hp hstart =>
    refine ⟨hclean, .quiet rfl ?_ ?_ rfl (by rw [hp]; rfl) ⟨?_, ?_⟩ (by rw [hp]; rfl)⟩
    · simp [hp, HealPhase.todo, repairsOf, hstart]
    · simp [hp, HealPhase.sends, sendsOf, hstart]
    · intro w' hw'
      cases hw'
      exact (startRepair_eq_some hstart).2.2.1
    · simp [HealPhase.inCopy]

include hsourced

theorem pass_of_copy (hs : n.step cfg (.heal .copy) = some (n', out)) :
    n'.store.Clean ∧ PassMove cfg copies n n' out := by
  cases healCase_of_step hs with
  | copy live rest repaired w target source candidates sources hp hcand hlive hlt =>
    refine ⟨hclean, .quiet rfl ?_ ?_ rfl (by rw [hp]; rfl) ⟨?_, ?_⟩ (by rw [hp]; rfl)⟩
    · simp [hp, HealPhase.todo, ← hcand]
    · have htries := @tries_of_copy cfg copies { w with candidates := candidates } target hlt
      simp only [← hcand] at htries
      simp only [hp, HealPhase.sends, Repair.sends, htries, List.filterMap_cons,
        StorageRpc.attempt, List.filterMap_nil, List.map_cons, List.cons_append, List.nil_append]
      simp only [Repair.answered]
      split_ifs <;> rfl
    · intro w' hw'
      cases hw'
      exact hsourced.1 w (by rw [hp]; rfl)
    · intro _ w' hw'
      cases hw'
      exact hlt
  | leave live rest repaired w hp hdone =>
    -- a repair under way has a source
    have hne : w.live ≠ [] := hsourced.1 w (by rw [hp]; rfl)
    have htries : w.tries cfg copies = [] := by
      rcases hdone with hcand | hnone | hfull
      · exact tries_of_no_candidates hcand
      · exact absurd hnone hne
      · exact tries_of_full hfull
    refine ⟨hclean, .quiet rfl ?_ ?_ rfl (by rw [hp]; rfl) ⟨?_, ?_⟩ (by rw [hp]; rfl)⟩
    · simp [hp, HealPhase.todo, Repair.todo, Repair.targets, htries, replace]
    · simp [hp, HealPhase.sends, Repair.sends, htries]
    · simp [HealPhase.repair]
    · simp [HealPhase.inCopy]

omit hclean in
/-- A copy under way has a source and is needed. -/
theorem needed_of_copying {live : List Addr} {rest : List ChunkMeta} {repaired : ℕ} {w : Repair}
    {target : Addr} {ticket : ℕ} (hp : n.heal = .copying live rest repaired w target ticket) :
    w.live ≠ [] ∧ w.live.length < cfg.replication := by
  have hrepair : n.heal.repair = some { w with candidates := target :: w.candidates } := by
    rw [hp]
    rfl
  exact ⟨hsourced.1 { w with candidates := target :: w.candidates } hrepair,
    hsourced.2 (by rw [hp]; rfl) { w with candidates := target :: w.candidates } hrepair⟩

theorem pass_of_answer {ok : Bool} (hok : Outcomes copies n (.heal (.answer ok)))
    (hs : n.step cfg (.heal (.answer ok)) = some (n', out)) :
    n'.store.Clean ∧ PassMove cfg copies n n' out := by
  cases healCase_of_step hs with
  | copied live rest repaired w target ticket hp =>
    obtain ⟨hne, hlt⟩ := needed_of_copying hsourced hp
    simp only [Outcomes, hp] at hok
    refine ⟨hclean, .quiet rfl ?_ ?_ rfl (by rw [hp]; rfl) ⟨?_, ?_⟩ (by rw [hp]; rfl)⟩
    · simp only [hp, HealPhase.todo, Repair.todo]
      rw [targets_of_copied hlt hok.symm]
    · simp [hp, HealPhase.sends, Repair.answered, ← hok]
    · intro w' hw'
      cases hw'
      exact hne
    · intro _ w' hw'
      cases hw'
      exact hlt
  | refused live rest repaired w target ticket hp =>
    obtain ⟨hne, hlt⟩ := needed_of_copying hsourced hp
    simp only [Outcomes, hp] at hok
    refine ⟨hclean, .quiet rfl ?_ ?_ rfl (by rw [hp]; rfl) ⟨?_, ?_⟩ (by rw [hp]; rfl)⟩
    · simp only [hp, HealPhase.todo, Repair.todo]
      rw [targets_of_failed hlt hok.symm]
    · simp [hp, HealPhase.sends, Repair.answered, ← hok]
    · intro w' hw'
      cases hw'
      exact hne
    · simp [HealPhase.inCopy]

omit hsourced in
theorem pass_of_record (hno : ¬ n.Raises (.heal .record))
    (hs : n.step cfg (.heal .record) = some (n', out)) :
    n'.store.Clean ∧ PassMove cfg copies n n' out := by
  cases healCase_of_step hs with
  | raise live rest repaired w target e store hp hadd =>
    simp only [Raises, hp, not_not] at hno
    obtain ⟨added, hadded, _⟩ := MetadataStore.addReplica_edit hclean target hno
    rw [hadd] at hadded
    cases hadded
  | record live rest repaired w target added store hp hadd hstale =>
    simp only [Raises, hp, not_not] at hno
    obtain ⟨_, _, hclean', hfiles, hchunks, hlocs⟩ := MetadataStore.addReplica_edit hclean target hno
    rw [hadd] at hclean' hfiles hchunks hlocs
    refine ⟨hclean', .edit [.add w.chunkId target] ?_ ?_ rfl (by rw [hp]; rfl) ⟨?_, ?_⟩
      (by rw [hp]; rfl) hfiles hchunks hlocs⟩
    · simp [hp, HealPhase.todo, replace_cons, hstale, Repair.todo]
    · simp [hp, HealPhase.sends]
    · intro w' hw'
      cases hw'
      simp
    · simp [HealPhase.inCopy]
  | replace live rest repaired w target x stale added store hp hadd hstale =>
    simp only [Raises, hp, not_not] at hno
    obtain ⟨_, _, hclean', hfiles, hchunks, hlocs⟩ := MetadataStore.addReplica_edit hclean target hno
    rw [hadd] at hclean' hfiles hchunks hlocs
    refine ⟨hclean', .edit [.add w.chunkId target] ?_ ?_ rfl (by rw [hp]; rfl) ⟨?_, ?_⟩
      (by rw [hp]; rfl) hfiles hchunks hlocs⟩
    · simp [hp, HealPhase.todo, replace_cons, hstale, Repair.todo, Repair.targets, Repair.tries]
    · simp [hp, HealPhase.sends, Repair.sends, Repair.tries]
    · intro w' hw'
      cases hw'
      simp
    · simp [HealPhase.inCopy]

theorem pass_of_drop (hs : n.step cfg (.heal .drop) = some (n', out)) :
    n'.store.Clean ∧ PassMove cfg copies n n' out := by
  cases healCase_of_step hs with
  | drop live rest repaired w x hp =>
    have hne : w.live ≠ [] := hsourced.1 { w with stale := x :: w.stale } (by rw [hp]; rfl)
    obtain ⟨hclean', hfiles, hchunks, hlocs⟩ :=
      MetadataStore.removeReplica_edit hclean w.chunkId x
    refine ⟨hclean', .edit [.remove w.chunkId x] ?_ ?_ rfl (by rw [hp]; rfl) ⟨?_, ?_⟩
      (by rw [hp]; rfl) hfiles hchunks hlocs⟩
    · simp [hp, HealPhase.todo]
    · simp [hp, HealPhase.sends]
    · intro w' hw'
      cases hw'
      exact hne
    · simp [HealPhase.inCopy]

/-- Once the chunks are listed, every step of the pass writes the first edits of the list
or leaves the list alone. -/
theorem pass_of_step (hlisted : n.heal.listed = true) (hok : Outcomes copies n (.heal b))
    (hno : ¬ n.Raises (.heal b)) (hs : n.step cfg (.heal b) = some (n', out)) :
    n'.store.Clean ∧ PassMove cfg copies n n' out := by
  cases b with
  | next => exact pass_of_next hclean hs
  | copy => exact pass_of_copy hclean hsourced hs
  | answer ok => exact pass_of_answer hclean hsourced hok hs
  | record => exact pass_of_record hclean hno hs
  | drop => exact pass_of_drop hclean hsourced hs
  | count | pick | known _ | scan _ | refresh _ =>
    cases healCase_of_step hs <;> simp_all [HealPhase.listed]

end Steps

end NamingServer

end GfsCluster
