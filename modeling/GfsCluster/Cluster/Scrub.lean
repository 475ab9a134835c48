import GfsCluster.Cluster.Reads
import GfsCluster.Cluster.Repair

/-! The startup scrub. It takes for orphans the files that are on disk at its listing and
were not recorded at its query, so what is recorded and stored in between, or copied for
the healer before it is recorded, is at risk. Where that does not happen, nothing that a
scrub removes is recorded until it is stored again. -/

namespace GfsCluster

open StepSystem

/-- A file of the chunk that is there now is an orphan to the scrub, or will be. -/
def ScrubPhase.Condemns (c : ChunkId) : ScrubPhase → Prop
  | idle => False
  | queried expected => c ∉ expected
  | removing orphans => c ∈ orphans

instance (c : ChunkId) (p : ScrubPhase) : Decidable (p.Condemns c) :=
  match p with
  | .idle => .isFalse id
  | .queried expected => inferInstanceAs (Decidable (c ∉ expected))
  | .removing orphans => inferInstanceAs (Decidable (c ∈ orphans))

namespace Cluster

variable {cfg : Settings} {s s' t : Cluster} {a : ClusterAction} {addr : Addr} {c : ChunkId}
  {b : Bytes} {ok : Cluster → ClusterAction → Prop}

/-! ### The condition -/

/-- The chunk file that the step writes. -/
def writes (s : Cluster) : ClusterAction → Option (Addr × ChunkId)
  | .storeItem i =>
    match s.net[i]? with
    | some (.storeChunks _ addr chunks stored) => chunks[stored]?.map fun x => (addr, x.1)
    | _ => none
  | .copyStore i =>
    match s.net[i]? with
    | some (.replicateData _ addr c _) => some (addr, c)
    | _ => none
  | _ => none

/-- The replica that the healer's step records. -/
def records (s : Cluster) : ClusterAction → Option (Addr × ChunkId)
  | .naming (.heal .record) => s.naming.heal.unrecorded
  | _ => none

/-- The chunk file that a scrub's step removes. -/
def scrubRemoves : ClusterAction → Option (Addr × ChunkId)
  | .scrubRemove addr c => some (addr, c)
  | _ => none

instance : Decidable (s.Landed addr c) :=
  inferInstanceAs (Decidable (_ ∨ _))

/-- No scrub is under way that condemns a recorded chunk when it is stored, or a chunk
when the healer records it; no scrub removes a copy that the healer is about to record. -/
def ScrubApart (s : Cluster) (a : ClusterAction) : Prop :=
  (∀ x ∈ s.writes a, ⟨x.2, x.1⟩ ∈ s.naming.db.replicas → ¬ (s.scrubs x.1).Condemns x.2) ∧
    (∀ x ∈ s.records a, ¬ (s.scrubs x.1).Condemns x.2) ∧
    ∀ x ∈ scrubRemoves a, ¬ s.Landed x.1 x.2

instance (s : Cluster) (a : ClusterAction) : Decidable (ScrubApart s a) :=
  inferInstanceAs (Decidable (_ ∧ _ ∧ _))

/-- What a scrub removed is not recorded at that server, unless it is stored again. -/
def ScrubSpares (cfg : Settings) (ok : Cluster → ClusterAction → Prop) : Prop :=
  ∀ s, Reachable cfg ok s → ∀ addr c, (addr, c) ∈ s.scrubbed → ⟨c, addr⟩ ∉ s.naming.db.replicas

/-! ### What a step does to a scrub -/

inductive ScrubMove (s : Cluster) (a : ClusterAction) (s' : Cluster) (addr : Addr) : Prop
  | keep (h' : s'.scrubs addr = s.scrubs addr)
  | query (o : RowOrder) (hnaming : s'.naming = s.naming)
      (h' : s'.scrubs addr = .queried (listChunkIdsFor (o.view s.naming.db) addr))
  | list (expected : List ChunkId) (h : s.scrubs addr = .queried expected)
      (hnaming : s'.naming = s.naming)
      (h' : s'.scrubs addr = .removing ((s.disks addr).keys.filter (· ∉ expected)))
  | remove (c : ChunkId) (orphans : List ChunkId) (ha : a = .scrubRemove addr c)
      (h : s.scrubs addr = .removing orphans) (hc : c ∈ orphans)
      (h' : s'.scrubs addr = .removing (orphans.erase c))
  | stop (h' : s'.scrubs addr = .idle)

theorem scrub_of_step (hs : s.step cfg a = some s') (addr : Addr) : ScrubMove s a s' addr := by
  have hother : ∀ {addr' : Addr} {p : ScrubPhase}, s'.scrubs = Function.update s.scrubs addr' p →
      addr ≠ addr' → ScrubMove s a s' addr := by
    intro addr' p h hne
    exact .keep (by rw [h, Function.update_of_ne hne])
  cases case_of_step hs with
  | scrubQuery addr' o hp =>
    by_cases ha : addr = addr'
    · subst ha
      exact .query o rfl (by simp [setScrub])
    · exact hother rfl ha
  | scrubList addr' expected h =>
    by_cases ha : addr = addr'
    · subst ha
      exact .list expected h rfl (by simp [setScrub])
    · exact hother rfl ha
  | scrubRemove addr' c orphans h hc =>
    by_cases ha : addr = addr'
    · subst ha
      exact .remove c orphans rfl h hc (by simp [setScrub])
    · exact hother rfl ha
  | scrubStop addr' =>
    by_cases ha : addr = addr'
    · subst ha
      exact .stop (by simp [setScrub])
    · exact hother rfl ha
  | _ => exact .keep rfl

/-- What counts as removed by a scrub was not written since. -/
theorem scrubbed_of_step (hs : s.step cfg a = some s') (h : (addr, c) ∈ s'.scrubbed) :
    ((addr, c) ∈ s.scrubbed ∧ s.writes a ≠ some (addr, c)) ∨
      ∃ orphans, a = .scrubRemove addr c ∧ s.scrubs addr = .removing orphans ∧ c ∈ orphans := by
  cases case_of_step hs with
  | storeItem i k addr' batch stored c' data hi hj =>
    simp only [write, List.mem_filter, decide_eq_true_eq] at h
    refine .inl ⟨h.1, fun hw => h.2 ?_⟩
    simpa [writes, hi, hj] using hw.symm
  | copyStore i ticket addr' c' data hi =>
    simp only [write, List.mem_filter, decide_eq_true_eq] at h
    refine .inl ⟨h.1, fun hw => h.2 ?_⟩
    simpa [writes, hi] using hw.symm
  | scrubRemove addr' c' orphans hp hc =>
    simp only [List.mem_append, List.mem_singleton] at h
    rcases h with h | h
    · exact .inl ⟨h, by simp [writes]⟩
    · cases h
      exact .inr ⟨orphans, rfl, hp, hc⟩
  | _ => exact .inl ⟨h, by simp [writes]⟩

/-! ### The invariant -/

/-- What a scrub may remove, and what it removed, is not recorded. -/
structure Spared (s : Cluster) : Prop where
  queried : ∀ addr expected, s.scrubs addr = .queried expected →
    ∀ c, ⟨c, addr⟩ ∈ s.naming.db.replicas → c ∈ expected ∨ s.file addr c = none
  removing : ∀ addr orphans, s.scrubs addr = .removing orphans → ∀ c ∈ orphans,
    (∃ f, s.naming.BornIn f c) ∧ ⟨c, addr⟩ ∉ s.naming.db.replicas
  scrubbed : ∀ addr c, (addr, c) ∈ s.scrubbed →
    ((∃ f, s.naming.BornIn f c) ∧ ⟨c, addr⟩ ∉ s.naming.db.replicas) ∧ ¬ s.Landed addr c

namespace Spared

theorem init : Spared Cluster.init where
  queried addr expected h := by simp [Cluster.init] at h
  removing addr orphans h := by simp [Cluster.init] at h
  scrubbed addr c h := by simp [Cluster.init] at h

/-- An unrecorded chunk of an earlier reservation is recorded by the healer only. -/
theorem unrecorded_of_step (hc : s.naming.Consistent cfg) (hs : s.step cfg a = some s')
    (h : (∃ f, s.naming.BornIn f c) ∧ ⟨c, addr⟩ ∉ s.naming.db.replicas)
    (hheal : a = .naming (.heal .record) → s.naming.heal.unrecorded ≠ some (addr, c)) :
    (∃ f, s'.naming.BornIn f c) ∧ ⟨c, addr⟩ ∉ s'.naming.db.replicas := by
  obtain ⟨⟨f, hborn⟩, hnot⟩ := h
  refine ⟨⟨f, born_of_step hborn hs⟩, fun h' => ?_⟩
  rcases recorded_of_step hc hs h' with h | hnew | ⟨hrec, hu⟩
  · exact hnot h
  · exact hnew f hborn
  · exact hheal hrec hu

theorem queried_of_step (h : Spared s) (hc : s.naming.Consistent cfg) (hcar : Carried s)
    (hok : ScrubApart s a) (hs : s.step cfg a = some s') {expected : List ChunkId}
    (hp' : s'.scrubs addr = .queried expected) (hr' : ⟨c, addr⟩ ∈ s'.naming.db.replicas) :
    c ∈ expected ∨ s'.file addr c = none := by
  obtain ⟨hwrites, hrecords, _⟩ := hok
  cases scrub_of_step hs addr with
  | keep hkeep =>
    rw [hkeep] at hp'
    have hcond : ¬ (s.scrubs addr).Condemns c → c ∈ expected := by
      rw [hp']
      exact fun h => not_not.mp h
    rcases recorded_of_step hc hs hr' with hr | hnew | ⟨hrec, hu⟩
    · rcases h.queried addr expected hp' c hr with hin | hnone
      · exact .inl hin
      · cases file_of_step hs addr c with
        | keep h' => exact .inr (h'.trans hnone)
        | store i k j batch b ha hi hj _ =>
          refine .inl (hcond (hwrites (addr, c) ?_ hr))
          simp [ha, writes, hi, hj]
        | copy i ticket b ha hi _ =>
          refine .inl (hcond (hwrites (addr, c) ?_ hr))
          simp [ha, writes, hi]
        | delete _ _ _ h' => exact .inr h'
        | scrub _ _ _ _ h' => exact .inr h'
    · right
      by_contra hfile
      obtain ⟨b, hb⟩ := Option.ne_none_iff_exists'.mp hfile
      obtain ⟨f, hf⟩ := born_of_stored hcar hs hb
      exact hnew f hf
    · subst hrec
      exact .inl (hcond (hrecords _ hu))
  | query o hnaming h' =>
    rw [h', ScrubPhase.queried.injEq] at hp'
    rw [hnaming] at hr'
    subst hp'
    exact .inl (mem_listChunkIdsFor.mpr (o.mem_replicas _ |>.mpr hr'))
  | list _ _ _ h' => rw [h'] at hp'; cases hp'
  | remove _ _ _ _ _ h' => rw [h'] at hp'; cases hp'
  | stop h' => rw [h'] at hp'; cases hp'

theorem removing_of_step (h : Spared s) (hc : s.naming.Consistent cfg) (hcar : Carried s)
    (hok : ScrubApart s a) (hs : s.step cfg a = some s') {orphans : List ChunkId}
    (hp' : s'.scrubs addr = .removing orphans) (hmem : c ∈ orphans) :
    (∃ f, s'.naming.BornIn f c) ∧ ⟨c, addr⟩ ∉ s'.naming.db.replicas := by
  obtain ⟨_, hrecords, _⟩ := hok
  have hkept : ∀ {old : List ChunkId}, s.scrubs addr = .removing old → c ∈ old →
      (∃ f, s'.naming.BornIn f c) ∧ ⟨c, addr⟩ ∉ s'.naming.db.replicas := by
    intro old hp hold
    refine unrecorded_of_step hc hs (h.removing addr old hp c hold) fun hrec hu => ?_
    subst hrec
    apply hrecords _ hu
    rw [hp]
    exact hold
  cases scrub_of_step hs addr with
  | keep hkeep => exact hkept (hkeep ▸ hp') hmem
  | query _ _ h' => rw [h'] at hp'; cases hp'
  | list expected hp hnaming h' =>
    rw [h', ScrubPhase.removing.injEq] at hp'
    subst hp'
    simp only [List.mem_filter, decide_eq_true_eq] at hmem
    obtain ⟨hkey, hnotin⟩ := hmem
    obtain ⟨b, hb⟩ := Option.isSome_iff_exists.mp (AList.lookup_isSome.mpr hkey)
    have hfile : s.file addr c = some b := hb
    obtain ⟨k, i, hi, hres, _⟩ := hcar.files addr c b hfile
    rw [hnaming]
    refine ⟨⟨_, k, i, hi, hres, rfl⟩, fun hr => ?_⟩
    rcases h.queried addr expected hp c hr with hin | hnone
    · exact hnotin hin
    · rw [hfile] at hnone
      cases hnone
  | remove c' old _ hp _ h' =>
    rw [h', ScrubPhase.removing.injEq] at hp'
    subst hp'
    exact hkept hp (List.mem_of_mem_erase hmem)
  | stop h' => rw [h'] at hp'; cases hp'

theorem scrubbed_of_step (h : Spared s) (hc : s.naming.Consistent cfg) (ht : Tickets s)
    (hok : ScrubApart s a) (hs : s.step cfg a = some s') (hmem : (addr, c) ∈ s'.scrubbed) :
    ((∃ f, s'.naming.BornIn f c) ∧ ⟨c, addr⟩ ∉ s'.naming.db.replicas) ∧ ¬ s'.Landed addr c := by
  obtain ⟨_, _, hremoves⟩ := hok
  rcases Cluster.scrubbed_of_step hs hmem with ⟨hold, hwrites⟩ | ⟨orphans, rfl, hp, hin⟩
  · obtain ⟨hnot, hlanded⟩ := h.scrubbed addr c hold
    refine ⟨unrecorded_of_step hc hs hnot fun _ hu => hlanded (.inl hu), fun hl => ?_⟩
    rcases landed_of_step ht hs hl with hl | ⟨i, t, b, rfl, hi⟩
    · exact hlanded hl
    · exact hwrites (by simp [writes, hi])
  · have hlanded : ¬ s.Landed addr c := hremoves (addr, c) rfl
    refine ⟨unrecorded_of_step hc hs (h.removing addr orphans hp c hin) fun hrec => ?_, fun hl => ?_⟩
    · cases hrec
    · rcases landed_of_step ht hs hl with hl | ⟨_, _, _, ha, _⟩
      · exact hlanded hl
      · cases ha

theorem of_step (h : Spared s) (hc : s.naming.Consistent cfg) (hcar : Carried s) (ht : Tickets s)
    (hok : ScrubApart s a) (hs : s.step cfg a = some s') : Spared s' where
  queried _ _ hp' _ hr' := h.queried_of_step hc hcar hok hs hp' hr'
  removing _ _ hp' _ hmem := h.removing_of_step hc hcar hok hs hp' hmem
  scrubbed _ _ hmem := h.scrubbed_of_step hc ht hok hs hmem

end Spared

theorem scrubSpares_of_scrubApart (cfg : Settings) : ScrubSpares cfg ScrubApart := by
  intro s hs addr c hmem
  have hspared : Spared s := by
    refine Steps.invariant (P := Spared) hs Spared.init ?_
    intro t a u ht h hok hstep
    have ht : Reachable cfg ScrubApart t := ht
    exact h.of_step ht.consistent ht.carried ht.tickets hok hstep
  exact (hspared.scrubbed addr c hmem).1.2

/-- The file is deleted while its server is away, and the server scrubs when it is back. -/
theorem scrubSpares_of_scrubApart_orphan : ∃ s, Reachable ⟨1, 60⟩ ScrubApart s ∧
    (['s'], ['c']) ∈ s.scrubbed ∧ s.file ['s'] ['c'] = none ∧
      ⟨['c'], ['s']⟩ ∉ s.naming.db.replicas := by
  have hrun : (run (guarded (step ⟨1, 60⟩) ScrubApart) init (storing ++
      [.naming (.delete 0 (.receive ['f'])), .naming (.delete 0 (.selectFile .table)),
        .naming (.delete 0 (.selectChunks .table)), .naming (.delete 0 .remove),
        .naming (.delete 0 (.send 0 false)), .drop 0, .scrubQuery ['s'] .table, .scrubList ['s'],
        .scrubRemove ['s'] ['c']])).any (fun s =>
      decide ((['s'], ['c']) ∈ s.scrubbed) && decide (s.file ['s'] ['c'] = none)) = true := by
    decide +kernel
  obtain ⟨s, hs, hp⟩ := exists_of_run hrun
  simp only [Bool.and_eq_true, decide_eq_true_eq] at hp
  exact ⟨s, hs, hp.1, hp.2, scrubSpares_of_scrubApart ⟨1, 60⟩ s hs _ _ hp.1⟩

/-- The server asks what is expected of it, then is given a chunk of a new file, and then
lists its directory. -/
theorem not_scrubSpares : ¬ ScrubSpares ⟨1, 60⟩ anyStep := by
  intro h
  have hrun : (run (guarded (step ⟨1, 60⟩) anyStep) init
      ([.naming (.registerStorage ['s']), .scrubQuery ['s'] .table] ++ storing.drop 1 ++
        [.scrubList ['s'], .scrubRemove ['s'] ['c']])).any (fun s =>
      decide ((['s'], ['c']) ∈ s.scrubbed) &&
        decide (⟨['c'], ['s']⟩ ∈ s.naming.db.replicas)) = true := by
    decide +kernel
  obtain ⟨s, hs, hp⟩ := exists_of_run hrun
  simp only [Bool.and_eq_true, decide_eq_true_eq] at hp
  exact h s hs _ _ hp.1 hp.2

end Cluster

end GfsCluster
