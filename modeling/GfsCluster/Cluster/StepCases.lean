import GfsCluster.Cluster.Step

/-! The ways through the step function of the cluster, each with all that it does. -/

namespace GfsCluster

namespace Cluster

variable {cfg : Settings} {s s' : Cluster} {a : ClusterAction}

inductive StepCase (cfg : Settings) (s : Cluster) : ClusterAction → Cluster → Prop
  | naming (b : NamingAction) (n : NamingServer) (out : List StorageRpc) (hfree : s.Free b)
      (hn : s.naming.step cfg b = some (n, out)) :
    StepCase cfg s (.naming b) { s with naming := n, net := s.net ++ out.map StorageRpc.message }
  -- GFSClient.create
  | createCall (k : ℕ) (f : Filename) (data : Bytes) (n : NamingServer) (out : List StorageRpc)
      (hp : (s.calls k).phase = .idle)
      (hn : s.naming.step cfg (.create k (.receive (createRequest f data))) = some (n, out)) :
    StepCase cfg s (.createCall k f data)
      { s with naming := n, calls := Function.update s.calls k ⟨f, data, .requested, .unsent⟩ }
  | createReply (k : ℕ) (resp : CreateFileResponse) (hp : (s.calls k).phase = .requested)
      (hresp : (s.naming.creates k).phase = .replied resp) :
    StepCase cfg s (.createReply k) (s.setPhase k (afterCreateFile (s.calls k).data resp))
  | sendBatch (k j : ℕ) (us : List Upload) (addr : Addr) (batch : List (ChunkId × Bytes))
      (rest : List (List (ChunkId × Bytes))) (hp : (s.calls k).phase = .uploading us)
      (hj : us[j]? = some ⟨addr, batch :: rest, .ready⟩) :
    StepCase cfg s (.sendBatch k j)
      { s.setPhase k (.uploading (us.set j ⟨addr, batch :: rest, .waiting⟩)) with
        net := s.net ++ [.storeChunks k addr batch 0] }
  | storeReply (k j i : ℕ) (us : List Upload) (addr : Addr) (batch : List (ChunkId × Bytes))
      (rest : List (List (ChunkId × Bytes))) (hp : (s.calls k).phase = .uploading us)
      (hi : s.net[i]? = some (.storeChunks k addr batch batch.length))
      (hj : us[j]? = some ⟨addr, batch :: rest, .waiting⟩) :
    StepCase cfg s (.storeReply k j i)
      { s.setPhase k (.uploading (us.set j ⟨addr, rest, .ready⟩)) with
        net := s.net.eraseIdx i
        acked := s.acked ++ batch.map fun x => (x.1, addr, x.2) }
  | uploadFail (k j : ℕ) (us : List Upload) (addr : Addr) (todo : List (List (ChunkId × Bytes)))
      (hp : (s.calls k).phase = .uploading us) (hj : us[j]? = some ⟨addr, todo, .waiting⟩) :
    StepCase cfg s (.uploadFail k j) (s.setPhase k (.uploading (us.set j ⟨addr, todo, .failed⟩)))
  | commitSend (k : ℕ) (us : List Upload) (hp : (s.calls k).phase = .uploading us)
      (hdone : ∀ u ∈ us, u.todo = [] ∧ u.state = .ready) :
    StepCase cfg s (.commitSend k) ((s.setPhase k .committing).setCommit k .sent)
  | commitExec (k : ℕ) (n : NamingServer) (out : List StorageRpc) (hc : (s.calls k).commit = .sent)
      (hn : s.naming.step cfg (.commit (s.calls k).filename) = some (n, out)) :
    StepCase cfg s (.commitExec k)
      { s.setCommit k (.answered (s.naming.store.commitFile (s.calls k).filename).1) with naming := n }
  | commitLost (k : ℕ) (hc : (s.calls k).commit = .sent) :
    StepCase cfg s (.commitLost k) (s.setCommit k .lost)
  | commitReply (k : ℕ) (ok : Bool) (hp : (s.calls k).phase = .committing)
      (hc : (s.calls k).commit = .answered ok) :
    StepCase cfg s (.commitReply k) (s.setPhase k (if ok then .returned else .raised))
  | clientStop (k : ℕ) (hp : (s.calls k).phase = .requested ∨ (∃ us, (s.calls k).phase = .uploading us) ∨
      (s.calls k).phase = .committing) :
    StepCase cfg s (.clientStop k) (s.setPhase k .raised)
  -- storage servers
  | storeItem (i k : ℕ) (addr : Addr) (batch : List (ChunkId × Bytes)) (stored : ℕ) (c : ChunkId)
      (data : Bytes) (hi : s.net[i]? = some (.storeChunks k addr batch stored))
      (hj : batch[stored]? = some (c, data)) :
    StepCase cfg s (.storeItem i)
      { s.write addr c data with net := s.net.set i (.storeChunks k addr batch (stored + 1)) }
  | deleteExec (i : ℕ) (addr : Addr) (c : ChunkId) (hi : s.net[i]? = some (.deleteChunk addr c)) :
    StepCase cfg s (.deleteExec i) { s.remove addr c with net := s.net.eraseIdx i }
  | copyFetch (i ticket : ℕ) (addr : Addr) (c : ChunkId) (source : Addr) (data : Bytes)
      (hi : s.net[i]? = some (.replicateChunk ticket addr c source)) (hf : s.file source c = some data) :
    StepCase cfg s (.copyFetch i) { s with net := s.net.set i (.replicateData ticket addr c data) }
  | copyGone (i ticket : ℕ) (addr : Addr) (c : ChunkId) (source : Addr)
      (hi : s.net[i]? = some (.replicateChunk ticket addr c source)) (hf : s.file source c = none) :
    StepCase cfg s (.copyFetch i) { s with net := s.net.eraseIdx i }
  | copyStore (i ticket : ℕ) (addr : Addr) (c : ChunkId) (data : Bytes)
      (hi : s.net[i]? = some (.replicateData ticket addr c data)) :
    StepCase cfg s (.copyStore i)
      { s.write addr c data with net := s.net.eraseIdx i, copies := ticket :: s.copies }
  | drop (i : ℕ) (m : Message) (hi : s.net[i]? = some m) :
    StepCase cfg s (.drop i) { s with net := s.net.eraseIdx i }
  -- the startup scrub
  | scrubQuery (addr : Addr) (o : RowOrder) (hp : s.scrubs addr = .idle) :
    StepCase cfg s (.scrubQuery addr o)
      (s.setScrub addr (.queried (listChunkIdsFor (o.view s.naming.db) addr)))
  | scrubList (addr : Addr) (expected : List ChunkId) (hp : s.scrubs addr = .queried expected) :
    StepCase cfg s (.scrubList addr)
      (s.setScrub addr (.removing ((s.disks addr).keys.filter (· ∉ expected))))
  | scrubRemove (addr : Addr) (c : ChunkId) (orphans : List ChunkId)
      (hp : s.scrubs addr = .removing orphans) (hc : c ∈ orphans) :
    StepCase cfg s (.scrubRemove addr c)
      { (s.remove addr c).setScrub addr (.removing (orphans.erase c)) with
        scrubbed := s.scrubbed ++ [(addr, c)] }
  | scrubStop (addr : Addr) : StepCase cfg s (.scrubStop addr) (s.setScrub addr .idle)

theorem case_of_step (hs : s.step cfg a = some s') : StepCase cfg s a s' := by
  cases a with
  | naming b =>
    simp only [step] at hs
    split_ifs at hs with hfree
    obtain ⟨⟨n, out⟩, hn, rfl⟩ := Option.map_eq_some_iff.mp hs
    exact .naming b n out hfree hn
  | createCall k f data =>
    simp only [step] at hs
    split at hs
    · obtain ⟨⟨n, out⟩, hn, rfl⟩ := Option.map_eq_some_iff.mp hs
      exact .createCall k f data n out ‹_› hn
    · cases hs
  | createReply k =>
    simp only [step] at hs
    split at hs <;> cases hs
    exact .createReply k _ ‹_› ‹_›
  | sendBatch k j =>
    simp only [step] at hs
    split at hs
    · split at hs <;> cases hs
      exact .sendBatch k j _ _ _ _ ‹_› ‹_›
    · cases hs
  | storeReply k j i =>
    simp only [step] at hs
    split at hs
    · rename_i us k' addr chunks stored hp hi
      split at hs
      · rename_i addr' batch rest hj
        split_ifs at hs with heq
        obtain ⟨rfl, rfl, rfl, rfl⟩ := heq
        cases hs
        exact .storeReply k' j i us addr' chunks rest hp hi hj
      · cases hs
    · cases hs
  | uploadFail k j =>
    simp only [step] at hs
    split at hs
    · split at hs <;> cases hs
      exact .uploadFail k j _ _ _ ‹_› ‹_›
    · cases hs
  | commitSend k =>
    simp only [step] at hs
    split at hs
    · split_ifs at hs with hdone
      cases hs
      exact .commitSend k _ ‹_› hdone
    · cases hs
  | commitExec k =>
    simp only [step] at hs
    split at hs
    · obtain ⟨⟨n, out⟩, hn, rfl⟩ := Option.map_eq_some_iff.mp hs
      exact .commitExec k n out ‹_› hn
    · cases hs
  | commitLost k =>
    simp only [step] at hs
    split at hs <;> cases hs
    exact .commitLost k ‹_›
  | commitReply k =>
    simp only [step] at hs
    split at hs <;> cases hs
    exact .commitReply k _ ‹_› ‹_›
  | clientStop k =>
    simp only [step] at hs
    split at hs <;> cases hs
    · exact .clientStop k (.inl ‹_›)
    · exact .clientStop k (.inr (.inl ⟨_, ‹_›⟩))
    · exact .clientStop k (.inr (.inr ‹_›))
  | storeItem i =>
    simp only [step] at hs
    split at hs
    · split at hs <;> cases hs
      exact .storeItem i _ _ _ _ _ _ ‹_› ‹_›
    · cases hs
  | deleteExec i =>
    simp only [step] at hs
    split at hs <;> cases hs
    exact .deleteExec i _ _ ‹_›
  | copyFetch i =>
    simp only [step] at hs
    split at hs
    · split at hs <;> cases hs
      · exact .copyFetch i _ _ _ _ _ ‹_› ‹_›
      · exact .copyGone i _ _ _ _ ‹_› ‹_›
    · cases hs
  | copyStore i =>
    simp only [step] at hs
    split at hs <;> cases hs
    exact .copyStore i _ _ _ _ ‹_›
  | drop i =>
    simp only [step] at hs
    split_ifs at hs with hlt
    cases hs
    exact .drop i _ (List.getElem?_eq_getElem hlt)
  | scrubQuery addr o =>
    simp only [step] at hs
    split at hs <;> cases hs
    exact .scrubQuery addr o ‹_›
  | scrubList addr =>
    simp only [step] at hs
    split at hs <;> cases hs
    exact .scrubList addr _ ‹_›
  | scrubRemove addr c =>
    simp only [step] at hs
    split at hs
    · split_ifs at hs with hc
      cases hs
      exact .scrubRemove addr c _ ‹_› hc
    · cases hs
  | scrubStop addr =>
    cases hs
    exact .scrubStop addr

end Cluster

end GfsCluster
