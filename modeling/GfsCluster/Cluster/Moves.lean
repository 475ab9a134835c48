import GfsCluster.Cluster.StepCases
import GfsCluster.Lib.StepSystem

/-! What one step of the cluster can do to each of its parts, said once: to the naming
server, to a client's call, to one chunk file, and to the requests under way. -/

namespace GfsCluster

namespace Cluster

variable {cfg : Settings} {s s' : Cluster} {a : ClusterAction} {k : ℕ} {addr : Addr} {c : ChunkId}

/-! ### The naming server -/

/-- The step of the cluster makes this step of the naming server. -/
inductive Drives (s : Cluster) : ClusterAction → NamingAction → Prop
  | free (b : NamingAction) (hb : s.Free b) : Drives s (.naming b) b
  | create (k : ℕ) (f : Filename) (data : Bytes) (hp : (s.calls k).phase = .idle) :
    Drives s (.createCall k f data) (.create k (.receive (createRequest f data)))
  | commit (k : ℕ) (hc : (s.calls k).commit = .sent) :
    Drives s (.commitExec k) (.commit (s.calls k).filename)

theorem naming_of_step (hs : s.step cfg a = some s') : s'.naming = s.naming ∨
    ∃ b out, s.Drives a b ∧ s.naming.step cfg b = some (s'.naming, out) := by
  cases case_of_step hs with
  | naming b n out hfree hn => exact .inr ⟨b, out, .free b hfree, hn⟩
  | createCall k f data n out hp hn => exact .inr ⟨_, out, .create k f data hp, hn⟩
  | commitExec k n out hc hn => exact .inr ⟨_, out, .commit k hc, hn⟩
  | _ => exact .inl rfl

/-! ### Calls -/

/-- What a step does to one call of `create`. -/
inductive CallMove (s : Cluster) (a : ClusterAction) (s' : Cluster) (k : ℕ) : Prop
  | keep (h' : s'.calls k = s.calls k)
  | call (f : Filename) (data : Bytes) (ha : a = .createCall k f data)
      (hp : (s.calls k).phase = .idle) (h' : s'.calls k = ⟨f, data, .requested, .unsent⟩)
  | reply (resp : CreateFileResponse) (hp : (s.calls k).phase = .requested)
      (hresp : (s.naming.creates k).phase = .replied resp)
      (h' : s'.calls k = { s.calls k with phase := afterCreateFile (s.calls k).data resp })
  | upload (j : ℕ) (us : List Upload) (addr : Addr) (todo : List (List (ChunkId × Bytes)))
      (st st' : UploadState) (hp : (s.calls k).phase = .uploading us)
      (hj : us[j]? = some ⟨addr, todo, st⟩) (hst' : st' ≠ .ready)
      (h' : s'.calls k = { s.calls k with phase := .uploading (us.set j ⟨addr, todo, st'⟩) })
  | acked (j i : ℕ) (us : List Upload) (addr : Addr) (batch : List (ChunkId × Bytes))
      (rest : List (List (ChunkId × Bytes))) (hp : (s.calls k).phase = .uploading us)
      (hj : us[j]? = some ⟨addr, batch :: rest, .waiting⟩)
      (hi : s.net[i]? = some (.storeChunks k addr batch batch.length))
      (hacked : s'.acked = s.acked ++ batch.map fun x => (x.1, addr, x.2))
      (h' : s'.calls k = { s.calls k with phase := .uploading (us.set j ⟨addr, rest, .ready⟩) })
  | send (us : List Upload) (hp : (s.calls k).phase = .uploading us)
      (hdone : ∀ u ∈ us, u.todo = [] ∧ u.state = .ready)
      (h' : s'.calls k = { s.calls k with phase := .committing, commit := .sent })
  | exec (ha : a = .commitExec k) (hc : (s.calls k).commit = .sent)
      (h' : s'.calls k = { s.calls k with
        commit := .answered (s.naming.store.commitFile (s.calls k).filename).1 })
  | lost (hc : (s.calls k).commit = .sent) (h' : s'.calls k = { s.calls k with commit := .lost })
  | finish (ok : Bool) (hp : (s.calls k).phase = .committing)
      (hc : (s.calls k).commit = .answered ok)
      (h' : s'.calls k = { s.calls k with phase := if ok then .returned else .raised })
  | stop (hp : (s.calls k).phase ≠ .idle) (h' : s'.calls k = { s.calls k with phase := .raised })

theorem call_of_step (hs : s.step cfg a = some s') (k : ℕ) : CallMove s a s' k := by
  have hother : ∀ {j : ℕ} {call : CreateCall}, s'.calls = Function.update s.calls j call →
      k ≠ j → CallMove s a s' k := by
    intro j call h hne
    exact .keep (by rw [h, Function.update_of_ne hne])
  cases case_of_step hs with
  | createCall j f data n out hp hn =>
    by_cases hk : k = j
    · subst hk
      exact .call f data rfl hp (by simp)
    · exact hother rfl hk
  | createReply j resp hp hresp =>
    by_cases hk : k = j
    · subst hk
      exact .reply resp hp hresp (by simp [setPhase])
    · exact hother rfl hk
  | sendBatch j i us addr batch rest hp hj =>
    by_cases hk : k = j
    · subst hk
      exact .upload i us addr (batch :: rest) .ready .waiting hp hj (by simp) (by simp [setPhase])
    · exact hother rfl hk
  | storeReply j i l us addr batch rest hp hi hj =>
    by_cases hk : k = j
    · subst hk
      exact .acked i l us addr batch rest hp hj hi rfl (by simp [setPhase])
    · exact hother rfl hk
  | uploadFail j i us addr todo hp hj =>
    by_cases hk : k = j
    · subst hk
      exact .upload i us addr todo .waiting .failed hp hj (by simp) (by simp [setPhase])
    · exact hother rfl hk
  | commitSend j us hp hdone =>
    by_cases hk : k = j
    · subst hk
      exact .send us hp hdone (by simp [setPhase, setCommit])
    · exact .keep (by simp [setPhase, setCommit, Function.update_of_ne hk])
  | commitExec j n out hc hn =>
    by_cases hk : k = j
    · subst hk
      exact .exec rfl hc (by simp [setCommit])
    · exact hother rfl hk
  | commitLost j hc =>
    by_cases hk : k = j
    · subst hk
      exact .lost hc (by simp [setCommit])
    · exact hother rfl hk
  | commitReply j ok hp hc =>
    by_cases hk : k = j
    · subst hk
      exact .finish ok hp hc (by simp [setPhase])
    · exact hother rfl hk
  | clientStop j hp =>
    by_cases hk : k = j
    · subst hk
      refine .stop ?_ (by simp [setPhase])
      rcases hp with hp | ⟨us, hp⟩ | hp <;> simp [hp]
    · exact hother rfl hk
  | _ => exact .keep rfl

/-! ### Chunk files -/

/-- What a step does to one chunk file. -/
inductive FileMove (s : Cluster) (a : ClusterAction) (s' : Cluster) (addr : Addr) (c : ChunkId) :
    Prop
  | keep (h' : s'.file addr c = s.file addr c)
  | store (i k j : ℕ) (batch : List (ChunkId × Bytes)) (b : Bytes) (ha : a = .storeItem i)
      (hi : s.net[i]? = some (.storeChunks k addr batch j)) (hj : batch[j]? = some (c, b))
      (h' : s'.file addr c = some b)
  | copy (i ticket : ℕ) (b : Bytes) (ha : a = .copyStore i)
      (hi : s.net[i]? = some (.replicateData ticket addr c b)) (h' : s'.file addr c = some b)
  | delete (i : ℕ) (ha : a = .deleteExec i) (hi : s.net[i]? = some (.deleteChunk addr c))
      (h' : s'.file addr c = none)
  | scrub (orphans : List ChunkId) (ha : a = .scrubRemove addr c)
      (hr : s.scrubs addr = .removing orphans) (hc : c ∈ orphans) (h' : s'.file addr c = none)

theorem file_write (s : Cluster) (addr addr' : Addr) (c c' : ChunkId) (b : Bytes) :
    (s.write addr' c' b).file addr c =
      if addr = addr' ∧ c = c' then some b else s.file addr c := by
  unfold file write
  by_cases ha : addr = addr'
  · subst ha
    by_cases hc : c = c'
    · subst hc
      simp
    · simp [hc, AList.lookup_insert_ne hc]
  · simp [ha]

theorem file_remove (s : Cluster) (addr addr' : Addr) (c c' : ChunkId) :
    (s.remove addr' c').file addr c =
      if addr = addr' ∧ c = c' then none else s.file addr c := by
  unfold file remove
  by_cases ha : addr = addr'
  · subst ha
    by_cases hc : c = c'
    · subst hc
      simp
    · simp [hc, AList.lookup_erase_ne hc]
  · simp [ha]

theorem file_of_step (hs : s.step cfg a = some s') (addr : Addr) (c : ChunkId) :
    FileMove s a s' addr c := by
  cases case_of_step hs with
  | storeItem i k addr' batch j c' b hi hj =>
    have hfile := file_write s addr addr' c c' b
    by_cases heq : addr = addr' ∧ c = c'
    · obtain ⟨rfl, rfl⟩ := heq
      exact .store i k j batch b rfl hi hj (hfile.trans (if_pos ⟨rfl, rfl⟩))
    · exact .keep (hfile.trans (if_neg heq))
  | copyStore i ticket addr' c' b hi =>
    have hfile := file_write s addr addr' c c' b
    by_cases heq : addr = addr' ∧ c = c'
    · obtain ⟨rfl, rfl⟩ := heq
      exact .copy i ticket b rfl hi (hfile.trans (if_pos ⟨rfl, rfl⟩))
    · exact .keep (hfile.trans (if_neg heq))
  | deleteExec i addr' c' hi =>
    have hfile := file_remove s addr addr' c c'
    by_cases heq : addr = addr' ∧ c = c'
    · obtain ⟨rfl, rfl⟩ := heq
      exact .delete i rfl hi (hfile.trans (if_pos ⟨rfl, rfl⟩))
    · exact .keep (hfile.trans (if_neg heq))
  | scrubRemove addr' c' orphans hr hc =>
    have hfile := file_remove s addr addr' c c'
    by_cases heq : addr = addr' ∧ c = c'
    · obtain ⟨rfl, rfl⟩ := heq
      exact .scrub orphans rfl hr hc (hfile.trans (if_pos ⟨rfl, rfl⟩))
    · exact .keep (hfile.trans (if_neg heq))
  | _ => exact .keep rfl

/-! ### Requests under way -/

/-- Where a request under way after a step comes from. -/
inductive NetMove (cfg : Settings) (s : Cluster) (a : ClusterAction) (s' : Cluster) (m : Message) : Prop
  | old (h : m ∈ s.net)
  | sent (k j : ℕ) (us : List Upload) (addr : Addr) (batch : List (ChunkId × Bytes))
      (rest : List (List (ChunkId × Bytes))) (hp : (s.calls k).phase = .uploading us)
      (hj : us[j]? = some ⟨addr, batch :: rest, .ready⟩) (hm : m = .storeChunks k addr batch 0)
  | stored (k : ℕ) (addr : Addr) (batch : List (ChunkId × Bytes)) (j : ℕ)
      (h : .storeChunks k addr batch j ∈ s.net) (hm : m = .storeChunks k addr batch (j + 1))
      (c : ChunkId) (b : Bytes) (hj : batch[j]? = some (c, b)) (hf : s'.file addr c = some b)
  | rpc (b : NamingAction) (out : List StorageRpc) (r : StorageRpc) (ha : a = .naming b)
      (hs : s.naming.step cfg b = some (s'.naming, out)) (hr : r ∈ out) (hm : m = r.message)
  | fetched (ticket : ℕ) (addr : Addr) (c : ChunkId) (source : Addr) (b : Bytes)
      (h : .replicateChunk ticket addr c source ∈ s.net) (hf : s.file source c = some b)
      (hm : m = .replicateData ticket addr c b)

/-- What a step does to the requests under way. -/
inductive NetChange (cfg : Settings) (s : Cluster) (a : ClusterAction) (s' : Cluster) : Prop
  | keep (h' : s'.net = s.net)
  | rpcs (b : NamingAction) (out : List StorageRpc) (ha : a = .naming b)
      (hn : s.naming.step cfg b = some (s'.naming, out))
      (h' : s'.net = s.net ++ out.map StorageRpc.message)
  | sent (k j : ℕ) (us : List Upload) (addr : Addr) (batch : List (ChunkId × Bytes))
      (rest : List (List (ChunkId × Bytes))) (ha : a = .sendBatch k j)
      (hp : (s.calls k).phase = .uploading us) (hj : us[j]? = some ⟨addr, batch :: rest, .ready⟩)
      (h' : s'.net = s.net ++ [.storeChunks k addr batch 0])
  | stored (i k : ℕ) (addr : Addr) (batch : List (ChunkId × Bytes)) (j : ℕ) (c : ChunkId) (b : Bytes)
      (hi : s.net[i]? = some (.storeChunks k addr batch j)) (hj : batch[j]? = some (c, b))
      (hf : s'.file addr c = some b) (h' : s'.net = s.net.set i (.storeChunks k addr batch (j + 1)))
  | fetched (i ticket : ℕ) (addr : Addr) (c : ChunkId) (source : Addr) (b : Bytes)
      (hi : s.net[i]? = some (.replicateChunk ticket addr c source)) (hf : s.file source c = some b)
      (h' : s'.net = s.net.set i (.replicateData ticket addr c b))
  | deleted (i : ℕ) (addr : Addr) (c : ChunkId) (hi : s.net[i]? = some (.deleteChunk addr c))
      (hf : s'.file addr c = none) (h' : s'.net = s.net.eraseIdx i)
  | dropped (i : ℕ) (m : Message) (ha : a = .drop i) (hi : s.net[i]? = some m)
      (h' : s'.net = s.net.eraseIdx i)
  | answered (i : ℕ) (m : Message) (hi : s.net[i]? = some m) (hm : ∀ addr c, m ≠ .deleteChunk addr c)
      (h' : s'.net = s.net.eraseIdx i)

theorem netChange_of_step (hs : s.step cfg a = some s') : NetChange cfg s a s' := by
  cases case_of_step hs with
  | naming b n out hfree hn => exact .rpcs b out rfl hn rfl
  | sendBatch k j us addr batch rest hp hj => exact .sent k j us addr batch rest rfl hp hj rfl
  | storeItem i k addr batch j c b hi hj =>
    exact .stored i k addr batch j c b hi hj
      ((file_write s addr addr c c b).trans (if_pos ⟨rfl, rfl⟩)) rfl
  | storeReply k j i us addr batch rest hp hi hj => exact .answered i _ hi (by simp) rfl
  | deleteExec i addr c hi =>
    exact .deleted i addr c hi ((file_remove s addr addr c c).trans (if_pos ⟨rfl, rfl⟩)) rfl
  | copyFetch i ticket addr c source b hi hf => exact .fetched i ticket addr c source b hi hf rfl
  | copyGone i ticket addr c source hi hf => exact .answered i _ hi (by simp) rfl
  | copyStore i ticket addr c b hi => exact .answered i _ hi (by simp) rfl
  | drop i m hi => exact .dropped i m rfl hi rfl
  | _ => exact .keep rfl

/-- Where a request under way comes from. -/
theorem net_of_step (hs : s.step cfg a = some s') {m : Message} (hm : m ∈ s'.net) :
    NetMove cfg s a s' m := by
  cases netChange_of_step hs with
  | keep h' => exact .old (h' ▸ hm)
  | rpcs b out ha hn h' =>
    rw [h'] at hm
    rcases List.mem_append.mp hm with hm | hm
    · exact .old hm
    · obtain ⟨r, hr, rfl⟩ := List.mem_map.mp hm
      exact .rpc b out r ha hn hr rfl
  | sent k j us addr batch rest _ hp hj h' =>
    rw [h'] at hm
    rcases List.mem_append.mp hm with hm | hm
    · exact .old hm
    · exact .sent k j us addr batch rest hp hj (List.mem_singleton.mp hm)
  | stored i k addr batch j c b hi hj hf h' =>
    rw [h'] at hm
    rcases List.mem_or_eq_of_mem_set hm with hm | hm
    · exact .old hm
    · exact .stored k addr batch j (List.mem_of_getElem? hi) hm c b hj hf
  | fetched i ticket addr c source b hi hf h' =>
    rw [h'] at hm
    rcases List.mem_or_eq_of_mem_set hm with hm | hm
    · exact .old hm
    · exact .fetched ticket addr c source b (List.mem_of_getElem? hi) hf hm
  | deleted _ _ _ _ _ h' | dropped _ _ _ _ h' | answered _ _ _ _ h' =>
    all_goals
      rw [h'] at hm
      exact .old (List.mem_of_mem_eraseIdx hm)

/-! ### Histories and scrubs -/

/-- What storage servers acknowledged stays known, and grows by a reply to a call. -/
theorem acked_of_step (hs : s.step cfg a = some s') : s'.acked = s.acked ∨
    ∃ k j i us addr batch rest, (s.calls k).phase = .uploading us ∧
      us[j]? = some ⟨addr, batch :: rest, .waiting⟩ ∧
      s.net[i]? = some (.storeChunks k addr batch batch.length) ∧ a = .storeReply k j i ∧
      s'.net = s.net.eraseIdx i ∧ s'.acked = s.acked ++ batch.map fun x => (x.1, addr, x.2) := by
  cases case_of_step hs with
  | storeReply k j i us addr batch rest hp hi hj =>
    exact .inr ⟨k, j, i, us, addr, batch, rest, hp, hj, hi, rfl, rfl, rfl⟩
  | _ => exact .inl rfl

theorem mem_acked_of_step (hs : s.step cfg a = some s') {x : ChunkId × Addr × Bytes}
    (hx : x ∈ s.acked) : x ∈ s'.acked := by
  rcases acked_of_step hs with he | ⟨_, _, _, _, _, _, _, _, _, _, _, _, he⟩
  · rwa [he]
  · rw [he]
    exact List.mem_append_left _ hx

theorem copies_of_step (hs : s.step cfg a = some s') : s'.copies = s.copies ∨
    ∃ i ticket addr c b, a = .copyStore i ∧ s.net[i]? = some (.replicateData ticket addr c b) ∧
      s'.net = s.net.eraseIdx i ∧ s'.copies = ticket :: s.copies := by
  cases case_of_step hs with
  | copyStore i ticket addr c b hi => exact .inr ⟨i, ticket, addr, c, b, rfl, hi, rfl, rfl⟩
  | _ => exact .inl rfl

end Cluster

end GfsCluster
