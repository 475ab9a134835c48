import GfsCluster.Naming.Repairs

/-! A pass of `heal_once` from its first statement to its return. The others may act in
between; the pass writes its own edits, in order, and asks for its own copies, in order.
Left to itself it always comes to an end. -/

namespace GfsCluster

open StepSystem Edits

namespace NamingServer

variable {cfg : Settings} {n n₀ n' : NamingServer} {a : NamingAction} {b : HealStep}
  {out sent sent' : List StorageRpc} {copies : ChunkId → Addr → Bool}

/-! ### Passes -/

/-- The servers that are live now. -/
def live (n : NamingServer) : List Addr := n.registry.liveServers n.now

/-- A step of a naming server that is kept together with the requests it has sent. -/
def sendStep (cfg : Settings) (s : NamingServer × List StorageRpc) (a : NamingAction) :
    Option (NamingServer × List StorageRpc) :=
  (s.1.step cfg a).map fun r => (r.1, s.2 ++ r.2)

section Pass

variable (cfg : Settings) (ok : NamingServer × List StorageRpc → NamingAction → Prop)

/-- `heal_once` was called in state `n` and has come to state `n'`, with steps that meet `ok`. -/
def InPass (n n' : NamingServer) (sent : List StorageRpc) : Prop :=
  ∃ n₁ out, n.step cfg (.heal .count) = some (n₁, out) ∧
    Steps (sendStep cfg) ok (n₁, out) (n', sent)

/-- The `try` of `heal_once`, called in state `n`, is over in state `n'`; its last step is taken
in state `n₂`. -/
structure HealPass (n n₂ n' : NamingServer) (b : HealStep) (sent : List StorageRpc) : Prop where
  pass : ∃ sent₂ out, InPass cfg ok n n₂ sent₂ ∧ ok (n₂, sent₂) (.heal b) ∧
    n₂.step cfg (.heal b) = some (n', out) ∧ sent = sent₂ ++ out
  busy : n₂.heal.over = false
  ended : n'.heal.over = true

/-- `heal_once` was called in state `n` and ends in state `n'`. Nothing as result means that it
raises. -/
def HealCall (n n' : NamingServer) (sent : List StorageRpc) (result : Option ℕ) : Prop :=
  ∃ n₂ n₃ n₄ b sent₃ o, HealPass cfg ok n n₂ n₃ b sent₃ ∧
    Steps (sendStep cfg) ok (n₃, sent₃) (n₄, sent) ∧ ok (n₄, sent) (.heal (.refresh o)) ∧
    n₄.step cfg (.heal (.refresh o)) = some (n', []) ∧ result = n₄.healResult o

end Pass

/-- The state in which the pass has counted the live servers. -/
def counting (n : NamingServer) : NamingServer := { n with heal := .counted n.live.length }

theorem inPass_iff {ok : NamingServer × List StorageRpc → NamingAction → Prop} :
    InPass cfg ok n n' sent ↔ n.heal = .idle ∧ Steps (sendStep cfg) ok (n.counting, []) (n', sent) := by
  constructor
  · rintro ⟨n₁, out, hcount, hrun⟩
    cases healCase_of_step hcount with
    | count hp => exact ⟨hp, hrun⟩
  · rintro ⟨hp, hrun⟩
    exact ⟨n.counting, [], by simp only [step, healStep, hp, counting, live], hrun⟩

/-- The copies asked for. -/
def attempts (sent : List StorageRpc) : List (ChunkId × Addr) := sent.filterMap StorageRpc.attempt

@[simp] theorem attempts_append : attempts (sent ++ sent') = attempts sent ++ attempts sent' :=
  List.filterMap_append

theorem sendStep_eq_some {s s' : NamingServer × List StorageRpc} :
    sendStep cfg s a = some s' ↔ ∃ out, s.1.step cfg a = some (s'.1, out) ∧ s'.2 = s.2 ++ out := by
  obtain ⟨n', sent'⟩ := s'
  simp only [sendStep, Option.map_eq_some_iff, Prod.mk.injEq]
  constructor
  · rintro ⟨⟨m, out⟩, hs, rfl, rfl⟩
    exact ⟨out, hs, rfl⟩
  · rintro ⟨out, hs, rfl⟩
    exact ⟨(n', out), hs, rfl, rfl⟩

/-- Only the healer asks for copies. -/
theorem attempts_of_step (hs : n.step cfg a = some (n', out)) (ha : ∀ b, a ≠ .heal b) :
    attempts out = [] := by
  cases case_of_step hs with
  | delete k b r h => cases h <;> rfl
  | cleanup b r h => cases h <;> rfl
  | heal b r h => exact absurd rfl (ha b)
  | _ => rfl

/-- The pass moves by its own steps only. -/
theorem heal_of_others (hs : n.step cfg a = some (n', out)) (hcrash : a ≠ .crash)
    (ha : ∀ b, a ≠ .heal b) : n'.heal = n.heal := by
  rcases step_frame hs with hc | ⟨_, _, ⟨b, hb⟩ | ⟨he, _⟩, _⟩
  · exact absurd hc hcrash
  · exact absurd hb (ha b)
  · exact he

/-! ### The part of a pass after the listing -/

/-- What the pass has done between two states for the chunks in `K`, which nobody else
writes. -/
structure PassPart (cfg : Settings) (copies : ChunkId → Addr → Bool) (K : ChunkId → Prop)
    (n n' : NamingServer) (sends : List (ChunkId × Addr)) : Prop where
  listed : n'.heal.listed = true
  sourced : n'.heal.Sourced cfg
  live : n'.heal.live = n.heal.live
  sends : n.heal.sends cfg copies = sends ++ n'.heal.sends cfg copies
  edits : ∃ es, n.heal.todo cfg copies = es ++ n'.heal.todo cfg copies ∧
    n'.heal.repaired = n.heal.repaired + es.countP Edit.isAdd ∧
    ∀ c, K c → n'.db.locations c = afterAll c (n.db.locations c) es

namespace PassPart

variable {K : ChunkId → Prop} {sends : List (ChunkId × Addr)}

theorem refl (hlisted : n.heal.listed = true) (hsourced : n.heal.Sourced cfg) :
    PassPart cfg copies K n n [] :=
  ⟨hlisted, hsourced, rfl, rfl, [], rfl, rfl, fun _ _ => rfl⟩

theorem other (h : PassPart cfg copies K n₀ n sends) (hheal : n'.heal = n.heal)
    (hlocs : ∀ c, K c → n'.db.locations c = n.db.locations c) :
    PassPart cfg copies K n₀ n' sends := by
  obtain ⟨es, htodo, hrepaired, hes⟩ := h.edits
  refine ⟨hheal ▸ h.listed, hheal ▸ h.sourced, hheal ▸ h.live, hheal ▸ h.sends, es, ?_, ?_, ?_⟩
  · rw [hheal]
    exact htodo
  · rw [hheal]
    exact hrepaired
  · intro c hc
    rw [hlocs c hc, hes c hc]

/-- The next edits follow the ones already made. -/
theorem edit (h : PassPart cfg copies K n₀ n sends) {es : List ReplicaEdit}
    (htodo : n.heal.todo cfg copies = es ++ n'.heal.todo cfg copies)
    (hsends : n.heal.sends cfg copies = attempts out ++ n'.heal.sends cfg copies)
    (hlisted : n'.heal.listed = true) (hlive : n'.heal.live = n.heal.live)
    (hsourced : n'.heal.Sourced cfg)
    (hrepaired : n'.heal.repaired = n.heal.repaired + es.countP Edit.isAdd)
    (hlocs : ∀ c, n'.db.locations c = afterAll c (n.db.locations c) es) :
    PassPart cfg copies K n₀ n' (sends ++ attempts out) := by
  obtain ⟨es₀, htodo₀, hrepaired₀, hes₀⟩ := h.edits
  refine ⟨hlisted, hsourced, hlive.trans h.live, ?_, es₀ ++ es, ?_, ?_, fun c hc => ?_⟩
  · rw [h.sends, hsends, List.append_assoc]
  · rw [htodo₀, htodo, List.append_assoc]
  · rw [hrepaired, hrepaired₀, List.countP_append, Nat.add_assoc]
  · rw [hlocs, hes₀ c hc, afterAll_append]

end PassPart

/-! ### A whole pass -/

/-- The state in which the pass has just listed the chunks below target. -/
def listing (cfg : Settings) (n : NamingServer) (o : RowOrder) (live : List Addr) : NamingServer :=
  { n with heal := .scanning live (underReplicatedChunks (o.view n.db) live cfg.replication) 0 }

/-- Every chunk for which a copy will be recorded has its row. -/
def Backed (cfg : Settings) (copies : ChunkId → Addr → Bool) (n : NamingServer) : Prop :=
  ∀ c addr, .add c addr ∈ n.heal.todo cfg copies → c ∈ n.db.chunks.map ChunkRow.chunkId

/-- How far a pass has come. `E` holds until the chunks are listed, and `W` of the state and
the SELECT that list them. -/
inductive PassAt (cfg : Settings) (copies : ChunkId → Addr → Bool) (K : ChunkId → Prop)
    (E : NamingServer → Prop) (W : NamingServer → RowOrder → Prop) (n : NamingServer)
    (sent : List StorageRpc) : Prop
  | before (hE : E n) (h : n.heal.listed = false) (hsent : attempts sent = [])
  | listed (n₁ : NamingServer) (o : RowOrder) (live : List Addr) (hE : E n₁) (hW : W n₁ o)
      (h₁ : n₁.heal = .known live)
      (hpart : PassPart cfg copies K (n₁.listing cfg o live) n (attempts sent))
  | ended (h : n.heal.over = true)

theorem key_of_mem_repairsOf {live : List Addr} {m : ChunkMeta} {e : ReplicaEdit}
    (h : e ∈ repairsOf cfg copies live m) : e.key = m.chunkId := by
  unfold repairsOf at h
  split at h
  · cases h
  · rename_i w hw
    rw [← (startRepair_eq_some hw).1]
    exact key_of_mem_replace h

theorem key_of_mem_sendsOf {live : List Addr} {m : ChunkMeta} {x : ChunkId × Addr}
    (h : x ∈ sendsOf cfg copies live m) : x.1 = m.chunkId := by
  unfold sendsOf at h
  split at h
  · cases h
  · rename_i w hw
    obtain ⟨t, _, rfl⟩ := List.mem_map.mp h
    exact (startRepair_eq_some hw).1

theorem backed_listing (o : RowOrder) (live : List Addr) : Backed cfg copies (n.listing cfg o live) := by
  intro c addr hmem
  obtain ⟨m, hm, he⟩ := List.mem_flatMap.mp hmem
  obtain ⟨r, hr, _, _, rfl⟩ := mem_underReplicatedChunks.mp hm
  rw [o.mem_chunks] at hr
  have hkey : c = r.chunkId := key_of_mem_repairsOf he
  exact List.mem_map.mpr ⟨r, hr, hkey.symm⟩

theorem Backed.not_raises (h : Backed cfg copies n) : ¬ n.Raises a := by
  intro hr
  unfold Raises at hr
  split at hr
  · split at hr
    · rename_i w target hp
      refine hr (h w.chunkId target ?_)
      simp [hp, HealPhase.todo, replace_cons]
    · exact hr
  · exact hr

/-- Steps before the listing write nothing and ask for nothing. -/
theorem unlisted_of_step (h : n.heal.listed = false) (hs : n.step cfg (.heal b) = some (n', out)) :
    n'.store = n.store ∧ out = [] ∧ (n'.heal.listed = false ∨
      ∃ o live, b = .scan o ∧ n.heal = .known live ∧ n' = n.listing cfg o live) := by
  cases healCase_of_step hs with
  | count | tooFew | pick | allLive | known | refresh => exact ⟨rfl, rfl, .inl rfl⟩
  | scan o live hp => exact ⟨rfl, rfl, .inr ⟨o, live, rfl, hp, rfl⟩⟩
  | _ => simp_all [HealPhase.listed]

/-- The pass works on a list of at least the target number of servers that satisfies `P`. -/
def Picks (cfg : Settings) (P : List Addr → Prop) (n : NamingServer) : Prop :=
  ∀ live, n.heal = .picked live ∨ n.heal = .known live → P live ∧ cfg.replication ≤ live.length

theorem Picks.of_heal {P : List Addr → Prop} (h : Picks cfg P n) (hl : n.heal.listed = false)
    (hpick : b = .pick → ∀ count, n.heal = .counted count → P (n.registry.pick n.now count).1)
    (hs : n.step cfg (.heal b) = some (n', out)) : Picks cfg P n' := by
  cases healCase_of_step hs with
  | pick count hp hlen =>
    intro live hlive
    simp only [HealPhase.picked.injEq, reduceCtorEq, or_false] at hlive
    subst hlive
    exact ⟨hpick rfl count hp, hlen⟩
  | known o live hp _ =>
    intro live' hlive
    simp only [HealPhase.known.injEq, reduceCtorEq, false_or] at hlive
    subst hlive
    exact h live (.inl hp)
  | count | tooFew | allLive | scan | refresh => simp [Picks]
  | _ => simp_all [HealPhase.listed]

theorem now_of_heal (hs : n.step cfg (.heal b) = some (n', out)) : n'.now = n.now := by
  cases healCase_of_step hs <;> rfl

/-- Only the first step of a pass counts the live servers. -/
theorem not_counted_of_step (hb : b ≠ .count) (hs : n.step cfg (.heal b) = some (n', out)) (count : ℕ) :
    n'.heal ≠ .counted count := by
  cases healCase_of_step hs with
  | count => exact absurd rfl hb
  | _ => simp

/-- With its `try` behind it a pass has nothing left but its `finally`. -/
theorem over_of_step (h : n.heal.over = true) (hs : n.step cfg (.heal b) = some (n', out)) :
    b = .count ∨ n'.heal = .idle := by
  cases healCase_of_step hs with
  | count => exact .inl rfl
  | refresh => exact .inr rfl
  | _ => simp_all [HealPhase.over]

section Step

variable {K : ChunkId → Prop} {E : NamingServer → Prop} {W : NamingServer → RowOrder → Prop}
  (hb : Backed cfg copies n)
  (hclean : n.store.Clean) (hok : Outcomes copies n a) (hcrash : a ≠ .crash)
  (hs : n.step cfg a = some (n', out))

include hb hclean hok hcrash hs

theorem Backed.of_step (hsourced : n.heal.listed = true → n.heal.Sourced cfg)
    (hother : (∀ b, a ≠ .heal b) → ∀ c addr, .add c addr ∈ n.heal.todo cfg copies →
      c ∈ n'.db.chunks.map ChunkRow.chunkId) : Backed cfg copies n' := by
  by_cases ha : ∃ b, a = .heal b
  · obtain ⟨b, rfl⟩ := ha
    cases hl : n.heal.listed with
    | false =>
      obtain ⟨_, _, hl' | ⟨o, live, _, _, rfl⟩⟩ := unlisted_of_step hl hs
      · intro c addr hmem
        cases hp : n'.heal with
        | idle | counted | picked | known | refreshing =>
          rw [hp] at hmem
          cases hmem
        | scanning | repairing | copying | copied | dropping =>
          rw [hp] at hl'
          cases hl'
      · exact backed_listing o live
    | true =>
      cases (pass_of_step hclean (hsourced hl) hl hok hb.not_raises hs).2 with
      | done live repaired h h' hdb hout =>
        intro c addr hmem
        rw [h'] at hmem
        cases hmem
      | edit es htodo _ _ _ _ _ _ hchunks =>
        intro c addr hmem
        rw [hchunks]
        apply hb c addr
        rw [htodo]
        exact List.mem_append_right _ hmem
  · rw [not_exists] at ha
    have hheal := heal_of_others hs hcrash ha
    intro c addr hmem
    rw [hheal] at hmem
    exact hother ha c addr hmem

theorem PassAt.of_step (h : PassAt cfg copies K E W n sent) (hcount : a ≠ .heal .count)
    (hE : n.heal.listed = false → E n → E n') (hW : ∀ o, a = .heal (.scan o) → W n o)
    (hother : (∀ b, a ≠ .heal b) → ∀ c, K c → n'.db.locations c = n.db.locations c) :
    PassAt cfg copies K E W n' (sent ++ out) := by
  by_cases ha : ∃ b, a = .heal b
  · obtain ⟨b, rfl⟩ := ha
    cases h with
    | before hEn hl hsent =>
      obtain ⟨_, rfl, hl' | ⟨o, live, rfl, h₁, rfl⟩⟩ := unlisted_of_step hl hs
      · exact .before (hE hl hEn) hl' (by simpa using hsent)
      · refine .listed n o live hEn (hW o rfl) h₁ ?_
        rw [List.append_nil, hsent]
        exact .refl rfl ⟨by simp [listing, HealPhase.repair], by simp [listing, HealPhase.inCopy]⟩
    | listed n₁ o live hE₁ hW₁ h₁ hpart =>
      cases (pass_of_step hclean hpart.sourced hpart.listed hok hb.not_raises hs).2 with
      | done live repaired h h' hdb hout => exact .ended (by rw [h']; rfl)
      | edit es htodo hsends hlisted hlive hsourced hrepaired _ _ hlocs =>
        refine .listed n₁ o live hE₁ hW₁ h₁ ?_
        rw [attempts_append]
        exact hpart.edit htodo hsends hlisted hlive hsourced hrepaired hlocs
    | ended h =>
      rcases over_of_step h hs with rfl | hidle
      · exact absurd rfl hcount
      · exact .ended (by rw [hidle]; rfl)
  · rw [not_exists] at ha
    have hheal := heal_of_others hs hcrash ha
    have hsent : attempts (sent ++ out) = attempts sent := by
      rw [attempts_append, attempts_of_step hs ha, List.append_nil]
    cases h with
    | before hEn hl hnone => exact .before (hE hl hEn) (hheal ▸ hl) (hsent.trans hnone)
    | listed n₁ o live hE₁ hW₁ h₁ hpart =>
      refine .listed n₁ o live hE₁ hW₁ h₁ ?_
      rw [hsent]
      exact hpart.other hheal (hother ha)
    | ended h => exact .ended (hheal ▸ h)

end Step

/-- A pass under way, in a machine that lets it work. -/
structure Passing (cfg : Settings) (copies : ChunkId → Addr → Bool) (K : ChunkId → Prop)
    (E : NamingServer → Prop) (W : NamingServer → RowOrder → Prop) (n : NamingServer)
    (sent : List StorageRpc) : Prop where
  clean : n.store.Clean
  backed : Backed cfg copies n
  pass : PassAt cfg copies K E W n sent

section Run

variable {K : ChunkId → Prop} {E : NamingServer → Prop} {W : NamingServer → RowOrder → Prop}
  {ok : NamingServer × List StorageRpc → NamingAction → Prop}

theorem PassAt.sourced (h : PassAt cfg copies K E W n sent) (hl : n.heal.listed = true) :
    n.heal.Sourced cfg := by
  cases h with
  | before _ hl' => simp [hl] at hl'
  | listed n₁ o live hE hW h₁ hpart => exact hpart.sourced
  | ended h =>
    rw [HealPhase.not_listed_of_over h] at hl
    cases hl

theorem clean_of_heal (h : Passing cfg copies K E W n sent) (hok : Outcomes copies n (.heal b))
    (hs : n.step cfg (.heal b) = some (n', out)) : n'.store.Clean := by
  cases hl : n.heal.listed with
  | false =>
    rw [(unlisted_of_step hl hs).1]
    exact h.clean
  | true => exact (pass_of_step h.clean (h.pass.sourced hl) hl hok h.backed.not_raises hs).1

/-- What the steps of the others must leave alone for the pass to go on undisturbed. -/
structure Spares (cfg : Settings) (copies : ChunkId → Addr → Bool) (K : ChunkId → Prop)
    (n n' : NamingServer) : Prop where
  clean : n'.store.Clean
  locations : ∀ c, K c → n'.db.locations c = n.db.locations c
  backed : ∀ c addr, .add c addr ∈ n.heal.todo cfg copies → c ∈ n'.db.chunks.map ChunkRow.chunkId

theorem Passing.of_steps (h : Passing cfg copies K E W n₀ sent)
    (hrun : Steps (sendStep cfg) ok (n₀, sent) (n, sent'))
    (hok : ∀ s a, ok s a → a ≠ .heal .count ∧ a ≠ .crash ∧ Outcomes copies s.1 a)
    (hother : ∀ s a n' out, Steps (sendStep cfg) ok (n₀, sent) s → Passing cfg copies K E W s.1 s.2 →
      ok s a → (∀ b, a ≠ .heal b) → s.1.step cfg a = some (n', out) → Spares cfg copies K s.1 n')
    (hE : ∀ s a n' out, Steps (sendStep cfg) ok (n₀, sent) s → ok s a → s.1.heal.listed = false →
      s.1.step cfg a = some (n', out) → E s.1 → E n')
    (hW : ∀ s o, ok s (.heal (.scan o)) → W s.1 o) :
    Passing cfg copies K E W n sent' := by
  refine Steps.invariant (P := fun s => Passing cfg copies K E W s.1 s.2) hrun h ?_
  rintro s a ⟨n', sent''⟩ hr hp ha hs
  obtain ⟨out, hs, rfl⟩ := sendStep_eq_some.mp hs
  obtain ⟨hcount, hcrash, hout⟩ := hok s a ha
  have hspares : (∀ b, a ≠ .heal b) → Spares cfg copies K s.1 n' := fun hb =>
    hother s a n' out hr hp ha hb hs
  refine ⟨?_, ?_, ?_⟩
  · by_cases hb : ∃ b, a = .heal b
    · obtain ⟨b, rfl⟩ := hb
      exact clean_of_heal hp hout hs
    · exact (hspares (not_exists.mp hb)).clean
  · exact hp.backed.of_step hp.clean hout hcrash hs hp.pass.sourced fun hb => (hspares hb).backed
  · exact hp.pass.of_step hp.backed hp.clean hout hcrash hs hcount
      (fun hl => hE s a n' out hr ha hl hs) (fun o he => hW s o (he ▸ ha))
      fun hb => (hspares hb).locations

end Run

/-- Once its `try` is over a pass only waits for its `finally`. -/
theorem refreshing_of_steps {ok : NamingServer × List StorageRpc → NamingAction → Prop}
    {s t : NamingServer × List StorageRpc} (hok : ∀ s a, ok s a → a ≠ .heal .count ∧ a ≠ .crash)
    (h : Steps (sendStep cfg) ok s t) (hover : s.1.heal.over = true) :
    t.1.heal = s.1.heal ∨ t.1.heal = .idle := by
  refine Steps.invariant (P := fun t : NamingServer × List StorageRpc =>
    t.1.heal = s.1.heal ∨ t.1.heal = .idle) h (.inl rfl) ?_
  rintro t a ⟨n', sent'⟩ - hheal ha hs
  obtain ⟨out, hs, rfl⟩ := sendStep_eq_some.mp hs
  obtain ⟨hcount, hcrash⟩ := hok t a ha
  by_cases hb : ∃ b, a = .heal b
  · obtain ⟨b, rfl⟩ := hb
    have hover' : t.1.heal.over = true := by
      rcases hheal with he | he
      · rwa [he]
      · rw [he]
        rfl
    exact .inr ((over_of_step hover' hs).resolve_left fun he => hcount (by rw [he]))
  · rw [heal_of_others hs hcrash (not_exists.mp hb)]
    exact hheal

/-- How a pass returns when it does not raise: without enough live servers, with every known
address live, or at the end of its loop. -/
theorem last_step (hb : Backed cfg copies n) (hclean : n.store.Clean) (hbusy : n.heal.over = false)
    (hover : n'.heal.over = true) (hs : n.step cfg (.heal b) = some (n', out)) :
    n'.store = n.store ∧ out = [] ∧ n'.heal = .refreshing (some n.heal.repaired) ∧
      ((∃ count, b = .pick ∧ n.heal = .counted count ∧
          (n.registry.pick n.now count).1.length < cfg.replication) ∨
        (∃ live, n.heal = .picked live ∧ ∀ addr ∈ knownReplicaAddresses n.db, addr ∈ live) ∨
        ∃ live repaired, n.heal = .scanning live [] repaired) := by
  have hno : ¬ n.Raises (.heal b) := hb.not_raises
  cases healCase_of_step hs with
  | tooFew count hp hlt => exact ⟨rfl, rfl, by rw [hp]; rfl, .inl ⟨count, rfl, hp, hlt⟩⟩
  | allLive o live hp hall =>
    refine ⟨rfl, rfl, by rw [hp]; rfl, .inr (.inl ⟨live, hp, fun addr ha => hall addr ?_⟩)⟩
    rw [mem_knownReplicaAddresses] at ha ⊢
    obtain ⟨c, hc, hcom, ha⟩ := ha
    rw [Db.mem_locations] at ha
    exact ⟨c, by simpa using hc, by simpa using hcom, by simpa using ha⟩
  | finish live repaired hp => exact ⟨rfl, rfl, by rw [hp]; rfl, .inr (.inr ⟨live, repaired, hp⟩)⟩
  | raise live rest repaired w target e store hp hadd =>
    simp only [Raises, hp, not_not] at hno
    obtain ⟨added, hadded, _⟩ := MetadataStore.addReplica_edit hclean target hno
    rw [hadd] at hadded
    cases hadded
  | refresh o result hp =>
    rw [hp] at hbusy
    cases hbusy
  | _ => cases hover

/-! ### The pass ends -/

section Ends

variable (cfg : Settings) (ok : NamingServer × List StorageRpc → NamingAction → Prop)

/-- Some steps take the pass to its end. -/
def Ends (n : NamingServer) : Prop :=
  ∀ sent, ∃ s, Steps (sendStep cfg) ok (n, sent) s ∧ s.1.heal = .idle

/-- The healer may go on as long as ReplicateChunk answers as given. -/
def LetsHeal (copies : ChunkId → Addr → Bool)
    (ok : NamingServer × List StorageRpc → NamingAction → Prop) : Prop :=
  ∀ s b, b ≠ .count → Outcomes copies s.1 (.heal b) → ok s (.heal b)

variable {cfg ok} {live : List Addr} {rest : List ChunkMeta}

variable (hok : LetsHeal copies ok)

include hok

theorem Ends.of_step (hs : n.step cfg (.heal b) = some (n', out)) (hcount : b ≠ .count)
    (hout : Outcomes copies n (.heal b)) (h : Ends cfg ok n') : Ends cfg ok n := by
  intro sent
  obtain ⟨s, hrun, hidle⟩ := h (sent ++ out)
  have hstep : sendStep cfg (n, sent) (.heal b) = some (n', sent ++ out) :=
    sendStep_eq_some.mpr ⟨out, hs, rfl⟩
  exact ⟨s, (Steps.single (hok (n, sent) b hcount hout) hstep).trans hrun, hidle⟩

theorem Ends.of_over (h : n.heal.over = true) : Ends cfg ok n := by
  cases hp : n.heal with
  | idle => exact fun sent => ⟨(n, sent), .refl, hp⟩
  | refreshing result =>
    have hs : n.step cfg (.heal (.refresh .table)) = some ({ n with heal := .idle }, []) := by
      simp only [step, healStep, hp]
    exact .of_step hok hs (by simp) trivial fun sent => ⟨_, .refl, rfl⟩
  | _ => simp [hp, HealPhase.over] at h

section Repairing

variable {candidates : List Addr} {repaired : ℕ} {w : Repair} {target : Addr}
  (h : ∀ (n : NamingServer) (repaired : ℕ) (w : Repair), w.candidates = candidates →
    n.heal = .repairing live rest repaired w → Ends cfg ok n)
  (hw : w.candidates = candidates)

include h hw

theorem ends_of_dropping {x : Addr} (hp : n.heal = .dropping live rest repaired w x) :
    Ends cfg ok n := by
  have hs : n.step cfg (.heal .drop) = some ({ n with
      store := (n.store.removeReplica w.chunkId x).2
      heal := .repairing live rest repaired w }, []) := by
    simp only [step, healStep, hp]
  exact .of_step hok hs (by simp) trivial (h _ repaired w hw rfl)

theorem ends_of_copied (hp : n.heal = .copied live rest repaired w target) : Ends cfg ok n := by
  cases hadd : n.store.addReplica w.chunkId target with
  | mk result store =>
    cases result with
    | error e =>
      have hs : n.step cfg (.heal .record) =
          some ({ n with store := store, heal := .refreshing none }, []) := by
        simp only [step, healStep, hp, hadd]
      exact .of_step hok hs (by simp) trivial (.of_over hok rfl)
    | ok added =>
      cases hstale : w.stale with
      | nil =>
        have hs : n.step cfg (.heal .record) = some ({ n with
            store := store
            heal := .repairing live rest (repaired + 1) { w with live := w.live ++ [target] } },
            []) := by
          simp only [step, healStep, hp, hadd, hstale]
        exact .of_step hok hs (by simp) trivial
          (h _ (repaired + 1) { w with live := w.live ++ [target] } hw rfl)
      | cons x stale =>
        have hs : n.step cfg (.heal .record) = some ({ n with
            store := store
            heal := .dropping live rest (repaired + 1)
              { w with live := w.live ++ [target], stale := stale } x }, []) := by
          simp only [step, healStep, hp, hadd, hstale]
        exact .of_step hok hs (by simp) trivial
          (ends_of_dropping hok h (w := { w with live := w.live ++ [target], stale := stale }) hw rfl)

theorem ends_of_copying {ticket : ℕ} (hp : n.heal = .copying live rest repaired w target ticket) :
    Ends cfg ok n := by
  have hs : n.step cfg (.heal (.answer (copies w.chunkId target))) = some ({ n with
      heal := if copies w.chunkId target then .copied live rest repaired w target
        else .repairing live rest repaired w }, []) := by
    simp only [step, healStep, hp]
  refine .of_step hok hs (by simp) (by simp [Outcomes, hp]) ?_
  cases hc : copies w.chunkId target with
  | true => exact ends_of_copied hok h hw rfl
  | false => exact h _ repaired w hw rfl

end Repairing

/-- The inner loop ends: every turn uses up a candidate. -/
theorem ends_of_repairing (hrest : ∀ (n : NamingServer) (repaired : ℕ),
    n.heal = .scanning live rest repaired → Ends cfg ok n) (candidates : List Addr) :
    ∀ (n : NamingServer) (repaired : ℕ) (w : Repair), w.candidates = candidates →
      n.heal = .repairing live rest repaired w → Ends cfg ok n := by
  induction candidates with
  | nil =>
    intro n repaired w hw hp
    have hs : n.step cfg (.heal .copy) = some ({ n with heal := .scanning live rest repaired }, []) := by
      simp only [step, healStep, hp, hw]
    exact .of_step hok hs (by simp) trivial (hrest _ repaired rfl)
  | cons target candidates ih =>
    intro n repaired w hw hp
    have hskip : n.step cfg (.heal .copy) = some ({ n with heal := .scanning live rest repaired }, []) →
        Ends cfg ok n := fun hs => .of_step hok hs (by simp) trivial (hrest _ repaired rfl)
    cases hlive : w.live with
    | nil => exact hskip (by simp only [step, healStep, hp, hw, hlive])
    | cons source sources =>
      by_cases hlt : w.live.length < cfg.replication
      · have hs : n.step cfg (.heal .copy) = some ({ n with
            ticket := n.ticket + 1
            heal := .copying live rest repaired { w with candidates := candidates } target n.ticket },
            [.replicateChunk n.ticket target w.chunkId source]) := by
          simp only [step, healStep, hp, hw, hlive]
          rw [if_pos (hlive ▸ hlt)]
        exact .of_step hok hs (by simp) trivial
          (ends_of_copying hok ih (w := { w with candidates := candidates }) rfl rfl)
      · refine hskip ?_
        simp only [step, healStep, hp, hw, hlive]
        rw [if_neg (hlive ▸ hlt)]

/-- The outer loop ends: every turn uses up a listed chunk. -/
theorem ends_of_scanning (live : List Addr) (rest : List ChunkMeta) :
    ∀ (n : NamingServer) (repaired : ℕ), n.heal = .scanning live rest repaired → Ends cfg ok n := by
  induction rest with
  | nil =>
    intro n repaired hp
    have hs : n.step cfg (.heal .next) = some ({ n with heal := .refreshing (some repaired) }, []) := by
      simp only [step, healStep, hp]
    exact .of_step hok hs (by simp) trivial (.of_over hok rfl)
  | cons m rest ih =>
    intro n repaired hp
    cases hw : startRepair cfg live m with
    | none =>
      have hs : n.step cfg (.heal .next) = some ({ n with heal := .scanning live rest repaired }, []) := by
        simp only [step, healStep, hp, hw]
      exact .of_step hok hs (by simp) trivial (ih _ repaired rfl)
    | some w =>
      have hs : n.step cfg (.heal .next) = some ({ n with heal := .repairing live rest repaired w }, []) := by
        simp only [step, healStep, hp, hw]
      exact .of_step hok hs (by simp) trivial
        (ends_of_repairing hok ih w.candidates _ repaired w rfl rfl)

/-- From wherever it has come to, the pass ends. -/
theorem ends_of_pass (n : NamingServer) : Ends cfg ok n := by
  have hscan := @ends_of_scanning copies cfg ok hok
  have hrepair := fun live rest => ends_of_repairing hok (hscan live rest)
  have hknown : ∀ (n : NamingServer) live, n.heal = .known live → Ends cfg ok n := by
    intro n live hp
    have hs : n.step cfg (.heal (.scan .table)) = some (n.listing cfg .table live, []) := by
      simp only [step, healStep, hp, listing]
    exact .of_step hok hs (by simp) trivial (hscan _ _ _ 0 rfl)
  have hpicked : ∀ (n : NamingServer) live, n.heal = .picked live → Ends cfg ok n := by
    intro n live hp
    have hs : n.step cfg (.heal (.known .table)) = some ({ n with
        heal := if ∀ addr ∈ knownReplicaAddresses (RowOrder.table.view n.db), addr ∈ live
          then .refreshing (some 0) else .known live }, []) := by
      simp only [step, healStep, hp]
    refine .of_step hok hs (by simp) trivial ?_
    split_ifs
    · exact .of_over hok rfl
    · exact hknown _ live rfl
  cases hp : n.heal with
  | idle | refreshing => exact .of_over hok (by rw [hp]; rfl)
  | counted count =>
    have hs : n.step cfg (.heal .pick) = some ({ n with
        registry := (n.registry.pick n.now count).2
        heal := if (n.registry.pick n.now count).1.length < cfg.replication
          then .refreshing (some 0) else .picked (n.registry.pick n.now count).1 }, []) := by
      simp only [step, healStep, hp]
    refine .of_step hok hs (by simp) trivial ?_
    split_ifs
    · exact .of_over hok rfl
    · exact hpicked _ _ rfl
  | picked live => exact hpicked n live hp
  | known live => exact hknown n live hp
  | scanning live rest repaired => exact hscan live rest n repaired hp
  | repairing live rest repaired w => exact hrepair live rest w.candidates n repaired w rfl hp
  | copying live rest repaired w target ticket => exact ends_of_copying hok (hrepair live rest _) rfl hp
  | copied live rest repaired w target => exact ends_of_copied hok (hrepair live rest _) rfl hp
  | dropping live rest repaired w x => exact ends_of_dropping hok (hrepair live rest _) rfl hp

end Ends

end NamingServer

end GfsCluster
