import GfsCluster.Lib.Lists
import GfsCluster.Storage.Refinement
import GfsCluster.Storage.Servicer

/-! Writes of one chunk side by side. They share its temp file: a write that opens the file
empties it under the write that is about to rename it. As long as no write of the chunk opens
the temp file while another is between its open and its rename, a read finds all of what some
write stored, or what was there before. -/

namespace GfsCluster

open Inodes StepSystem

theorem temp_injective : Function.Injective temp := fun _ _ h =>
  path_injective (List.append_cancel_right h)

theorem path_ne_temp (c c' : ChunkId) : path c ≠ temp c' := path_ne_tmp c (path c')

namespace Handler

/-- The handler is between the open and the rename of a write. -/
inductive Writes (c : ChunkId) (data : Bytes) (i n : ℕ) : Handler → Prop
  | intro (rest : List (ChunkId × Bytes)) (old : ℤ) :
      Writes c data i n (.storing ((c, data) :: rest) (.writing old i n))

/-- The handler has read `data` of the inode so far. -/
inductive Reads (c : ChunkId) (i : ℕ) (data : Bytes) : Handler → Prop
  | intro (rest : List ChunkId) (chunks : List (ChunkId × Option Bytes)) :
      Reads c i data (.reading (c :: rest) chunks (.reading i data))

/-- The handler has the inode open, for a write or a read of the chunk. -/
inductive Opened (c : ChunkId) (i : ℕ) : Handler → Prop
  | writing (data : Bytes) (rest : List (ChunkId × Bytes)) (old : ℤ) (n : ℕ) :
      Opened c i (.storing ((c, data) :: rest) (.writing old i n))
  | reading (rest : List ChunkId) (chunks : List (ChunkId × Option Bytes)) (data : Bytes) :
      Opened c i (.reading (c :: rest) chunks (.reading i data))

/-- The chunk whose temp file the handler has open. -/
def writingTo : Handler → Option ChunkId
  | .storing ((c, _) :: _) (.writing _ _ _) => some c
  | _ => none

/-- The chunk that a write is at. -/
def storingTo : Handler → Option ChunkId
  | .storing ((c, _) :: _) _ => some c
  | _ => none

def items : Handler → List (ChunkId × Bytes)
  | .storing items _ => items
  | _ => []

/-- The steps that a handler still takes, at most. -/
def todo : Handler → ℕ
  | .storing ((_, data) :: rest) phase => (match phase with
    | .probing => data.length + 4
    | .probed _ => data.length + 3
    | .writing _ _ n => data.length - n + 2
    | .renamed _ => 1) + (rest.map fun x => x.2.length + 4).sum
  | _ => 0

/-- What a read request has read, or answers. -/
def chunks : Handler → List (ChunkId × Option Bytes)
  | .reading _ chunks _ | .done (.read chunks) => chunks
  | _ => []

variable {c : ChunkId} {data : Bytes} {i n : ℕ} {h : Handler}

theorem writes_of_writingTo (hw : h.writingTo = some c) : ∃ data i n, h.Writes c data i n := by
  unfold writingTo at hw
  split at hw
  · cases hw
    exact ⟨_, _, _, .intro _ _⟩
  · cases hw

theorem Writes.writingTo (hw : h.Writes c data i n) : h.writingTo = some c := by
  cases hw
  rfl

theorem Reads.opened (hr : h.Reads c i data) : h.Opened c i := by
  cases hr
  exact .reading _ _ data

@[simp] theorem writingTo_storeNext (items : List (ChunkId × Bytes)) :
    (storeNext items).writingTo = none := by
  cases items <;> rfl

@[simp] theorem items_storeNext (items : List (ChunkId × Bytes)) :
    (storeNext items).items = items := by
  cases items <;> rfl

@[simp] theorem chunks_storeNext (items : List (ChunkId × Bytes)) : (storeNext items).chunks = [] := by
  cases items <;> rfl

@[simp] theorem writingTo_readNext (chunks : List (ChunkId × Option Bytes)) (ids : List ChunkId) :
    (readNext chunks ids).writingTo = none := by
  cases ids <;> rfl

@[simp] theorem items_readNext (chunks : List (ChunkId × Option Bytes)) (ids : List ChunkId) :
    (readNext chunks ids).items = [] := by
  cases ids <;> rfl

@[simp] theorem chunks_readNext (chunks : List (ChunkId × Option Bytes)) (ids : List ChunkId) :
    (readNext chunks ids).chunks = chunks := by
  cases ids <;> rfl

theorem todo_storeNext (items : List (ChunkId × Bytes)) :
    (storeNext items).todo = (items.map fun x => x.2.length + 4).sum := by
  cases items <;> rfl

theorem storeNext_ne_failed (items : List (ChunkId × Bytes)) (c : ChunkId) :
    storeNext items ≠ .done (.storeFailed c) := by
  cases items <;> simp [storeNext]

theorem readNext_ne_failed (chunks : List (ChunkId × Option Bytes)) (ids : List ChunkId) (c : ChunkId) :
    readNext chunks ids ≠ .done (.storeFailed c) := by
  cases ids <;> simp [readNext]

theorem not_opened_storeNext (items : List (ChunkId × Bytes)) : ¬ (storeNext items).Opened c i := by
  intro h
  cases items <;> cases h

theorem not_opened_readNext (chunks : List (ChunkId × Option Bytes)) (ids : List ChunkId) :
    ¬ (readNext chunks ids).Opened c i := by
  intro h
  cases ids <;> cases h

end Handler

/-- A request that has just come in has no file open. -/
theorem Request.handler_new (r : Request) : r.handler.writingTo = none ∧
    (∀ c i, ¬ r.handler.Opened c i) ∧ r.handler.chunks = [] := by
  rcases r.handler_cases with ⟨items, hr⟩ | ⟨ids, hr⟩ | ⟨c, hr⟩ | hr
  · rw [hr]
    exact ⟨by simp, fun _ _ => Handler.not_opened_storeNext items, by simp⟩
  · rw [hr]
    exact ⟨by simp, fun _ _ => Handler.not_opened_readNext [] ids, by simp⟩
  · rw [hr]
    exact ⟨rfl, by rintro _ _ ⟨⟩, rfl⟩
  · rw [hr]
    exact ⟨rfl, by rintro _ _ ⟨⟩, rfl⟩

theorem Request.handler_ne_failed (r : Request) (c : ChunkId) : r.handler ≠ .done (.storeFailed c) := by
  rcases r.handler_cases with ⟨items, hr⟩ | ⟨ids, hr⟩ | ⟨c, hr⟩ | hr
  · exact hr ▸ Handler.storeNext_ne_failed items c
  · exact hr ▸ Handler.readNext_ne_failed [] ids c
  · simp [hr]
  · simp [hr]

/-! ### Whose inode it is -/

/-- Every inode in use belongs to one chunk. -/
structure Owned (own : ℕ → ChunkId) (d : DataDir) (hs : List Handler) : Prop where
  path : ∀ c i, d.names.lookup (path c) = some i → own i = c
  temp : ∀ c i, d.names.lookup (temp c) = some i → own i = c
  opened : ∀ h ∈ hs, ∀ c i, h.Opened c i → own i = c ∧ i < d.fresh

namespace Owned

variable {own : ℕ → ChunkId} {d d' : DataDir} {hs : List Handler} {h h' : Handler} {k : ℕ}
  {a : HandlerAction} {e : Handler.Effect} {c : ChunkId}

/-- A handler moves on, and names keep their inodes but for one that comes from its temp file. -/
theorem set (ho : Owned own d hs)
    (hnames : ∀ f i, d'.names.lookup f = some i → d.names.lookup f = some i ∨
      ∃ c, f = GfsCluster.path c ∧ d.names.lookup (GfsCluster.temp c) = some i)
    (hfresh : d'.fresh = d.fresh) (hopened : ∀ c i, h'.Opened c i → own i = c ∧ i < d.fresh) :
    Owned own d' (hs.set k h') where
  path c i hi := by
    rcases hnames _ i hi with hi | ⟨c', hc', hi⟩
    · exact ho.path c i hi
    · exact path_injective hc' ▸ ho.temp c' i hi
  temp c i hi := by
    rcases hnames _ i hi with hi | ⟨c', hc', _⟩
    · exact ho.temp c i hi
    · exact absurd hc'.symm (path_ne_temp c' c)
  opened := by
    rw [hfresh]
    exact Lists.forall_mem_set ho.opened hopened

/-- The inode that a write opens belongs to its chunk from then on. -/
theorem creat (ho : Owned own d hs) (c : ChunkId) (data : Bytes) (rest : List (ChunkId × Bytes))
    (old : ℤ) (k : ℕ) : ∃ own', (∀ i < d.fresh, own' i = own i) ∧
      Owned own' (d.creat (GfsCluster.temp c)).2
        (hs.set k (.storing ((c, data) :: rest) (.writing old (d.creat (GfsCluster.temp c)).1 0))) := by
  set j := (d.creat (GfsCluster.temp c)).1 with hj
  have hself : Function.update own j c j = c := Function.update_self _ _ _
  have hown : ∀ i < d.fresh, Function.update own j c i = own i := by
    intro i hi
    by_cases hij : i = j
    · subst hij
      rcases Volume.creat_inode (d := d) (f := GfsCluster.temp c) with hl | ⟨_, hnew⟩
      · rw [hself, ho.temp c j hl]
      · omega
    · exact Function.update_of_ne hij _ _
  have hold : ∀ f i, f ≠ GfsCluster.temp c → (d.creat (GfsCluster.temp c)).2.names.lookup f = some i →
      d.names.lookup f = some i := by
    intro f i hf hi
    rwa [Volume.lookup_creat_ne hf] at hi
  have hjlt : j < (d.creat (GfsCluster.temp c)).2.fresh := Volume.lt_fresh _ _ _ Volume.lookup_creat_self
  refine ⟨Function.update own j c, hown, fun c' i hi => ?_, fun c' i hi => ?_,
    Lists.forall_mem_set (fun g hg c' i hop => ?_) fun c' i hop => ?_⟩
  · have hi' := hold _ i (path_ne_temp c' c) hi
    rw [hown i (d.lt_fresh _ i hi')]
    exact ho.path c' i hi'
  · by_cases hc : c' = c
    · subst hc
      rw [Volume.lookup_creat_self, Option.some.injEq] at hi
      rw [← hi]
      exact hself
    · have hi' := hold _ i (fun he => hc (temp_injective he)) hi
      rw [hown i (d.lt_fresh _ i hi')]
      exact ho.temp c' i hi'
  · obtain ⟨hi, hlt⟩ := ho.opened g hg c' i hop
    exact ⟨(hown i hlt).trans hi, hlt.trans_le Volume.fresh_creat⟩
  · cases hop
    exact ⟨hself, hjlt⟩

theorem of_moves (ho : Owned own d hs) (hk : hs[k]? = some h) (hm : Handler.Moves d h a e) :
    ∃ own', (∀ i < d.fresh, own' i = own i) ∧ Owned own' e.disk (hs.set k e.handler) := by
  have hh : h ∈ hs := List.mem_of_getElem? hk
  have hsame : ∀ f i, d.names.lookup f = some i → d.names.lookup f = some i ∨
      ∃ c, f = GfsCluster.path c ∧ d.names.lookup (GfsCluster.temp c) = some i := fun _ _ => .inl
  cases hm with
  | creat c data rest old => exact ho.creat c data rest old k
  | write hm =>
    refine ⟨own, fun _ _ => rfl, ho.set hsame rfl fun c' i' hop => ?_⟩
    cases hop
    exact ho.opened _ hh _ _ (.writing _ _ _ _)
  | @rename c data rest old i n j hn hj =>
    refine ⟨own, fun _ _ => rfl, ho.set (fun f i hi => ?_) rfl (by rintro _ _ ⟨⟩)⟩
    by_cases hp : f = GfsCluster.path c
    · subst hp
      rw [Volume.lookup_move_dst, Option.some.injEq] at hi
      exact .inr ⟨c, rfl, hi ▸ hj⟩
    · by_cases ht : f = GfsCluster.temp c
      · rw [ht, Volume.lookup_move_src (path_ne_temp c c).symm] at hi
        cases hi
      · rw [Volume.lookup_move_ne ht hp] at hi
        exact .inl hi
  | remove old hc =>
    exact ⟨own, fun _ _ => rfl, ho.set (fun f i hi => .inl (Volume.lookup_of_unlink hi)) rfl
      (by rintro _ _ ⟨⟩)⟩
  | openRead hi =>
    refine ⟨own, fun _ _ => rfl, ho.set hsame rfl fun c' i' hop => ?_⟩
    cases hop
    exact ⟨ho.path _ _ hi, d.lt_fresh _ _ hi⟩
  | read n =>
    refine ⟨own, fun _ _ => rfl, ho.set hsame rfl fun c' i' hop => ?_⟩
    cases hop
    exact ho.opened _ hh _ _ (.reading _ _ _)
  | count =>
    exact ⟨own, fun _ _ => rfl, ho.set hsame rfl fun _ _ hop =>
      absurd hop (Handler.not_opened_storeNext _)⟩
  | readEnd | missing =>
    exact ⟨own, fun _ _ => rfl, ho.set hsame rfl fun _ _ hop =>
      absurd hop (Handler.not_opened_readNext _ _)⟩
  | _ => exact ⟨own, fun _ _ => rfl, ho.set hsame rfl (by rintro _ _ ⟨⟩)⟩

theorem unlink (ho : Owned own d hs) (c : ChunkId) : Owned own (d.unlink (GfsCluster.path c)) hs where
  path c i hi := ho.path c i (Volume.lookup_of_unlink hi)
  temp c i hi := ho.temp c i (Volume.lookup_of_unlink hi)
  opened := ho.opened

theorem receive (ho : Owned own d hs) (r : Request) : Owned own d (hs ++ [r.handler]) where
  path := ho.path
  temp := ho.temp
  opened := Lists.forall_mem_concat ho.opened fun c i hop => absurd hop (r.handler_new.2.1 c i)

/-- Before the first request every inode belongs to the chunk it is named after. -/
theorem exists_start (d : DataDir) (hs : List Handler) (h : hs = []) : ∃ own, Owned own d hs := by
  classical
  let Named (i : ℕ) (c : ChunkId) : Prop := d.names.lookup (GfsCluster.path c) = some i ∨
    d.names.lookup (GfsCluster.temp c) = some i
  have hunique : ∀ i c c', Named i c → Named i c' → c = c' := by
    rintro i c c' (h₁ | h₁) (h₂ | h₂)
    · exact path_injective (d.inj _ _ i h₁ h₂)
    · exact absurd (d.inj _ _ i h₁ h₂) (path_ne_temp c c')
    · exact absurd (d.inj _ _ i h₂ h₁) (path_ne_temp c' c)
    · exact temp_injective (d.inj _ _ i h₁ h₂)
  let own (i : ℕ) : ChunkId := if hi : ∃ c, Named i c then hi.choose else []
  have hown : ∀ i c, Named i c → own i = c := by
    intro i c hc
    have hi : ∃ c, Named i c := ⟨c, hc⟩
    simp only [own, dif_pos hi]
    exact hunique i _ _ hi.choose_spec hc
  subst h
  exact ⟨own, fun c i hi => hown i c (.inl hi), fun c i hi => hown i c (.inr hi), by simp⟩

end Owned

/-! ### One chunk -/

/-- At most one write has the temp file of the chunk open, and has written it alone. -/
structure Alone (c : ChunkId) (d : DataDir) (hs : List Handler) : Prop where
  writes : ∀ h ∈ hs, ∀ b i n, h.Writes c b i n →
    d.names.lookup (temp c) = some i ∧ n ≤ b.length ∧ d.contents i = b.take n
  one : Lists.AtMostOne (fun h : Handler => h.writingTo = some c) hs

namespace Alone

variable {c : ChunkId} {own : ℕ → ChunkId} {d d' : DataDir} {hs : List Handler} {h h' : Handler}
  {k : ℕ} {a : HandlerAction} {e : Handler.Effect}

/-- A handler moves on that does not write the chunk, and leaves its temp file as it is. -/
theorem set (ha : Alone c d hs) (htemp : d'.names.lookup (temp c) = d.names.lookup (temp c))
    (hcontents : ∀ i, d.names.lookup (temp c) = some i → d'.contents i = d.contents i)
    (hquiet : h'.writingTo ≠ some c) : Alone c d' (hs.set k h') where
  writes := by
    refine Lists.forall_mem_set (fun g hg b i n hwr => ?_) fun b i n hwr => absurd hwr.writingTo hquiet
    obtain ⟨hi, hrest⟩ := ha.writes g hg b i n hwr
    rw [htemp, hcontents i hi]
    exact ⟨hi, hrest⟩
  one := ha.one.set_of_not hquiet

/-- A write of the chunk opens the temp file, while no other has it open. -/
theorem creat (b : Bytes) (rest : List (ChunkId × Bytes)) (old : ℤ)
    (hapart : ∀ g ∈ hs, g.writingTo ≠ some c) : Alone c (d.creat (temp c)).2
      (hs.set k (.storing ((c, b) :: rest) (.writing old (d.creat (temp c)).1 0))) where
  writes := by
    refine Lists.forall_mem_set (fun g hg b' i n hwr => absurd hwr.writingTo (hapart g hg))
      fun b' i n hwr => ?_
    cases hwr
    exact ⟨Volume.lookup_creat_self, Nat.zero_le _, Volume.contents_creat_self⟩
  one := Lists.AtMostOne.set_of_forall hapart

/-- It writes on, alone. -/
theorem write (ha : Alone c d hs) {b : Bytes} {rest : List (ChunkId × Bytes)} {old : ℤ} {i n m : ℕ}
    (hk : hs[k]? = some (.storing ((c, b) :: rest) (.writing old i n))) (hm : n + m ≤ b.length) :
    Alone c (d.writeAt i n ((b.drop n).take m))
      (hs.set k (.storing ((c, b) :: rest) (.writing old i (n + m)))) := by
  obtain ⟨htemp, hle, hcontents⟩ := ha.writes _ (List.mem_of_getElem? hk) b i n (.intro _ _)
  have hlen : (d.contents i).length = n := by
    rw [hcontents, List.length_take]
    omega
  have hself : (d.writeAt i n ((b.drop n).take m)).contents i = b.take (n + m) := by
    have happ := Volume.contents_writeAt_self (d := d) (i := i) ((b.drop n).take m)
    rw [hlen, hcontents] at happ
    rw [happ, List.take_add]
  refine ⟨fun g hg b' j n' hwr => ?_, ha.one.set hk fun _ => rfl⟩
  obtain rfl := ha.one.eq_of_mem_set hk rfl hg hwr.writingTo
  cases hwr
  exact ⟨htemp, hm, hself⟩

/-- It renames the temp file, which is then nobody's. -/
theorem rename (ha : Alone c d hs) {b : Bytes} {rest : List (ChunkId × Bytes)} {old : ℤ} {i n : ℕ}
    (hk : hs[k]? = some (.storing ((c, b) :: rest) (.writing old i n))) :
    Alone c d' (hs.set k (.storing ((c, b) :: rest) (.renamed old))) := by
  refine ⟨fun g hg b' j n' hwr => ?_, ha.one.set_of_not (by simp [Handler.writingTo])⟩
  obtain rfl := ha.one.eq_of_mem_set hk rfl hg hwr.writingTo
  cases hwr

theorem of_moves (ha : Alone c d hs) (ho : Owned own d hs) (hk : hs[k]? = some h)
    (hm : Handler.Moves d h a e)
    (hapart : a = .creat → h.storingTo = some c → ∀ g ∈ hs, g.writingTo ≠ some c) :
    Alone c e.disk (hs.set k e.handler) := by
  have hh := List.mem_of_getElem? hk
  cases hm with
  | creat c' b rest old =>
    by_cases hc : c' = c
    · subst hc
      exact creat b rest old (hapart rfl rfl)
    · have hne : temp c ≠ temp c' := fun he => hc (temp_injective he).symm
      refine ha.set (Volume.lookup_creat_ne hne) (fun i hi => Volume.contents_creat_ne ?_)
        (by simpa [Handler.writingTo] using hc)
      rintro rfl
      exact hne (Volume.inj _ _ _ _ ((Volume.lookup_creat_ne hne).trans hi) Volume.lookup_creat_self)
  | @write c' b rest old i n m hm =>
    by_cases hc : c' = c
    · subst hc
      exact ha.write hk hm.2
    · refine ha.set rfl (fun j hj => Volume.contents_writeAt_ne ?_)
        (by simpa [Handler.writingTo] using hc)
      rintro rfl
      exact hc ((ho.opened _ hh _ _ (.writing _ _ _ _)).1.symm.trans (ho.temp c _ hj))
  | @rename c' b rest old i n j hn hj =>
    by_cases hc : c' = c
    · subst hc
      exact ha.rename hk
    · exact ha.set (Volume.lookup_move_ne (h := hj) (fun he => hc (temp_injective he).symm)
        (path_ne_temp c' c).symm) (fun _ _ => rfl) (by simp [Handler.writingTo])
  | @remove c' old hin =>
    exact ha.set (Volume.lookup_unlink_ne (path_ne_temp c' c).symm) (fun _ _ => rfl)
      (by simp [Handler.writingTo])
  | count | readEnd | missing => exact ha.set rfl (fun _ _ => rfl) (by simp)
  | _ => exact ha.set rfl (fun _ _ => rfl) (by simp [Handler.writingTo])

theorem unlink (ha : Alone c d hs) (c' : ChunkId) : Alone c (d.unlink (path c')) hs where
  writes g hg b i n hwr := by
    rw [Volume.lookup_unlink_ne (path_ne_temp c' c).symm]
    exact ha.writes g hg b i n hwr
  one := ha.one

theorem receive (ha : Alone c d hs) (r : Request) : Alone c d (hs ++ [r.handler]) := by
  have hquiet : r.handler.writingTo ≠ some c := by simp [r.handler_new.1]
  exact ⟨Lists.forall_mem_concat ha.writes fun b i n hwr => absurd hwr.writingTo hquiet,
    ha.one.concat hquiet⟩

/-- The rename of a write does not fail. -/
theorem not_failed_of_moves (ha : Alone c d hs) (hh : h ∈ hs) (hm : Handler.Moves d h a e)
    (hb : a ≠ .ioError) : e.handler ≠ .done (.storeFailed c) := by
  intro hfail
  cases hm with
  | renameFails hn hnone =>
    cases hfail
    obtain ⟨htemp, _⟩ := ha.writes _ hh _ _ _ (.intro _ _)
    rw [hnone] at htemp
    cases htemp
  | storeError => exact hb rfl
  | count => exact Handler.storeNext_ne_failed _ _ hfail
  | readEnd | missing => exact Handler.readNext_ne_failed _ _ _ hfail
  | _ => cases hfail

/-- As long as a write of the chunk is under way, one of them can go on. -/
theorem exists_next (ha : Alone c d hs) (hstoring : ∃ h ∈ hs, h.storingTo = some c) :
    ∃ (k : ℕ) (h : Handler) (a : HandlerAction) (e : Handler.Effect),
      hs[k]? = some h ∧ h.storingTo = some c ∧ h.step d a = some e ∧ a ≠ .ioError ∧
      (a = .creat → ∀ g ∈ hs, g.writingTo ≠ some c) ∧ e.handler.todo < h.todo := by
  by_cases hopen : ∃ g ∈ hs, g.writingTo = some c
  · obtain ⟨g, hg, hgc⟩ := hopen
    obtain ⟨b, i, n, hwr⟩ := Handler.writes_of_writingTo hgc
    obtain ⟨hi, hle, _⟩ := ha.writes g hg b i n hwr
    obtain ⟨k, hk⟩ := List.getElem?_of_mem hg
    cases hwr with
    | intro rest old =>
      by_cases hn : n = b.length
      · have hmove : d.rename (temp c) (path c) = some (d.move (temp c) (path c) i hi) :=
          Volume.rename_eq_some.mpr ⟨i, hi, rfl⟩
        refine ⟨k, _, .rename,
          ⟨.storing ((c, b) :: rest) (.renamed old), d.move (temp c) (path c) i hi, 0, 0⟩, hk, rfl, ?_,
          by simp, by simp, ?_⟩
        · simp only [Handler.step, Handler.storeStep, hn, if_true, hmove]
        · simp [Handler.todo]
      · refine ⟨k, _, .write (b.length - n), _, hk, rfl, if_pos (by omega), by simp, by simp, ?_⟩
        simp only [Handler.todo]
        omega
  · have hnone : ∀ g ∈ hs, g.writingTo ≠ some c := fun g hg hgc => hopen ⟨g, hg, hgc⟩
    obtain ⟨h, hh, hc⟩ := hstoring
    obtain ⟨k, hk⟩ := List.getElem?_of_mem hh
    unfold Handler.storingTo at hc
    split at hc
    · rename_i c' b rest phase
      cases hc
      cases phase with
      | probing =>
        refine ⟨k, _, .probe, _, hk, rfl, rfl, by simp, by simp, ?_⟩
        simp [Handler.todo]
      | probed old =>
        refine ⟨k, _, .creat, _, hk, rfl, rfl, by simp, fun _ => hnone, ?_⟩
        simp [Handler.todo]
      | writing old i n => exact absurd rfl (hnone _ hh)
      | renamed old =>
        refine ⟨k, _, .count, _, hk, rfl, rfl, by simp, by simp, ?_⟩
        show (Handler.storeNext rest).todo < 1 + (rest.map fun x => x.2.length + 4).sum
        rw [Handler.todo_storeNext]
        omega
    · cases hc

end Alone

/-- The files of the chunk `c`, all of whose writes carry `data`: what has its name is whole,
and so is what anyone reads. -/
structure Whole (c : ChunkId) (data : Bytes) (good : Bytes → Prop) (d : DataDir)
    (hs : List Handler) : Prop extends Alone c d hs where
  items : ∀ h ∈ hs, ∀ x ∈ h.items, x.1 = c → x.2 = data
  named : ∀ i, d.names.lookup (path c) = some i → good (d.contents i)
  reads : ∀ h ∈ hs, ∀ i got, h.Reads c i got →
    good (d.contents i) ∧ got <+: d.contents i ∧ d.names.lookup (temp c) ≠ some i
  got : ∀ h ∈ hs, ∀ b, (c, some b) ∈ h.chunks → good b

namespace Whole

variable {c : ChunkId} {data : Bytes} {good : Bytes → Prop} {own : ℕ → ChunkId} {d d' : DataDir}
  {hs : List Handler} {h h' : Handler} {k : ℕ} {a : HandlerAction} {e : Handler.Effect}

/-- A step that leaves the inodes of the chunk as they are, and its temp file, keeps it whole. -/
theorem set (hw : Whole c data good d hs) (ho : Owned own d hs) (hh : h ∈ hs)
    (hal : Alone c d' (hs.set k h'))
    (hpath : ∀ i, d'.names.lookup (path c) = some i → d.names.lookup (path c) = some i)
    (htemp : d'.names.lookup (temp c) = d.names.lookup (temp c))
    (hcontents : ∀ i, own i = c → i < d.fresh → d'.contents i = d.contents i)
    (hitems : h'.items ⊆ h.items)
    (hreads : ∀ i got, h'.Reads c i got → own i = c ∧ i < d.fresh ∧ good (d.contents i) ∧
      got <+: d.contents i ∧ d.names.lookup (temp c) ≠ some i)
    (hgot : ∀ b, (c, some b) ∈ h'.chunks → good b) : Whole c data good d' (hs.set k h') where
  toAlone := hal
  items := Lists.forall_mem_set hw.items fun x hx => hw.items h hh x (hitems hx)
  named i hi := by
    have hi' := hpath i hi
    rw [hcontents i (ho.path c i hi') (d.lt_fresh _ i hi')]
    exact hw.named i hi'
  reads := by
    rw [htemp]
    refine Lists.forall_mem_set (fun g hg i got hr => ?_) fun i got hr => ?_
    · obtain ⟨hown, hlt⟩ := ho.opened g hg c i hr.opened
      rw [hcontents i hown hlt]
      exact hw.reads g hg i got hr
    · obtain ⟨hown, hlt, hrest⟩ := hreads i got hr
      rw [hcontents i hown hlt]
      exact hrest
  got := Lists.forall_mem_set hw.got hgot

/-- The handler that moves on leaves the disk as it is. -/
theorem set_same (hw : Whole c data good d hs) (ho : Owned own d hs) (hh : h ∈ hs)
    (hal : Alone c d (hs.set k h')) (hitems : h'.items ⊆ h.items)
    (hreads : ∀ i, ¬ h'.Opened c i) (hgot : ∀ b, (c, some b) ∈ h'.chunks → good b) :
    Whole c data good d (hs.set k h') :=
  hw.set ho hh hal (fun _ => id) rfl (fun _ _ _ => rfl) hitems
    (fun i _ hr => absurd hr.opened (hreads i)) hgot

/-- A handler moves on that reads nothing of the chunk: what is read stays as it is if no read
has the temp file open. -/
theorem set_write (hw : Whole c data good d hs) (hh : h ∈ hs) (hal : Alone c d' (hs.set k h'))
    (hitems : h'.items ⊆ h.items) (hchunks : h'.chunks = []) (hquiet : ∀ i got, ¬ h'.Reads c i got)
    (hnamed : ∀ i, d'.names.lookup (path c) = some i → good (d'.contents i))
    (hreads : ∀ i, i < d.fresh → d.names.lookup (temp c) ≠ some i →
      d'.contents i = d.contents i ∧ d'.names.lookup (temp c) ≠ some i)
    (ho : Owned own d hs) : Whole c data good d' (hs.set k h') where
  toAlone := hal
  items := Lists.forall_mem_set hw.items fun x hx => hw.items h hh x (hitems hx)
  named := hnamed
  reads := by
    refine Lists.forall_mem_set (fun g hg i got hr => ?_) fun i got hr => absurd hr (hquiet i got)
    obtain ⟨hg₁, hg₂, hg₃⟩ := hw.reads g hg i got hr
    obtain ⟨hsame, htemp⟩ := hreads i (ho.opened g hg c i hr.opened).2 hg₃
    rw [hsame]
    exact ⟨hg₁, hg₂, htemp⟩
  got := Lists.forall_mem_set hw.got (by simp [hchunks])

/-- A write of the chunk empties the temp file, which nobody reads. -/
theorem creat (hw : Whole c data good d hs) (ho : Owned own d hs) {b : Bytes}
    {rest : List (ChunkId × Bytes)} {old : ℤ}
    (hh : .storing ((c, b) :: rest) (.probed old) ∈ hs)
    (hal : Alone c (d.creat (temp c)).2
      (hs.set k (.storing ((c, b) :: rest) (.writing old (d.creat (temp c)).1 0)))) :
    Whole c data good (d.creat (temp c)).2
      (hs.set k (.storing ((c, b) :: rest) (.writing old (d.creat (temp c)).1 0))) := by
  have hne : ∀ i, i < d.fresh → d.names.lookup (temp c) ≠ some i → i ≠ (d.creat (temp c)).1 :=
    fun i => Volume.ne_creat_of_lookup_ne
  refine hw.set_write hh hal (List.Subset.refl _) rfl (by rintro _ _ ⟨⟩) (fun i hi => ?_)
    (fun i hi ht => ⟨Volume.contents_creat_ne (hne i hi ht), ?_⟩) ho
  · rw [Volume.lookup_creat_ne (path_ne_temp c c)] at hi
    have hij := hne i (d.lt_fresh _ i hi) fun ht => path_ne_temp c c (d.inj _ _ i hi ht)
    rw [Volume.contents_creat_ne hij]
    exact hw.named i hi
  · rw [Volume.lookup_creat_self]
    exact fun he => hne i hi ht (Option.some.inj he).symm

/-- It writes on. -/
theorem write (hw : Whole c data good d hs) (ho : Owned own d hs) {b : Bytes}
    {rest : List (ChunkId × Bytes)} {old : ℤ} {i n m : ℕ}
    (hh : .storing ((c, b) :: rest) (.writing old i n) ∈ hs)
    (hal : Alone c (d.writeAt i n ((b.drop n).take m))
      (hs.set k (.storing ((c, b) :: rest) (.writing old i (n + m))))) :
    Whole c data good (d.writeAt i n ((b.drop n).take m))
      (hs.set k (.storing ((c, b) :: rest) (.writing old i (n + m)))) := by
  obtain ⟨htemp, _⟩ := hw.writes _ hh b i n (.intro _ _)
  have hother : ∀ j, d.names.lookup (temp c) ≠ some j →
      (d.writeAt i n ((b.drop n).take m)).contents j = d.contents j := by
    intro j hj
    refine Volume.contents_writeAt_ne ?_
    rintro rfl
    exact hj htemp
  refine hw.set_write hh hal (List.Subset.refl _) rfl (by rintro _ _ ⟨⟩) (fun j hj => ?_)
    (fun j _ ht => ⟨hother j ht, ht⟩) ho
  rw [hother j fun ht => path_ne_temp c c (d.inj _ _ j hj ht)]
  exact hw.named j hj

/-- It renames the temp file, which holds all its data. -/
theorem rename (hw : Whole c data good d hs) (ho : Owned own d hs) (hgood : good data) {b : Bytes}
    {rest : List (ChunkId × Bytes)} {old : ℤ} {i j : ℕ}
    (hh : .storing ((c, b) :: rest) (.writing old i b.length) ∈ hs)
    (hj : d.names.lookup (temp c) = some j)
    (hal : Alone c (d.move (temp c) (path c) j hj)
      (hs.set k (.storing ((c, b) :: rest) (.renamed old)))) :
    Whole c data good (d.move (temp c) (path c) j hj)
      (hs.set k (.storing ((c, b) :: rest) (.renamed old))) := by
  obtain ⟨htemp, _, hcontents⟩ := hw.writes _ hh b i b.length (.intro _ _)
  obtain rfl : i = j := Option.some.inj (htemp.symm.trans hj)
  have hdata : b = data := hw.items _ hh (c, b) List.mem_cons_self rfl
  refine hw.set_write hh hal (List.Subset.refl _) rfl (by rintro _ _ ⟨⟩) (fun j hj => ?_)
    (fun j _ _ => ⟨rfl, ?_⟩) ho
  · rw [Volume.lookup_move_dst, Option.some.injEq] at hj
    show good (d.contents j)
    rw [← hj, hcontents, List.take_length, hdata]
    exact hgood
  · rw [Volume.lookup_move_src (path_ne_temp c c).symm]
    exact nofun

/-- A step of a handler keeps the chunk whole, if the temp file is not opened while another
write has it open. -/
theorem of_moves (hw : Whole c data good d hs) (ho : Owned own d hs) (hgood : good data)
    (hk : hs[k]? = some h) (hm : Handler.Moves d h a e)
    (hapart : a = .creat → h.storingTo = some c → ∀ g ∈ hs, g.writingTo ≠ some c) :
    Whole c data good e.disk (hs.set k e.handler) := by
  have hh := List.mem_of_getElem? hk
  have hal := hw.toAlone.of_moves ho hk hm hapart
  cases hm with
  | creat c' b rest old =>
    by_cases hc : c' = c
    · subst hc
      exact hw.creat ho hh hal
    · have hforeign : ∀ i, own i = c → i < d.fresh → i ≠ (d.creat (temp c')).1 := fun i hi hlt =>
        Volume.ne_creat_of_lookup_ne hlt fun hl => hc ((ho.temp c' _ hl).symm.trans hi)
      refine hw.set ho hh hal (fun i hi => ?_)
        (Volume.lookup_creat_ne fun he => hc (temp_injective he).symm)
        (fun i hi hlt => Volume.contents_creat_ne (hforeign i hi hlt)) (List.Subset.refl _)
        (by rintro _ _ ⟨⟩) (by rintro _ ⟨⟩)
      rwa [Volume.lookup_creat_ne (path_ne_temp c c')] at hi
  | @write c' b rest old i n m hm =>
    by_cases hc : c' = c
    · subst hc
      exact hw.write ho hh hal
    · have hforeign : ∀ j, own j = c → j ≠ i := by
        rintro j hj rfl
        exact hc ((ho.opened _ hh _ _ (.writing _ _ _ _)).1.symm.trans hj)
      exact hw.set ho hh hal (fun _ => id) rfl
        (fun j hj _ => Volume.contents_writeAt_ne (hforeign j hj)) (List.Subset.refl _)
        (by rintro _ _ ⟨⟩) (by rintro _ ⟨⟩)
  | @rename c' b rest old i n j hn hj =>
    by_cases hc : c' = c
    · subst hc
      subst hn
      exact hw.rename ho hgood hh hj hal
    · refine hw.set ho hh hal (fun i hi => ?_) ?_ (fun _ _ _ => rfl) (List.Subset.refl _)
        (by rintro _ _ ⟨⟩) (by rintro _ ⟨⟩)
      · rwa [Volume.lookup_move_ne (path_ne_temp c c') fun he => hc (path_injective he).symm] at hi
      · exact Volume.lookup_move_ne (h := hj) (fun he => hc (temp_injective he).symm)
          (path_ne_temp c' c).symm
  | @remove c' old hin =>
    exact hw.set ho hh hal (fun i hi => Volume.lookup_of_unlink hi)
      (Volume.lookup_unlink_ne (path_ne_temp c' c).symm) (fun _ _ _ => rfl) (List.Subset.refl _)
      (by rintro _ _ ⟨⟩) (by rintro _ ⟨⟩)
  | @openRead c' rest chunks i hi =>
    refine hw.set ho hh hal (fun _ => id) rfl (fun _ _ _ => rfl) (List.Subset.refl _)
      (fun i' got hr => ?_) (fun b hb => hw.got _ hh b hb)
    cases hr
    exact ⟨ho.path c i hi, d.lt_fresh _ i hi, hw.named i hi, List.nil_prefix,
      fun ht => path_ne_temp c c (d.inj _ _ i hi ht)⟩
  | @read c' rest chunks i got n =>
    refine hw.set ho hh hal (fun _ => id) rfl (fun _ _ _ => rfl) (List.Subset.refl _)
      (fun i' got' hr => ?_) (fun b hb => hw.got _ hh b hb)
    cases hr
    obtain ⟨hown, hlt⟩ := ho.opened _ hh c i (.reading _ _ _)
    obtain ⟨hg₁, hg₂, hg₃⟩ := hw.reads _ hh i got (.intro _ _)
    exact ⟨hown, hlt, hg₁, Lists.append_take_prefix hg₂ n, hg₃⟩
  | @readEnd c' rest chunks i got hend =>
    refine hw.set_same ho hh hal (by simp) (fun _ => Handler.not_opened_readNext _ _) fun b hb => ?_
    rw [Handler.chunks_readNext, List.mem_append, List.mem_singleton, Prod.mk.injEq,
      Option.some.injEq] at hb
    rcases hb with hb | ⟨rfl, rfl⟩
    · exact hw.got _ hh b hb
    · obtain ⟨hg₁, hg₂, _⟩ := hw.reads _ hh i _ (.intro _ _)
      rwa [hg₂.eq_of_length_le hend]
  | @missing c' rest chunks phase a _ =>
    refine hw.set_same ho hh hal (by simp) (fun _ => Handler.not_opened_readNext _ _) fun b hb => ?_
    rw [Handler.chunks_readNext, List.mem_append, List.mem_singleton] at hb
    rcases hb with hb | hb
    · exact hw.got _ hh b hb
    · cases hb
  | count c' b rest old =>
    refine hw.set_same ho hh hal ?_ (fun _ => Handler.not_opened_storeNext _) (by simp)
    rw [Handler.items_storeNext]
    exact List.subset_cons_self _ _
  | _ =>
    exact hw.set_same ho hh hal (by simp [Handler.items]) (by rintro _ ⟨⟩) (by rintro _ ⟨⟩)

theorem unlink (hw : Whole c data good d hs) (c' : ChunkId) :
    Whole c data good (d.unlink (path c')) hs := by
  have htemp : (d.unlink (path c')).names.lookup (temp c) = d.names.lookup (temp c) :=
    Volume.lookup_unlink_ne (path_ne_temp c' c).symm
  refine { hw with
    toAlone := hw.toAlone.unlink c'
    named := fun i hi => hw.named i (Volume.lookup_of_unlink hi)
    reads := ?_ }
  rw [htemp]
  exact hw.reads

/-- A request comes in that writes nothing else to the chunk. -/
theorem receive (hw : Whole c data good d hs) {r : Request}
    (hr : ∀ x ∈ r.handler.items, x.1 = c → x.2 = data) : Whole c data good d (hs ++ [r.handler]) := by
  obtain ⟨_, hopened, hchunks⟩ := r.handler_new
  exact ⟨hw.toAlone.receive r, Lists.forall_mem_concat hw.items hr, hw.named,
    Lists.forall_mem_concat hw.reads fun i got hrd => absurd hrd.opened (hopened c i),
    Lists.forall_mem_concat hw.got (by simp [hchunks])⟩

end Whole

/-! ### Runs -/

namespace StorageServicer

/-- Whoever writes the chunk writes this data. -/
def SameData (c : ChunkId) (data : Bytes) : ServicerAction → Prop
  | .receive r => ∀ x ∈ r.request.handler.items, x.1 = c → x.2 = data
  | _ => True

instance (c : ChunkId) (data : Bytes) (a : ServicerAction) : Decidable (SameData c data a) :=
  match a with
  | .receive r => inferInstanceAs (Decidable (∀ x ∈ r.request.handler.items, x.1 = c → x.2 = data))
  | .handle _ _ | .scrubList _ | .scrubRemove _ | .scrubSync | .scrubSize | .scrubCount
  | .scrubTotal | .scrubError => .isTrue trivial

/-- No `OSError` comes from the file system. -/
def NoError : ServicerAction → Prop
  | .handle _ .ioError | .scrubError => False
  | _ => True

instance (a : ServicerAction) : Decidable (NoError a) :=
  match a with
  | .handle _ .ioError | .scrubError => .isFalse id
  | .handle _ .probe | .handle _ .creat | .handle _ (.write _) | .handle _ .rename
  | .handle _ .remove | .handle _ .count | .handle _ .openRead | .handle _ (.read _)
  | .handle _ .readEnd | .receive _ | .scrubList _ | .scrubRemove _ | .scrubSync | .scrubSize
  | .scrubCount | .scrubTotal => .isTrue trivial

/-- No write of the chunk opens the temp file while another one is between its open and its
rename. -/
def OpensApart (c : ChunkId) (s : StorageServicer) (a : ServicerAction) : Prop :=
  ∀ k h, a = .handle k .creat → s.handlers[k]? = some h → h.storingTo = some c →
    ∀ g ∈ s.handlers, g.writingTo ≠ some c

/-- No two writes of one chunk have its temp file open at once. -/
def WritesApart (s : StorageServicer) (a : ServicerAction) : Prop := ∀ c, OpensApart c s a

/-- Whether the `creat` comes when no other write has the temp file open. -/
def opensApart (s : StorageServicer) : ServicerAction → Bool
  | .handle k .creat => ((s.handlers[k]?).bind Handler.storingTo).all fun c =>
    s.handlers.all fun g => g.writingTo ≠ some c
  | _ => true

theorem opensApart_iff {s : StorageServicer} {a : ServicerAction} :
    s.opensApart a = true ↔ WritesApart s a := by
  constructor
  · rintro h c k g rfl hk hc
    simpa [opensApart, hk, hc] using h
  · intro h
    unfold opensApart
    split
    · rename_i k
      rw [Option.all_eq_true]
      intro c hc
      obtain ⟨g, hg, hgc⟩ := Option.bind_eq_some_iff.mp hc
      simpa using h c k g rfl hg hgc
    · rfl

instance (s : StorageServicer) (a : ServicerAction) : Decidable (WritesApart s a) :=
  decidable_of_iff _ opensApart_iff

/-- Every read that found the chunk returned `good` data. -/
def ReadsGood (c : ChunkId) (good : Bytes → Prop) (s : StorageServicer) : Prop :=
  ∀ h ∈ s.handlers, ∀ b, (c, some b) ∈ h.chunks → good b

/-- No write request was refused, at whichever of its items. -/
def AllStored (s : StorageServicer) : Prop := ∀ h ∈ s.handlers, ∀ c, h ≠ .done (.storeFailed c)

/-- The writes that are under way can be brought to their end. -/
def Finishes (ok : StorageServicer → ServicerAction → Prop) (s : StorageServicer) : Prop :=
  ∃ s', Steps step ok s s' ∧ ∀ h ∈ s'.handlers, h.storingTo = none

/-- From a server without requests on, writes of `data` to the chunk are safe. While steps meet `ok`
for this chunk, reads return all of what was there or all of the data. While they meet it for every
chunk and no call of the file system fails, every write comes to its end and none is refused: where an
item is refused, so are those behind it in its request. -/
def WritesSafe (ok : ChunkId → StorageServicer → ServicerAction → Prop) (s₀ : StorageServicer)
    (c : ChunkId) (data : Bytes) : Prop :=
  (∀ s, Steps step (fun s a => SameData c data a ∧ ok c s a) s₀ s →
    s.ReadsGood c fun b => s₀.disk.content (path c) = some b ∨ b = data) ∧
  (∀ s, Steps step (fun s a => SameData c data a ∧ NoError a ∧ ∀ c', ok c' s a) s₀ s →
    s.AllStored ∧ s.Finishes fun s a => SameData c data a ∧ NoError a ∧ ∀ c', ok c' s a)

variable {s s' s₀ : StorageServicer} {a : ServicerAction} {c : ChunkId} {data : Bytes}
  {good : Bytes → Prop}

/-- Every inode belongs to a chunk, and those of `c` are whole. -/
def Kept (c : ChunkId) (data : Bytes) (good : Bytes → Prop) (s : StorageServicer) : Prop :=
  (∃ own, Owned own s.disk s.handlers) ∧ Whole c data good s.disk s.handlers

theorem kept_of_step (h : s.Kept c data good) (hgood : good data) (hdata : SameData c data a)
    (hapart : OpensApart c s a) (hs : s.step a = some s') : s'.Kept c data good := by
  obtain ⟨⟨own, ho⟩, hw⟩ := h
  rcases cases_of_step hs with ⟨r, rfl, rfl⟩ | ⟨k, b, g, e, rfl, hk, hm, rfl⟩ | hscrub
  · exact ⟨⟨own, ho.receive r.request⟩, hw.receive hdata⟩
  · obtain ⟨own', _, ho'⟩ := ho.of_moves hk hm
    exact ⟨⟨own', ho'⟩, hw.of_moves ho hgood hk hm fun ha => hapart k g (ha ▸ rfl) hk⟩
  · obtain ⟨hhandlers, hdisk⟩ := hscrub.frame
    rw [Kept, hhandlers]
    rcases hdisk with hdisk | ⟨c', hdisk⟩
    · rw [hdisk]
      exact ⟨⟨own, ho⟩, hw⟩
    · rw [hdisk]
      exact ⟨⟨own, ho.unlink c'⟩, hw.unlink c'⟩

theorem kept_start (h : s₀.handlers = []) (c : ChunkId) (data : Bytes) :
    s₀.Kept c data fun b => s₀.disk.content (path c) = some b ∨ b = data := by
  refine ⟨Owned.exists_start s₀.disk s₀.handlers h, ?_⟩
  rw [h]
  refine ⟨⟨by simp, by rintro _ _ _ _ ⟨⟩⟩, by simp, fun i hi => .inl ?_, by simp, by simp⟩
  rw [Volume.content, hi]
  rfl

/-- Every temp file is written by one request at most. -/
def Spaced (s : StorageServicer) : Prop :=
  (∃ own, Owned own s.disk s.handlers) ∧ ∀ c, Alone c s.disk s.handlers

theorem spaced_of_step (h : s.Spaced) (hapart : WritesApart s a) (hs : s.step a = some s') :
    s'.Spaced := by
  obtain ⟨⟨own, ho⟩, hal⟩ := h
  rcases cases_of_step hs with ⟨r, rfl, rfl⟩ | ⟨k, b, g, e, rfl, hk, hm, rfl⟩ | hscrub
  · exact ⟨⟨own, ho.receive r.request⟩, fun c => (hal c).receive r.request⟩
  · obtain ⟨own', _, ho'⟩ := ho.of_moves hk hm
    exact ⟨⟨own', ho'⟩, fun c => (hal c).of_moves ho hk hm fun ha => hapart c k g (ha ▸ rfl) hk⟩
  · obtain ⟨hhandlers, hdisk⟩ := hscrub.frame
    rw [Spaced, hhandlers]
    rcases hdisk with hdisk | ⟨c', hdisk⟩
    · rw [hdisk]
      exact ⟨⟨own, ho⟩, hal⟩
    · rw [hdisk]
      exact ⟨⟨own, ho.unlink c'⟩, fun c => (hal c).unlink c'⟩

theorem spaced_start (h : s₀.handlers = []) : s₀.Spaced := by
  refine ⟨Owned.exists_start s₀.disk s₀.handlers h, fun c => ?_⟩
  rw [h]
  exact ⟨by simp, by rintro _ _ _ _ ⟨⟩⟩

/-- What still has to be written gets less with every step that a write takes. -/
theorem finishes_of_spaced (h : s.Spaced) :
    s.Finishes fun s a => SameData c data a ∧ NoError a ∧ WritesApart s a := by
  have hall : ∀ t : StorageServicer, (¬ ∀ h ∈ t.handlers, h.storingTo = none) →
      ∃ c', ∃ h ∈ t.handlers, h.storingTo = some c' := by
    intro t hbusy
    simp only [not_forall] at hbusy
    obtain ⟨h, hh, hne⟩ := hbusy
    obtain ⟨c', hc'⟩ := Option.ne_none_iff_exists'.mp hne
    exact ⟨c', h, hh, hc'⟩
  refine Steps.exists_of_measure (P := Spaced) (fun s => (s.handlers.map Handler.todo).sum) h
    fun t ht hbusy => ?_
  obtain ⟨c', hstoring⟩ := hall t hbusy
  obtain ⟨k, g, a, e, hk, hc', he, ha, hapart, hlt⟩ := (ht.2 c').exists_next hstoring
  have hstep : step t (.handle k a) = some ⟨e.disk, t.chunkCount + e.count, t.totalBytes + e.bytes,
      t.handlers.set k e.handler, t.scrub⟩ := by
    simp [step, hk, he]
  have hok : WritesApart t (.handle k a) := by
    rintro c'' _ g' ⟨⟩ hk' hc''
    obtain rfl := Option.some.inj (hk.symm.trans hk')
    obtain rfl := Option.some.inj (hc'.symm.trans hc'')
    exact hapart rfl
  have hdata : SameData c data (.handle k a) := trivial
  have hno : NoError (.handle k a) := by
    cases a with
    | ioError => exact absurd rfl ha
    | _ => trivial
  exact ⟨_, _, ⟨hdata, hno, hok⟩, hstep, spaced_of_step ht hok hstep,
    Lists.sum_map_set_lt Handler.todo hk hlt⟩

/-- Writes of one chunk are safe as long as each opens the temp file when no other has it open. -/
theorem writesSafe_of_apart (h₀ : s₀.handlers = []) (c : ChunkId) (data : Bytes) :
    WritesSafe OpensApart s₀ c data := by
  refine ⟨fun s h => ?_, fun s h => ?_⟩
  · have hkept : s.Kept c data fun b => s₀.disk.content (path c) = some b ∨ b = data :=
      h.invariant (kept_start h₀ c data) fun _ _ _ _ hk hok hs =>
        kept_of_step hk (.inr rfl) hok.1 hok.2 hs
    exact hkept.2.got
  · have hinv : s.Spaced ∧ s.AllStored := by
      refine h.invariant (P := fun s => s.Spaced ∧ s.AllStored)
        ⟨spaced_start h₀, by simp [AllStored, h₀]⟩ fun t a u _ ⟨hspaced, hstored⟩ hok hs => ?_
      refine ⟨spaced_of_step hspaced hok.2.2 hs, ?_⟩
      rcases cases_of_step hs with ⟨r, rfl, rfl⟩ | ⟨k, b, g, e, rfl, hk, hm, rfl⟩ | hscrub
      · exact Lists.forall_mem_concat hstored r.request.handler_ne_failed
      · have hb : b ≠ .ioError := by
          rintro rfl
          exact hok.2.1
        exact Lists.forall_mem_set hstored fun c' =>
          (hspaced.2 c').not_failed_of_moves (List.mem_of_getElem? hk) hm hb
      · rw [AllStored, hscrub.frame.1]
        exact hstored
    exact ⟨hinv.2, finishes_of_spaced hinv.1⟩

def writeOfC : ChunkRequest := ⟨.storeChunk ['c'] [1], by decide⟩

def readOfC : ChunkRequest := ⟨.getChunk ['c'], by decide⟩

/-- Two writes that are both under way before the first opens the temp file, and a read between their
renames: the read returns the data and both writes are acknowledged. -/
theorem writesSafe_of_apart_twoWrites :
    ∃ s, Steps step (fun s a => SameData ['c'] [1] a ∧ NoError a ∧ WritesApart s a)
        (start Volume.empty) s ∧
      s.handlers = [.done .stored, .done .stored, .done (.read [(['c'], some [1])])] ∧
      s.ReadsGood ['c'] (fun b => (start Volume.empty).disk.content (path ['c']) = some b ∨ b = [1]) ∧
      s.AllStored := by
  have hrun : (run (guarded step fun s a => SameData ['c'] [1] a ∧ NoError a ∧ WritesApart s a)
      (start Volume.empty) [.receive writeOfC, .receive writeOfC, .receive readOfC, .handle 0 .probe,
        .handle 1 .probe, .handle 0 .creat, .handle 0 (.write 1), .handle 0 .rename, .handle 2 .openRead,
        .handle 1 .creat, .handle 2 (.read 1), .handle 1 (.write 1), .handle 1 .rename,
        .handle 2 .readEnd, .handle 1 .count, .handle 0 .count]).any (fun s => s.handlers =
          [.done .stored, .done .stored, .done (.read [(['c'], some [1])])]) = true := by
    decide +kernel
  obtain ⟨s, hs, hp⟩ := exists_of_run hrun
  have hsafe : WritesSafe OpensApart (start Volume.empty) ['c'] [1] := writesSafe_of_apart rfl ['c'] [1]
  exact ⟨s, hs, of_decide_eq_true hp, hsafe.1 s (hs.mono fun _ _ h => ⟨h.1, h.2.2 ['c']⟩),
    (hsafe.2 s hs).1⟩

/-- Two writes of a new chunk and a read. The second write empties the temp file when the first
has written it, so the first names an empty file, which is read, and leaves nothing for the second
to rename. -/
def collision : List ServicerAction :=
  [.receive writeOfC, .receive writeOfC, .receive readOfC, .handle 0 .probe, .handle 1 .probe,
    .handle 0 .creat, .handle 0 (.write 1), .handle 1 .creat,
    .handle 0 .rename, .handle 2 .openRead, .handle 2 .readEnd, .handle 1 (.write 1),
    .handle 1 .rename]

theorem exists_collision :
    ∃ s, Steps step (fun s a => SameData ['c'] [1] a ∧ NoError a ∧ anyStep s a) (start Volume.empty) s ∧
      .done (.read [(['c'], some [])]) ∈ s.handlers ∧ .done (.storeFailed ['c']) ∈ s.handlers := by
  have hrun : (run (guarded step fun s a => SameData ['c'] [1] a ∧ NoError a ∧ anyStep s a)
      (start Volume.empty) collision).any (fun s => .done (.read [(['c'], some [])]) ∈ s.handlers ∧
        .done (.storeFailed ['c']) ∈ s.handlers) = true := by
    decide +kernel
  obtain ⟨s, hs, hp⟩ := exists_of_run hrun
  exact ⟨s, hs, of_decide_eq_true hp⟩

theorem not_writesSafe : ¬ WritesSafe (fun _ => anyStep) (start Volume.empty) ['c'] [1] := by
  intro h
  obtain ⟨s, hs, hread, _⟩ := exists_collision
  have hsame := hs.mono fun _ _ hok => And.intro hok.1 hok.2.2
  have hgood := h.1 s hsame _ hread [] List.mem_cons_self
  revert hgood
  decide

end StorageServicer

end GfsCluster
