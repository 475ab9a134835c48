import GfsCluster.Cluster.Service
import GfsCluster.Metadata.Gauges

/-! What the operator sees of the cluster. ListFiles lists the versions of the file service, the gauges
are counts over such listings, each at the moment of its SELECT, and no chunk is under-replicated
exactly if reads survive any failures that leave fewer than R of the live servers out. -/

namespace GfsCluster

open StepSystem Service

/-- How a version is listed. -/
def FileVersion.entry (v : FileVersion) (f : Filename) : FileMeta :=
  ⟨f, v.data.length, (splitChunks v.data).length, if v.published then .committed else .pending, []⟩

/-- All versions of the service by name. -/
structure FileService.Lists (x : FileService) (files : List FileMeta) : Prop where
  sorted : files.Pairwise (·.filename < ·.filename)
  entries : ∀ fm, fm ∈ files ↔ ∃ v, x.versions fm.filename = some v ∧ fm = v.entry fm.filename

namespace Cluster

variable {cfg : Settings} {s : Cluster} {x : FileService} {f : Filename} {v : FileVersion} {F : FileRow}
  {live : List Addr} {failed : Finset Addr}

/-! ### Listing -/

section Listing

variable {ok : Cluster → ClusterAction → Prop}

theorem Offers.row (h : s.Offers f (some v)) (hr : Reachable cfg ok s) :
    ∃ F ∈ s.naming.db.files, F.filename = f ∧ FileMeta.ofRow F [] = v.entry f := by
  obtain ⟨F, hF, rfl, hst, k, hv, hdata⟩ := h
  refine ⟨F, hF, rfl, ?_⟩
  have hreq := (hr.requests.sent k (hr.requests.begun hv.reserved)).2
  have hsize : F.size = v.data.length := by
    rw [← hv.size, hreq, ← hdata]
    rfl
  have hnum : F.numChunks = (splitChunks v.data).length := by
    rw [← hv.numChunks, hreq, ← hdata]
    rfl
  have hstatus : F.status = if v.published then .committed else .pending := by
    split_ifs with hp
    · exact hst.mp hp
    · cases hF : F.status with
      | pending => rfl
      | committed => exact absurd (hst.mpr hF) hp
  rw [FileMeta.ofRow, FileVersion.entry, hsize, hnum, hstatus]

/-- ListFiles of a cluster that implements the service. -/
theorem Represents.lists (h : Represents cfg s x) : x.Lists (listFiles s.naming.db) where
  sorted := listFiles_sorted _
  entries fm := by
    rw [(listFiles_perm _).mem_iff, List.mem_map]
    constructor
    · rintro ⟨F, hF, rfl⟩
      have hoffer := h.versions F.filename
      cases hv : x.versions F.filename with
      | none =>
        rw [hv] at hoffer
        exact absurd rfl (hoffer F hF)
      | some v =>
        rw [hv] at hoffer
        obtain ⟨G, hG, hname, hentry⟩ := hoffer.row h.reachable
        rw [s.naming.db.file_unique hG hF hname] at hentry
        exact ⟨v, hv, hentry⟩
    · rintro ⟨v, hv, hfm⟩
      have hoffer := h.versions fm.filename
      rw [hv] at hoffer
      obtain ⟨F, hF, _, hentry⟩ := hoffer.row h.reachable
      exact ⟨F, hF, hentry.trans hfm.symm⟩

theorem length_thinIndices (hr : Reachable cfg ok s) (hF : F ∈ s.naming.db.files) (live : List Addr)
    (replication : ℕ) : (s.naming.db.thinIndices live replication (.ofRow F [])).length =
      ((s.naming.db.chunks.filter (·.filename = F.filename)).filter fun r =>
        s.naming.db.Thin live replication r.chunkId).length := by
  obtain ⟨k, hv⟩ := hr.consistent.version F hF
  have hindices := hv.indices hr.consistent
  rw [hv.numChunks] at hindices
  rw [← Lists.length_filter_exists hindices]
  simp only [Db.thinIndices, Db.ThinAt, List.mem_filter, decide_eq_true_eq, and_assoc]
  rfl

theorem countCommittedChunks_listed (hr : Reachable cfg ok s) : countCommittedChunks s.naming.db =
    (((listFiles s.naming.db).filter (·.status = .committed)).map (·.numChunks.toNat)).sum := by
  rw [countCommittedChunks_eq_rows, length_rowsByFile, sum_map_listFiles]
  refine congrArg List.sum (List.map_congr_left fun F hF => ?_)
  obtain ⟨k, hv⟩ := hr.consistent.version F (List.mem_filter.mp hF).1
  have hlen := (hv.indices hr.consistent).length_eq
  rw [List.length_map, List.length_range, hv.numChunks] at hlen
  rw [List.filter_true]
  exact hlen

theorem countUnderReplicated_listed (hr : Reachable cfg ok s) (live : List Addr) (replication : ℕ) :
    countUnderReplicated s.naming.db live replication =
      (((listFiles s.naming.db).filter (·.status = .committed)).map fun fm =>
        (s.naming.db.thinIndices live replication fm).length).sum := by
  rw [countUnderReplicated_eq_rows, length_rowsByFile, sum_map_listFiles]
  refine congrArg List.sum (List.map_congr_left fun F hF => ?_)
  rw [length_thinIndices hr (List.mem_filter.mp hF).1]

end Listing

/-! ### A pass of the metrics loop -/

/-- What was seen of the cluster is what was seen of the service, and ListFiles lists its versions. -/
structure ListsAs (o : Observed Cluster FileInput FileKey FileAnswer)
    (p : Observed FileService FileInput FileKey FileAnswer) (files : List FileMeta) : Prop where
  history : p.history = o.history
  versions : p.server.Lists files
  answer : ∀ v : RowOrder, listFiles (v.view o.server.naming.db) = files

theorem listsAs_of_abreast {o : Observed Cluster FileInput FileKey FileAnswer}
    {p : Observed FileService FileInput FileKey FileAnswer} (h : Abreast (Represents cfg) o p) :
    ListsAs o p (listFiles o.server.naming.db) :=
  ⟨h.history, h.server.lists, fun _ => listFiles_view _⟩

/-- The four SELECTs of a pass, and `live_servers()` before them, each at a moment of its own while
everything else goes on. -/
structure MetricsPass (cfg : Settings) (o₀ o₁ o₂ o₃ o₄ : Observed Cluster FileInput FileKey FileAnswer) :
    Prop where
  files : Steps (service cfg).observe (Serving Regular) o₀ o₁
  bytes : Steps (service cfg).observe (Serving Regular) o₁ o₂
  chunks : Steps (service cfg).observe (Serving Regular) o₂ o₃
  underReplicated : Steps (service cfg).observe (Serving Regular) o₃ o₄

theorem size_nonneg (h : Represents cfg s x) (hF : F ∈ s.naming.db.files) : 0 ≤ F.size := by
  obtain ⟨v, _, hv⟩ := (h.lists.entries (.ofRow F [])).mp
    ((listFiles_perm _).mem_iff.mpr (List.mem_map_of_mem hF))
  have hsize : F.size = v.data.length := congrArg FileMeta.size hv
  omega

/-- The gauges of a pass are counts and sums over the listings that the service has at the moments of
the pass; where the bytes are too many for SQLite, the first two kinds only are set. -/
theorem gauges_listed (old : ClusterGauges) {o₀ o₁ o₂ o₃ o₄ : Observed Cluster FileInput FileKey FileAnswer}
    (h₀ : Steps (service cfg).observe (Serving Regular) (.start init) o₀)
    (h : MetricsPass cfg o₀ o₁ o₂ o₃ o₄) (v₁ v₂ v₃ v₄ : RowOrder) :
    ∃ p₁ p₂ p₃ p₄ L₁ L₂ L₃ L₄, Steps FileService.service.observe anyStep (.start .init) p₁ ∧
      Steps FileService.service.observe anyStep p₁ p₂ ∧
      Steps FileService.service.observe anyStep p₂ p₃ ∧
      Steps FileService.service.observe anyStep p₃ p₄ ∧
      ListsAs o₁ p₁ L₁ ∧ ListsAs o₂ p₂ L₂ ∧ ListsAs o₃ p₃ L₃ ∧ ListsAs o₄ p₄ L₄ ∧
      refreshClusterMetrics old o₀.server.naming.live cfg.replication (v₁.view o₁.server.naming.db)
          (v₂.view o₂.server.naming.db) (v₃.view o₃.server.naming.db) (v₄.view o₄.server.naming.db) =
        if ((L₂.filter (·.status = .committed)).map FileMeta.size).sum < 2 ^ 63 then
          { liveStorage := o₀.server.naming.live.length
            files := fun st => (L₁.filter (·.status = st)).length
            filesBytes := ((L₂.filter (·.status = .committed)).map FileMeta.size).sum
            committedChunks := ((L₃.filter (·.status = .committed)).map (·.numChunks.toNat)).sum
            underReplicatedChunks := ((L₄.filter (·.status = .committed)).map fun fm =>
              (o₄.server.naming.db.thinIndices o₀.server.naming.live cfg.replication fm).length).sum }
        else
          { old with
            liveStorage := o₀.server.naming.live.length
            files := fun st => (L₁.filter (·.status = st)).length } := by
  obtain ⟨p₁, hp₁, ha₁⟩ := follows.steps (.start represents_init) (h₀.trans h.files)
  obtain ⟨p₂, hp₂, ha₂⟩ := follows.steps ha₁ h.bytes
  obtain ⟨p₃, hp₃, ha₃⟩ := follows.steps ha₂ h.chunks
  obtain ⟨p₄, hp₄, ha₄⟩ := follows.steps ha₃ h.underReplicated
  have hchunks := countCommittedChunks_listed ha₃.server.reachable
  have hthin := countUnderReplicated_listed ha₄.server.reachable o₀.server.naming.live cfg.replication
  have hsizes : ∀ F ∈ (v₂.view o₂.server.naming.db).files, 0 ≤ F.size := fun F hF =>
    size_nonneg ha₂.server ((v₂.mem_files _).mp hF)
  have hbytes := committedBytes_eq hsizes (congrArg (fun L : List FileMeta =>
    ((L.filter (·.status = .committed)).map FileMeta.size).sum) (listFiles_view v₂))
  refine ⟨p₁, p₂, p₃, p₄, _, _, _, _, hp₁, hp₂, hp₃, hp₄, listsAs_of_abreast ha₁,
    listsAs_of_abreast ha₂, listsAs_of_abreast ha₃, listsAs_of_abreast ha₄, ?_⟩
  simp only [refreshClusterMetrics, countFilesByStatus_eq, hbytes, listFiles_view,
    countCommittedChunks_view, countUnderReplicated_view, hchunks, hthin]
  rw [List.dedup_eq_self.mpr (NamingServer.live_nodup _)]
  split_ifs <;> rfl

/-- A second file is reserved before the first SELECT, and the first file is deleted between the second
one and the third. -/
theorem gauges_listed_moving : ∃ (o₀ o₁ o₃ : Observed Cluster FileInput FileKey FileAnswer)
    (p₁ p₂ p₃ p₄ : Observed FileService FileInput FileKey FileAnswer) (L₂ L₄ : List FileMeta),
    MetricsPass ⟨1, 60⟩ o₀ o₁ o₁ o₃ o₃ ∧
      Steps FileService.service.observe anyStep (.start .init) p₁ ∧
      Steps FileService.service.observe anyStep p₁ p₂ ∧
      Steps FileService.service.observe anyStep p₂ p₃ ∧
      Steps FileService.service.observe anyStep p₃ p₄ ∧
      ListsAs o₁ p₁ [⟨['f'], 1, 1, .committed, []⟩, ⟨['g'], 2, 1, .pending, []⟩] ∧
      ListsAs o₁ p₂ L₂ ∧ ListsAs o₃ p₃ [⟨['g'], 2, 1, .pending, []⟩] ∧ ListsAs o₃ p₄ L₄ ∧
      (refreshClusterMetrics .init o₀.server.naming.live 1 o₁.server.naming.db o₁.server.naming.db
        o₃.server.naming.db o₃.server.naming.db).files .committed = 1 ∧
      (refreshClusterMetrics .init o₀.server.naming.live 1 o₁.server.naming.db o₁.server.naming.db
        o₃.server.naming.db o₃.server.naming.db).committedChunks = 0 := by
  have hrun : ((run (guarded (service ⟨1, 60⟩).observe (Serving Regular)) (.start init)
      (storing.map .step)).bind fun o₀ =>
        (run (guarded (service ⟨1, 60⟩).observe (Serving Regular)) o₀
          [.step (.createCall 1 ['g'] [8, 9]), .step (.naming (.create 1 .checkLive)),
            .step (.naming (.create 1 (.selectFile .table))), .step (.naming (.create 1 (.place ['d']))),
            .step (.naming (.create 1 (.reserve 1)))]).bind fun o₁ =>
          (run (guarded (service ⟨1, 60⟩).observe (Serving Regular)) o₁
            [.step (.naming (.delete 0 (.receive ['f']))),
              .step (.naming (.delete 0 (.selectFile .table))),
              .step (.naming (.delete 0 (.selectChunks .table))),
              .step (.naming (.delete 0 .remove))]).map fun o₃ => (o₁, o₃)).any (fun o =>
      listFiles o.1.server.naming.db ==
          [⟨['f'], 1, 1, .committed, []⟩, ⟨['g'], 2, 1, .pending, []⟩] &&
        listFiles o.2.server.naming.db == [⟨['g'], 2, 1, .pending, []⟩]) = true := by
    decide +kernel
  obtain ⟨o, ho, hp⟩ := (Option.any_eq_true _ _).mp hrun
  obtain ⟨o₀, h₀, ho⟩ := Option.bind_eq_some_iff.mp ho
  obtain ⟨o₁, h₁, ho⟩ := Option.bind_eq_some_iff.mp ho
  obtain ⟨o₃, h₃, rfl⟩ := Option.map_eq_some_iff.mp ho
  rw [Bool.and_eq_true, beq_iff_eq, beq_iff_eq] at hp
  have hpass : MetricsPass ⟨1, 60⟩ o₀ o₁ o₁ o₃ o₃ :=
    ⟨steps_of_guarded_run h₁, .refl, steps_of_guarded_run h₃, .refl⟩
  obtain ⟨p₁, p₂, p₃, p₄, L₁, L₂, L₃, L₄, hp₁, hp₂, hp₃, hp₄, hl₁, hl₂, hl₃, hl₄, hgauges⟩ :=
    gauges_listed .init (steps_of_guarded_run h₀) hpass .table .table .table .table
  obtain rfl := (hl₁.answer .table).symm.trans hp.1
  obtain rfl := (hl₂.answer .table).symm.trans hp.1
  obtain rfl := (hl₃.answer .table).symm.trans hp.2
  rw [if_pos (by decide)] at hgauges
  refine ⟨o₀, o₁, o₃, p₁, p₂, p₃, p₄, _, L₄, hpass, hp₁, hp₂, hp₃, hp₄, hl₁, hl₂, hl₃, hl₄, ?_, ?_⟩
  · exact congrFun (congrArg ClusterGauges.files hgauges) .committed
  · exact congrArg ClusterGauges.committedChunks hgauges

/-! ### The alert for lost redundancy -/

theorem Offers.seen_of_committed {v : Option FileVersion} (h : s.Offers F.filename v)
    (hF : F ∈ s.naming.db.files) (hst : F.status = .committed) : ∃ data, seen v = some data := by
  cases v with
  | none => exact absurd rfl (h F hF)
  | some v =>
    obtain ⟨G, hG, hname, hpublished, _⟩ := h
    obtain rfl := s.naming.db.file_unique hG hF hname
    exact ⟨v.data, by rw [seen, Option.bind_some, if_pos (hpublished.mpr hst)]⟩

theorem reads_unique {r r' : Except ClientError Bytes} (h : s.ReadsAs failed f r)
    (h' : s.ReadsAs failed f r') : r = r' :=
  (h _ .table .table [] (Holdings.reads_pool _)).symm.trans
    (h' _ .table .table [] (Holdings.reads_pool _))

/-- A published version is read exactly if nothing of it is lost. -/
theorem reads_data_iff {data : Bytes} (h : s.Returns f (some data)) : ∃ F ∈ s.naming.db.files,
    F.filename = f ∧ F.status = .committed ∧
      ∀ failed, s.ReadsAs failed f (.ok data) ↔ s.lostIndices failed F = [] := by
  obtain ⟨F, hF, hname, hst, hreads⟩ := h
  refine ⟨F, hF, hname, hst, fun failed => ⟨fun hok => ?_, fun hlost => ?_⟩⟩
  · by_contra hlost
    have hread := hreads failed
    rw [if_neg hlost] at hread
    cases reads_unique hok hread
  · have hread := hreads failed
    rwa [if_pos hlost] at hread

/-- While enough of the live servers have not failed, nothing is lost. -/
theorem not_lost_of_live (hstored : RecordedStored s) (hF : F ∈ s.naming.db.files)
    (hst : F.status = .committed) {replication : ℕ}
    (hthick : ∀ c, ¬ s.naming.db.UnderReplicated live replication c)
    (hfailed : (failed ∩ live.toFinset).card < replication) : s.lostIndices failed F = [] := by
  rw [lostIndices, List.filter_eq_nil_iff]
  rintro i - hlost
  obtain ⟨r, hr, hname, _, hnone⟩ := of_decide_eq_true hlost
  have hcom : s.naming.db.CommittedChunk r.chunkId := ⟨r, hr, rfl, F, hF, hname.symm, hst⟩
  have hlen : replication ≤ ((s.naming.db.locations r.chunkId).filter (· ∈ live)).length := by
    by_contra hlt
    exact hthick r.chunkId ⟨hcom, not_le.mp hlt⟩
  obtain ⟨addr, haddr, hup⟩ :=
    exists_not_mem_of_card_lt ((s.naming.db.locations_nodup r.chunkId).filter _) (hfailed.trans_le hlen)
  rw [List.mem_filter, decide_eq_true_eq] at haddr
  have hnot : addr ∉ failed := fun hdown =>
    hup (Finset.mem_inter.mpr ⟨hdown, List.mem_toFinset.mpr haddr.2⟩)
  obtain ⟨_, b, _, _, _, hb⟩ := hstored r hr hcom addr (s.naming.db.mem_locations.mp haddr.1)
  have hheld := hnone addr haddr.1
  rw [onDisks, if_neg hnot, hb] at hheld
  cases hheld

/-- An under-replicated chunk is lost with its own servers. -/
theorem lost_of_underReplicated {ok : Cluster → ClusterAction → Prop} (hr : Reachable cfg ok s)
    {c : ChunkId} {replication : ℕ} (h : s.naming.db.UnderReplicated live replication c) :
    ∃ F ∈ s.naming.db.files, F.status = .committed ∧ ∃ failed : Finset Addr,
      (failed ∩ live.toFinset).card < replication ∧ s.lostIndices failed F ≠ [] := by
  obtain ⟨⟨r, hrow, rfl, F, hF, hname, hst⟩, hthin⟩ := h
  refine ⟨F, hF, hst, (s.naming.db.locations r.chunkId).toFinset, ?_, ?_⟩
  · have hinter : (s.naming.db.locations r.chunkId).toFinset ∩ live.toFinset =
        ((s.naming.db.locations r.chunkId).filter (· ∈ live)).toFinset := by
      ext addr
      simp
    rwa [hinter, List.toFinset_card_of_nodup ((s.naming.db.locations_nodup _).filter _)]
  · obtain ⟨k, hv⟩ := hr.consistent.version F hF
    have hindices := hv.indices hr.consistent
    rw [hv.numChunks] at hindices
    have hmem : r ∈ s.naming.db.chunks.filter (·.filename = F.filename) := by simp [hrow, hname]
    refine List.ne_nil_of_mem (List.mem_filter.mpr
      ⟨hindices.mem_iff.mp (List.mem_map_of_mem hmem), decide_eq_true ⟨r, hrow, hname.symm, rfl, ?_⟩⟩)
    intro addr haddr
    rw [onDisks, if_pos (List.mem_toFinset.mpr haddr)]

/-- Where the total of the sizes does not overflow, the gauge of under-replicated chunks is 0 exactly
if every read returns what the service has, in whatever way servers fail that leaves out fewer than R
of those that were live. -/
theorem alert_iff {o : Observed Cluster FileInput FileKey FileAnswer}
    (h : Steps (service cfg).observe (Serving fun s a => Regular s a ∧ Orderly cfg s a) (.start init) o)
    (hidle : ∀ k chunks, (o.server.naming.creates k).phase ≠ .placing chunks) (live : List Addr)
    (v : RowOrder) (old : ClusterGauges) (db₁ db₂ db₃ : Db) (hbytes : (committedBytes db₂).isSome) :
    ∃ p, Steps FileService.service.observe anyStep (.start .init) p ∧ p.history = o.history ∧
      ((refreshClusterMetrics old live cfg.replication db₁ db₂ db₃
          (v.view o.server.naming.db)).underReplicatedChunks = 0 ↔
        ∀ f failed, (failed ∩ live.toFinset).card < cfg.replication →
          o.server.ReadsAs failed f (answerOf (seen (p.server.versions f)))) := by
  have hregular : Steps (service cfg).observe (Serving Regular) (.start init) o :=
    h.mono fun s a hok => hok.mono fun _ _ hok => hok.1
  have horderly : Reachable cfg (Orderly cfg) o.server := (steps_server h).mono fun _ _ hok => hok.2
  obtain ⟨p, hp, hrep, _, hhistory⟩ := follows.histories represents_init hregular
  refine ⟨p, hp, hhistory, ?_⟩
  obtain ⟨total, htotal⟩ := Option.isSome_iff_exists.mp hbytes
  simp only [refreshClusterMetrics, htotal, countUnderReplicated_view, countUnderReplicated_eq_zero]
  have hreturns : ∀ f, o.server.Returns f (seen (p.server.versions f)) := fun f =>
    (hrep.versions f).returns hrep.reachable
  constructor
  · intro hthick f failed hfailed
    cases hv : seen (p.server.versions f) with
    | none =>
      have hnone := hreturns f
      rw [hv] at hnone
      exact hnone failed
    | some data =>
      have hsome := hreturns f
      rw [hv] at hsome
      obtain ⟨F, hF, _, hst, hiff⟩ := reads_data_iff hsome
      exact (hiff failed).mpr
        (not_lost_of_live (horderly.recordedStored hidle) hF hst hthick hfailed)
  · intro hreads c hunder
    obtain ⟨F, hF, hst, failed, hfailed, hlost⟩ := lost_of_underReplicated horderly hunder
    have hread := hreads F.filename failed hfailed
    obtain ⟨data, hv⟩ := (hrep.versions F.filename).seen_of_committed hF hst
    have hsome := hreturns F.filename
    rw [hv] at hread hsome
    obtain ⟨G, hG, hname, _, hiff⟩ := reads_data_iff hsome
    obtain rfl := o.server.naming.db.file_unique hG hF hname
    exact hlost ((hiff failed).mp hread)

/-- Two live servers have the chunk, so that it survives one of them and any others. -/
theorem alert_iff_quiet : ∃ (o : Observed Cluster FileInput FileKey FileAnswer)
    (p : Observed FileService FileInput FileKey FileAnswer),
    Steps FileService.service.observe anyStep (.start .init) p ∧ p.history = o.history ∧
      o.history = [.received (.create 0 ['f'] [7]), .answered (.create 0) (.created true)] ∧
      o.server.ReadsAs {['s'], ['u']} ['f'] (answerOf (seen (p.server.versions ['f']))) := by
  have hrun : (run (guarded (service ⟨2, 60⟩).observe (Serving fun s a =>
      (Regular s a ∧ Steady ⟨2, 60⟩ s a) ∧ Calls 1 a)) (.start init)
      ([.naming (.registerStorage ['s']), .naming (.registerStorage ['t']), .createCall 0 ['f'] [7],
        .naming (.create 0 .checkLive), .naming (.create 0 (.selectFile .table)),
        .naming (.create 0 (.place ['c'])), .naming (.create 0 (.reserve 0)), .createReply 0,
        .sendBatch 0 0, .sendBatch 0 1, .storeItem 0, .storeItem 1, .storeReply 0 0 0,
        .storeReply 0 1 0, .commitSend 0, .commitExec 0, .commitReply 0].map .step ++
        [.answer (.create 0)])).any (fun o => (o.server.naming.creates 0).phase.over &&
      o.history == [.received (.create 0 ['f'] [7]), .answered (.create 0) (.created true)] &&
      countUnderReplicated o.server.naming.db [['s'], ['t']] 2 == 0) = true := by
    decide +kernel
  obtain ⟨o, ho, hp⟩ := exists_of_run hrun
  rw [Bool.and_eq_true, Bool.and_eq_true, beq_iff_eq, beq_iff_eq] at hp
  obtain ⟨⟨hover, hhistory⟩, hquiet⟩ := hp
  have hidle := idle_of_over ((steps_server ho).mono fun _ _ hok => hok.2) hover
  obtain ⟨p, hp, hsame, hiff⟩ := alert_iff
    (ho.mono fun _ _ hok => hok.mono fun _ _ hok => ⟨hok.1.1, hok.1.2.orderly⟩) hidle
    [['s'], ['t']] .table .init .empty .empty .empty rfl
  exact ⟨o, p, hp, hsame, hhistory, hiff.mp hquiet ['f'] {['s'], ['u']} (by decide)⟩

end Cluster

end GfsCluster
