import GfsCluster.Client.FileService

/-! A file whose writers take turns is a register. From a history alone one can tell which calls may
still write a file, and what was written last where no two of them overlapped. The file service has
that content, and every look in between finds it. -/

namespace GfsCluster

open StepSystem Service

/-- What the calls so far make of a file. -/
inductive LastWrite
  | settled (content : Option Bytes)
  | creating (k : ℕ) (data : Bytes)
  | deleting (j : ℕ)
  | unknown
  deriving DecidableEq

/-- The calls that may still write a file, and its last write. -/
structure Writers where
  pending : List FileKey
  last : LastWrite
  deriving DecidableEq

namespace Writers

def call (w : Writers) (key : FileKey) (write : LastWrite) : Writers :=
  ⟨key :: w.pending, if w.pending = [] then write else .unknown⟩

def done (w : Writers) (key : FileKey) (write : LastWrite → LastWrite) : Writers :=
  ⟨w.pending.filter (· ≠ key), write w.last⟩

/-- The content that the end of a call leaves, where it was alone. -/
def created (k : ℕ) : LastWrite → LastWrite
  | .creating k' data => if k' = k then .settled (some data) else .creating k' data
  | write => write

def deleted (j : ℕ) : LastWrite → LastWrite
  | .deleting j' => if j' = j then .settled none else .deleting j'
  | write => write

/-- A call whose client has given up may still go on, so it stays pending. -/
def next (f : Filename) (w : Writers) : Event FileInput FileKey FileAnswer → Writers
  | .received (.create k g data) => if g = f then w.call (.create k) (.creating k data) else w
  | .received (.delete j g) => if g = f then w.call (.delete j) (.deleting j) else w
  | .answered (.create k) (.created true) => w.done (.create k) (created k)
  | .answered (.delete j) _ => w.done (.delete j) (deleted j)
  | _ => w

end Writers

/-- The writers of `f` after a history. -/
def writers (f : Filename) (history : List (Event FileInput FileKey FileAnswer)) : Writers :=
  history.foldl (Writers.next f) ⟨[], .settled none⟩

/-- The event begins a call that may write the file. -/
def Writes (f : Filename) : Event FileInput FileKey FileAnswer → Prop
  | .received (.create _ g _) | .received (.delete _ g) => g = f
  | _ => False

theorem writers_concat (f : Filename) (history : List (Event FileInput FileKey FileAnswer))
    (e : Event FileInput FileKey FileAnswer) :
    writers f (history ++ [e]) = (writers f history).next f e := by
  rw [writers, List.foldl_append, List.foldl_cons, List.foldl_nil, writers]

theorem settled_next {f : Filename} {w : Writers} {c : Option Bytes}
    {e : Event FileInput FileKey FileAnswer} (h : w.last = .settled c) (he : ¬ Writes f e) :
    (w.next f e).last = .settled c := by
  cases e with
  | received i =>
    cases i with
    | create k g data =>
      rw [Writers.next, if_neg (show ¬ g = f from he)]
      exact h
    | delete j g =>
      rw [Writers.next, if_neg (show ¬ g = f from he)]
      exact h
    | look j g => exact h
  | answered key r =>
    cases key with
    | create k =>
      cases r with
      | created ok =>
        cases ok with
        | true => simp only [Writers.next, Writers.done, h, Writers.created]
        | false => exact h
      | deleted _ => exact h
      | size _ => exact h
    | delete j => simp only [Writers.next, Writers.done, h, Writers.deleted]
    | look j => exact h

/-- What has settled stays as long as nobody begins to write. -/
theorem settled_append {f : Filename} {c : Option Bytes}
    {H H' : List (Event FileInput FileKey FileAnswer)} (h : (writers f H).last = .settled c)
    (hno : ∀ e ∈ H', ¬ Writes f e) : (writers f (H ++ H')).last = .settled c := by
  induction H' using List.reverseRecOn with
  | nil => rwa [List.append_nil]
  | append_singleton H' e ih =>
    rw [← List.append_assoc, writers_concat]
    exact settled_next (ih fun e he => hno e (List.mem_append_left _ he)) (hno e (by simp))

namespace FileService

variable {f g : Filename} {w : Writers} {x y : FileService} {j k : ℕ} {op : CreateOp}

/-- A step of the call may change the file. -/
def CreateActive (x : FileService) (f : Filename) (k : ℕ) : Prop :=
  (x.creates k).filename = f ∧ ((x.creates k).stage = .called ∨ (x.creates k).stage = .reserved)

def DeleteActive (x : FileService) (f : Filename) (j : ℕ) : Prop :=
  x.deletes j = .called f ∨ x.deletes j = .found f

/-- The last write and the state of the service. -/
def Settles (f : Filename) (x : FileService) (pending : List FileKey) : LastWrite → Prop
  | .settled c => pending = [] ∧ seen (x.versions f) = c
  | .creating k data => pending = [.create k] ∧ (x.creates k).filename = f ∧
    (x.creates k).data = data ∧ (x.creates k).stage ≠ .idle ∧
    ((x.creates k).stage = .published → x.versions f = some ⟨data, true⟩)
  | .deleting j => pending = [.delete j] ∧
    (x.DeleteActive f j ∨ (∃ b, x.deletes j = .done b) ∧ seen (x.versions f) = none)
  | .unknown => True

/-- What the history says of the writers of a file agrees with the state of the service. -/
structure Tracks (f : Filename) (w : Writers) (x : FileService) : Prop where
  creates : ∀ k, x.CreateActive f k → .create k ∈ w.pending
  deletes : ∀ j, x.DeleteActive f j → .delete j ∈ w.pending
  settles : Settles f x w.pending w.last
  results : ∀ k, (x.creates k).result = some true → (x.creates k).stage = .published

namespace Tracks

variable (h : Tracks f w x)
include h

/-- A call that is pending is the one that writes, or the last write is not known. -/
theorem last_of_pending {key : FileKey} (hmem : key ∈ w.pending) : w.last = .unknown ∨
    (∃ k data, key = .create k ∧ w.last = .creating k data) ∨
      ∃ j, key = .delete j ∧ w.last = .deleting j := by
  have hsettles := h.settles
  cases hlast : w.last with
  | unknown => exact .inl rfl
  | settled c =>
    rw [hlast] at hsettles
    rw [hsettles.1] at hmem
    cases hmem
  | creating k data =>
    rw [hlast] at hsettles
    rw [hsettles.1, List.mem_singleton] at hmem
    exact .inr (.inl ⟨k, data, hmem, rfl⟩)
  | deleting j =>
    rw [hlast] at hsettles
    rw [hsettles.1, List.mem_singleton] at hmem
    exact .inr (.inr ⟨j, hmem, rfl⟩)

theorem last_of_create (hk : x.CreateActive f k) :
    w.last = .unknown ∨ ∃ data, w.last = .creating k data := by
  rcases h.last_of_pending (h.creates k hk) with hlast | ⟨k', data, he, hlast⟩ | ⟨j, he, _⟩
  · exact .inl hlast
  · cases he
    exact .inr ⟨data, hlast⟩
  · cases he

theorem last_of_delete (hj : x.DeleteActive f j) : w.last = .unknown ∨ w.last = .deleting j := by
  rcases h.last_of_pending (h.deletes j hj) with hlast | ⟨k, data, he, _⟩ | ⟨j', he, hlast⟩
  · exact .inl hlast
  · cases he
  · cases he
    exact .inr hlast

/-- Nothing else matters to what is known of the file. -/
theorem congr (hcreates : ∀ k, (x.creates k).filename = f ∧ (x.creates k).stage ≠ .idle ∨
      (y.creates k).filename = f → (y.creates k).filename = (x.creates k).filename ∧
        (y.creates k).data = (x.creates k).data ∧ (y.creates k).stage = (x.creates k).stage)
    (hdeletes : ∀ j, (∃ b, x.deletes j = .done b) ∨ x.DeleteActive f j ∨ y.DeleteActive f j →
      y.deletes j = x.deletes j)
    (hversions : y.versions f = x.versions f)
    (hresults : ∀ k, (y.creates k).result = some true → (y.creates k).stage = .published) :
    Tracks f w y where
  creates k hk := by
    obtain ⟨hname, _, hstage⟩ := hcreates k (.inr hk.1)
    refine h.creates k ?_
    rw [CreateActive, ← hname, ← hstage]
    exact hk
  deletes j hj := by
    refine h.deletes j ?_
    rw [DeleteActive, ← hdeletes j (.inr (.inr hj))]
    exact hj
  settles := by
    have hsettles := h.settles
    cases hlast : w.last with
    | unknown => trivial
    | settled c =>
      rw [hlast] at hsettles
      exact ⟨hsettles.1, by rw [hversions]; exact hsettles.2⟩
    | creating k data =>
      rw [hlast] at hsettles
      obtain ⟨hpending, hk⟩ := hsettles
      obtain ⟨hname, hdata, hstage⟩ := hcreates k (.inl ⟨hk.1, hk.2.2.1⟩)
      refine ⟨hpending, ?_⟩
      rwa [hname, hdata, hstage, hversions]
    | deleting j =>
      rw [hlast] at hsettles
      obtain ⟨hpending, hdel⟩ := hsettles
      have he : y.deletes j = x.deletes j := hdeletes j
        (hdel.elim (fun hactive => .inr (.inl hactive)) fun hdone => .inl hdone.1)
      refine ⟨hpending, ?_⟩
      rwa [DeleteActive, he, hversions]
  results := hresults

theorem results_setCreate (k : ℕ) (op : CreateOp)
    (hop : op.result = some true → op.stage = .published) (i : ℕ)
    (hi : ((x.setCreate k op).creates i).result = some true) :
    ((x.setCreate k op).creates i).stage = .published := by
  by_cases hik : i = k
  · subst hik
    rw [creates_setCreate_self] at hi ⊢
    exact hop hi
  · rw [creates_setCreate_of_ne _ _ hik] at hi ⊢
    exact h.results i hi

/-! ### Calls and answers -/

theorem createCalled {data : Bytes} (hidle : (x.creates k).stage = .idle) :
    Tracks f (w.next f (.received (.create k g data))) (x.setCreate k ⟨g, data, .called, none⟩) := by
  have hresults := h.results_setCreate k ⟨g, data, .called, none⟩ (by simp)
  by_cases hg : g = f
  · rw [Writers.next, if_pos hg]
    refine ⟨fun i hi => ?_, fun j hj => List.mem_cons_of_mem _ (h.deletes j hj), ?_, hresults⟩
    · by_cases hik : i = k
      · rw [hik]
        exact List.mem_cons_self
      · rw [CreateActive, creates_setCreate_of_ne _ _ hik] at hi
        exact List.mem_cons_of_mem _ (h.creates i hi)
    · unfold Writers.call
      split_ifs with hpending
      · refine ⟨by rw [hpending], ?_⟩
        rw [creates_setCreate_self]
        exact ⟨hg, rfl, by simp, by simp⟩
      · trivial
  · rw [Writers.next, if_neg hg]
    refine h.congr (fun i hi => ?_) (fun _ _ => rfl) rfl hresults
    by_cases hik : i = k
    · subst hik
      rw [creates_setCreate_self] at hi
      exact (hi.elim (fun hi => hi.2 hidle) hg).elim
    · rw [creates_setCreate_of_ne _ _ hik]
      exact ⟨rfl, rfl, rfl⟩

theorem deleteCalled (hidle : x.deletes j = .idle) :
    Tracks f (w.next f (.received (.delete j g))) (x.setDelete j (.called g)) := by
  by_cases hg : g = f
  · subst hg
    rw [Writers.next, if_pos rfl]
    refine ⟨fun k hk => List.mem_cons_of_mem _ (h.creates k hk), fun i hi => ?_, ?_, h.results⟩
    · by_cases hij : i = j
      · rw [hij]
        exact List.mem_cons_self
      · rw [DeleteActive, deletes_setDelete_of_ne _ _ hij] at hi
        exact List.mem_cons_of_mem _ (h.deletes i hi)
    · unfold Writers.call
      split_ifs with hpending
      · exact ⟨by rw [hpending], .inl (.inl (deletes_setDelete_self ..))⟩
      · trivial
  · rw [Writers.next, if_neg hg]
    refine h.congr (fun _ _ => ⟨rfl, rfl, rfl⟩) (fun i hi => ?_) rfl h.results
    by_cases hij : i = j
    · subst hij
      rw [DeleteActive, DeleteActive, deletes_setDelete_self, hidle] at hi
      simp [hg] at hi
    · exact deletes_setDelete_of_ne _ _ hij

/-- An answered call changes nothing any more. -/
theorem createAnswered {ok : Bool} (hr : (x.creates k).result = some ok) :
    Tracks f (w.next f (.answered (.create k) (.created ok))) x := by
  cases ok with
  | false => exact h
  | true =>
    have hpublished := h.results k hr
    refine ⟨fun i hi => List.mem_filter.mpr ⟨h.creates i hi, ?_⟩,
      fun j hj => List.mem_filter.mpr ⟨h.deletes j hj, by simp⟩, ?_, h.results⟩
    · rw [decide_eq_true_eq]
      rintro he
      cases he
      rw [CreateActive, hpublished] at hi
      simp at hi
    · have hsettles := h.settles
      simp only [Writers.next, Writers.done]
      cases hlast : w.last with
      | unknown => trivial
      | settled c =>
        rw [hlast] at hsettles
        exact ⟨by rw [hsettles.1]; rfl, hsettles.2⟩
      | creating k' data =>
        rw [hlast] at hsettles
        unfold Writers.created
        dsimp only
        split_ifs with hk
        · subst hk
          obtain ⟨hpending, _, _, _, hversion⟩ := hsettles
          exact ⟨by simp [hpending], by rw [hversion hpublished]; rfl⟩
        · obtain ⟨hpending, hsettles⟩ := hsettles
          exact ⟨by simp [hpending, hk], hsettles⟩
      | deleting j =>
        rw [hlast] at hsettles
        exact ⟨by simp [hsettles.1], hsettles.2⟩

theorem deleteAnswered {b : Bool} {r : FileAnswer} (hr : x.deletes j = .done b) :
    Tracks f (w.next f (.answered (.delete j) r)) x := by
  have hinactive : ¬ x.DeleteActive f j := by simp [DeleteActive, hr]
  refine ⟨fun i hi => List.mem_filter.mpr ⟨h.creates i hi, by simp⟩,
    fun i hi => List.mem_filter.mpr ⟨h.deletes i hi, ?_⟩, ?_, h.results⟩
  · rw [decide_eq_true_eq]
    rintro he
    cases he
    exact hinactive hi
  · have hsettles := h.settles
    simp only [Writers.next, Writers.done]
    cases hlast : w.last with
    | unknown => trivial
    | settled c =>
      rw [hlast] at hsettles
      exact ⟨by rw [hsettles.1]; rfl, hsettles.2⟩
    | creating k data =>
      rw [hlast] at hsettles
      exact ⟨by simp [hsettles.1], hsettles.2⟩
    | deleting j' =>
      rw [hlast] at hsettles
      obtain ⟨hpending, hsettles⟩ := hsettles
      unfold Writers.deleted
      dsimp only
      split_ifs with hj
      · subst hj
        exact ⟨by simp [hpending], (hsettles.resolve_left hinactive).2⟩
      · exact ⟨by simp [hpending, hj], hsettles⟩

/-! ### Steps -/

theorem written {data : Bytes} {st st' : CreateStage} {res : Option Bool} {b : Bool}
    (hop : x.creates k = ⟨g, data, st, res⟩) (hst : st = .called ∨ st = .reserved)
    (hidle : st' ≠ .idle) (hb : st' = .published → b = true) :
    Tracks f w ((x.setCreate k ⟨g, data, st', res⟩).setVersion g (some ⟨data, b⟩)) := by
  have hresults := h.results_setCreate k ⟨g, data, st', res⟩ fun hres => by
    have hpublished := h.results k (by rw [hop]; exact hres)
    rw [hop] at hpublished
    -- a call that goes on has not been answered yet
    rcases hst with rfl | rfl <;> cases hpublished
  by_cases hg : g = f
  · subst hg
    have hactive : x.CreateActive g k := by
      rw [CreateActive, hop]
      exact ⟨rfl, hst⟩
    refine ⟨fun i hi => ?_, h.deletes, ?_, hresults⟩
    · by_cases hik : i = k
      · exact hik ▸ h.creates k hactive
      · refine h.creates i ?_
        rwa [CreateActive, creates_setVersion, creates_setCreate_of_ne _ _ hik] at hi
    · rcases h.last_of_create hactive with hlast | ⟨d, hlast⟩
      · rw [hlast]
        trivial
      · have hsettles := h.settles
        rw [hlast] at hsettles ⊢
        obtain ⟨hpending, _, hdata, _, _⟩ := hsettles
        rw [hop] at hdata
        subst hdata
        refine ⟨hpending, ?_⟩
        rw [creates_setVersion, creates_setCreate_self, versions_setVersion_self]
        exact ⟨rfl, rfl, hidle, fun hp => by rw [hb hp]⟩
  · refine h.congr (fun i hi => ?_) (fun _ _ => rfl)
      (versions_setVersion_of_ne _ _ (Ne.symm hg)) hresults
    by_cases hik : i = k
    · subst hik
      rw [hop, creates_setVersion, creates_setCreate_self] at hi
      exact (hg (hi.elim And.left id)).elim
    · rw [creates_setVersion, creates_setCreate_of_ne _ _ hik]
      exact ⟨rfl, rfl, rfl⟩

/-- A delete looks or removes. -/
theorem deleteStepped {d : DeleteOp} {v : Option FileVersion}
    (hop : x.deletes j = .called g ∨ x.deletes j = .found g)
    (hd : d = .found g ∨ (∃ b, d = .done b) ∧ v = none) :
    Tracks f w ((x.setDelete j d).setVersion g v) := by
  by_cases hg : g = f
  · subst hg
    refine ⟨h.creates, fun i hi => ?_, ?_, h.results⟩
    · by_cases hij : i = j
      · exact hij ▸ h.deletes j hop
      · refine h.deletes i ?_
        rwa [DeleteActive, deletes_setVersion, deletes_setDelete_of_ne _ _ hij] at hi
    · rcases h.last_of_delete hop with hlast | hlast
      · rw [hlast]
        trivial
      · have hsettles := h.settles
        rw [hlast] at hsettles ⊢
        refine ⟨hsettles.1, ?_⟩
        rw [DeleteActive, deletes_setVersion, deletes_setDelete_self, versions_setVersion_self]
        rcases hd with rfl | ⟨⟨b, rfl⟩, rfl⟩
        · exact .inl (.inr rfl)
        · exact .inr ⟨⟨b, rfl⟩, rfl⟩
  · refine h.congr (fun _ _ => ⟨rfl, rfl, rfl⟩) (fun i hi => ?_)
      (versions_setVersion_of_ne _ _ (Ne.symm hg)) h.results
    by_cases hij : i = j
    · -- it is about another file, before and after
      subst hij
      rw [DeleteActive, DeleteActive, deletes_setVersion, deletes_setDelete_self] at hi
      rcases hop with hop | hop <;> rcases hd with rfl | ⟨⟨b, rfl⟩, -⟩ <;> simp [hop, hg] at hi
    · exact deletes_setDelete_of_ne _ _ hij

theorem expired {data : Bytes} (hv : x.versions g = some ⟨data, false⟩) :
    Tracks f w (x.setVersion g none) := by
  by_cases hg : g = f
  · subst hg
    refine ⟨h.creates, h.deletes, ?_, h.results⟩
    have hsettles := h.settles
    cases hlast : w.last with
    | unknown => trivial
    | settled c =>
      rw [hlast] at hsettles
      obtain ⟨hpending, hseen⟩ := hsettles
      rw [hv] at hseen
      exact ⟨hpending, by rw [versions_setVersion_self]; exact hseen⟩
    | creating k d =>
      rw [hlast] at hsettles
      obtain ⟨hpending, hname, hdata, hidle, hversion⟩ := hsettles
      refine ⟨hpending, hname, hdata, hidle, fun hp => ?_⟩
      -- what is published does not expire
      have hpublished := hversion hp
      rw [hv] at hpublished
      simp at hpublished
    | deleting j =>
      rw [hlast] at hsettles
      obtain ⟨hpending, hdel⟩ := hsettles
      exact ⟨hpending, hdel.imp_right fun hdone => ⟨hdone.1, by rw [versions_setVersion_self]; rfl⟩⟩
  · exact h.congr (fun _ _ => ⟨rfl, rfl, rfl⟩) (fun _ _ => rfl)
      (versions_setVersion_of_ne _ _ (Ne.symm hg)) h.results

/-- One step of the service, with what it takes in. -/
theorem step {a : FileAction} (hs : x.step a = some y) :
    Tracks f (((service.input a).map Event.received).elim w (w.next f)) y := by
  cases a with
  | create k g data =>
    simp only [FileService.step] at hs
    split at hs
    · rename_i hidle
      cases hs
      exact h.createCalled hidle
    · cases hs
  | reserve k =>
    simp only [FileService.step] at hs
    split at hs
    · rename_i g data res hop
      cases hs
      exact h.written hop (.inl rfl) (by simp) (by simp)
    · cases hs
  | publish k =>
    simp only [FileService.step] at hs
    split at hs
    · rename_i g data res hop
      split_ifs at hs
      cases hs
      exact h.written hop (.inr rfl) (by simp) (by simp)
    · cases hs
  | finish k ok =>
    simp only [FileService.step] at hs
    split at hs
    · rename_i g data st hop
      split_ifs at hs with hok
      cases hs
      refine h.congr (fun i _ => ?_) (fun _ _ => rfl) rfl
        (h.results_setCreate k ⟨g, data, st, some ok⟩ fun hres => hok.2 (by simpa using hres))
      by_cases hik : i = k
      · subst hik
        rw [creates_setCreate_self, hop]
        exact ⟨rfl, rfl, rfl⟩
      · rw [creates_setCreate_of_ne _ _ hik]
        exact ⟨rfl, rfl, rfl⟩
    · cases hs
  | delete j g =>
    simp only [FileService.step] at hs
    split at hs
    · rename_i hidle
      cases hs
      exact h.deleteCalled hidle
    · cases hs
  | find j =>
    simp only [FileService.step] at hs
    split at hs
    · rename_i g hop
      cases hs
      rw [← setVersion_versions (f := g) (x.setDelete j _)]
      exact h.deleteStepped (.inl hop) (by split_ifs with hv <;> simp [hv])
    · cases hs
  | remove j =>
    simp only [FileService.step] at hs
    split at hs
    · rename_i g hop
      cases hs
      exact h.deleteStepped (.inr hop) (.inr ⟨⟨true, rfl⟩, rfl⟩)
    · cases hs
  | look j g | see j =>
    all_goals
      simp only [FileService.step] at hs
      split at hs
      · cases hs
        exact h.congr (fun _ _ => ⟨rfl, rfl, rfl⟩) (fun _ _ => rfl) rfl h.results
      · cases hs
  | expire g =>
    simp only [FileService.step] at hs
    split at hs
    · rename_i data hv
      cases hs
      exact h.expired hv
    · cases hs

theorem answer {key : FileKey} {r : FileAnswer} (hr : service.answer x key = some r) :
    Tracks f (w.next f (.answered key r)) x := by
  cases key with
  | create k =>
    simp only [service, Option.map_eq_some_iff] at hr
    obtain ⟨ok, hok, rfl⟩ := hr
    exact h.createAnswered hok
  | delete j =>
    simp only [service] at hr
    split at hr
    · rename_i b hop
      exact h.deleteAnswered hop
    · cases hr
  | look j => exact h

end Tracks

theorem tracks_init : Tracks f ⟨[], .settled none⟩ init where
  creates k hk := by simp [CreateActive, init] at hk
  deletes j hj := by simp [DeleteActive, init] at hj
  settles := ⟨rfl, rfl⟩
  results k hk := by simp [init] at hk

variable {p p' : Observed FileService FileInput FileKey FileAnswer}

theorem tracks_of_observe {b : ObservedAction FileAction FileKey}
    (h : Tracks f (writers f p.history) p.server) (hs : service.observe p b = some p') :
    Tracks f (writers f p'.history) p'.server := by
  cases b with
  | step a =>
    simp only [Server.observe, Option.map_eq_some_iff] at hs
    obtain ⟨y, hy, rfl⟩ := hs
    have hstep := h.step hy
    cases hi : service.input a with
    | none => simpa [hi] using hstep
    | some i => simpa [hi, writers_concat] using hstep
  | answer key =>
    simp only [Server.observe] at hs
    split_ifs at hs
    simp only [Option.map_eq_some_iff] at hs
    obtain ⟨r, hr, rfl⟩ := hs
    rw [writers_concat]
    exact h.answer hr

theorem tracks (h : Steps service.observe anyStep (.start init) p) :
    Tracks f (writers f p.history) p.server :=
  h.invariant (P := fun p => Tracks f (writers f p.history) p.server) tracks_init
    fun _ _ _ _ ht _ hs => tracks_of_observe ht hs

/-- What the history says was written last is what the service has. -/
theorem seen_of_settled {c : Option Bytes} (h : Steps service.observe anyStep (.start init) p)
    (hc : (writers f p.history).last = .settled c) : seen (p.server.versions f) = c := by
  have hsettles := (tracks (f := f) h).settles
  rw [hc] at hsettles
  exact hsettles.2

/-! ### Looks -/

theorem look_cases {a : FileAction} (hs : x.step a = some y) (j : ℕ) : y.looks j = x.looks j ∨
    (∃ g, a = .look j g ∧ x.looks j = .idle ∧ y.looks j = .called g) ∨
    ∃ g, x.looks j = .called g ∧
      y.looks j = .done ((seen (x.versions g)).map fun b => (b.length : ℤ)) := by
  cases a with
  | look i g =>
    simp only [FileService.step] at hs
    split at hs
    · rename_i hidle
      cases hs
      by_cases hij : j = i
      · subst hij
        exact .inr (.inl ⟨g, rfl, hidle, looks_setLook_self ..⟩)
      · exact .inl (looks_setLook_of_ne _ _ hij)
    · cases hs
  | see i =>
    simp only [FileService.step] at hs
    split at hs
    · rename_i g hcalled
      cases hs
      by_cases hij : j = i
      · subst hij
        exact .inr (.inr ⟨g, hcalled, looks_setLook_self ..⟩)
      · exact .inl (looks_setLook_of_ne _ _ hij)
    · cases hs
  | _ =>
    all_goals
      simp only [FileService.step] at hs
      repeat' split at hs
      all_goals first
        | cases hs; done
        | (cases hs; exact .inl rfl)

/-- A look that is under way or has found the content. -/
def Finds (f : Filename) (c : Option Bytes) (x : FileService) (j : ℕ) : Prop :=
  x.looks j = .called f ∨ x.looks j = .done (c.map fun b => (b.length : ℤ))

theorem Finds.step {c : Option Bytes} {a : FileAction} (h : Finds f c x j) (hs : x.step a = some y)
    (hseen : seen (x.versions f) = c) : Finds f c y j := by
  rcases look_cases hs j with he | ⟨g, _, hidle, _⟩ | ⟨g, hcalled, hdone⟩
  · rwa [Finds, he]
  · rw [Finds, hidle] at h
    simp at h
  · rw [Finds, hcalled] at h
    simp only [LookOp.called.injEq, reduceCtorEq, or_false] at h
    subst h
    exact .inr (by rw [hdone, hseen])

theorem looks_of_received {b : ObservedAction FileAction FileKey}
    (hs : service.observe p b = some p') (hh : p'.history = p.history ++ [.received (.look j f)]) :
    p'.server.looks j = .called f := by
  cases b with
  | step a =>
    simp only [Server.observe, Option.map_eq_some_iff] at hs
    obtain ⟨y, hy, rfl⟩ := hs
    have hinput := List.append_cancel_left hh
    cases a with
    | look i g =>
      simp only [service, Option.map_some, Option.toList_some, List.cons.injEq, Event.received.injEq,
        FileInput.look.injEq, and_true] at hinput
      obtain ⟨rfl, rfl⟩ := hinput
      simp only [service, FileService.step] at hy
      split at hy
      · cases hy
        exact looks_setLook_self ..
      · cases hy
    | _ => all_goals simp [service] at hinput
  | answer key =>
    simp only [Server.observe] at hs
    split_ifs at hs
    simp only [Option.map_eq_some_iff] at hs
    obtain ⟨r, _, rfl⟩ := hs
    simp at hh

/-- What is found while the content is known. -/
theorem looks_of_settled (h : Steps service.observe anyStep (.start init) p) {c : Option Bytes}
    {H H' : List (Event FileInput FileKey FileAnswer)} {r : FileAnswer}
    (hh : p.history = H ++ .received (.look j f) :: H') (hc : (writers f H).last = .settled c)
    (hno : ∀ e ∈ H', ¬ Writes f e) (hr : .answered (.look j) r ∈ H') :
    r = .size (c.map fun b => (b.length : ℤ)) := by
  obtain ⟨p₁, b, p₂, h₁, rfl, hs, hh₂, h₂⟩ := exists_split h hh
  have hcalled := looks_of_received hs hh₂
  have hrun : ∃ H'', p.history = p₁.history ++ .received (.look j f) :: H'' ∧
      ((∀ e ∈ H'', ¬ Writes f e) → Finds f c p.server j ∧
        ∀ r, .answered (.look j) r ∈ H'' → r = .size (c.map fun b => (b.length : ℤ))) := by
    refine h₂.invariant (P := fun t => ∃ H'', t.history = p₁.history ++ .received (.look j f) :: H'' ∧
      ((∀ e ∈ H'', ¬ Writes f e) → Finds f c t.server j ∧
        ∀ r, .answered (.look j) r ∈ H'' → r = .size (c.map fun b => (b.length : ℤ))))
      ⟨[], hh₂, fun _ => ⟨.inl hcalled, by simp⟩⟩ ?_
    rintro t b u hrun ⟨H'', ht, hfinds⟩ _ hstep
    cases b with
    | step a =>
      simp only [Server.observe, Option.map_eq_some_iff] at hstep
      obtain ⟨y, hy, rfl⟩ := hstep
      refine ⟨_, by rw [ht, List.append_assoc, List.cons_append], fun hquiet => ?_⟩
      have hquiet' : ∀ e ∈ H'', ¬ Writes f e := fun e he => hquiet e (List.mem_append_left _ he)
      obtain ⟨hfound, hanswers⟩ := hfinds hquiet'
      have hsettled : (writers f t.history).last = .settled c := by
        rw [ht]
        exact settled_append hc (List.forall_mem_cons.mpr ⟨id, hquiet'⟩)
      have hseen := seen_of_settled ((h₁.tail trivial hs).trans hrun) hsettled
      refine ⟨hfound.step hy hseen, fun r hr => ?_⟩
      rcases List.mem_append.mp hr with hr | hr
      · exact hanswers r hr
      · cases hi : service.input a <;> simp [hi] at hr
    | answer key =>
      simp only [Server.observe] at hstep
      split_ifs at hstep
      simp only [Option.map_eq_some_iff] at hstep
      obtain ⟨r', hr', rfl⟩ := hstep
      refine ⟨_, by rw [ht, List.append_assoc, List.cons_append], fun hquiet => ?_⟩
      obtain ⟨hfound, hanswers⟩ := hfinds fun e he => hquiet e (List.mem_append_left _ he)
      refine ⟨hfound, fun r hr => ?_⟩
      rcases List.mem_append.mp hr with hr | hr
      · exact hanswers r hr
      · rw [List.mem_singleton, Event.answered.injEq] at hr
        obtain ⟨rfl, rfl⟩ := hr
        simp only [service] at hr'
        rcases hfound with hcalled | hdone
        · rw [hcalled] at hr'
          cases hr'
        · rw [hdone] at hr'
          exact (Option.some.inj hr').symm
  obtain ⟨H'', hh', hfinds⟩ := hrun
  rw [hh, List.append_cancel_left_eq, List.cons.injEq] at hh'
  obtain rfl := hh'.2
  exact (hfinds hno).2 r hr

end FileService

end GfsCluster
