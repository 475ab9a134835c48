import GfsCluster.Client.Fetch
import GfsCluster.Lib.Service

/-! A file service in one piece. It has one version of each file at most. A `create` replaces the
version by its own, which nobody sees before it is published, a delete removes the version, and a
look finds what is published. Versions that are not published may also be gone by themselves. -/

namespace GfsCluster

open Service

structure FileVersion where
  data : Bytes
  published : Bool
  deriving DecidableEq

inductive CreateStage
  | idle
  | called
  | reserved
  | published
  deriving DecidableEq

/-- A `create`. A client that has given up is answered, and its call may still go on. -/
structure CreateOp where
  filename : Filename
  data : Bytes
  stage : CreateStage
  result : Option Bool

/-- A delete. It reports whether there was a version when it looked. -/
inductive DeleteOp
  | idle
  | called (f : Filename)
  | found (f : Filename)
  | done (found : Bool)

/-- A request for the size. -/
inductive LookOp
  | idle
  | called (f : Filename)
  | done (size : Option ℤ)

structure FileService where
  versions : Filename → Option FileVersion
  creates : ℕ → CreateOp
  deletes : ℕ → DeleteOp
  looks : ℕ → LookOp

inductive FileAction
  | create (k : ℕ) (f : Filename) (data : Bytes)
  | reserve (k : ℕ)
  | publish (k : ℕ)
  | finish (k : ℕ) (ok : Bool)
  | delete (j : ℕ) (f : Filename)
  | find (j : ℕ)
  | remove (j : ℕ)
  | look (j : ℕ) (f : Filename)
  | see (j : ℕ)
  | expire (f : Filename)

/-- What reaches the service from outside. -/
inductive FileInput
  | create (k : ℕ) (f : Filename) (data : Bytes)
  | delete (j : ℕ) (f : Filename)
  | look (j : ℕ) (f : Filename)
  deriving DecidableEq

inductive FileKey
  | create (k : ℕ)
  | delete (j : ℕ)
  | look (j : ℕ)
  deriving DecidableEq

inductive FileAnswer
  | created (ok : Bool)
  | deleted (found : Bool)
  | size (size : Option ℤ)
  deriving DecidableEq

/-- What a reader sees of a version. -/
def seen (v : Option FileVersion) : Option Bytes :=
  v.bind fun v => if v.published then some v.data else none

/-- What a read of the content should return. -/
def answerOf : Option Bytes → Except ClientError Bytes
  | none => .error (.gfsError "file not found")
  | some data => .ok data

namespace FileService

variable (x : FileService)

def init : FileService where
  versions _ := none
  creates _ := ⟨[], [], .idle, none⟩
  deletes _ := .idle
  looks _ := .idle

def setVersion (f : Filename) (v : Option FileVersion) : FileService :=
  { x with versions := Function.update x.versions f v }

def setCreate (k : ℕ) (op : CreateOp) : FileService :=
  { x with creates := Function.update x.creates k op }

def setDelete (j : ℕ) (op : DeleteOp) : FileService :=
  { x with deletes := Function.update x.deletes j op }

def setLook (j : ℕ) (op : LookOp) : FileService :=
  { x with looks := Function.update x.looks j op }

def step : FileAction → Option FileService
  | .create k f data =>
    match (x.creates k).stage with
    | .idle => some (x.setCreate k ⟨f, data, .called, none⟩)
    | _ => none
  | .reserve k =>
    match x.creates k with
    | ⟨f, data, .called, result⟩ =>
      some ((x.setCreate k ⟨f, data, .reserved, result⟩).setVersion f (some ⟨data, false⟩))
    | _ => none
  | .publish k =>
    match x.creates k with
    | ⟨f, data, .reserved, result⟩ =>
      if (x.versions f).map FileVersion.data = some data then
        some ((x.setCreate k ⟨f, data, .published, result⟩).setVersion f (some ⟨data, true⟩))
      else none
    | _ => none
  | .finish k ok =>
    match x.creates k with
    | ⟨f, data, stage, none⟩ =>
      if stage ≠ .idle ∧ (ok = true → stage = .published) then
        some (x.setCreate k ⟨f, data, stage, some ok⟩)
      else none
    | _ => none
  | .delete j f =>
    match x.deletes j with
    | .idle => some (x.setDelete j (.called f))
    | _ => none
  | .find j =>
    match x.deletes j with
    | .called f => some (x.setDelete j (if x.versions f = none then .done false else .found f))
    | _ => none
  | .remove j =>
    match x.deletes j with
    | .found f => some ((x.setDelete j (.done true)).setVersion f none)
    | _ => none
  | .look j f =>
    match x.looks j with
    | .idle => some (x.setLook j (.called f))
    | _ => none
  | .see j =>
    match x.looks j with
    | .called f => some (x.setLook j (.done ((seen (x.versions f)).map fun b => (b.length : ℤ))))
    | _ => none
  | .expire f =>
    match x.versions f with
    | some ⟨_, false⟩ => some (x.setVersion f none)
    | _ => none

def service : Server FileService FileAction FileInput FileKey FileAnswer where
  step := step
  input
    | .create k f data => some (.create k f data)
    | .delete j f => some (.delete j f)
    | .look j f => some (.look j f)
    | _ => none
  answer x
    | .create k => (x.creates k).result.map .created
    | .delete j =>
      match x.deletes j with
      | .done found => some (.deleted found)
      | _ => none
    | .look j =>
      match x.looks j with
      | .done size => some (.size size)
      | _ => none

variable {x} {k : ℕ}

theorem step_finish {ok : Bool} (hnone : (x.creates k).result = none)
    (hidle : (x.creates k).stage ≠ .idle) (hok : ok = true → (x.creates k).stage = .published) :
    x.step (.finish k ok) = some (x.setCreate k { x.creates k with result := some ok }) := by
  cases hop : x.creates k with
  | mk f data stage result =>
    rw [hop] at hnone hidle hok
    subst hnone
    simp only [step, hop]
    rw [if_pos ⟨hidle, hok⟩]

/-! ### One entry at a time -/

section Entries

variable (x) {i j : ℕ} {f g : Filename} (op : CreateOp) (d : DeleteOp) (l : LookOp)
  (v : Option FileVersion)

@[simp] theorem creates_setCreate_self : (x.setCreate k op).creates k = op := Function.update_self ..

theorem creates_setCreate_of_ne (h : i ≠ k) : (x.setCreate k op).creates i = x.creates i :=
  Function.update_of_ne h ..

@[simp] theorem deletes_setDelete_self : (x.setDelete j d).deletes j = d := Function.update_self ..

theorem deletes_setDelete_of_ne (h : i ≠ j) : (x.setDelete j d).deletes i = x.deletes i :=
  Function.update_of_ne h ..

@[simp] theorem looks_setLook_self : (x.setLook j l).looks j = l := Function.update_self ..

theorem looks_setLook_of_ne (h : i ≠ j) : (x.setLook j l).looks i = x.looks i :=
  Function.update_of_ne h ..

@[simp] theorem versions_setVersion_self : (x.setVersion f v).versions f = v :=
  Function.update_self ..

theorem versions_setVersion_of_ne (h : f ≠ g) : (x.setVersion g v).versions f = x.versions f :=
  Function.update_of_ne h ..

@[simp] theorem creates_setVersion : (x.setVersion f v).creates = x.creates := rfl

@[simp] theorem deletes_setVersion : (x.setVersion f v).deletes = x.deletes := rfl

@[simp] theorem versions_setDelete : (x.setDelete j d).versions = x.versions := rfl

@[simp] theorem setVersion_versions : x.setVersion f (x.versions f) = x := by
  simp [setVersion]

end Entries

@[simp] theorem setDelete_self (x : FileService) (j : ℕ) : x.setDelete j (x.deletes j) = x := by
  simp [setDelete]

@[simp] theorem setLook_self (x : FileService) (j : ℕ) : x.setLook j (x.looks j) = x := by
  simp [setLook]

end FileService

end GfsCluster
