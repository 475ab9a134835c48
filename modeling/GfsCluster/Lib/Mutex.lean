import Mathlib.Logic.Function.Basic
import GfsCluster.Lib.StepSystem

/-! Operations under one lock. Threads call operations that work on a shared state in small steps
between taking and giving back the lock; other threads read a view of the state at any time without
it. If the steps before the last leave the view alone, nobody can tell the threads from ones whose
operations happen at once: every run has the calls, returns and reads of a run of the atomic
system. -/

namespace Mutex

open StepSystem

variable {σ ν ο κ ρ : Type*}

/-- Operations in small steps: where one begins, and what its next step does, which leaves it at
another place or ends it with a result. -/
structure Body (σ ο κ ρ : Type*) where
  enter : ο → κ
  move : κ → σ → (κ ⊕ ρ) × σ

/-- From a place to the end without interruption. -/
inductive Body.Runs (B : Body σ ο κ ρ) : κ → σ → ρ → σ → Prop
  | last {k : κ} {x y : σ} {r : ρ} (h : B.move k x = (.inr r, y)) : B.Runs k x r y
  | next {k k' : κ} {x y z : σ} {r : ρ} (h : B.move k x = (.inl k', y)) (hr : B.Runs k' y r z) :
    B.Runs k x r z

/-- What the callers see. -/
inductive Event (ν ο ρ : Type*)
  | called (t : ℕ) (o : ο)
  | saw (t : ℕ) (v : ν)
  | returned (t : ℕ) (r : ρ)
  deriving DecidableEq

/-! ### With the lock -/

/-- A thread holds the lock while it is `inside` or `leaving`. -/
inductive Phase (ο κ ρ : Type*)
  | idle
  | waiting (o : ο)
  | inside (o : ο) (k : κ)
  | leaving (r : ρ)
  | finished (r : ρ)

structure Locked (σ ν ο κ ρ : Type*) where
  shared : σ
  lock : Option ℕ
  threads : ℕ → Phase ο κ ρ
  trace : List (Event ν ο ρ)

inductive LockAction (ο : Type*)
  | call (t : ℕ) (o : ο)
  | acquire (t : ℕ)
  | move (t : ℕ)
  | release (t : ℕ)
  | ret (t : ℕ)
  | read (t : ℕ)

namespace Locked

def init (x : σ) : Locked σ ν ο κ ρ := ⟨x, none, fun _ => .idle, []⟩

def setPhase (s : Locked σ ν ο κ ρ) (t : ℕ) (phase : Phase ο κ ρ) : Locked σ ν ο κ ρ :=
  { s with threads := Function.update s.threads t phase }

variable (B : Body σ ο κ ρ) (view : σ → ν)

def step (s : Locked σ ν ο κ ρ) : LockAction ο → Option (Locked σ ν ο κ ρ)
  | .call t o =>
    match s.threads t with
    | .idle => some { s.setPhase t (.waiting o) with trace := s.trace ++ [.called t o] }
    | _ => none
  | .acquire t =>
    match s.threads t, s.lock with
    | .waiting o, none => some { s.setPhase t (.inside o (B.enter o)) with lock := some t }
    | _, _ => none
  | .move t =>
    match s.threads t with
    | .inside o k =>
      match B.move k s.shared with
      | (.inl k', x) => some { s.setPhase t (.inside o k') with shared := x }
      | (.inr r, x) => some { s.setPhase t (.leaving r) with shared := x }
    | _ => none
  | .release t =>
    match s.threads t with
    | .leaving r => some { s.setPhase t (.finished r) with lock := none }
    | _ => none
  | .ret t =>
    match s.threads t with
    | .finished r => some { s.setPhase t .idle with trace := s.trace ++ [.returned t r] }
    | _ => none
  | .read t => some { s with trace := s.trace ++ [.saw t (view s.shared)] }

end Locked

/-! ### At once -/

inductive AtomicPhase (ο ρ : Type*)
  | idle
  | called (o : ο)
  | done (r : ρ)

structure Atomic (σ ν ο ρ : Type*) where
  shared : σ
  threads : ℕ → AtomicPhase ο ρ
  trace : List (Event ν ο ρ)

inductive AtomicAction (ο : Type*)
  | call (t : ℕ) (o : ο)
  | exec (t : ℕ)
  | ret (t : ℕ)
  | read (t : ℕ)

namespace Atomic

def init (x : σ) : Atomic σ ν ο ρ := ⟨x, fun _ => .idle, []⟩

def setPhase (a : Atomic σ ν ο ρ) (t : ℕ) (phase : AtomicPhase ο ρ) : Atomic σ ν ο ρ :=
  { a with threads := Function.update a.threads t phase }

variable (whole : ο → σ → ρ × σ) (view : σ → ν)

def step (a : Atomic σ ν ο ρ) : AtomicAction ο → Option (Atomic σ ν ο ρ)
  | .call t o =>
    match a.threads t with
    | .idle => some { a.setPhase t (.called o) with trace := a.trace ++ [.called t o] }
    | _ => none
  | .exec t =>
    match a.threads t with
    | .called o => some { a.setPhase t (.done (whole o a.shared).1) with shared := (whole o a.shared).2 }
    | _ => none
  | .ret t =>
    match a.threads t with
    | .done r => some { a.setPhase t .idle with trace := a.trace ++ [.returned t r] }
    | _ => none
  | .read t => some { a with trace := a.trace ++ [.saw t (view a.shared)] }

end Atomic

/-! ### The same runs -/

/-- An operation has happened once its last step is taken. -/
def Phase.atomic : Phase ο κ ρ → AtomicPhase ο ρ
  | .idle => .idle
  | .waiting o | .inside o _ => .called o
  | .leaving r | .finished r => .done r

/-- The thread holds the lock. -/
def Phase.Holds : Phase ο κ ρ → Prop
  | .inside _ _ | .leaving _ => True
  | _ => False

/-- The state of the holder's operation, against the shared state before it. -/
def Underway (B : Body σ ο κ ρ) (view : σ → ν) (x y : σ) : Phase ο κ ρ → Prop
  | .inside o k => view y = view x ∧ ∀ r z, B.Runs k y r z → B.Runs (B.enter o) x r z
  | .leaving _ => y = x
  | _ => False

structure Follows (B : Body σ ο κ ρ) (view : σ → ν) (s : Locked σ ν ο κ ρ) (a : Atomic σ ν ο ρ) :
    Prop where
  trace : a.trace = s.trace
  threads : ∀ t, a.threads t = (s.threads t).atomic
  free : s.lock = none → s.shared = a.shared
  held : ∀ t, s.lock = some t → Underway B view a.shared s.shared (s.threads t)
  holder : ∀ t, (s.threads t).Holds → s.lock = some t

namespace Follows

variable {B : Body σ ο κ ρ} {view : σ → ν} {whole : ο → σ → ρ × σ} {s s' : Locked σ ν ο κ ρ}
  {a : Atomic σ ν ο ρ} {t : ℕ} {o : ο} {k : κ} {r : ρ}

theorem init (x : σ) : Follows B view (Locked.init x : Locked σ ν ο κ ρ) (Atomic.init x) where
  trace := rfl
  threads _ := rfl
  free _ := rfl
  held _ h := by cases h
  holder _ h := h.elim

/-- A reader sees what it would see if the operation of the holder had not begun. -/
theorem view_eq (h : Follows B view s a) : view s.shared = view a.shared := by
  cases hlock : s.lock with
  | none => rw [h.free hlock]
  | some t =>
    have hheld := h.held t hlock
    cases hphase : s.threads t with
    | inside o k =>
      rw [hphase] at hheld
      exact hheld.1
    | leaving r =>
      rw [hphase] at hheld
      exact congrArg view hheld
    | _ =>
      rw [hphase] at hheld
      exact hheld.elim

theorem threads_update (h : Follows B view s a) {p : Phase ο κ ρ} {q : AtomicPhase ο ρ}
    (hpq : p.atomic = q) (u : ℕ) :
    Function.update a.threads t q u = (Function.update s.threads t p u).atomic := by
  by_cases hu : u = t
  · subst hu
    rw [Function.update_self, Function.update_self, hpq]
  · rw [Function.update_of_ne hu, Function.update_of_ne hu, h.threads]

/-- A step of a thread that neither holds the lock before nor after it. -/
theorem outside (h : Follows B view s a) {p : Phase ο κ ρ} {e : List (Event ν ο ρ)}
    (hbefore : ¬ (s.threads t).Holds) (hafter : ¬ p.Holds) :
    Follows B view { s.setPhase t p with trace := s.trace ++ e }
      { a.setPhase t p.atomic with trace := a.trace ++ e } where
  trace := by rw [h.trace]
  threads := h.threads_update rfl
  free := h.free
  held u hu := by
    have hheld := h.held u hu
    have hne : u ≠ t := by
      rintro rfl
      cases hphase : s.threads u <;> simp_all [Underway, Phase.Holds]
    show Underway B view a.shared s.shared (Function.update s.threads t p u)
    rwa [Function.update_of_ne hne]
  holder u hu := by
    have hne : u ≠ t := by
      rintro rfl
      exact hafter (by simpa [Locked.setPhase] using hu)
    refine h.holder u ?_
    simpa [Locked.setPhase, Function.update_of_ne hne] using hu

/-- A step of the thread that has the lock after it, when no other had it before. -/
theorem within (h : Follows B view s a) {p : Phase ο κ ρ} {q : AtomicPhase ο ρ} {x y : σ}
    (hfree : s.lock = none ∨ s.lock = some t) (hpq : p.atomic = q) (hp : Underway B view x y p) :
    Follows B view { s.setPhase t p with shared := y, lock := some t }
      { a.setPhase t q with shared := x } where
  trace := h.trace
  threads := h.threads_update hpq
  free hlock := by cases hlock
  held u hu := by
    cases hu
    show Underway B view x y (Function.update s.threads t p t)
    rwa [Function.update_self]
  holder u hu := by
    by_cases hne : u = t
    · rw [hne]
    · have hold := h.holder u (by simpa [Locked.setPhase, Function.update_of_ne hne] using hu)
      rcases hfree with hfree | hfree
      · rw [hfree] at hold
        cases hold
      · exact absurd (Option.some.inj (hold.symm.trans hfree)) hne

theorem setPhase_eq (h : Follows B view s a) {q : AtomicPhase ο ρ} (hq : (s.threads t).atomic = q) :
    { a.setPhase t q with shared := a.shared } = a := by
  have hupdate : Function.update a.threads t q = a.threads := by
    rw [← hq, ← h.threads, Function.update_eq_self]
  simp only [Atomic.setPhase, hupdate]

/-- The holder goes on. -/
theorem of_move (h : Follows B view s a)
    (hsilent : ∀ k x k' y, B.move k x = (.inl k', y) → view y = view x)
    (hwhole : ∀ o x r y, B.Runs (B.enter o) x r y → whole o x = (r, y))
    (hphase : s.threads t = .inside o k) (hs : s.step B view (.move t) = some s') :
    ∃ b, Steps (Atomic.step whole view) anyStep a b ∧ Follows B view s' b := by
  have hlock := h.holder t (by rw [hphase]; trivial)
  have hheld := h.held t hlock
  rw [hphase] at hheld
  obtain ⟨hview, hruns⟩ := hheld
  simp only [Locked.step, hphase] at hs
  split at hs
  · rename_i k' y hmove
    cases hs
    refine ⟨a, .refl, ?_⟩
    have hgo : Underway B view a.shared y (.inside o k') :=
      ⟨(hsilent _ _ _ _ hmove).trans hview, fun r z hr => hruns r z (.next hmove hr)⟩
    have hnext := h.within (.inr hlock) rfl hgo
    rw [h.setPhase_eq (by rw [hphase]; rfl)] at hnext
    rwa [← hlock] at hnext
  · rename_i r y hmove
    cases hs
    have hresult := hwhole o a.shared r y (hruns r y (.last hmove))
    have hexec : a.step whole view (.exec t) =
        some { a.setPhase t (.done r) with shared := y } := by
      have hcalled : a.threads t = .called o := by rw [h.threads, hphase]; rfl
      simp only [Atomic.step, hcalled, hresult]
    refine ⟨_, .single trivial hexec, ?_⟩
    have hnext : Follows B view _ _ := h.within (p := .leaving r) (x := y) (y := y) (.inr hlock) rfl rfl
    rwa [← hlock] at hnext

/-- The atomic system follows every step. -/
theorem of_step (h : Follows B view s a)
    (hsilent : ∀ k x k' y, B.move k x = (.inl k', y) → view y = view x)
    (hwhole : ∀ o x r y, B.Runs (B.enter o) x r y → whole o x = (r, y)) {b : LockAction ο}
    (hs : s.step B view b = some s') :
    ∃ a', Steps (Atomic.step whole view) anyStep a a' ∧ Follows B view s' a' := by
  cases b with
  | call t o =>
    simp only [Locked.step] at hs
    split at hs
    · rename_i hphase
      cases hs
      have hidle : a.threads t = .idle := by rw [h.threads, hphase]; rfl
      have hcall : a.step whole view (.call t o) =
          some { a.setPhase t (.called o) with trace := a.trace ++ [.called t o] } := by
        simp only [Atomic.step, hidle]
      exact ⟨_, .single trivial hcall, h.outside (by rw [hphase]; exact id) id⟩
    · cases hs
  | acquire t =>
    simp only [Locked.step] at hs
    split at hs
    · rename_i o hphase hlock
      cases hs
      refine ⟨a, .refl, ?_⟩
      have hgo : Underway B view a.shared s.shared (.inside o (B.enter o)) := by
        rw [h.free hlock]
        exact ⟨rfl, fun _ _ hr => hr⟩
      have hnext := h.within (t := t) (.inl hlock) rfl hgo
      rwa [h.setPhase_eq (by rw [hphase]; rfl)] at hnext
    · cases hs
  | move t =>
    cases hphase : s.threads t with
    | inside o k => exact h.of_move hsilent hwhole hphase hs
    | _ => simp [Locked.step, hphase] at hs
  | release t =>
    simp only [Locked.step] at hs
    split at hs
    · rename_i r hphase
      cases hs
      have hlock := h.holder t (by rw [hphase]; trivial)
      have hheld := h.held t hlock
      rw [hphase] at hheld
      have hdone : AtomicPhase.done r = a.threads t := by rw [h.threads, hphase]; rfl
      refine ⟨a, .refl, h.trace, fun u => ?_, fun _ => hheld, fun u hu => (by cases hu), fun u hu => ?_⟩
      · have hsame := h.threads_update (t := t) (p := .finished r) rfl u
        rwa [Phase.atomic, hdone, Function.update_eq_self] at hsame
      · by_cases hne : u = t
        · subst hne
          simp [Locked.setPhase, Phase.Holds] at hu
        · have hold := h.holder u (by simpa [Locked.setPhase, Function.update_of_ne hne] using hu)
          exact absurd (Option.some.inj (hold.symm.trans hlock)) hne
    · cases hs
  | ret t =>
    simp only [Locked.step] at hs
    split at hs
    · rename_i r hphase
      cases hs
      have hdone : a.threads t = .done r := by rw [h.threads, hphase]; rfl
      have hret : a.step whole view (.ret t) =
          some { a.setPhase t .idle with trace := a.trace ++ [.returned t r] } := by
        simp only [Atomic.step, hdone]
      exact ⟨_, .single trivial hret, h.outside (by rw [hphase]; exact id) id⟩
    · cases hs
  | read t =>
    cases hs
    refine ⟨_, .single (a := .read t) trivial rfl, ?_, h.threads, h.free, h.held, h.holder⟩
    rw [h.trace, h.view_eq]

end Follows

/-- A run with the lock has the calls, returns and reads of a run in which operations happen at
once. -/
theorem refines (B : Body σ ο κ ρ) (view : σ → ν) (whole : ο → σ → ρ × σ)
    (hsilent : ∀ k x k' y, B.move k x = (.inl k', y) → view y = view x)
    (hwhole : ∀ o x r y, B.Runs (B.enter o) x r y → whole o x = (r, y)) {x : σ}
    {s : Locked σ ν ο κ ρ} (h : Steps (Locked.step B view) anyStep (Locked.init x) s) :
    ∃ a, Steps (Atomic.step whole view) anyStep (Atomic.init x) a ∧ Follows B view s a :=
  h.simulate (Follows.init x) fun _ _ _ _ hf _ hs => hf.of_step hsilent hwhole hs

end Mutex
