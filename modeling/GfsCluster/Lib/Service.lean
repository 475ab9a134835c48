import GfsCluster.Lib.StepSystem

/-! Servers as the outside sees them. Some steps of a server take something in, and the answer to
a request goes out at any time after the server has it; the history lists both in the order in
which they happen. A server whose steps can each be followed by at most one step of another one has
no history that the other one does not have. -/

namespace Service

open StepSystem

variable {σ τ α β ι κ ο : Type*} [DecidableEq κ]

/-- Requests have keys of type `κ`. -/
structure Server (σ α ι κ ο : Type*) where
  step : σ → α → Option σ
  /-- What a step takes in. -/
  input : α → Option ι
  /-- What a request is answered, where that is known. -/
  answer : σ → κ → Option ο

inductive Event (ι κ ο : Type*)
  | received (i : ι)
  | answered (k : κ) (r : ο)
  deriving DecidableEq

/-- A server with what was seen of it so far. -/
structure Observed (σ ι κ ο : Type*) where
  server : σ
  answered : List κ
  history : List (Event ι κ ο)

inductive ObservedAction (α κ : Type*)
  | step (a : α)
  | answer (k : κ)

def Observed.start (s : σ) : Observed σ ι κ ο := ⟨s, [], []⟩

namespace Server

variable (S : Server σ α ι κ ο)

/-- Every request is answered once. -/
def observe (s : Observed σ ι κ ο) : ObservedAction α κ → Option (Observed σ ι κ ο)
  | .step a => (S.step s.server a).map fun t =>
    { s with server := t, history := s.history ++ ((S.input a).map .received).toList }
  | .answer k =>
    if k ∈ s.answered then none
    else (S.answer s.server k).map fun r =>
      { s with answered := k :: s.answered, history := s.history ++ [.answered k r] }

end Server

/-- The steps of the server meet a condition. -/
def Serving (ok : σ → α → Prop) (s : Observed σ ι κ ο) : ObservedAction α κ → Prop
  | .step a => ok s.server a
  | .answer _ => True

omit [DecidableEq κ] in
theorem Serving.mono {ok ok' : σ → α → Prop} {s : Observed σ ι κ ο} {a : ObservedAction α κ}
    (h : Serving ok s a) (himp : ∀ s a, ok s a → ok' s a) : Serving ok' s a := by
  cases a with
  | step a => exact himp _ _ h
  | answer k => trivial

instance (ok : σ → α → Prop) [∀ s a, Decidable (ok s a)] (s : Observed σ ι κ ο)
    (a : ObservedAction α κ) : Decidable (Serving ok s a) :=
  match a with
  | .step b => inferInstanceAs (Decidable (ok s.server b))
  | .answer _ => .isTrue trivial

/-- The second server follows the first: it has an answer when the first has it, and it takes no
step or one for each of the first, which takes in the same. -/
structure Follows (C : Server σ α ι κ ο) (ok : σ → α → Prop) (A : Server τ β ι κ ο)
    (R : σ → τ → Prop) : Prop where
  answer : ∀ s x k r, R s x → C.answer s k = some r → A.answer x k = some r
  step : ∀ s x a t, R s x → ok s a → C.step s a = some t →
    (C.input a = none ∧ R t x) ∨ ∃ b y, A.step x b = some y ∧ A.input b = C.input a ∧ R t y

variable {C : Server σ α ι κ ο} {ok : σ → α → Prop} {A : Server τ β ι κ ο} {R : σ → τ → Prop}

theorem steps_server {o o' : Observed σ ι κ ο} (h : Steps C.observe (Serving ok) o o') :
    Steps C.step ok o.server o'.server := by
  refine h.project Observed.server fun t a u hok hstep => ?_
  cases a with
  | step a =>
    simp only [Server.observe, Option.map_eq_some_iff] at hstep
    obtain ⟨s, hs, rfl⟩ := hstep
    exact .single hok hs
  | answer k =>
    simp only [Server.observe] at hstep
    split_ifs at hstep
    simp only [Option.map_eq_some_iff] at hstep
    obtain ⟨r, _, rfl⟩ := hstep
    exact .refl

/-- A step adds one event to the history, or none. -/
theorem history_of_observe {S : Server σ α ι κ ο} {o o' : Observed σ ι κ ο} {b : ObservedAction α κ}
    (h : S.observe o b = some o') : o'.history = o.history ∨ ∃ e, o'.history = o.history ++ [e] := by
  cases b with
  | step a =>
    simp only [Server.observe, Option.map_eq_some_iff] at h
    obtain ⟨t, _, rfl⟩ := h
    cases hi : S.input a with
    | none => simp
    | some i => simp
  | answer k =>
    simp only [Server.observe] at h
    split_ifs at h
    simp only [Option.map_eq_some_iff] at h
    obtain ⟨r, _, rfl⟩ := h
    exact .inr ⟨_, rfl⟩

/-- Every event of a history has its step in the run. -/
theorem exists_split {S : Server σ α ι κ ο} {okO : Observed σ ι κ ο → ObservedAction α κ → Prop}
    {s : σ} {o : Observed σ ι κ ο} (h : Steps S.observe okO (.start s) o) {H H' : List (Event ι κ ο)}
    {e : Event ι κ ο} (hh : o.history = H ++ e :: H') : ∃ o₁ b o₂, Steps S.observe okO (.start s) o₁ ∧
      o₁.history = H ∧ S.observe o₁ b = some o₂ ∧ o₂.history = H ++ [e] ∧ Steps S.observe okO o₂ o := by
  induction h generalizing H' with
  | refl =>
    rw [Observed.start] at hh
    simp at hh
  | @tail t u b hrun hok hs ih =>
    rcases history_of_observe hs with he | ⟨e', he⟩
    · obtain ⟨o₁, b', o₂, h₁, hh₁, hs', hh₂, h₂⟩ := ih (he.symm.trans hh)
      exact ⟨o₁, b', o₂, h₁, hh₁, hs', hh₂, h₂.tail hok hs⟩
    · rw [he] at hh
      rcases List.eq_nil_or_concat H' with rfl | ⟨H'', e'', rfl⟩
      · obtain ⟨hh', he'⟩ := List.append_inj' hh rfl
        cases he'
        exact ⟨t, b, u, hrun, hh', hs, by rw [he, hh'], .refl⟩
      · rw [List.concat_eq_append, ← List.cons_append, ← List.append_assoc] at hh
        obtain ⟨hh', _⟩ := List.append_inj' hh rfl
        obtain ⟨o₁, b', o₂, h₁, hh₁, hs', hh₂, h₂⟩ := ih hh'
        exact ⟨o₁, b', o₂, h₁, hh₁, hs', hh₂, h₂.tail hok hs⟩

/-- The second server has been seen to do the same as the first, and follows it. -/
structure Abreast (R : σ → τ → Prop) (o : Observed σ ι κ ο) (p : Observed τ ι κ ο) : Prop where
  server : R o.server p.server
  answered : p.answered = o.answered
  history : p.history = o.history

omit [DecidableEq κ] in
theorem Abreast.start {s : σ} {x : τ} (h : R s x) :
    Abreast R (.start s : Observed σ ι κ ο) (.start x) := ⟨h, rfl, rfl⟩

theorem Follows.observe (hf : Follows C ok A R) {o o' : Observed σ ι κ ο} {p : Observed τ ι κ ο}
    {b : ObservedAction α κ} (h : Abreast R o p) (hok : Serving ok o b) (hs : C.observe o b = some o') :
    ∃ p', Steps A.observe anyStep p p' ∧ Abreast R o' p' := by
  cases b with
  | step a =>
    simp only [Server.observe, Option.map_eq_some_iff] at hs
    obtain ⟨t, ht, rfl⟩ := hs
    rcases hf.step _ _ a t h.server hok ht with ⟨hinput, hr⟩ | ⟨b, y, hy, hinput, hr⟩
    · exact ⟨p, .refl, hr, h.answered, by simp [hinput, h.history]⟩
    · have hp : A.observe p (.step b) = some { p with
          server := y, history := p.history ++ ((A.input b).map Event.received).toList } := by
        simp [Server.observe, hy]
      exact ⟨_, .single (a := .step b) trivial hp, hr, h.answered, by simp only [hinput, h.history]⟩
  | answer k =>
    simp only [Server.observe] at hs
    split_ifs at hs with hk
    simp only [Option.map_eq_some_iff] at hs
    obtain ⟨r, hanswer, rfl⟩ := hs
    have hp : A.observe p (.answer k) = some { p with
        answered := k :: p.answered, history := p.history ++ [.answered k r] } := by
      simp [Server.observe, h.answered, hk, hf.answer _ _ k r h.server hanswer]
    exact ⟨_, .single (a := .answer k) trivial hp, h.server, by simp only [h.answered],
      by simp only [h.history]⟩

/-- From where the two are abreast, every run is followed by one. -/
theorem Follows.steps (hf : Follows C ok A R) {o o' : Observed σ ι κ ο} {p : Observed τ ι κ ο}
    (h : Abreast R o p) (hrun : Steps C.observe (Serving ok) o o') :
    ∃ p', Steps A.observe anyStep p p' ∧ Abreast R o' p' :=
  hrun.simulate h fun _ _ _ _ h hok hs => hf.observe h hok hs

/-- The histories of a server are among those of the one that follows it. -/
theorem Follows.histories (hf : Follows C ok A R) {s : σ} {x : τ} (h₀ : R s x) {o : Observed σ ι κ ο}
    (h : Steps C.observe (Serving ok) (.start s) o) :
    ∃ p, Steps A.observe anyStep (.start x) p ∧
      R o.server p.server ∧ p.answered = o.answered ∧ p.history = o.history := by
  obtain ⟨p, hp, hserver, hanswered, hhistory⟩ := hf.steps (.start h₀) h
  exact ⟨p, hp, hserver, hanswered, hhistory⟩

end Service
