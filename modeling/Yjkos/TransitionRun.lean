import Mathlib.Tactic

/-!
# Runs of a partial transition function

A system is given by its start states, a transition function on labelled
steps which may fail, and a predicate which says which labels a state admits.
A state is reachable when finitely many admitted, successful steps lead to
it.
-/

namespace TransitionRun

variable {σ α ε : Type*}

/-- States reached from a start state by admitted steps which succeed. -/
inductive Reachable (start : σ → Prop) (admits : σ → α → Prop)
    (step : σ → α → Except ε σ) : σ → Prop
  | start {s : σ} (hstart : start s) : Reachable start admits step s
  | next {s s' : σ} {a : α} (hreach : Reachable start admits step s)
      (hadmits : admits s a) (hstep : step s a = .ok s') :
      Reachable start admits step s'

variable {start : σ → Prop} {admits : σ → α → Prop}
  {step : σ → α → Except ε σ}

/-- What holds of the start states and is kept by every step holds of every
reachable state. -/
theorem Reachable.invariant {Inv : σ → Prop}
    (hstart : ∀ s, start s → Inv s)
    (hstep : ∀ s a s', Inv s → admits s a → step s a = .ok s' → Inv s')
    {s : σ} (hreach : Reachable start admits step s) : Inv s := by
  induction hreach with
  | start hs => exact hstart _ hs
  | next _ hadmits hnext ih => exact hstep _ _ _ ih hadmits hnext

/-- Executing a list of labels. -/
def run (step : σ → α → Except ε σ) : σ → List α → Except ε σ
  | s, [] => .ok s
  | s, a :: rest =>
      match step s a with
      | .ok s' => run step s' rest
      | .error e => .error e

/-- Every label of the list is admitted in the state it is executed in. -/
def Admitted (admits : σ → α → Prop) (step : σ → α → Except ε σ) :
    σ → List α → Prop
  | _, [] => True
  | s, a :: rest =>
      admits s a ∧ ∀ s', step s a = .ok s' → Admitted admits step s' rest

theorem Reachable.run {s s' : σ} {labels : List α}
    (hreach : Reachable start admits step s)
    (hadmitted : Admitted admits step s labels)
    (hrun : run step s labels = .ok s') :
    Reachable start admits step s' := by
  induction labels generalizing s with
  | nil =>
      simp only [TransitionRun.run, Except.ok.injEq] at hrun
      exact hrun ▸ hreach
  | cons a rest ih =>
      simp only [TransitionRun.run] at hrun
      cases hstep : step s a with
      | error e =>
          rw [hstep] at hrun
          contradiction
      | ok next =>
          rw [hstep] at hrun
          exact ih (hreach.next hadmitted.1 hstep)
            (hadmitted.2 next hstep) hrun

/-- A condition which keeps an invariant may be replaced by what it implies in
the states of the invariant. -/
theorem Admitted.imp {Inv : σ → Prop} {good right : σ → α → Prop}
    (hright : ∀ s a, Inv s → good s a → right s a)
    (hstep : ∀ s a s', Inv s → good s a → step s a = .ok s' → Inv s')
    {s : σ} (hinv : Inv s) {labels : List α}
    (h : Admitted good step s labels) : Admitted right step s labels := by
  induction labels generalizing s with
  | nil => exact trivial
  | cons a rest ih =>
      obtain ⟨hgood, hrest⟩ := h
      exact ⟨hright s a hinv hgood, fun s' hs' =>
        ih (hstep s a s' hinv hgood hs') (hrest s' hs')⟩

/-- What is asked of each step may be replaced by a condition which says the
same in every state of the invariant, and keeps it. -/
theorem admitted_iff {Inv : σ → Prop} {right good : σ → α → Prop}
    (hright : ∀ s a, Inv s → (right s a ↔ good s a))
    (hstep : ∀ s a s', Inv s → good s a → step s a = .ok s' → Inv s')
    {s : σ} (hinv : Inv s) (labels : List α) :
    Admitted right step s labels ↔ Admitted good step s labels := by
  constructor
  · refine Admitted.imp (fun s a hs h => (hright s a hs).1 h) ?_ hinv
    exact fun s a s' hs h => hstep s a s' hs ((hright s a hs).1 h)
  · exact Admitted.imp (fun s a hs h => (hright s a hs).2 h) hstep hinv

/-- A transition function beside which an observer reads every label, in the
state it is executed in. -/
def watched {μ : Type*} (step : σ → α → Except ε σ) (observe : σ → μ → α → μ) :
    σ × μ → α → Except ε (σ × μ)
  | (s, m), a => (step s a).map (fun s' => (s', observe s m a))

theorem watched_ok {μ : Type*} {observe : σ → μ → α → μ} {s s' : σ}
    {m m' : μ} {a : α} :
    watched step observe (s, m) a = .ok (s', m') ↔
      step s a = .ok s' ∧ m' = observe s m a := by
  show (step s a).map _ = _ ↔ _
  cases step s a with
  | error e => simp [Except.map]
  | ok next => simp [Except.map, eq_comm]

/-- The observer changes nothing. -/
theorem admitted_watched_iff {μ : Type*} (observe : σ → μ → α → μ) {s : σ}
    {m : μ} {labels : List α} :
    Admitted (fun w a => admits w.1 a) (watched step observe) (s, m) labels ↔
      Admitted admits step s labels := by
  induction labels generalizing s m with
  | nil => exact Iff.rfl
  | cons a rest ih =>
      refine and_congr_right' ⟨fun h s' hs' => ?_, fun h w hw => ?_⟩
      · exact ih.1 (h (s', observe s m a) (watched_ok.2 ⟨hs', rfl⟩))
      · exact ih.2 (h w.1 (watched_ok.1 hw).1)

/-- When every admitted step from a good state succeeds and gives a good
state, so does every admitted run. -/
theorem run_ok_of_progress {Inv : σ → Prop}
    (hprogress : ∀ s a, Inv s → admits s a →
      ∃ s', step s a = .ok s' ∧ Inv s')
    {s : σ} {labels : List α} (hinv : Inv s)
    (hadmitted : Admitted admits step s labels) :
    ∃ s', run step s labels = .ok s' ∧ Inv s' := by
  induction labels generalizing s with
  | nil => exact ⟨s, rfl, hinv⟩
  | cons a rest ih =>
      obtain ⟨next, hstep, hnext⟩ := hprogress s a hinv hadmitted.1
      obtain ⟨s', hrun, hinv'⟩ := ih hnext (hadmitted.2 next hstep)
      exact ⟨s', by simp [TransitionRun.run, hstep, hrun], hinv'⟩

end TransitionRun
