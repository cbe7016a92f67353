import Mathlib.Algebra.Order.Ring.Nat
import Mathlib.Data.List.Basic

/-! Runs of a deterministic machine that is driven by actions and emits events. A configuration is a
state together with the events emitted so far, newest first; `allowed` is what the environment
promises about the next action, given the state and the history. -/

namespace Kiznix.RunLog

variable {State Action Event : Type}

/-- The configurations a run can reach when every action is allowed where it is taken. -/
inductive Reachable (init : State) (step : State → Action → Option (State × List Event))
    (allowed : State → List Event → Action → Prop) : State → List Event → Prop where
  | init : Reachable init step allowed init []
  | step {s s' : State} {log events : List Event} {a : Action} :
      Reachable init step allowed s log → allowed s log a → step s a = some (s', events) →
      Reachable init step allowed s' (events ++ log)

variable {init : State} {step : State → Action → Option (State × List Event)}
  {allowed allowed' : State → List Event → Action → Prop} {s s' : State} {log : List Event}

/-- The invariant rule: what holds initially and is kept by every allowed step holds everywhere. -/
theorem Reachable.invariant {P : State → List Event → Prop} (h : Reachable init step allowed s log)
    (hinit : P init [])
    (hstep : ∀ s s' log events a, Reachable init step allowed s log → P s log → allowed s log a →
      step s a = some (s', events) → P s' (events ++ log)) : P s log := by
  induction h with
  | init => exact hinit
  | step hreach hallowed hrun ih => exact hstep _ _ _ _ _ hreach ih hallowed hrun

/-- A run under a stronger promise is a run under a weaker one. -/
theorem Reachable.mono (h : Reachable init step allowed s log)
    (hmono : ∀ s log a, Reachable init step allowed s log → allowed s log a → allowed' s log a) :
    Reachable init step allowed' s log := by
  induction h with
  | init => exact .init
  | step hreach hallowed hrun ih => exact .step ih (hmono _ _ _ hreach hallowed) hrun

/-- A run from the state after one step is a run from the state before it. -/
theorem Reachable.prepend {ok : Action → Prop} {s₁ : State} {events : List Event} {a : Action}
    (ha : ok a) (hstep : step init a = some (s₁, events))
    (h : Reachable s₁ step (fun _ _ a => ok a) s log) :
    Reachable init step (fun _ _ a => ok a) s (log ++ events) := by
  induction h with
  | init =>
      have hone : Reachable init step (fun _ _ a => ok a) s₁ (events ++ []) := .step .init ha hstep
      rwa [List.append_nil] at hone
  | step hreach hallowed hrun ih =>
      rw [List.append_assoc]
      exact .step ih hallowed hrun

/-- The configuration after the given actions, if each of them is allowed and possible. -/
def replay (step : State → Action → Option (State × List Event))
    (allowed : State → List Event → Action → Prop) [∀ s log a, Decidable (allowed s log a)] :
    State → List Event → List Action → Option (State × List Event)
  | s, log, [] => some (s, log)
  | s, log, a :: actions =>
      if allowed s log a then
        match step s a with
        | none => none
        | some (s', events) => replay step allowed s' (events ++ log) actions
      else none

theorem Reachable.replay [∀ s log a, Decidable (allowed s log a)] {actions : List Action}
    {log' : List Event} (h : Reachable init step allowed s log)
    (hreplay : replay step allowed s log actions = some (s', log')) :
    Reachable init step allowed s' log' := by
  induction actions generalizing s log with
  | nil =>
      obtain ⟨rfl, rfl⟩ := Prod.mk.inj (Option.some.inj hreplay)
      exact h
  | cons a actions ih =>
      rw [RunLog.replay] at hreplay
      split at hreplay
      · split at hreplay
        · cases hreplay
        · exact ih (.step h ‹_› ‹_›) hreplay
      · cases hreplay

/-- A concrete run. -/
theorem reachable_of_replay [∀ s log a, Decidable (allowed s log a)] (actions : List Action)
    (h : (replay step allowed init [] actions).isSome = true) :
    Reachable init step allowed ((replay step allowed init [] actions).get h).1
      ((replay step allowed init [] actions).get h).2 :=
  Reachable.init.replay (Option.some_get h).symm

end Kiznix.RunLog
