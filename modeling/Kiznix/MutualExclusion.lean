import Mathlib.Logic.Function.Basic

/-! Threads of which at most one is inside some code at any time. -/

namespace Kiznix

variable {T A : Type} {inside : A → Prop} {idle idle' : Prop} {busy busy' : A → Prop} {activity : T → A} {t : T} {x : A}

/-- At most one thread is inside; `busy` holds of what it does there, `idle` when there is none. -/
structure Sole (inside : A → Prop) (idle : Prop) (busy : A → Prop) (activity : T → A) : Prop where
  unique : ∀ t t', inside (activity t) → inside (activity t') → t = t'
  idle : (∀ t, ¬ inside (activity t)) → idle
  busy : ∀ t, inside (activity t) → busy (activity t)

/-- Nobody is inside. -/
theorem Sole.of_none (hnone : ∀ t, ¬ inside (activity t)) (hidle : idle) : Sole inside idle busy activity :=
  ⟨fun t _ ht => absurd ht (hnone t), fun _ => hidle, fun t ht => absurd ht (hnone t)⟩

theorem Sole.only (h : Sole inside idle busy activity) (ht : inside (activity t)) (t' : T)
    (ht' : inside (activity t')) : t' = t := h.unique t' t ht' ht

theorem Sole.mono (h : Sole inside idle busy activity) (hidle : idle → idle') (hbusy : ∀ y, busy y → busy' y) :
    Sole inside idle' busy' activity :=
  ⟨h.unique, fun hnone => hidle (h.idle hnone), fun t ht => hbusy _ (h.busy t ht)⟩

/-- In every state, with a thread inside or not. -/
theorem Sole.of_either {P : Prop} (h : Sole inside idle busy activity) (hidle : idle → P)
    (hbusy : ∀ x, inside x → busy x → P) : P := by
  by_cases hnone : ∃ t, inside (activity t)
  · obtain ⟨t, ht⟩ := hnone
    exact hbusy _ ht (h.busy t ht)
  · exact hidle (h.idle (not_exists.mp hnone))

variable [DecidableEq T]

/-- Only the thread `t` can be inside. -/
theorem Sole.of_only (honly : ∀ t', inside (activity t') → t' = t) (hin : inside x) (hbusy : busy x) :
    Sole inside idle busy (Function.update activity t x) := by
  have hself : ∀ t', inside (Function.update activity t x t') → t' = t := by
    intro t' ht'
    by_contra hne
    rw [Function.update_of_ne hne] at ht'
    exact hne (honly t' ht')
  refine ⟨fun t₁ t₂ h₁ h₂ => (hself t₁ h₁).trans (hself t₂ h₂).symm, fun hnone => ?_, fun t' ht' => ?_⟩
  · refine absurd ?_ (hnone t)
    rwa [Function.update_self]
  · obtain rfl := hself t' ht'
    rwa [Function.update_self]

/-- The thread that was inside leaves. -/
theorem Sole.leave (h : Sole inside idle busy activity) (ht : inside (activity t)) (hout : ¬ inside x)
    (hidle : idle') : Sole inside idle' busy' (Function.update activity t x) := by
  refine Sole.of_none (fun t' ht' => ?_) hidle
  by_cases heq : t' = t
  · subst heq
    rw [Function.update_self] at ht'
    exact hout ht'
  · rw [Function.update_of_ne heq] at ht'
    exact heq (h.only ht t' ht')

/-- A thread that is outside stays outside. -/
theorem Sole.outside (h : Sole inside idle busy activity) (ht : ¬ inside (activity t)) (hout : ¬ inside x) :
    Sole inside idle busy (Function.update activity t x) := by
  have hiff : ∀ t', inside (Function.update activity t x t') →
      t' ≠ t ∧ Function.update activity t x t' = activity t' := by
    intro t' ht'
    by_cases heq : t' = t
    · subst heq
      rw [Function.update_self] at ht'
      exact absurd ht' hout
    · exact ⟨heq, Function.update_of_ne heq _ _⟩
  refine ⟨fun t₁ t₂ h₁ h₂ => ?_, fun hnone => h.idle fun t' ht' => ?_, fun t' ht' => ?_⟩
  · rw [(hiff t₁ h₁).2] at h₁
    rw [(hiff t₂ h₂).2] at h₂
    exact h.unique t₁ t₂ h₁ h₂
  · have hne : t' ≠ t := fun heq => ht (heq ▸ ht')
    refine hnone t' ?_
    rwa [Function.update_of_ne hne]
  · have hsame := (hiff t' ht').2
    rw [hsame] at ht' ⊢
    exact h.busy t' ht'

end Kiznix
