import Mathlib.Algebra.Order.Ring.Nat

/-! Weakest preconditions of computations with a state and errors. `wp x s Q E` says that `x`, started in
the state `s`, either returns with `Q` or stops with an error that satisfies `E`. -/

namespace Kiznix

variable {σ ε α β : Type} {x : StateT σ (Except ε) α} {f : α → StateT σ (Except ε) β} {s : σ}
  {Q Q' : α → σ → Prop} {R : β → σ → Prop} {E E' : ε → Prop}

def wp (x : StateT σ (Except ε) α) (s : σ) (Q : α → σ → Prop) (E : ε → Prop) : Prop :=
  match x s with
  | .ok (a, s') => Q a s'
  | .error e => E e

theorem wp.mono (h : wp x s Q E) (hQ : ∀ a s', Q a s' → Q' a s') (hE : ∀ e, E e → E' e) :
    wp x s Q' E' := by
  unfold wp at h ⊢
  cases hx : x s with
  | ok r =>
      rw [hx] at h
      exact hQ _ _ h
  | error e =>
      rw [hx] at h
      exact hE e h

theorem wp.and (h : wp x s Q E) (h' : wp x s Q' E') : wp x s (fun a s' => Q a s' ∧ Q' a s') E := by
  unfold wp at h h' ⊢
  cases hx : x s with
  | ok r =>
      rw [hx] at h h'
      exact ⟨h, h'⟩
  | error e =>
      rw [hx] at h
      exact h

theorem wp_bind : wp (x >>= f) s R E ↔ wp x s (fun a s' => wp (f a) s' R E) E := by
  unfold wp
  simp only [bind, StateT.bind, Except.bind]
  cases x s <;> rfl

/-- The rule for sequences. -/
theorem wp.bind (h : wp x s Q E) (hQ : ∀ a s', Q a s' → wp (f a) s' R E) : wp (x >>= f) s R E :=
  wp_bind.mpr (h.mono hQ fun _ he => he)

theorem bind_of_ok {a : α} {s' : σ} (h : x s = .ok (a, s')) : (x >>= f) s = f a s' := by
  show (x s >>= fun r => f r.1 r.2) = _
  rw [h]
  rfl

theorem bind_of_error {e : ε} (h : x s = .error e) : (x >>= f) s = .error e := by
  show (x s >>= fun r => f r.1 r.2) = _
  rw [h]
  rfl

/-- A sequence that returns has got through its first part. -/
theorem ok_of_bind {r : β} {s' : σ} (h : (x >>= f) s = .ok (r, s')) :
    ∃ a s₁, x s = .ok (a, s₁) ∧ f a s₁ = .ok (r, s') := by
  cases hx : x s with
  | ok p => exact ⟨p.1, p.2, rfl, by rwa [bind_of_ok hx] at h⟩
  | error e =>
      rw [bind_of_error hx] at h
      cases h

theorem wp_of_ok {a : α} {s' : σ} (h : x s = .ok (a, s')) : wp x s Q E ↔ Q a s' := by
  unfold wp
  rw [h]

theorem wp.ok {a : α} {s' : σ} (h : wp x s Q E) (hx : x s = .ok (a, s')) : Q a s' := (wp_of_ok hx).mp h

theorem wp.error {e : ε} (h : wp x s Q E) (hx : x s = .error e) : E e := by
  unfold wp at h
  rwa [hx] at h

/-- However the computation ends. -/
theorem wp.of_all (hQ : ∀ a s', Q a s') (hE : ∀ e, E e) : wp x s Q E := by
  unfold wp
  cases x s with
  | ok r => exact hQ r.1 r.2
  | error e => exact hE e

/-- A computation that cannot stop with an error returns. -/
theorem wp.returns (h : wp x s Q fun _ => False) : ∃ a s', x s = .ok (a, s') ∧ Q a s' := by
  unfold wp at h
  cases hx : x s with
  | ok r =>
      rw [hx] at h
      exact ⟨r.1, r.2, rfl, h⟩
  | error e =>
      rw [hx] at h
      exact h.elim

@[simp] theorem wp_pure {a : α} : wp (pure a : StateT σ (Except ε) α) s Q E ↔ Q a s := Iff.rfl

@[simp] theorem wp_throw {e : ε} : wp (throw e : StateT σ (Except ε) α) s Q E ↔ E e := Iff.rfl

@[simp] theorem wp_get {Q : σ → σ → Prop} : wp (get : StateT σ (Except ε) σ) s Q E ↔ Q s s := Iff.rfl

@[simp] theorem wp_set {Q : PUnit → σ → Prop} {s' : σ} :
    wp (set s' : StateT σ (Except ε) PUnit) s Q E ↔ Q ⟨⟩ s' := Iff.rfl

@[simp] theorem wp_modify {Q : PUnit → σ → Prop} {g : σ → σ} :
    wp (modify g : StateT σ (Except ε) PUnit) s Q E ↔ Q ⟨⟩ (g s) := Iff.rfl

theorem wp_ite {c : Prop} [Decidable c] {y : StateT σ (Except ε) α} :
    wp (if c then x else y) s Q E ↔ (c → wp x s Q E) ∧ (¬ c → wp y s Q E) := by
  split <;> simp [*]

end Kiznix
