import Kiznix.FifoSemaphore
import Mathlib.Algebra.BigOperators.Group.Finset.Basic
import Mathlib.Algebra.Order.BigOperators.Group.Finset

/-! The semaphores of ACPICA. A wait for several units takes them one after the other, so that waits may
hold units which none of them can use. -/

namespace Kiznix.Acpi

open FifoSemaphore (Event)

/-- What a caller does: one `AcpiOsWaitSemaphore` with `ACPI_WAIT_FOREVER`, or one `AcpiOsSignalSemaphore`. -/
inductive Call where
  | wait (count : Nat)
  | signal (count : Nat)
  deriving DecidableEq, Repr

variable {α : Type} [DecidableEq α]

structure Waits (α : Type) where
  semaphore : FifoSemaphore.State α
  /-- The variable `i` of the loop. -/
  turn : α → Nat

/-- Turns of the two loops. Each call of `semaphore_lock` or `semaphore_unlock` is one step, and what comes
in between are steps of other callers. -/
inductive Waits.Step (call : α → Call) (s : Waits α) : Event α → Waits α → Prop where
  /-- `semaphore_lock` takes a unit and returns. -/
  | taken (a : α) (count : Nat) (hcall : call a = .wait count) (hturn : s.turn a ≠ count)
      (hfree : a ∉ s.semaphore.waiting ∧ a ∉ s.semaphore.owed) (next : FifoSemaphore.State α)
      (hstep : FifoSemaphore.Step s.semaphore (.granted a) next) :
      Step call s (.granted a) { semaphore := next, turn := Function.update s.turn a (s.turn a + 1) }
  /-- `semaphore_lock` blocks. -/
  | blocked (a : α) (count : Nat) (hcall : call a = .wait count) (hturn : s.turn a ≠ count)
      (hfree : a ∉ s.semaphore.waiting ∧ a ∉ s.semaphore.owed) (next : FifoSemaphore.State α)
      (hstep : FifoSemaphore.Step s.semaphore (.enqueued a) next) :
      Step call s (.enqueued a) { s with semaphore := next }
  /-- `semaphore_lock` returns after it has blocked. -/
  | woken (a : α) (next : FifoSemaphore.State α)
      (hstep : FifoSemaphore.Step s.semaphore (.returned a) next) :
      Step call s (.returned a) { semaphore := next, turn := Function.update s.turn a (s.turn a + 1) }
  | signalled (a : α) (count : Nat) (e : Event α) (hcall : call a = .signal count) (hturn : s.turn a ≠ count)
      (he : e.releaser = some a) (next : FifoSemaphore.State α)
      (hstep : FifoSemaphore.Step s.semaphore e next) :
      Step call s e { semaphore := next, turn := Function.update s.turn a (s.turn a + 1) }

namespace Waits

/-- `AcpiOsCreateSemaphore`, and no call has begun. -/
def initial (initialCount : Nat) : Waits α :=
  { semaphore := { count := initialCount, waiting := [], owed := [] }, turn := fun _ => 0 }

variable (call : α → Call) (s : Waits α)

/-- Units that a caller has got from the semaphore. -/
def got (a : α) : Nat :=
  match call a with
  | .wait _ => s.turn a
  | .signal _ => 0

/-- Units that a caller has given to the semaphore. -/
def given (a : α) : Nat :=
  match call a with
  | .wait _ => 0
  | .signal _ => s.turn a

/-- The wait of `a` has not returned. -/
def Unfinished (a : α) : Prop := ∃ count, call a = .wait count ∧ s.turn a ≠ count

instance (a : α) : Decidable (Unfinished call s a) :=
  match h : call a with
  | .wait count => decidable_of_iff (s.turn a ≠ count) (by simp [Unfinished, h])
  | .signal _ => .isFalse (by simp [Unfinished, h])

/-- A wait consumes its units when it returns. -/
def consumed (a : α) : Nat := if Unfinished call s a then 0 else got call s a

/-- What a wait that has not returned has got so far. -/
def held (a : α) : Nat := if Unfinished call s a then got call s a else 0

variable [Fintype α]

/-- The units that are there for waits, if a wait takes all of its units at once. -/
def available (initialCount : Nat) : Int :=
  initialCount + ∑ a, given call s a - ∑ a, consumed call s a

/-- All waits that have not returned are blocked, and there are units enough for one of them. -/
def Deadlocked (initialCount : Nat) : Prop :=
  (∀ a, Unfinished call s a → a ∈ s.semaphore.waiting) ∧
    ∃ a count, Unfinished call s a ∧ call a = .wait count ∧ (count : Int) ≤ available call s initialCount

omit [Fintype α] in
/-- A wait that has got a part of its units does not block, unless all other waits have returned; and the
counter stays within an `int`. -/
def Clean (e : Event α) : Prop :=
  (∀ a, e = .enqueued a → s.turn a = 0 ∨ ∀ b, b ≠ a → ¬ Unfinished call s b) ∧
    ∀ a, e = .released a → s.semaphore.count + 1 < 2 ^ 31

/-- A run with its events, the last one first; where `clean` is true, all its steps are clean. -/
inductive Run (initialCount : Nat) (clean : Prop) : List (Event α) → Waits α → Prop where
  | start : Run initialCount clean [] (initial initialCount)
  | step {log : List (Event α)} {s s' : Waits α} {e : Event α} (h : Run initialCount clean log s)
      (hstep : Step call s e s') (hclean : clean → Clean call s e) : Run initialCount clean (e :: log) s'

variable {call} {s} {s' : Waits α} {initialCount : Nat} {clean : Prop} {log : List (Event α)} {e : Event α} {a b : α}

/-! ### Sums over the callers -/

theorem sum_succ {f g : α → Nat} (ha : g a = f a + 1) (hne : ∀ b, b ≠ a → g b = f b) :
    ∑ b, g b = ∑ b, f b + 1 := by
  have hrest : ∑ b ∈ Finset.univ.erase a, g b = ∑ b ∈ Finset.univ.erase a, f b :=
    Finset.sum_congr rfl fun b hb => hne b (Finset.ne_of_mem_erase hb)
  rw [← Finset.add_sum_erase _ g (Finset.mem_univ a), ← Finset.add_sum_erase _ f (Finset.mem_univ a), hrest, ha]
  omega

omit [DecidableEq α] in
/-- What waits have got they have consumed or hold. -/
theorem consumed_add_held : ∑ a, consumed call s a + ∑ a, held call s a = ∑ a, got call s a := by
  rw [← Finset.sum_add_distrib]
  refine Finset.sum_congr rfl fun a _ => ?_
  unfold consumed held
  split
  · exact Nat.zero_add _
  · rfl

omit [Fintype α] in
theorem unfinished_of_ne {turn : Nat} {next : FifoSemaphore.State α} (hne : b ≠ a) :
    Unfinished call { semaphore := next, turn := Function.update s.turn a turn } b ↔ Unfinished call s b := by
  unfold Unfinished
  dsimp only
  rw [Function.update_of_ne hne]

/-! ### Runs -/

structure Inv (call : α → Call) (initialCount : Nat) (clean : Prop) (log : List (Event α)) (s : Waits α) : Prop where
  run : FifoSemaphore.Run initialCount log s.semaphore
  got : ∑ a, got call s a = FifoSemaphore.acquisitions log
  given : ∑ a, given call s a = FifoSemaphore.releases log
  nodup : (s.semaphore.waiting ++ s.semaphore.owed).Nodup
  unfinished : ∀ a ∈ s.semaphore.waiting ++ s.semaphore.owed, Unfinished call s a
  turn : ∀ a count, call a = .wait count → s.turn a ≤ count
  waiting : clean → ∀ a ∈ s.semaphore.waiting, s.turn a = 0 ∨ ∀ b, b ≠ a → ¬ Unfinished call s b

theorem initial_inv : Inv call initialCount clean [] (initial initialCount) where
  run := .init
  got := Finset.sum_eq_zero fun a _ => by
    unfold got
    split <;> rfl
  given := Finset.sum_eq_zero fun a _ => by
    unfold given
    split <;> rfl
  nodup := List.nodup_nil
  unfinished _ ha := absurd ha List.not_mem_nil
  turn _ _ _ := Nat.zero_le _
  waiting _ _ ha := absurd ha List.not_mem_nil

namespace Inv

variable (h : Inv call initialCount clean log s)

include h

/-- A wait that gets a unit goes to its next turn. -/
theorem next_turn {count : Nat} {next : FifoSemaphore.State α} (hcall : call a = .wait count)
    (hturn : s.turn a ≠ count) (hrun : FifoSemaphore.Run initialCount (e :: log) next)
    (hacquired : FifoSemaphore.acquisitions (e :: log) = FifoSemaphore.acquisitions log + 1)
    (hreleased : FifoSemaphore.releases (e :: log) = FifoSemaphore.releases log)
    (hwaiting : ∀ b ∈ next.waiting ++ next.owed, b ∈ s.semaphore.waiting ++ s.semaphore.owed ∧ b ≠ a)
    (hsub : ∀ b ∈ next.waiting, b ∈ s.semaphore.waiting) (hnodup : (next.waiting ++ next.owed).Nodup) :
    Inv call initialCount clean (e :: log)
      { semaphore := next, turn := Function.update s.turn a (s.turn a + 1) } where
  run := hrun
  got := by
    rw [hacquired, ← h.got]
    refine sum_succ (a := a) ?_ fun b hb => ?_
    · simp only [Waits.got, hcall, Function.update_self]
    · simp only [Waits.got, Function.update_of_ne hb]
  given := by
    rw [hreleased, ← h.given]
    refine Finset.sum_congr rfl fun b _ => ?_
    by_cases hb : b = a
    · subst hb
      simp only [Waits.given, hcall]
    · simp only [Waits.given, Function.update_of_ne hb]
  nodup := hnodup
  unfinished b hb := by
    obtain ⟨hb, hne⟩ := hwaiting b hb
    exact (unfinished_of_ne hne).mpr (h.unfinished b hb)
  turn b count' hb := by
    dsimp only
    by_cases hne : b = a
    · subst hne
      obtain rfl := Call.wait.inj (hcall.symm.trans hb)
      have hle := h.turn b count hcall
      rw [Function.update_self]
      omega
    · rw [Function.update_of_ne hne]
      exact h.turn b count' hb
  waiting hclean b hb := by
    dsimp only
    have hne : b ≠ a := (hwaiting b (List.mem_append_left _ hb)).2
    rw [Function.update_of_ne hne]
    refine (h.waiting hclean b (hsub b hb)).imp id fun hothers b' hb' hunfinished => ?_
    by_cases hb'' : b' = a
    · subst hb''
      exact hothers b' hb' ⟨count, hcall, hturn⟩
    · exact hothers b' hb' ((unfinished_of_ne hb'').mp hunfinished)

theorem taken_step {count : Nat} {next : FifoSemaphore.State α} (hcall : call a = .wait count)
    (hturn : s.turn a ≠ count) (hfree : a ∉ s.semaphore.waiting ∧ a ∉ s.semaphore.owed)
    (hstep : FifoSemaphore.Step s.semaphore (.granted a) next) :
    Inv call initialCount clean (.granted a :: log)
      { semaphore := next, turn := Function.update s.turn a (s.turn a + 1) } := by
  have hrun := h.run.step hstep
  cases hstep with
  | granted a hcount =>
      refine h.next_turn hcall hturn hrun rfl rfl (fun b hb => ⟨hb, ?_⟩) (fun _ => id) h.nodup
      rintro rfl
      obtain hb | hb := List.mem_append.mp hb
      · exact hfree.1 hb
      · exact hfree.2 hb

theorem blocked_step {count : Nat} {next : FifoSemaphore.State α} (hcall : call a = .wait count)
    (hturn : s.turn a ≠ count) (hfree : a ∉ s.semaphore.waiting ∧ a ∉ s.semaphore.owed)
    (hstep : FifoSemaphore.Step s.semaphore (.enqueued a) next)
    (hclean : clean → Clean call s (.enqueued a)) :
    Inv call initialCount clean (.enqueued a :: log) { s with semaphore := next } := by
  have hrun := h.run.step hstep
  have hmem : ∀ b, b ∈ s.semaphore.waiting ++ [a] ++ s.semaphore.owed →
      b = a ∨ b ∈ s.semaphore.waiting ++ s.semaphore.owed := by
    intro b hb
    simp only [List.mem_append, List.mem_singleton] at hb ⊢
    tauto
  cases hstep with
  | enqueued a hcount =>
      refine ⟨hrun, h.got, h.given, ?_, fun b hb => ?_, h.turn, fun hc b hb => ?_⟩
      · have hnodup := h.nodup
        rw [List.append_assoc]
        refine List.nodup_middle.mpr (List.nodup_cons.mpr ⟨?_, hnodup⟩)
        exact fun hmem => (List.mem_append.mp hmem).elim hfree.1 hfree.2
      · obtain rfl | hb := hmem b hb
        · exact ⟨count, hcall, hturn⟩
        · exact h.unfinished b hb
      · obtain hb | hb := List.mem_append.mp hb
        · exact h.waiting hc b hb
        · obtain rfl := List.mem_singleton.mp hb
          exact (hclean hc).1 b rfl

theorem woken_step {next : FifoSemaphore.State α}
    (hstep : FifoSemaphore.Step s.semaphore (.returned a) next) :
    Inv call initialCount clean (.returned a :: log)
      { semaphore := next, turn := Function.update s.turn a (s.turn a + 1) } := by
  have hrun := h.run.step hstep
  cases hstep with
  | returned a howed =>
      obtain ⟨count, hcall, hturn⟩ := h.unfinished a (List.mem_append_right _ howed)
      have hnodup := List.nodup_append.mp h.nodup
      have hmem : ∀ b, b ∈ s.semaphore.waiting ++ s.semaphore.owed.erase a →
          b ∈ s.semaphore.waiting ++ s.semaphore.owed ∧ b ≠ a := by
        intro b hb
        obtain hb | hb := List.mem_append.mp hb
        · exact ⟨List.mem_append_left _ hb, hnodup.2.2 b hb a howed⟩
        · exact ⟨List.mem_append_right _ (List.mem_of_mem_erase hb),
            ((List.Nodup.mem_erase_iff hnodup.2.1).mp hb).1⟩
      refine h.next_turn hcall hturn hrun rfl rfl hmem (fun _ => id) ?_
      refine List.nodup_append.mpr ⟨hnodup.1, hnodup.2.1.erase a, fun b hb c hc => ?_⟩
      exact hnodup.2.2 b hb c (List.mem_of_mem_erase hc)

theorem signalled_step {count : Nat} {next : FifoSemaphore.State α} (hcall : call a = .signal count)
    (he : e.releaser = some a) (hstep : FifoSemaphore.Step s.semaphore e next) :
    Inv call initialCount clean (e :: log)
      { semaphore := next, turn := Function.update s.turn a (s.turn a + 1) } := by
  have hrun := h.run.step hstep
  have hwait : ∀ b, Unfinished call s b → b ≠ a := by
    rintro b ⟨count', hb, -⟩ rfl
    rw [hcall] at hb
    cases hb
  have hiff : ∀ b, Unfinished call { semaphore := next, turn := Function.update s.turn a (s.turn a + 1) } b ↔
      Unfinished call s b := by
    intro b
    by_cases hb : b = a
    · subst hb
      simp only [Unfinished, hcall, reduceCtorEq, false_and, exists_false]
    · exact unfinished_of_ne hb
  have hlist : (next.waiting ++ next.owed).Perm (s.semaphore.waiting ++ s.semaphore.owed) ∧
      (∀ b ∈ next.waiting, b ∈ s.semaphore.waiting) ∧
      FifoSemaphore.acquisitions (e :: log) = FifoSemaphore.acquisitions log ∧
      FifoSemaphore.releases (e :: log) = FifoSemaphore.releases log + 1 := by
    cases hstep with
    | released a' hwaiting => exact ⟨List.Perm.refl _, fun _ => id, rfl, rfl⟩
    | handedOver a' b waiting hwaiting =>
        rw [hwaiting]
        exact ⟨List.perm_middle, fun _ hb => List.mem_cons_of_mem _ hb, rfl, rfl⟩
    | _ => cases he
  obtain ⟨hperm, hsub, hacquired, hreleased⟩ := hlist
  refine ⟨hrun, ?_, ?_, hperm.nodup_iff.mpr h.nodup, fun b hb => ?_, fun b count' hb => ?_, fun hc b hb => ?_⟩
  · rw [hacquired, ← h.got]
    refine Finset.sum_congr rfl fun b _ => ?_
    by_cases hb : b = a
    · subst hb
      simp only [Waits.got, hcall]
    · simp only [Waits.got, Function.update_of_ne hb]
  · rw [hreleased, ← h.given]
    refine sum_succ (a := a) ?_ fun b hb => ?_
    · simp only [Waits.given, hcall, Function.update_self]
    · simp only [Waits.given, Function.update_of_ne hb]
  · exact (hiff b).mpr (h.unfinished b (hperm.mem_iff.mp hb))
  · have hne : b ≠ a := by
      rintro rfl
      rw [hcall] at hb
      cases hb
    dsimp only
    rw [Function.update_of_ne hne]
    exact h.turn b count' hb
  · have hne := hwait b (h.unfinished b (List.mem_append_left _ (hsub b hb)))
    dsimp only
    rw [Function.update_of_ne hne]
    refine (h.waiting hc b (hsub b hb)).imp id fun hothers b' hb' => ?_
    rw [hiff]
    exact hothers b' hb'

theorem step (hstep : Step call s e s') (hclean : clean → Clean call s e) :
    Inv call initialCount clean (e :: log) s' := by
  cases hstep with
  | taken a count hcall hturn hfree next hstep => exact h.taken_step hcall hturn hfree hstep
  | blocked a count hcall hturn hfree next hstep => exact h.blocked_step hcall hturn hfree hstep hclean
  | woken a next hstep => exact h.woken_step hstep
  | signalled a count e hcall hturn he next hstep => exact h.signalled_step hcall he hstep

end Inv

theorem run_inv (hrun : Run call initialCount clean log s) : Inv call initialCount clean log s := by
  induction hrun with
  | start => exact initial_inv
  | step _ hstep hclean ih => exact ih.step hstep hclean

/-- Where all waits are blocked, the units that are there are those which the waits hold in part. -/
theorem Inv.available_eq_held (h : Inv call initialCount clean log s) (ha : Unfinished call s a)
    (hblocked : ∀ b, Unfinished call s b → b ∈ s.semaphore.waiting) :
    available call s initialCount = ∑ b, held call s b := by
  have howed : s.semaphore.owed = [] := by
    refine List.eq_nil_iff_forall_not_mem.mpr fun b hb => ?_
    have hwaiting := hblocked b (h.unfinished b (List.mem_append_right _ hb))
    exact (List.nodup_append.mp h.nodup).2.2 b hwaiting b hb rfl
  have hcount : s.semaphore.count = 0 := by
    by_contra hne
    have hidle := h.run.idle (Nat.pos_of_ne_zero hne)
    have hmem := hblocked a ha
    rw [hidle] at hmem
    exact List.not_mem_nil hmem
  have htaken := h.run.taken
  rw [howed, hcount, ← h.got, ← h.given, ← consumed_add_held, List.length_nil] at htaken
  unfold available
  omega

/-- A wait that has not returned holds fewer units than it waits for. -/
theorem Inv.held_lt (h : Inv call initialCount clean log s) {count : Nat} (ha : Unfinished call s a)
    (hcall : call a = .wait count) : held call s a < count := by
  obtain ⟨count', hcall', hturn⟩ := ha
  obtain rfl := Call.wait.inj (hcall.symm.trans hcall')
  have hle := h.turn a count hcall
  have hheld : held call s a = s.turn a := by
    simp only [held, if_pos (show Unfinished call s a from ⟨count, hcall, hturn⟩), Waits.got, hcall]
  omega

/-- When no wait blocks with a part of its units while other waits go on, blocked waits leave too few units
for any of them. -/
theorem no_deadlock (call : α → Call) (initialCount : Nat) (log : List (Event α)) (s : Waits α)
    (hrun : Run call initialCount True log s) : ¬ Deadlocked call s initialCount := by
  rintro ⟨hblocked, a, count, ha, hcall, hle⟩
  have h := run_inv hrun
  rw [h.available_eq_held ha hblocked] at hle
  have hlt := h.held_lt ha hcall
  by_cases hother : ∃ b, b ≠ a ∧ Unfinished call s b
  · obtain ⟨b, hne, hb⟩ := hother
    have hzero : ∑ c, held call s c = 0 := by
      refine Finset.sum_eq_zero fun c _ => ?_
      by_cases hc : Unfinished call s c
      · have hturn : s.turn c = 0 := by
          refine (h.waiting trivial c (hblocked c hc)).resolve_right fun hothers => ?_
          by_cases hca : c = a
          · exact hothers b (hca ▸ hne) hb
          · exact hothers a (Ne.symm hca) ha
        unfold held got
        rw [if_pos hc, hturn]
        split <;> rfl
      · exact if_neg hc
    rw [hzero] at hle
    omega
  · have hsum : ∑ c, held call s c = held call s a := by
      refine Finset.sum_eq_single a (fun c _ hc => ?_) fun hmem => absurd (Finset.mem_univ a) hmem
      exact if_neg fun hunfinished => hother ⟨c, hc, hunfinished⟩
    rw [hsum] at hle
    omega

/-- One wait blocks for its second unit after the other has returned. -/
theorem no_deadlock_two_units : ∃ log s, Run (fun a : Bool => .wait (if a then 2 else 1)) 2 True log s ∧
    s.semaphore.waiting = [true] ∧ ¬ Deadlocked (fun a : Bool => .wait (if a then 2 else 1)) s 2 := by
  have hstart : Run (fun a : Bool => .wait (if a then 2 else 1)) 2 True [] (initial 2) := .start
  have hsmall := hstart.step
    (.taken (s := initial 2) false 1 rfl (by decide) (by decide) _ (.granted _ _ (by decide)))
    fun _ => ⟨by simp, by simp⟩
  have hpart := hsmall.step (.taken true 2 rfl (by decide) (by decide) _ (.granted _ _ (by decide)))
    fun _ => ⟨by simp, by simp⟩
  have hblocked := hpart.step (.blocked true 2 rfl (by decide) (by decide) _ (.enqueued _ _ rfl))
    fun _ => ⟨?_, by simp⟩
  · exact ⟨_, _, hblocked, rfl, no_deadlock _ _ _ _ hblocked⟩
  · intro a ha
    obtain rfl := FifoSemaphore.Event.enqueued.inj ha
    refine Or.inr fun b hb => ?_
    obtain rfl : b = false := by simpa using hb
    rintro ⟨count, hcount, hturn⟩
    exact hturn (Call.wait.inj hcount)

/-- Two waits for two units, two units: each takes one and blocks for the other. -/
theorem partial_grants_deadlock : ∃ log s, Run (fun _ : Bool => .wait 2) 2 False log s ∧
    Deadlocked (fun _ : Bool => .wait 2) s 2 := by
  have hstart : Run (fun _ : Bool => .wait 2) 2 False [] (initial 2) := .start
  have hfirst := hstart.step
    (.taken (s := initial 2) false 2 rfl (by decide) (by decide) _ (.granted _ _ (by decide))) False.elim
  have hsecond := hfirst.step (.taken true 2 rfl (by decide) (by decide) _ (.granted _ _ (by decide))) False.elim
  have hblocked := hsecond.step (.blocked false 2 rfl (by decide) (by decide) _ (.enqueued _ _ rfl)) False.elim
  have hall := hblocked.step (.blocked true 2 rfl (by decide) (by decide) _ (.enqueued _ _ rfl)) False.elim
  refine ⟨_, _, hall, fun a _ => ?_, true, 2, ⟨2, rfl, by decide⟩, rfl, by decide⟩
  cases a
  · exact List.mem_cons_self
  · exact List.mem_cons_of_mem _ List.mem_cons_self

end Waits

end Kiznix.Acpi
