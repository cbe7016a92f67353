import Kiznix.SchedIdle

/-! The ready list is a queue. `thread_schedule` takes its head, and every other change appends to it, so the
threads run in the order in which they stand in it, one at each call. -/

namespace Kiznix

open LinkedList RunLog

variable {env : Env} {k k' k₀ : Kernel} {log log₀ events : List Event} {q q' : Queues} {m : Mode}
  {initialCount : SemaphoreId → Nat} {act : Act} {ready ran : List ThreadId} {t : ThreadId}

/-- The step calls `thread_schedule`, which `thread_yield` does unless the thread is ready. -/
def callsSchedule (k : Kernel) (act : Act) : Bool :=
  decide (act = .run ∧ k.stack.head? = some .threadYieldBody ∧ k.state k.currentThread ≠ .ready)

/-- The current thread after the call of `thread_schedule`, if the step is one. -/
def scheduled (k : Kernel) (act : Act) (k' : Kernel) : List ThreadId :=
  if callsSchedule k act then [k'.currentThread] else []

/-- The continuations of a run; `ran` lists the current thread after each call of `thread_schedule`. -/
inductive Continues (allowed : Kernel → List Event → Act → Prop) (k₀ : Kernel) (log₀ : List Event) :
    List ThreadId → Kernel → List Event → Prop where
  | refl : Continues allowed k₀ log₀ [] k₀ log₀
  | step {ran : List ThreadId} {k k' : Kernel} {log events : List Event} {act : Act} :
      Continues allowed k₀ log₀ ran k log → allowed k log act → step k act = some (k', events) →
      Continues allowed k₀ log₀ (ran ++ scheduled k act k') k' (events ++ log)

theorem scheduled_of_head {instr : Instr} {rest : List Instr} (hstack : k.stack = instr :: rest)
    (hinstr : instr ≠ .threadYieldBody) : scheduled k act k' = [] := by
  simp [scheduled, callsSchedule, hstack, hinstr]

theorem scheduled_of_act (hact : act ≠ .run) : scheduled k act k' = [] := by
  simp [scheduled, callsSchedule, hact]

theorem scheduled_of_ready (hstate : k.state k.currentThread = .ready) : scheduled k act k' = [] := by
  simp [scheduled, callsSchedule, hstate]

/-! ### The current thread -/

theorem spinUnlock_currentThread (k : Kernel) (lock : Spinlock) (rest : List Instr) :
    (spinUnlock k lock rest).1.currentThread = k.currentThread := by
  unfold spinUnlock
  split <;> rfl

theorem spinLockTake_currentThread (k : Kernel) (lock : Spinlock) (flag : Bool) (rest : List Instr) :
    (spinLockTake k lock flag rest).1.currentThread = k.currentThread := by
  unfold spinLockTake
  dsimp only
  split <;> rfl

theorem exec_currentThread (k : Kernel) {instr : Instr} (rest : List Instr)
    (h : instr = .threadYieldBody → k.state k.currentThread = .ready) :
    (exec k instr rest).1.currentThread = k.currentThread := by
  cases instr with
  | spinLockCli lock flag => exact spinLockTake_currentThread ..
  | spinLockSpin lock =>
      unfold exec
      dsimp only
      split <;> rfl
  | spinUnlock lock => exact spinUnlock_currentThread ..
  | threadYieldBody =>
      unfold exec threadYieldStep
      rw [h rfl]
      rfl
  | threadWakeupBody t =>
      unfold exec threadWakeupStep
      dsimp only
      split
      · rfl
      · split
        · rfl
        · split <;> rfl
  | threadCreateAssert =>
      unfold exec
      dsimp only
      split <;> rfl
  | threadCreateBody =>
      unfold exec threadCreateStep
      dsimp only
      split <;> rfl
  | semaphoreLockBody id =>
      unfold exec semaphoreLockStep
      dsimp only
      split
      · exact spinUnlock_currentThread ..
      · split
        · rfl
        · exact spinUnlock_currentThread ..
  | semaphoreTryLockBody id =>
      unfold exec semaphoreTryLockStep
      dsimp only
      split <;> exact spinUnlock_currentThread ..
  | semaphoreUnlockBody id =>
      unfold exec semaphoreUnlockStep
      dsimp only
      split
      · exact spinUnlock_currentThread ..
      · split
        · rfl
        · exact spinLockTake_currentThread ..
  | _ => rfl

/-- Only `thread_schedule` changes the current thread. -/
theorem step_currentThread (hstep : step k act = some (k', events)) :
    k'.currentThread = (scheduled k act k').getLast?.getD k.currentThread := by
  by_cases hcalls : callsSchedule k act = true
  · simp [scheduled, hcalls]
  have hscheduled : scheduled k act k' = [] := by simp [scheduled, hcalls]
  rw [hscheduled, List.getLast?_nil, Option.getD_none]
  obtain ⟨-, ⟨instr, rest, rfl, hstack, hrun⟩ | ⟨op, -, -, hrun⟩ | ⟨-, -, hrun⟩ | ⟨irq, ids, -, -, -, hrun⟩⟩ :=
    step_cases hstep
  · obtain rfl : k' = (exec k instr rest).1 := congrArg Prod.fst hrun
    refine exec_currentThread k rest fun hinstr => ?_
    simpa [callsSchedule, hstack, hinstr] using hcalls
  all_goals
    obtain ⟨rfl, -⟩ := Prod.mk.inj hrun
    rfl

theorem scheduled_of_ne (hstep : step k act = some (k', events)) (hne : k'.currentThread ≠ k.currentThread) :
    scheduled k act k' = [k'.currentThread] := by
  have hcurrent := step_currentThread hstep
  unfold scheduled at hcurrent ⊢
  split
  · rfl
  · rw [if_neg ‹_›] at hcurrent
    exact absurd hcurrent hne

/-! ### One step of the queue -/

/-- What `thread_schedule` takes is the head of the queue, and what enters goes behind its last thread. -/
theorem Outcome.queue (hinv : Inv env k log q m) (henv : env.userLocks = false)
    (hstep : step k act = some (k', events)) (houtcome : Outcome env k act q k' q' events) :
    q.ready <+: scheduled k act k' ++ q'.ready := by
  have hquiet : scheduled k act k' = [] → q'.ready = q.ready → q.ready <+: scheduled k act k' ++ q'.ready := by
    intro hscheduled hready
    rw [hscheduled, hready]
    exact List.prefix_rfl
  cases houtcome with
  | call op hact => exact hquiet (scheduled_of_act (by simp [hact])) rfl
  | interrupt irq handler hact => exact hquiet (scheduled_of_act hact) rfl
  | stay rest hstack hcount hready =>
      rw [hready]
      exact List.nil_prefix
  | switch rest new tail next readyList suspendedList state ready suspended hstack hcount hready hqueues =>
      rw [hready]
      have hnew : ∃ behind, ready = tail ++ behind := by
        obtain ⟨-, rfl, -⟩ | ⟨-, rfl, -⟩ := hqueues
        · exact ⟨_, rfl⟩
        · exact ⟨[], (List.append_nil _).symm⟩
      have hne := (hinv.next_thread hready).1
      obtain ⟨behind, rfl⟩ := hnew
      rw [scheduled_of_ne hstep hne]
      exact ⟨behind, rfl⟩
  | wakeup t rest next readyList suspendedList hstack =>
      rw [scheduled_of_head hstack (by simp), List.nil_append]
      exact List.prefix_append ..
  | create rest next readyList hstack =>
      rw [scheduled_of_head hstack (by simp), List.nil_append]
      exact List.prefix_append ..
  | grant id rest event hstack =>
      obtain ⟨hstack, -⟩ | ⟨hstack, -⟩ := hstack
      · exact hquiet (scheduled_of_head hstack (by simp)) rfl
      · exact hquiet (scheduled_of_head hstack (by simp)) rfl
  | stop k'' reason hreason =>
      obtain ⟨-, hne, rest, hstack⟩ | ⟨-, hnil, -⟩ | ⟨-, -, rest, hstack⟩ := hreason
      · exact absurd (hinv.count_at_yield henv hstack) hne
      · rw [hnil]
        exact List.nil_prefix
      · exact hquiet (scheduled_of_head hstack (by simp)) rfl
  | spinLock lock rest hstack => exact hquiet (scheduled_of_head hstack (by simp)) rfl
  | take lock b rest hstack => exact hquiet (scheduled_of_head hstack (by simp)) rfl
  | unlock lock rest hstack => exact hquiet (scheduled_of_head hstack (by simp)) rfl
  | scheduleReturn b rest hstack => exact hquiet (scheduled_of_head hstack (by simp)) rfl
  | createAssert rest hstack => exact hquiet (scheduled_of_head hstack (by simp)) rfl
  | refuse id rest hstack => exact hquiet (scheduled_of_head hstack (by simp)) rfl
  | block id rest waiter semaphore hstack => exact hquiet (scheduled_of_head hstack (by simp)) rfl
  | lockReturn id rest hstack => exact hquiet (scheduled_of_head hstack (by simp)) rfl
  | increment id rest hstack => exact hquiet (scheduled_of_head hstack (by simp)) rfl
  | pop id rest t waiting semaphore hstack => exact hquiet (scheduled_of_head hstack (by simp)) rfl
  | timerCallback rest hstack => exact hquiet (scheduled_of_head hstack (by simp)) rfl
  | picDisableIrq irq rest hstack => exact hquiet (scheduled_of_head hstack (by simp)) rfl
  | picEnableIrq irq rest hstack => exact hquiet (scheduled_of_head hstack (by simp)) rfl
  | picOut irq mask rest hstack => exact hquiet (scheduled_of_head hstack (by simp)) rfl
  | iret b rest hstack => exact hquiet (scheduled_of_head hstack (by simp)) rfl

/-! ### Runs -/

/-- The threads of `ready` have run, or still stand in the ready list, in this order. A thread that a handler
has put on the ready list while it runs does not come back to `thread_schedule`. -/
def Serving (ready ran : List ThreadId) (k : Kernel) (log : List Event) : Prop :=
  (∃ q m, Inv .interrupts k log q m ∧ Windowed k ∧ WakeupInv k log q ∧ ready <+: ran ++ q.ready) ∨
    ((k.halted ≠ none ∨ Doomed k) ∧ ∃ rest, ready <+: ran ++ rest)

theorem Doomed.scheduled (h : Doomed k) : scheduled k act k' = [] := by
  obtain ⟨before, tail, hstack, -, hready | ⟨-, tail', rfl | rfl⟩⟩ := h
  · exact scheduled_of_ready hready
  · exact scheduled_of_head hstack (by simp)
  · exact scheduled_of_head hstack (by simp)

theorem serving_step (h : Serving ready ran k log) (hact : act.usesSpinlock = false)
    (hstep : step k act = some (k', events)) :
    Serving ready (ran ++ scheduled k act k') k' (events ++ log) := by
  obtain ⟨q, m, hinv, hwindow, hwakeup, hprefix⟩ | ⟨hends, rest, hprefix⟩ := h
  · cases hown : popsOwnWaiter k with
    | true =>
        obtain ⟨id, rest, hstack, -⟩ := popsOwnWaiter_cases hown
        rw [scheduled_of_head hstack (by simp), List.append_nil]
        refine Or.inr ⟨?_, q.ready, hprefix⟩
        obtain ⟨reason, hstopped, -⟩ | ⟨-, hdoomed⟩ := sound_pop ⟨q, m, hinv, hwindow, hwakeup⟩ hown hstep
        · exact Or.inl (by simp [hstopped])
        · exact Or.inr hdoomed
    | false =>
        obtain ⟨q', houtcome, hnext⟩ := step_inv hinv (allowed_interrupts hact hown) hstep
        have hprefix' : ready <+: (ran ++ scheduled k act k') ++ q'.ready := by
          rw [List.append_assoc]
          exact hprefix.trans ((List.prefix_append_right_inj _).mpr (houtcome.queue hinv rfl hstep))
        by_cases hrunning : k'.halted = none
        · obtain ⟨m', hinv'⟩ := hnext hrunning
          exact Or.inl ⟨q', m', hinv', windowed_step hinv hwindow houtcome hrunning,
            wakeup_step hinv hwakeup houtcome hrunning, hprefix'⟩
        · exact Or.inr ⟨Or.inl hrunning, q'.ready, hprefix'⟩
  · obtain hhalted | hdoomed := hends
    · exact absurd (step_cases hstep).1 hhalted
    · rw [hdoomed.scheduled, List.append_nil]
      refine Or.inr ⟨?_, rest, hprefix⟩
      obtain ⟨reason, hstopped, -⟩ | ⟨-, hdoomed'⟩ := doomed_step hdoomed hstep
      · exact Or.inl (by simp [hstopped])
      · exact Or.inr hdoomed'

/-- Threads use the scheduler and the semaphores, the timer preempts and handlers signal semaphores. -/
def SchedulerRun (_ : Kernel) (_ : List Event) (act : Act) : Prop := act.usesSpinlock = false

instance (act : Act) : Decidable (SchedulerRun k log act) := by
  unfold SchedulerRun
  infer_instance

theorem serving_init (h : Reachable (threadInit initialCount) step SchedulerRun k log)
    (hready : Linked k.next k.readyList ready) : Serving ready [] k log := by
  have hnil : Serving [] [] k log := by
    refine h.invariant (P := Serving [] []) (Or.inl ⟨_, _, init_inv _ initialCount, nofun, wakeup_init,
      List.nil_prefix⟩) ?_
    intro k k' log events act _ hserving hact hstep
    obtain ⟨q, m, hinv, hwindow, hwakeup, -⟩ | ⟨hends, -⟩ := serving_step hserving hact hstep
    · exact Or.inl ⟨q, m, hinv, hwindow, hwakeup, List.nil_prefix⟩
    · exact Or.inr ⟨hends, [], List.nil_prefix⟩
  obtain ⟨q, m, hinv, hwindow, hwakeup, -⟩ | ⟨hends, -⟩ := hnil
  · refine Or.inl ⟨q, m, hinv, hwindow, hwakeup, ?_⟩
    rw [linked_unique hinv.lists.ready_linked hready]
    exact List.prefix_rfl
  · exact Or.inr ⟨hends, ready, List.prefix_rfl⟩

theorem Continues.serving (h : Serving ready [] k₀ log₀) (hcont : Continues SchedulerRun k₀ log₀ ran k log) :
    Serving ready ran k log := by
  induction hcont with
  | refl => exact h
  | step hcont hact hstep ih => exact serving_step ih hact hstep

theorem Continues.currentThread (hcont : Continues SchedulerRun k₀ log₀ ran k log) :
    k.currentThread = ran.getLast?.getD k₀.currentThread := by
  induction hcont with
  | refl => rfl
  | step hcont hact hstep ih =>
      rw [step_currentThread hstep, ih, List.getLast?_append, Option.getD_or]

/-- A call made while a thread that stood in the ready list has not run yet does not stop the machine. -/
theorem Serving.completes (h : Serving ready ran k log) (hlength : ran.length < ready.length)
    (hact : act.usesSpinlock = false) (hcalls : callsSchedule k act = true)
    (hstep : step k act = some (k', events)) : k'.halted = none := by
  obtain ⟨q, m, hinv, hwindow, hwakeup, hprefix⟩ | ⟨hends, -⟩ := h
  · have hhead : k.stack.head? = some .threadYieldBody := by
      simp only [callsSchedule, decide_eq_true_eq] at hcalls
      exact hcalls.2.1
    have hother : popsOwnWaiter k = false := by
      rw [← Bool.not_eq_true]
      intro hown
      obtain ⟨id, rest, hstack, -⟩ := popsOwnWaiter_cases hown
      rw [hstack] at hhead
      cases hhead
    obtain ⟨q', houtcome, -⟩ := step_inv hinv (allowed_interrupts hact hother) hstep
    refine hinv.not_stopped rfl (fun _ _ hnone => ?_) houtcome (step_cases hstep).1
    have hnil := hinv.lists.ready_linked.eq_nil_iff.mp hnone
    have hle := hprefix.length_le
    rw [hnil, List.append_nil] at hle
    omega
  · obtain hhalted | hdoomed := hends
    · exact absurd (step_cases hstep).1 hhalted
    · have hscheduled : Kiznix.scheduled k act k' = [] := hdoomed.scheduled
      simp [Kiznix.scheduled, hcalls] at hscheduled

/-- Bounded bypass: the thread at position `i` of the ready list becomes the current thread at call `i + 1`
of `thread_schedule`, and up to then only the threads before it run, in the order of the list. Up to then
every call completes. -/
theorem ready_bypass {i : Nat} (h : Reachable (threadInit initialCount) step SchedulerRun k₀ log₀)
    (hready : Linked k₀.next k₀.readyList ready) (ht : ready[i]? = some t)
    (hcont : Continues SchedulerRun k₀ log₀ ran k log) :
    k.currentThread = ran.getLast?.getD k₀.currentThread ∧ ran.take (i + 1) <+: ready ∧ t ∉ ran.take i ∧
      (i < ran.length → ran[i]? = some t) ∧
      (ran.length ≤ i → ∀ act k' events, act.usesSpinlock = false → callsSchedule k act = true →
        step k act = some (k', events) → k'.halted = none) := by
  have hserving := hcont.serving (serving_init h hready)
  obtain ⟨hi, hget⟩ := List.getElem?_eq_some_iff.mp ht
  obtain ⟨rest, hprefix⟩ : ∃ rest, ready <+: ran ++ rest := by
    obtain ⟨q, m, -, -, -, hprefix⟩ | ⟨-, hprefix⟩ := hserving
    · exact ⟨_, hprefix⟩
    · exact hprefix
  have htake : ran.take (i + 1) <+: ready := by
    refine List.prefix_of_prefix_length_le ((List.take_prefix _ _).trans (List.prefix_append ..)) hprefix ?_
    rw [List.length_take]
    omega
  have hat : ∀ j ≤ i, j < ran.length → ran[j]? = ready[j]? := by
    intro j hj hlt
    obtain ⟨behind, hbehind⟩ := htake
    rw [← hbehind, List.getElem?_append_left (by rw [List.length_take]; omega), List.getElem?_take_of_lt (by omega)]
  refine ⟨hcont.currentThread, htake, ?_, fun hlt => (hat i le_rfl hlt).trans ht, fun hle act k' events hact
    hcalls hstep => hserving.completes (by omega) hact hcalls hstep⟩
  intro hmem
  obtain ⟨j, hj, hjt⟩ := List.getElem_of_mem hmem
  rw [List.length_take] at hj
  have heq : ready[i]? = ready[j]? := by
    rw [← hat j (by omega) (by omega), ht, ← hjt, List.getElem_take, List.getElem?_eq_getElem]
  have hij := (List.getElem?_inj hi hready.nodup).mp heq
  omega

/-- The continuation by the given actions, if each of them is allowed and possible. -/
def continueWith (k : Kernel) (log : List Event) (ran : List ThreadId) :
    List Act → Option (List ThreadId × Kernel × List Event)
  | [] => some (ran, k, log)
  | act :: acts =>
      if act.usesSpinlock then none
      else
        match step k act with
        | none => none
        | some (k', events) => continueWith k' (events ++ log) (ran ++ scheduled k act k') acts

theorem Continues.continueWith {acts : List Act} {result : List ThreadId × Kernel × List Event}
    (h : Continues SchedulerRun k₀ log₀ ran k log) (hresult : continueWith k log ran acts = some result) :
    Continues SchedulerRun k₀ log₀ result.1 result.2.1 result.2.2 := by
  induction acts generalizing ran k log with
  | nil =>
      obtain rfl := Option.some.inj hresult
      exact h
  | cons act acts ih =>
      rw [Kiznix.continueWith] at hresult
      split at hresult
      · cases hresult
      · split at hresult
        · cases hresult
        · exact ih (.step h ((Bool.not_eq_true _).mp ‹_›) ‹_›) hresult

/-- `thread0` creates two threads. -/
def twoThreadsRun : List Act :=
  .call .threadCreate :: List.replicate 5 .run ++ .call .threadCreate :: List.replicate 5 .run

def twoThreads : Kernel × List Event :=
  (replay step SchedulerRun (threadInit fun _ => 0) [] twoThreadsRun).get (by decide)

/-- `thread0` yields to the first of them, which the timer preempts. -/
def yieldAndTick : List Act :=
  .call .threadYield :: List.replicate 6 .run ++ .timer :: List.replicate 5 .run

theorem ready_bypass_second : ∃ k₀ log₀ ran k log,
    Reachable (threadInit fun _ => 0) step SchedulerRun k₀ log₀ ∧ Linked k₀.next k₀.readyList [1, 2] ∧
      Continues SchedulerRun k₀ log₀ ran k log ∧ ran = [1, 2] ∧
      (k.currentThread = ran.getLast?.getD k₀.currentThread ∧ ran.take 2 <+: [1, 2] ∧ 2 ∉ ran.take 1 ∧
        (1 < ran.length → ran[1]? = some 2) ∧
        (ran.length ≤ 1 → ∀ act k' events, act.usesSpinlock = false → callsSchedule k act = true →
          step k act = some (k', events) → k'.halted = none)) := by
  have h : Reachable (threadInit fun _ => 0) step SchedulerRun twoThreads.1 twoThreads.2 :=
    reachable_of_replay twoThreadsRun (by decide)
  have hready : Linked twoThreads.1.next twoThreads.1.readyList [1, 2] := ⟨by decide, by decide, rfl⟩
  have hcont := Continues.refl.continueWith (Option.some_get (x := continueWith twoThreads.1 twoThreads.2 []
    yieldAndTick) (by decide)).symm
  exact ⟨_, _, _, _, _, h, hready, hcont, by decide, ready_bypass h hready rfl hcont⟩

end Kiznix
