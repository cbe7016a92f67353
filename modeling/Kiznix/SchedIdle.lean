import Kiznix.SchedReturn

/-! There is no idle thread. A thread that blocks leaves the processor to another one only if not all other
threads are blocked as well. -/

namespace Kiznix

open LinkedList RunLog

variable {env : Env} {k k' : Kernel} {log events : List Event} {q q' : Queues} {m m' : Mode}
  {initialCount : SemaphoreId → Nat} {act : Act} {instr : Instr} {rest : List Instr}

/-- When a blocked thread calls `thread_schedule`, some other thread is not blocked. -/
def AwakeWhenBlocking (k : Kernel) : Prop :=
  k.stack.head? = some .threadYieldBody → k.state k.currentThread = .suspended →
    ∃ t < k.threadCount, t ≠ k.currentThread ∧ k.state t ≠ .suspended

instance : Decidable (AwakeWhenBlocking k) := by
  unfold AwakeWhenBlocking
  infer_instance

/-- Threads use the scheduler and the semaphores, and interrupt handlers signal semaphores. -/
structure AwakeRun (k : Kernel) (log : List Event) (act : Act) : Prop where
  spinlock : act.usesSpinlock = false
  awake : AwakeWhenBlocking k

instance (act : Act) : Decidable (AwakeRun k log act) :=
  decidable_of_iff (act.usesSpinlock = false ∧ AwakeWhenBlocking k)
    ⟨fun h => ⟨h.1, h.2⟩, fun h => ⟨h.spinlock, h.awake⟩⟩

/-! ### A thread that was woken before it gave up the processor -/

/-- The running thread is on its way to the `fatal` of its `thread_yield`: it is ready, or will be after the
`thread_wakeup` that runs with interrupts disabled. -/
def Doomed (k : Kernel) : Prop :=
  ∃ before rest, k.stack = before ++ .threadYieldBody :: rest ∧ (∀ instr ∈ before, instr.isLock = false) ∧
    (k.state k.currentThread = .ready ∨ k.interruptFlag = false ∧
      ∃ tail, before = .threadWakeupBody k.currentThread :: tail ∨
        before = .spinLockSpin .scheduler :: .threadWakeupBody k.currentThread :: tail)

/-- What a program point other than those of `semaphore_lock` and `thread_yield` leaves as it was. -/
structure Passes (k k' : Kernel) (rest : List Instr) : Prop where
  current : k'.currentThread = k.currentThread
  stack : ∃ pushed, k'.stack = pushed ++ rest ∧ ∀ instr ∈ pushed, instr.isLock = false
  state : k.state k.currentThread = .ready → k'.state k.currentThread = .ready

/-- The machine stops for another reason than a null pointer, or the program point passes. -/
def StopsOrPasses (k k' : Kernel) (rest : List Instr) : Prop :=
  (∃ reason, k'.halted = some reason ∧ reason ≠ .nullThread) ∨ k'.halted = k.halted ∧ Passes k k' rest

theorem StopsOrPasses.fatal {k₁ : Kernel} {reason : Halt} (h : reason ≠ .nullThread) :
    StopsOrPasses k (fatal k₁ reason) rest := Or.inl ⟨reason, rfl, h⟩

theorem StopsOrPasses.pass (pushed : List Instr) (hhalted : k'.halted = k.halted)
    (hcurrent : k'.currentThread = k.currentThread) (hstack : k'.stack = pushed ++ rest)
    (hpushed : ∀ instr ∈ pushed, instr.isLock = false)
    (hstate : k.state k.currentThread = .ready → k'.state k.currentThread = .ready) : StopsOrPasses k k' rest :=
  Or.inr ⟨hhalted, hcurrent, ⟨pushed, hstack, hpushed⟩, hstate⟩

theorem spinUnlock_passes (k₁ : Kernel) (lock : Spinlock) (hhalted : k₁.halted = k.halted)
    (hcurrent : k₁.currentThread = k.currentThread) (hstate : k₁.state = k.state) :
    StopsOrPasses k (spinUnlock k₁ lock rest).1 rest := by
  unfold spinUnlock
  split
  · exact .fatal (by simp)
  · exact .pass [] hhalted hcurrent rfl (by simp) fun hready => by rw [← hready, ← hstate]

theorem spinLockTake_passes (k₁ : Kernel) (lock : Spinlock) (flag : Bool) (pushed : List Instr)
    (hhalted : k₁.halted = k.halted) (hcurrent : k₁.currentThread = k.currentThread) (hstate : k₁.state = k.state)
    (hpushed : ∀ instr ∈ pushed, instr.isLock = false) :
    StopsOrPasses k (spinLockTake k₁ lock flag (pushed ++ rest)).1 rest := by
  unfold spinLockTake
  dsimp only
  split
  · refine .pass (.spinLockSpin lock :: pushed) hhalted hcurrent rfl (fun instr hmem => ?_)
      fun hready => by rw [← hready, ← hstate]
    obtain rfl | hmem := List.mem_cons.mp hmem
    · rfl
    · exact hpushed instr hmem
  · exact .pass pushed hhalted hcurrent rfl hpushed fun hready => by rw [← hready, ← hstate]

theorem update_ready {state : ThreadId → ThreadState} {t thread : ThreadId} (h : state thread = .ready) :
    Function.update state t .ready thread = .ready := by
  by_cases ht : thread = t
  · rw [ht, Function.update_self]
  · rw [Function.update_of_ne ht, h]

theorem threadWakeupStep_passes (k : Kernel) (t : ThreadId) (rest : List Instr) :
    StopsOrPasses k (threadWakeupStep k t rest) rest := by
  unfold threadWakeupStep
  split
  · exact .fatal (by simp)
  · split
    · exact .fatal (by simp)
    · split
      · exact .fatal (by simp)
      · exact .pass [] rfl rfl rfl (by simp) update_ready

theorem threadCreateStep_passes (k : Kernel) (rest : List Instr) :
    StopsOrPasses k (threadCreateStep k rest) rest := by
  unfold threadCreateStep
  split
  · exact .fatal (by simp)
  · exact .pass [] rfl rfl rfl (by simp) update_ready

theorem semaphoreUnlockStep_passes (k : Kernel) (id : SemaphoreId) (rest : List Instr) :
    StopsOrPasses k (semaphoreUnlockStep k id rest).1 rest := by
  unfold semaphoreUnlockStep
  dsimp only
  split
  · exact spinUnlock_passes _ _ rfl rfl rfl
  · split
    · exact .fatal (by simp)
    · exact spinLockTake_passes _ .scheduler _ [_, _, _] rfl rfl rfl (by simp [Instr.isLock])

theorem exec_passes (hstack : k.stack = instr :: rest) (hlock : instr.isLock = false)
    (hyield : instr ≠ .threadYieldBody) : StopsOrPasses k (exec k instr rest).1 rest := by
  cases instr with
  | spinLock lock => exact .pass [_] rfl rfl rfl (by simp [Instr.isLock]) id
  | spinLockCli lock flag => exact spinLockTake_passes k lock flag [] rfl rfl rfl (by simp)
  | spinLockSpin lock =>
      unfold exec
      dsimp only
      split
      · exact .pass [_] rfl rfl hstack (by simp [Instr.isLock]) id
      · exact .pass [] rfl rfl rfl (by simp) id
  | spinUnlock lock => exact spinUnlock_passes k lock rfl rfl rfl
  | threadYieldBody => exact absurd rfl hyield
  | threadScheduleReturn flag => exact .pass [] rfl rfl rfl (by simp) id
  | threadWakeupBody t => exact threadWakeupStep_passes k t rest
  | threadCreateAssert =>
      unfold exec
      dsimp only
      split
      · exact .pass [] rfl rfl rfl (by simp) id
      · exact .fatal (by simp)
  | threadCreateBody => exact threadCreateStep_passes k rest
  | semaphoreLockBody id => cases hlock
  | semaphoreLockReturn id => cases hlock
  | semaphoreTryLockBody id =>
      unfold exec semaphoreTryLockStep
      dsimp only
      split
      · exact spinUnlock_passes _ _ rfl rfl rfl
      · exact spinUnlock_passes _ _ rfl rfl rfl
  | semaphoreUnlockBody id => exact semaphoreUnlockStep_passes k id rest
  | timerCallback => exact .pass threadYield rfl rfl rfl (by simp [threadYield, Instr.isLock]) id
  | picDisableIrq irq => exact .pass [] rfl rfl rfl (by simp) id
  | picEnableIrq irq => exact .pass [_] rfl rfl rfl (by simp [Instr.isLock]) id
  | picOut irq mask => exact .pass [] rfl rfl rfl (by simp) id
  | iret flag => exact .pass [] rfl rfl rfl (by simp) id

/-- A ready thread's `thread_yield` is fatal. -/
theorem threadYieldStep_ready (hstate : k.state k.currentThread = .ready) :
    (threadYieldStep k rest).halted = some .currentThreadIsNotRunning := by
  unfold threadYieldStep
  rw [hstate]
  rfl

/-- `thread_wakeup` makes the thread ready, or it is fatal. -/
theorem threadWakeupStep_self (k : Kernel) (rest : List Instr) :
    (∃ reason, (threadWakeupStep k k.currentThread rest).halted = some reason ∧ reason ≠ .nullThread) ∨
      (threadWakeupStep k k.currentThread rest).state k.currentThread = .ready := by
  unfold threadWakeupStep
  split
  · exact Or.inl ⟨_, rfl, by simp⟩
  · split
    · exact Or.inl ⟨_, rfl, by simp⟩
    · split
      · exact Or.inl ⟨_, rfl, by simp⟩
      · exact Or.inr (Function.update_self ..)

/-- The machine has stopped for another reason than a null pointer, or goes on to the `fatal`. -/
def Ends (k : Kernel) : Prop :=
  (∃ reason, k.halted = some reason ∧ reason ≠ .nullThread) ∨ k.halted = none ∧ Doomed k

/-- A ready thread executes a program point, or takes an interrupt, on the way to its `thread_yield`. -/
theorem Doomed.ready {before tail : List Instr} (pushed : List Instr) (hhalted : k'.halted = none)
    (hstack : k'.stack = pushed ++ (before ++ .threadYieldBody :: tail))
    (hbefore : ∀ instr ∈ before, instr.isLock = false) (hpushed : ∀ instr ∈ pushed, instr.isLock = false)
    (hready : k'.state k'.currentThread = .ready) : Ends k' := by
  refine Or.inr ⟨hhalted, pushed ++ before, tail, ?_, fun instr hmem => ?_, Or.inl hready⟩
  · rw [hstack, List.append_assoc]
  · obtain hmem | hmem := List.mem_append.mp hmem
    · exact hpushed instr hmem
    · exact hbefore instr hmem

theorem doomed_run {before tail : List Instr} (hrunning : k.halted = none)
    (hstack : k.stack = before ++ .threadYieldBody :: tail) (hbefore : ∀ instr ∈ before, instr.isLock = false)
    (hready : k.state k.currentThread = .ready) (hhead : k.stack = instr :: rest) :
    Ends (exec k instr rest).1 := by
  rw [hstack] at hhead
  cases before with
  | nil =>
      obtain ⟨rfl, rfl⟩ := List.cons.inj hhead
      exact Or.inl ⟨_, threadYieldStep_ready hready, by simp⟩
  | cons first before =>
      obtain ⟨rfl, rfl⟩ := List.cons.inj hhead
      have hlock := hbefore first List.mem_cons_self
      by_cases hyield : first = .threadYieldBody
      · subst hyield
        exact Or.inl ⟨_, threadYieldStep_ready hready, by simp⟩
      obtain hstop | ⟨hhalted, hcurrent, ⟨pushed, hpushed, hlocks⟩, hstate⟩ := exec_passes hstack hlock hyield
      · exact Or.inl hstop
      refine Doomed.ready pushed (hhalted.trans hrunning) hpushed
        (fun instr hmem => hbefore instr (List.mem_cons_of_mem _ hmem)) hlocks ?_
      rw [hcurrent]
      exact hstate hready

/-- A thread that is ready, or about to be, ends in the `fatal` of its `thread_yield`. -/
theorem doomed_step (h : Doomed k) (hstep : step k act = some (k', events)) : Ends k' := by
  obtain ⟨before, tail, hstack, hbefore, hphase⟩ := h
  obtain ⟨hrunning, ⟨instr, rest, rfl, hhead, hrun⟩ | ⟨op, rfl, hhead, -⟩ | ⟨-, hflag, hrun⟩ |
    ⟨irq, ids, -, hflag, hirq, hrun⟩⟩ := step_cases hstep
  · obtain rfl : k' = (exec k instr rest).1 := congrArg Prod.fst hrun
    obtain hready | ⟨hflag, tail', rfl | rfl⟩ := hphase
    · exact doomed_run hrunning hstack hbefore hready hhead
    · rw [hstack] at hhead
      obtain ⟨rfl, rfl⟩ := List.cons.inj hhead
      obtain hstop | ⟨hhalted, hcurrent, ⟨pushed, hpushed, hlocks⟩, -⟩ := exec_passes hstack rfl (by simp)
      · exact Or.inl hstop
      obtain hstop | hready := threadWakeupStep_self k (tail' ++ .threadYieldBody :: tail)
      · exact Or.inl hstop
      refine Doomed.ready pushed (hhalted.trans hrunning) hpushed
        (fun instr hmem => hbefore instr (List.mem_cons_of_mem _ hmem)) hlocks ?_
      rw [hcurrent]
      exact hready
    · rw [hstack] at hhead
      obtain ⟨rfl, rfl⟩ := List.cons.inj hhead
      unfold exec
      dsimp only
      split
      · exact Or.inr ⟨hrunning, _, tail, hstack, hbefore, Or.inr ⟨hflag, tail', Or.inr rfl⟩⟩
      · exact Or.inr ⟨hrunning, _, tail, rfl, fun instr hmem => hbefore instr (List.mem_cons_of_mem _ hmem),
          Or.inr ⟨hflag, tail', Or.inl rfl⟩⟩
  · rw [hstack] at hhead
    cases before <;> cases hhead
  all_goals
    obtain ⟨rfl, -⟩ := Prod.mk.inj hrun
    obtain hready | ⟨hoff, -⟩ := hphase
    swap
    · rw [hoff] at hflag
      cases hflag
  · have hstack' : (interruptEntry k 0 [.timerCallback]).stack =
        interruptDispatch 0 [.timerCallback] ++ [.iret k.interruptFlag] ++ (before ++ .threadYieldBody :: tail) := by
      rw [interruptEntry_stack, hstack]
    exact Doomed.ready _ hrunning hstack' hbefore (@interrupt_isLock .interrupts _ _ _ (Or.inl ⟨rfl, rfl⟩)) hready
  · have hstack' : (interruptEntry k irq (ids.flatMap semaphoreUnlock)).stack =
        interruptDispatch irq (ids.flatMap semaphoreUnlock) ++ [.iret k.interruptFlag] ++
          (before ++ .threadYieldBody :: tail) := by
      rw [interruptEntry_stack, hstack]
    exact Doomed.ready _ hrunning hstack' hbefore
      (@interrupt_isLock .interrupts _ _ _ (Or.inr ⟨hirq, rfl, ids, rfl⟩)) hready

/-! ### Threads and queues -/

theorem Inv.readyWhenBlocking_iff (h : Inv env k log q m) : ReadyWhenBlocking k ↔ AwakeWhenBlocking k := by
  refine ⟨fun hready hhead hstate => ?_, fun hawake hhead hstate hnone => ?_⟩
  · have hne := hready hhead hstate
    rw [h.lists.ready_linked.head_eq] at hne
    obtain ⟨t, hfirst⟩ := Option.ne_none_iff_exists'.mp hne
    have hmem := List.mem_of_head? hfirst
    refine ⟨t, h.lists.ready_lt hmem, h.lists.ready_ne hmem, ?_⟩
    rw [h.lists.ready_state t hmem]
    decide
  · obtain ⟨t, hlt, hne, hother⟩ := hawake hhead hstate
    have hnil : q.ready = [] := by
      rw [h.lists.ready_linked.head_eq] at hnone
      exact List.head?_eq_none_iff.mp hnone
    have hmem := (h.lists.mem_iff t).mpr hlt
    rw [hnil, List.cons_append, List.nil_append, List.mem_cons] at hmem
    obtain hcurrent | hsuspended := hmem
    · exact hne hcurrent
    · exact hother (h.lists.suspended_state t hsuspended)

/-- The scheduler's invariant holds. -/
def Sound (k : Kernel) (log : List Event) : Prop :=
  ∃ q m, Inv .interrupts k log q m ∧ Windowed k ∧ WakeupInv k log q

theorem AwakeRun.allowed (h : AwakeRun k log act) (hother : popsOwnWaiter k = false) (hinv : Inv env k log q m) :
    SignalRun k log act := ⟨⟨h.spinlock, hinv.readyWhenBlocking_iff.mpr h.awake⟩, hother⟩

theorem sound_step (h : Sound k log) (hact : AwakeRun k log act) (hother : popsOwnWaiter k = false)
    (hstep : step k act = some (k', events)) : k'.halted = none ∧ Sound k' (events ++ log) := by
  obtain ⟨q, m, hinv, hwindow, hwakeup⟩ := h
  have hsignal := hact.allowed hother hinv
  obtain ⟨q', houtcome, hnext⟩ := step_inv hinv hsignal.allowed hstep
  have hrunning := hinv.not_stopped rfl hsignal.interrupt.ready houtcome (step_cases hstep).1
  obtain ⟨m', hinv'⟩ := hnext hrunning
  exact ⟨hrunning, q', m', hinv', windowed_step hinv hwindow houtcome hrunning,
    wakeup_step hinv hwakeup houtcome hrunning⟩

/-- `semaphore_lock` is the lowest frame, so above its `thread_yield` there is none of its code. -/
theorem LockAtBottom.before {before tail : List Instr} (h : LockAtBottom (before ++ tail)) (htail : tail ≠ []) :
    ∀ instr ∈ before, instr.isLock = false := by
  induction before with
  | nil => simp
  | cons first before ih =>
      rw [List.cons_append, LockAtBottom] at h
      intro instr hmem
      obtain rfl | hmem := List.mem_cons.mp hmem
      · rw [← Bool.not_eq_true]
        intro hlock
        exact htail (List.append_eq_nil_iff.mp (h.1 hlock)).2
      · exact ih h.2 instr hmem

/-- `semaphore_unlock` pops the waiter of the thread it runs on, and goes on to `thread_wakeup`. -/
theorem spinLockTake_doomed (k₁ : Kernel) (before : List Instr) {tail : List Instr} (hrunning : k₁.halted = none)
    (hbefore : ∀ instr ∈ before, instr.isLock = false) :
    Ends (spinLockTake k₁ .scheduler false
      (.threadWakeupBody k₁.currentThread :: before ++ .threadYieldBody :: tail)).1 := by
  have hlocks : ∀ instr ∈ .threadWakeupBody k₁.currentThread :: before, instr.isLock = false :=
    fun instr hmem => (List.mem_cons.mp hmem).elim (fun heq => by rw [heq]; rfl) (hbefore instr)
  unfold spinLockTake
  dsimp only
  split
  · exact Or.inr ⟨hrunning, .spinLockSpin .scheduler :: .threadWakeupBody k₁.currentThread :: before, tail, rfl,
      fun instr hmem => (List.mem_cons.mp hmem).elim (fun heq => by rw [heq]; rfl) (hlocks instr),
      Or.inr ⟨rfl, before, Or.inr rfl⟩⟩
  · exact Or.inr ⟨hrunning, _, tail, rfl, hlocks, Or.inr ⟨rfl, before, Or.inl rfl⟩⟩

theorem popsOwnWaiter_cases (h : popsOwnWaiter k = true) :
    ∃ id rest, k.stack = .semaphoreUnlockBody id :: rest ∧ (k.semaphore id).head = some k.currentThread := by
  unfold popsOwnWaiter at h
  split at h
  · rename_i id rest hstack
    exact ⟨id, rest, hstack, by simpa using h⟩
  · cases h

/-- A thread whose waiter a handler on its own stack pops has not called `thread_schedule` yet. -/
theorem sound_pop (h : Sound k log) (hown : popsOwnWaiter k = true) (hstep : step k act = some (k', events)) :
    Ends k' := by
  obtain ⟨q, m, hinv, hwindow, hwakeup⟩ := h
  obtain ⟨id, rest, hstack, hhead⟩ := popsOwnWaiter_cases hown
  have hmem : k.currentThread ∈ q.waiting id := by
    rw [(hinv.waiters.linked id).head_eq] at hhead
    exact List.mem_of_head? hhead
  obtain ⟨next, hnode⟩ := hinv.waiters.node id _ hmem
  have hflag : k.interruptFlag = false := by
    have hheld : m.held = .semaphore id := (hinv.at_head hstack).1.1
    exact (hinv.count_ne (by simp [hheld])).2
  obtain ⟨before, id', tail, -, hyield⟩ := hwindow (hinv.waiters.blocked id _ hmem).2.1
  have hbottom := hwakeup.bottom k.currentThread
  rw [stackOf_current, hyield] at hbottom
  have hbefore := hbottom.before (by simp)
  cases before with
  | nil =>
      rw [hstack] at hyield
      cases hyield
  | cons first before =>
      rw [hstack] at hyield
      obtain ⟨rfl, rfl⟩ := List.cons.inj hyield
      obtain ⟨hrunning, ⟨instr, rest, -, hhead', hrun⟩ | ⟨op, -, hnil, -⟩ | ⟨-, htrue, -⟩ |
        ⟨irq, ids, -, htrue, -⟩⟩ := step_cases hstep
      · rw [hstack] at hhead'
        obtain ⟨rfl, rfl⟩ := List.cons.inj hhead'
        obtain rfl := congrArg Prod.fst hrun
        simp only [exec, semaphoreUnlockStep, hhead, hnode, hflag]
        refine spinLockTake_doomed _ (.spinUnlock .scheduler :: .spinUnlock (.semaphore id) :: before) hrunning
          fun instr hmem => ?_
        obtain rfl | hmem := List.mem_cons.mp hmem
        · rfl
        obtain rfl | hmem := List.mem_cons.mp hmem
        · rfl
        · exact hbefore instr (List.mem_cons_of_mem _ hmem)
      · rw [hstack] at hnil
        cases hnil
      · rw [hflag] at htrue
        cases htrue
      · rw [hflag] at htrue
        cases htrue

/-- What holds in every state that is not stopped. -/
theorem idle_step (h : Sound k log ∨ Doomed k) (hact : AwakeRun k log act)
    (hstep : step k act = some (k', events)) :
    (∃ reason, k'.halted = some reason ∧ reason ≠ .nullThread) ∨
      k'.halted = none ∧ (Sound k' (events ++ log) ∨ Doomed k') := by
  obtain hsound | hdoomed := h
  · cases hown : popsOwnWaiter k with
    | false =>
        obtain ⟨hrunning, hsound'⟩ := sound_step hsound hact hown hstep
        exact Or.inr ⟨hrunning, Or.inl hsound'⟩
    | true => exact (sound_pop hsound hown hstep).imp id fun h => ⟨h.1, Or.inr h.2⟩
  · exact (doomed_step hdoomed hstep).imp id fun h => ⟨h.1, Or.inr h.2⟩

/-- If no other thread is awake, `list_pop` yields no thread. -/
theorem sound_null (h : Sound k log) (hact : act.usesSpinlock = false) (hasleep : ¬AwakeWhenBlocking k)
    (hstep : step k act = some (k', events)) : k'.halted = some .nullThread := by
  obtain ⟨q, m, hinv, -, -⟩ := h
  obtain ⟨hhead, hstate, hnone⟩ : k.stack.head? = some .threadYieldBody ∧ k.state k.currentThread = .suspended ∧
      k.readyList = none := by
    by_contra hnot
    refine hasleep (hinv.readyWhenBlocking_iff.mp fun hhead hstate hnone => hnot ⟨hhead, hstate, hnone⟩)
  obtain ⟨rest, hstack⟩ : ∃ rest, k.stack = .threadYieldBody :: rest := by
    cases hstack : k.stack with
    | nil => rw [hstack] at hhead; cases hhead
    | cons instr rest =>
        rw [hstack] at hhead
        obtain rfl : instr = .threadYieldBody := by simpa using hhead
        exact ⟨rest, rfl⟩
  have hother : popsOwnWaiter k = false := by rw [popsOwnWaiter, hstack]
  have hcount := hinv.count_at_yield rfl hstack
  have hflag : k.interruptFlag = false := hinv.locks.disabled (by rw [hcount]; decide)
  obtain ⟨q', houtcome, -⟩ := step_inv hinv (allowed_interrupts hact hother) hstep
  cases houtcome with
  | stop k'' reason hreason =>
      obtain ⟨-, hne, -⟩ | ⟨rfl, -⟩ | ⟨-, -, rest', hstack'⟩ := hreason
      · exact absurd hcount hne
      · rfl
      · rw [hstack] at hstack'
        cases hstack'
  | stay rest' hstack' hcount' hready' hrunning =>
      rw [hstate] at hrunning
      cases hrunning
  | switch rest' new tail next readyList suspendedList state ready suspended hstack' hcount' hready' =>
      rw [hinv.lists.ready_linked.head_eq, hready'] at hnone
      cases hnone
  | interrupt irq handler hact' htrue =>
      rw [hflag] at htrue
      cases htrue
  | grant id rest' event hstack' =>
      obtain ⟨hstack', -⟩ | ⟨hstack', -⟩ := hstack' <;> rw [hstack] at hstack' <;> cases hstack'
  | _ => simp_all

/-- A thread on the way to its `fatal` is not suspended when it calls `thread_schedule`. -/
theorem Doomed.awake (h : Doomed k) : AwakeWhenBlocking k ∧ ReadyWhenBlocking k := by
  have hnot : ¬(k.stack.head? = some .threadYieldBody ∧ k.state k.currentThread = .suspended) := by
    rintro ⟨hhead, hstate⟩
    obtain ⟨before, tail, hstack, -, hready | ⟨-, tail', rfl | rfl⟩⟩ := h
    · rw [hready] at hstate
      cases hstate
    all_goals
      rw [hstack] at hhead
      cases hhead
  exact ⟨fun hhead hstate => absurd ⟨hhead, hstate⟩ hnot, fun hhead hstate => absurd ⟨hhead, hstate⟩ hnot⟩

/-- `thread_schedule` finds a thread as long as some other thread is awake whenever a thread blocks, and no
longer. -/
theorem always_thread_to_run (h : Reachable (threadInit initialCount) step AwakeRun k log) :
    k.halted ≠ some .nullThread ∧ (k.halted = none → (ReadyWhenBlocking k ↔ AwakeWhenBlocking k)) ∧
      ∀ act k' events, act.usesSpinlock = false → step k act = some (k', events) →
        (k'.halted ≠ some .nullThread ↔ AwakeWhenBlocking k) := by
  have hall : (∃ reason, k.halted = some reason ∧ reason ≠ .nullThread) ∨
      k.halted = none ∧ (Sound k log ∨ Doomed k) := by
    refine h.invariant (P := fun k log => (∃ reason, k.halted = some reason ∧ reason ≠ .nullThread) ∨
      k.halted = none ∧ (Sound k log ∨ Doomed k)) ?_ ?_
    · exact Or.inr ⟨rfl, Or.inl ⟨_, _, init_inv _ initialCount, nofun, wakeup_init⟩⟩
    · intro k k' log events act _ hinv hact hstep
      obtain ⟨reason, hstopped, -⟩ | ⟨-, hinv⟩ := hinv
      · rw [(step_cases hstep).1] at hstopped
        cases hstopped
      · exact idle_step hinv hact hstep
  obtain ⟨reason, hstopped, hne⟩ | ⟨hrunning, hinv⟩ := hall
  · rw [hstopped]
    refine ⟨fun heq => hne (Option.some.inj heq), nofun, fun act k' events _ hstep => ?_⟩
    rw [(step_cases hstep).1] at hstopped
    cases hstopped
  refine ⟨by rw [hrunning]; nofun, fun _ => ?_, fun act k' events hact hstep => ⟨fun hnot => ?_, fun hawake => ?_⟩⟩
  · obtain ⟨q, m, hsound, -, -⟩ | hdoomed := hinv
    · exact hsound.readyWhenBlocking_iff
    · exact iff_of_true hdoomed.awake.2 hdoomed.awake.1
  · by_contra hasleep
    obtain hsound | hdoomed := hinv
    · exact hnot (sound_null hsound hact hasleep hstep)
    · exact hasleep hdoomed.awake.1
  · obtain ⟨reason, hstopped, hne⟩ | ⟨hrunning', -⟩ := idle_step hinv ⟨hact, hawake⟩ hstep
    · rw [hstopped]
      exact fun heq => hne (Option.some.inj heq)
    · rw [hrunning']
      nofun

/-- `thread0` blocks while the other thread is ready, and a handler on that thread's stack wakes it. -/
theorem always_thread_to_run_signalled : ∃ k log,
    Reachable (threadInit fun _ => 0) step AwakeRun k log ∧ k.halted = none ∧ k.threadCount = 2 ∧
      k.halted ≠ some .nullThread ∧ (k.halted = none → (ReadyWhenBlocking k ↔ AwakeWhenBlocking k)) ∧
        ∀ act k' events, act.usesSpinlock = false → step k act = some (k', events) →
          (k'.halted ≠ some .nullThread ↔ AwakeWhenBlocking k) := by
  have h : Reachable (threadInit fun _ => 0) step AwakeRun _ _ := reachable_of_replay signalRun (by decide)
  exact ⟨_, _, h, by decide, by decide, always_thread_to_run h⟩

/-- `thread0` is the only thread and blocks. -/
theorem no_thread_to_run : ∃ k log,
    Reachable (threadInit fun _ => 0) step (fun _ _ act => act.usesSpinlock = false) k log ∧
      k.halted = some .nullThread :=
  ⟨_, _, reachable_of_replay (.call (.semaphoreLock 0) :: List.replicate 6 .run) (by decide), by decide⟩

end Kiznix
