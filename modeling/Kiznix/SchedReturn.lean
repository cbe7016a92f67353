import Kiznix.SchedWakeup

/-! The thread whose waiter was popped returns. It does so at its next turn if its `thread_yield` of
`semaphore_lock` was made when the waiter was popped: then only the handler of a tick can have another
`thread_yield` on its stack, and such a handler runs with interrupts disabled. A thread that a tick took off
the CPU before its own `thread_yield` makes that call at its next turn instead. -/

namespace Kiznix

open LinkedList RunLog

variable {env : Env} {k k' : Kernel} {log events : List Event} {q q' : Queues} {m m' : Mode}
  {initialCount : SemaphoreId → Nat} {act : Act} {id : SemaphoreId} {instr : Instr} {stack rest : List Instr}

/-- The `semaphore_unlock` at the head of the stack pops the waiter of a thread that has its `thread_yield`
still to make. -/
def popsBeforeYield (k : Kernel) : Bool :=
  match k.stack with
  | .semaphoreUnlockBody id :: _ =>
      match (k.semaphore id).head with
      | some t => decide (0 < pendingYields (stackOf k t))
      | none => false
  | _ => false

/-- Threads and interrupt handlers. No `semaphore_unlock` pops the waiter of a thread that has not left the CPU
by its own `thread_yield`: neither of the thread on whose stack it runs, nor of one that a tick took off the
CPU before that call. -/
structure WakeupRun (k : Kernel) (log : List Event) (act : Act) : Prop where
  signal : SignalRun k log act
  yielded : popsBeforeYield k = false

instance (act : Act) : Decidable (WakeupRun k log act) :=
  decidable_of_iff (SignalRun k log act ∧ popsBeforeYield k = false)
    ⟨fun h => ⟨h.1, h.2⟩, fun h => ⟨h.signal, h.yielded⟩⟩

/-- What the condition says about the first waiter. -/
theorem WakeupRun.pendingYields_eq (h : WakeupRun k log act) {t : ThreadId}
    (hstack : k.stack = .semaphoreUnlockBody id :: rest) (hhead : (k.semaphore id).head = some t) :
    pendingYields (stackOf k t) = 0 := by
  have hyielded := h.yielded
  simp only [popsBeforeYield, hstack, hhead, decide_eq_false_iff_not] at hyielded
  exact Nat.eq_zero_of_not_pos hyielded

/-! ### Ticks -/

/-- The handler of a tick is on its way to `thread_schedule`. -/
inductive InTick : List Instr → Prop where
  | disable (below : List Instr) (h : pendingYields below = 0) :
      InTick (.picDisableIrq 0 :: .timerCallback :: below)
  | callback (below : List Instr) (h : pendingYields below = 0) : InTick (.timerCallback :: below)
  | lock (below : List Instr) (h : pendingYields below = 0) :
      InTick (.spinLock .scheduler :: .threadYieldBody :: below)
  | cli (b : Bool) (below : List Instr) (h : pendingYields below = 0) :
      InTick (.spinLockCli .scheduler b :: .threadYieldBody :: below)
  | body (below : List Instr) (h : pendingYields below = 0) : InTick (.threadYieldBody :: below)

/-- A running thread that is owed a unit calls `thread_schedule` only from the handler of a tick, which runs
with interrupts disabled. -/
def Settled (k : Kernel) : Prop :=
  pendingYields k.stack = 0 ∨ (k.interruptFlag = false ∧ InTick k.stack)

/-- The threads that are owed a unit have made their `thread_yield`. -/
structure YieldInv (k : Kernel) (log : List Event) : Prop where
  parked : ∀ t id, owed t id log = true → t ≠ k.currentThread → pendingYields (stackOf k t) = 0
  settled : ∀ id, owed k.currentThread id log = true → Settled k

/-- A step of the running thread; nobody is handed a unit. -/
theorem YieldInv.own (h : YieldInv k log) (hcurrent : k'.currentThread = k.currentThread)
    (hcontext : k'.context = k.context) (hcount : k'.threadCount = k.threadCount)
    (howed : ∀ t id, owed t id (events ++ log) = true → owed t id log = true)
    (hsettled : ∀ id, owed k.currentThread id log = true → Settled k → Settled k') :
    YieldInv k' (events ++ log) := by
  refine ⟨fun t id ht hself => ?_, fun id ht => ?_⟩
  · rw [hcurrent] at hself
    rw [stackOf_frame hcurrent hcontext hcount, if_neg hself]
    exact h.parked t id (howed t id ht) hself
  · rw [hcurrent] at ht
    exact hsettled id (howed _ id ht) (h.settled id (howed _ id ht))

/-- A step at a program point that the handler of a tick does not reach before `thread_schedule`. -/
theorem YieldInv.pass (h : YieldInv k log) (pushed : List Instr)
    (hreplaces : Replaces k k' instr pushed rest) (hpushed : pendingYields pushed = 0)
    (hinstr : ¬InTick (instr :: rest))
    (howed : ∀ t id, owed t id (events ++ log) = true → owed t id log = true) :
    YieldInv k' (events ++ log) := by
  refine h.own hreplaces.current hreplaces.context hreplaces.threads howed fun _ _ hsettled => Or.inl ?_
  rcases hsettled with hzero | ⟨-, htick⟩
  · rw [hreplaces.stack, pendingYields_cons] at hzero
    rw [hreplaces.stack', pendingYields, List.countP_append]
    exact Nat.add_eq_zero_iff.mpr ⟨hpushed, (Nat.add_eq_zero_iff.mp hzero).1⟩
  · rw [hreplaces.stack] at htick
    exact absurd htick hinstr

/-- A step of the handler of a tick, or of another caller of `thread_yield`. -/
theorem YieldInv.tick (h : YieldInv k log) (pushed : List Instr)
    (hreplaces : Replaces k k' instr pushed rest)
    (howed : ∀ t id, owed t id (events ++ log) = true → owed t id log = true)
    (hzero : pendingYields (instr :: rest) = 0 → pendingYields (pushed ++ rest) = 0)
    (htick : k.interruptFlag = false → InTick (instr :: rest) → Settled k') :
    YieldInv k' (events ++ log) := by
  refine h.own hreplaces.current hreplaces.context hreplaces.threads howed fun _ _ hsettled => ?_
  rw [Settled, hreplaces.stack] at hsettled
  rcases hsettled with hnone | ⟨hflag, hhandler⟩
  · refine Or.inl ?_
    rw [hreplaces.stack']
    exact hzero hnone
  · exact htick hflag hhandler

/-- The CPU accepts an interrupt. -/
theorem YieldInv.interrupt (h : YieldInv k log) {irq : Nat} {handler : List Instr}
    (hflag : k.interruptFlag = true)
    (hhandler : (irq = 0 ∧ handler = [.timerCallback]) ∨
      (0 < irq ∧ env.signals = true ∧ ∃ ids, handler = List.flatMap semaphoreUnlock ids)) :
    YieldInv (interruptEntry k irq handler) ([] ++ log) := by
  refine h.own rfl rfl rfl (fun _ _ howed => howed) fun _ _ hsettled => ?_
  rcases hsettled with hzero | ⟨hoff, -⟩
  · rcases hhandler with ⟨rfl, rfl⟩ | ⟨-, -, ids, rfl⟩
    · refine Or.inr ⟨rfl, InTick.disable _ ?_⟩
      show pendingYields (.picEnableIrq 0 :: .iret k.interruptFlag :: k.stack) = 0
      rw [pendingYields_cons, pendingYields_cons, hzero]
      rfl
    · refine Or.inl ?_
      have hids : pendingYields (ids.flatMap semaphoreUnlock) = 0 := by
        refine List.countP_eq_zero.mpr fun instr hmem => ?_
        obtain ⟨id, -, hcode⟩ := List.mem_flatMap.mp hmem
        rw [semaphoreUnlock, List.mem_pair] at hcode
        rcases hcode with rfl | rfl <;> simp [Instr.isYield]
      rw [pendingYields] at hzero hids
      simp [interruptEntry, interruptDispatch, pendingYields, hzero, hids, Instr.isYield]
  · rw [hflag] at hoff
    cases hoff

/-- `thread_schedule` gives the CPU to a thread of the ready list. -/
theorem YieldInv.switch (h : YieldInv k log) {new : ThreadId} (hstack : k.stack = .threadYieldBody :: rest)
    (hcurrent_lt : k.currentThread < k.threadCount) (hnew : new ≠ k.currentThread) (hlt : new < k.threadCount)
    {b : Bool} (hcurrent : k'.currentThread = new) (hstack' : k'.stack = k.context new)
    (hcontext : k'.context = Function.update k.context k.currentThread (.threadScheduleReturn b :: rest))
    (hcount : k'.threadCount = k.threadCount) : YieldInv k' ([] ++ log) := by
  refine ⟨fun t id ht hself => ?_, fun id ht => Or.inl ?_⟩
  · rw [stackOf_switch hnew hcurrent_lt hlt hcurrent hstack' hcontext hcount]
    by_cases hold : t = k.currentThread
    · subst hold
      have hsettled := h.settled id ht
      rw [Settled, hstack, pendingYields_cons] at hsettled
      rcases hsettled with hzero | ⟨-, htick⟩
      · exact absurd hzero (Nat.succ_ne_zero _)
      · rw [if_pos rfl, pendingYields_cons]
        cases htick with
        | body _ hrest => exact hrest
    · rw [if_neg hold]
      exact h.parked t id ht hold
  · rw [hcurrent] at ht
    have hparked := h.parked new id ht hnew
    rwa [stackOf_of_ne hnew, if_pos hlt, ← hstack'] at hparked

/-- `thread_create` adds a thread that nobody owes a unit. -/
theorem YieldInv.create (h : YieldInv k log) (hwakeup : WakeupInv k log q)
    (hstack : k.stack = .threadCreateBody :: rest) (hcurrent_lt : k.currentThread < k.threadCount)
    (hcurrent : k'.currentThread = k.currentThread) (hstack' : k'.stack = rest)
    (hcontext : k'.context = Function.update k.context k.threadCount threadEntry)
    (hcount : k'.threadCount = k.threadCount + 1) : YieldInv k' ([] ++ log) := by
  refine ⟨fun t id howed hself => ?_, fun id howed => Or.inl ?_⟩
  · rw [hcurrent] at hself
    rw [stackOf_create hcurrent hcontext hcount, if_neg hself]
    by_cases hfresh : t = k.threadCount
    · have hlast := (hwakeup.owed t id howed).2
      rw [hfresh, stackOf_fresh hcurrent_lt] at hlast
      cases hlast
    · rw [if_neg hfresh]
      exact h.parked t id howed hself
  · rw [hcurrent] at howed
    have hsettled := h.settled id howed
    rw [Settled, hstack, pendingYields_cons] at hsettled
    rcases hsettled with hzero | ⟨-, htick⟩
    · rw [hstack']
      exact (Nat.add_eq_zero_iff.mp hzero).1
    · cases htick

/-- `semaphore_unlock` hands a unit to the first waiter, which has made its `thread_yield`. -/
theorem YieldInv.handOver (h : YieldInv k log) {t : ThreadId} (pushed : List Instr)
    (hreplaces : Replaces k k' (.semaphoreUnlockBody id) pushed rest) (hpushed : pendingYields pushed = 0)
    (hother : t ≠ k.currentThread) (hyielded : pendingYields (stackOf k t) = 0)
    (howed : ∀ other id', owed other id' (events ++ log) = true → other = t ∨ owed other id' log = true) :
    YieldInv k' (events ++ log) := by
  have hstacks := stackOf_frame hreplaces.current hreplaces.context hreplaces.threads
  refine ⟨fun other id' ht hself => ?_, fun id' ht => Or.inl ?_⟩
  · rw [hreplaces.current] at hself
    rw [hstacks, if_neg hself]
    rcases howed other id' ht with rfl | ht
    · exact hyielded
    · exact h.parked other id' ht hself
  · rw [hreplaces.current] at ht
    have hsettled := h.settled id' ((howed _ id' ht).resolve_left hother.symm)
    rw [Settled, hreplaces.stack, pendingYields_cons] at hsettled
    rcases hsettled with hzero | ⟨-, htick⟩
    · rw [hreplaces.stack', pendingYields, List.countP_append]
      exact Nat.add_eq_zero_iff.mpr ⟨hpushed, (Nat.add_eq_zero_iff.mp hzero).1⟩
    · cases htick

theorem yieldInv_step (hinv : Inv .interrupts k log q m) (hwakeup : WakeupInv k log q) (h : YieldInv k log)
    (hact : WakeupRun k log act) (houtcome : Outcome .interrupts k act q k' q' events)
    (hrunning : k'.halted = none) : YieldInv k' (events ++ log) := by
  have hentered : (∀ id, k.stack.getLast? ≠ some (.semaphoreLockReturn id)) →
      ∀ id, owed k.currentThread id log = true → Settled k → Settled k' := by
    intro hlast id howed
    rw [(hwakeup.not_waiting hlast id).2] at howed
    cases howed
  cases houtcome with
  | call op hact hstack => exact h.own rfl rfl rfl (fun _ _ howed => howed) (hentered (by simp [hstack]))
  | interrupt irq handler hact hflag hhandler => exact h.interrupt hflag hhandler
  | switch rest new tail next readyList suspendedList state ready suspended hstack hcount hready hqueues =>
      obtain ⟨hnew, hlt⟩ := hinv.next_thread hready
      exact h.switch hstack hinv.lists.current_lt hnew hlt rfl rfl rfl rfl
  | stay rest hstack =>
      refine h.tick [] ⟨hstack, rfl, rfl, rfl, rfl⟩ (fun _ _ howed => howed) (fun hzero => ?_)
        fun _ htick => Or.inl ?_
      · exact (Nat.add_eq_zero_iff.mp (pendingYields_cons _ rest ▸ hzero)).1
      · cases htick with
        | body _ hrest => exact hrest
  | create rest next readyList hstack =>
      exact h.create hwakeup hstack hinv.lists.current_lt rfl rfl rfl rfl
  | grant id rest event hstack hcount =>
      rcases hstack with ⟨hstack, rfl⟩ | ⟨hstack, rfl⟩
      · exact h.pass [] ⟨hstack, rfl, rfl, rfl, rfl⟩ rfl (fun h => by cases h) fun _ _ howed => howed
      · exact h.pass [] ⟨hstack, rfl, rfl, rfl, rfl⟩ rfl (fun h => by cases h) fun _ _ howed => howed
  | block id rest waiter semaphore hstack hcount hsemaphore =>
      have hrest := lockAtBottom_head hwakeup hstack rfl
      subst hrest
      exact h.own rfl rfl rfl (fun _ _ howed => howed) (hentered (by simp [hstack]))
  | lockReturn id rest hstack =>
      refine h.pass [] ⟨hstack, rfl, rfl, rfl, rfl⟩ rfl (fun h => by cases h) fun t id' howed => ?_
      rw [List.singleton_append, owed] at howed
      split at howed
      · cases howed
      · exact howed
  | pop id rest t waiting semaphore hstack hwaiting ht hsemaphore =>
      have hhead : (k.semaphore id).head = some t := by
        rw [(hinv.waiters.linked id).head_eq, hwaiting]
        rfl
      refine h.handOver [_, _, _] ⟨hstack, rfl, rfl, rfl, rfl⟩ rfl ht (hact.pendingYields_eq hstack hhead)
        fun other id' howed => ?_
      have hsplit : (if t = other ∧ id = id' then true else owed other id' log) = true := howed
      split at hsplit
      · rename_i hself
        exact Or.inl hself.1.symm
      · exact Or.inr hsplit
  | timerCallback rest hstack =>
      refine h.tick [_, _, _] ⟨hstack, rfl, rfl, rfl, rfl⟩ (fun _ _ howed => howed) (fun hzero => ?_)
        fun hflag htick => Or.inr ⟨hflag, ?_⟩
      · rw [pendingYields_cons] at hzero
        cases hzero
      · cases htick with
        | callback _ hrest => exact .lock _ hrest
  | picDisableIrq irq rest hstack =>
      refine h.tick [] ⟨hstack, rfl, rfl, rfl, rfl⟩ (fun _ _ howed => howed) (fun hzero => ?_)
        fun hflag htick => Or.inr ⟨hflag, ?_⟩
      · exact hzero
      · cases htick with
        | disable _ hrest => exact .callback _ hrest
  | spinLock lock rest hstack =>
      refine h.tick [_] ⟨hstack, rfl, rfl, rfl, rfl⟩ (fun _ _ howed => howed) (fun hzero => ?_)
        fun hflag htick => Or.inr ⟨hflag, ?_⟩
      · exact hzero
      · cases htick with
        | lock _ hrest => exact .cli _ _ hrest
  | take lock b rest hstack hfree =>
      refine h.tick [] ⟨hstack, rfl, rfl, rfl, rfl⟩ (fun _ _ howed => howed) (fun hzero => ?_)
        fun _ htick => Or.inr ⟨rfl, ?_⟩
      · exact hzero
      · cases htick with
        | cli _ _ hrest => exact .body _ hrest
  | picEnableIrq irq rest hstack =>
      exact h.pass [_] ⟨hstack, rfl, rfl, rfl, rfl⟩ rfl (fun h => by cases h) fun _ _ howed => howed
  | unlock lock rest hstack | scheduleReturn b rest hstack | wakeup t rest next ready suspended hstack
  | createAssert rest hstack | refuse id rest hstack | increment id rest hstack | picOut irq mask rest hstack
  | iret b rest hstack =>
      exact h.pass [] ⟨hstack, rfl, rfl, rfl, rfl⟩ rfl (fun h => by cases h) fun _ _ howed => howed
  | stop => cases hrunning

/-! ### Runs -/

/-- The running thread returns from `semaphore_lock` by steps of its own. -/
def Returns (k : Kernel) (id : SemaphoreId) : Prop :=
  ∃ k' log', Reachable k step (fun _ _ act => act = .run) k' log' ∧ .lockReturned k.currentThread id ∈ log'

/-- With no `thread_schedule` ahead of it the thread cannot leave the CPU. -/
theorem ReturnsOrYields.returns (h : ReturnsOrYields k id) (hzero : pendingYields k.stack = 0) : Returns k id := by
  obtain ⟨k', log', hreach, hreturned | ⟨-, hless⟩⟩ := h
  · exact ⟨k', log', hreach, hreturned⟩
  · rw [hzero] at hless
    cases hless

/-- What the wake-up of a thread promises in every state. -/
structure WakeupSafe (k : Kernel) (log : List Event) : Prop where
  running : k.halted = none
  apart : ∃ ready, Linked k.next k.readyList ready ∧ k.currentThread ∉ ready
  /-- A thread that is owed a unit runs, is ready, or is being put on the ready list. -/
  scheduled : ∀ t id, owed t id log = true →
    (t = k.currentThread ∧ k.state t = .running) ∨
      (k.state t = .ready ∧ ∃ ready, Linked k.next k.readyList ready ∧ t ∈ ready) ∨
      wakeupTarget k.stack = some t
  /-- When the scheduler switches to it, its own steps take it out of `semaphore_lock`. -/
  returns : ∀ k' events id, WakeupRun k log .run → step k .run = some (k', events) →
    k'.currentThread ≠ k.currentThread → owed k'.currentThread id (events ++ log) = true → Returns k' id
  /-- So they do wherever it runs, except in the handler of a tick, which it leaves as a ready thread with no
  `thread_schedule` ahead of it or goes on from to return. -/
  preempted : ∀ id, owed k.currentThread id log = true →
    Returns k id ∨ (k.interruptFlag = false ∧ InTick k.stack ∧ ReturnsOrYields k id)

/-- What every run keeps. -/
structure ReturnInv (k : Kernel) (log : List Event) (q : Queues) : Prop where
  wakeup : WakeupInv k log q
  yields : YieldInv k log

theorem WakeupRun.conditions (h : WakeupRun k log act) : Allowed .interrupts k log act ∧ ReadyWhenBlocking k :=
  ⟨h.signal.allowed, h.signal.interrupt.ready⟩

theorem returnInv_step (hinv : Inv .interrupts k log q m) (h : ReturnInv k log q) (hact : WakeupRun k log act)
    (houtcome : Outcome .interrupts k act q k' q' events) (hrunning : k'.halted = none) :
    ReturnInv k' (events ++ log) q' :=
  ⟨wakeup_step hinv h.wakeup houtcome hrunning, yieldInv_step hinv h.wakeup h.yields hact houtcome hrunning⟩

/-- Only a stack switch changes the running thread, and the new one has no `thread_schedule` ahead of it. -/
theorem YieldInv.switched (h : YieldInv k log) (hinv : Inv .interrupts k log q m)
    (houtcome : Outcome .interrupts k act q k' q' events) (hrunning : k'.halted = none)
    (hswitched : k'.currentThread ≠ k.currentThread) (howed : owed k'.currentThread id (events ++ log) = true) :
    pendingYields k'.stack = 0 := by
  cases houtcome with
  | switch rest new tail next readyList suspendedList state ready suspended hstack hcount hready hqueues =>
      obtain ⟨hnew, hlt⟩ := hinv.next_thread hready
      have hparked := h.parked new id howed hnew
      rwa [stackOf_of_ne hnew, if_pos hlt] at hparked
  | stop => cases hrunning
  | _ => exact absurd rfl hswitched

/-- Wake-ups from threads and from interrupt handlers are safe as long as nobody pops the waiter of a thread
that has its `thread_yield` still to make. -/
theorem wakeup_safe (h : Reachable (threadInit initialCount) step WakeupRun k log) :
    WakeupSafe k log := by
  obtain ⟨hrunning, q, m, hinv, hwakeup, hyields⟩ := running_invariant .interrupts (P := ReturnInv) rfl
    (fun _ _ _ hact => hact.conditions) ⟨wakeup_init, nofun, nofun⟩
    (fun k k' log events q q' m m' act hinv hsafe hact houtcome hrunning _ =>
      returnInv_step hinv hsafe hact houtcome hrunning) h
  refine ⟨hrunning, ⟨q.ready, hinv.lists.ready_linked, hinv.lists.current_not_ready⟩,
    fun t id howed => ?_, fun k' events id hact hstep hswitched howed => ?_, fun id howed => ?_⟩
  · exact hwakeup.scheduled hinv howed
  · obtain ⟨q', houtcome, hnext⟩ := step_inv hinv hact.conditions.1 hstep
    have hrunning' := hinv.not_stopped rfl hact.conditions.2 houtcome hrunning
    obtain ⟨m', hinv'⟩ := hnext hrunning'
    have hwakeup' := wakeup_step hinv hwakeup houtcome hrunning'
    have hzero := hyields.switched hinv houtcome hrunning' hswitched howed
    exact (returnsOrYields hinv' hwakeup' howed hrunning').returns hzero
  · have hreturns := returnsOrYields hinv hwakeup howed hrunning
    rcases hyields.settled id howed with hzero | ⟨hflag, htick⟩
    · exact Or.inl (hreturns.returns hzero)
    · exact Or.inr ⟨hflag, htick, hreturns⟩

theorem wakeup_safe_signalled : ∃ k log,
    Reachable (threadInit fun _ => 0) step WakeupRun k log ∧ owed k.currentThread 0 log = true ∧
      WakeupSafe k log := by
  have h : Reachable (threadInit fun _ => 0) step WakeupRun _ _ :=
    reachable_of_replay signalRun (by decide)
  exact ⟨_, _, h, by decide, wakeup_safe h⟩

/-- A handler unlocks between the `spin_unlock` of `semaphore_lock` and its `thread_yield`. -/
def windowRun : List Act :=
  .call .threadCreate :: List.replicate 5 .run ++ .call (.semaphoreLock 0) :: List.replicate 3 .run ++
    .irq 9 [0] :: List.replicate 5 .run

/-- There a tick takes `thread0` off the CPU; the other thread unlocks and yields to it. -/
def preemptedRun : List Act :=
  .call .threadCreate :: List.replicate 5 .run ++ .call (.semaphoreLock 0) :: List.replicate 3 .run ++
    .timer :: List.replicate 9 .run ++ .call (.semaphoreUnlock 0) :: List.replicate 6 .run ++
    .call .threadYield :: List.replicate 3 .run

/-- The thread is put on the ready list while it runs, and its `thread_yield` is fatal. After a tick in the same
place it is woken in time, but at its next turn it leaves the CPU again, still inside `semaphore_lock`. -/
theorem wakeup_in_window :
    (∃ k log, Reachable (threadInit fun _ => 0) step InterruptRun k log ∧
      ∃ ready, Linked k.next k.readyList ready ∧ k.currentThread ∈ ready) ∧
    (∃ k log, Reachable (threadInit fun _ => 0) step InterruptRun k log ∧
      k.halted = some .currentThreadIsNotRunning) ∧
    ∃ k log k' log', Reachable (threadInit fun _ => 0) step InterruptRun k log ∧
      owed k.currentThread 0 log = true ∧ Reachable k step (fun _ _ act => act = .run) k' log' ∧
      k'.currentThread ≠ k.currentThread ∧ k'.state k.currentThread = .ready ∧
      .lockReturned k.currentThread 0 ∉ log' := by
  refine ⟨⟨_, _, reachable_of_replay windowRun (by decide), [1, 0], ?_, by decide⟩,
    ⟨_, _, reachable_of_replay (windowRun ++ List.replicate 8 .run) (by decide), by decide⟩,
    ⟨_, _, _, _, reachable_of_replay preemptedRun (by decide), by decide,
      reachable_of_replay (List.replicate 8 .run) (by decide), by decide, by decide, by decide⟩⟩
  exact ⟨by decide, by decide, segment_nil.mpr (by decide)⟩

end Kiznix
