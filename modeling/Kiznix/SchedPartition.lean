import Kiznix.SchedQueueStep

/-! The scheduler partitions the threads. In every run in which threads use the scheduler and the
semaphores, the timer preempts and a blocking thread finds another one ready, the machine never stops;
whenever `scheduler_lock` is free, every thread is in exactly one place and its state field says which. -/

namespace Kiznix

open LinkedList RunLog

variable {env : Env} {k k' : Kernel} {log events : List Event} {q q' : Queues} {m m' : Mode}
  {initialCount : SemaphoreId → Nat} {act : Act}

/-- When a thread blocks, some other thread is ready. -/
def ReadyWhenBlocking (k : Kernel) : Prop :=
  k.stack.head? = some .threadYieldBody → k.state k.currentThread = .suspended → k.readyList ≠ none

instance : Decidable (ReadyWhenBlocking k) := by
  unfold ReadyWhenBlocking
  infer_instance

def Act.isIrq : Act → Bool
  | .irq _ _ => true
  | _ => false

def Act.usesSpinlock : Act → Bool
  | .call (.spinLock _) => true
  | .call (.spinUnlock _) => true
  | _ => false

/-- Threads call the scheduler and the semaphores, and only the timer interrupts them. -/
structure PreemptedRun (k : Kernel) (log : List Event) (act : Act) : Prop where
  irq : act.isIrq = false
  spinlock : act.usesSpinlock = false

instance (act : Act) : Decidable (PreemptedRun k log act) :=
  decidable_of_iff (act.isIrq = false ∧ act.usesSpinlock = false)
    ⟨fun h => ⟨h.1, h.2⟩, fun h => ⟨h.irq, h.spinlock⟩⟩

/-- Besides, a blocking thread finds another one ready. -/
structure ThreadRun (k : Kernel) (log : List Event) (act : Act) : Prop where
  preempted : PreemptedRun k log act
  ready : ReadyWhenBlocking k

instance (act : Act) : Decidable (ThreadRun k log act) :=
  decidable_of_iff (PreemptedRun k log act ∧ ReadyWhenBlocking k)
    ⟨fun h => ⟨h.1, h.2⟩, fun h => ⟨h.preempted, h.ready⟩⟩

/-- Threads alone: no other interrupt handler, no spinlocks of their own. -/
def Env.threads : Env := { signals := false, userLocks := false }

theorem PreemptedRun.allowed {act : Act} (h : PreemptedRun k log act) :
    Allowed .threads k log act := by
  refine ⟨fun id hact => ?_, fun id hact => ?_, fun irq ids hact => ?_, fun hsignals => ?_⟩
  · rw [hact] at h
    cases h.spinlock
  · rw [hact] at h
    cases h.spinlock
  · rw [hact] at h
    cases h.irq
  · cases hsignals

/-! ### The machine does not stop -/

/-- Without spinlocks of the callers' own, only the kernel's locks are counted. -/
theorem Inv.count_eq (h : Inv env k log q m) (henv : env.userLocks = false) :
    k.gSpinLockCount = m.held.locks.length := by
  have husers : m.users = [] := by
    by_contra hne
    rw [h.users hne] at henv
    cases henv
  rw [h.locks.counted, Mode.locks, husers, List.map_nil, List.append_nil]

theorem Inv.count_at_yield (h : Inv env k log q m) (henv : env.userLocks = false) {rest : List Instr}
    (hstack : k.stack = .threadYieldBody :: rest) : k.gSpinLockCount = 1 := by
  have hheld : m.held = .scheduler := (h.at_head hstack).1
  rw [h.count_eq henv, hheld]
  rfl

/-- Without spinlocks of the callers' own, a thread that blocks while another one is ready stops
nothing. -/
theorem Inv.not_stopped (h : Inv env k log q m) (henv : env.userLocks = false)
    (hready : ReadyWhenBlocking k) (houtcome : Outcome env k act q k' q' events) (hrunning : k.halted = none) :
    k'.halted = none := by
  cases houtcome with
  | stop k'' reason hreason hlock hcount =>
      exfalso
      rcases hreason with ⟨-, hne, rest, hstack⟩ | ⟨-, hnil, hstate, rest, hstack⟩ |
        ⟨-, hne, rest, hstack⟩
      · exact hne (h.count_at_yield henv hstack)
      · refine hready (by rw [hstack]; rfl) hstate ?_
        rw [h.lists.ready_linked.head_eq, hnil]
        rfl
      · have hheld : m.held = .none := (h.at_head hstack).1.1
        refine hne ?_
        rw [h.count_eq henv, hheld]
        rfl
  | _ => exact hrunning

/-- The step rule for runs that do not stop: an invariant over the queues and the history may use the
machine's invariant and the list of outcomes. -/
theorem running_invariant (env : Env) {allowed : Kernel → List Event → Act → Prop} (henv : env.userLocks = false)
    (hallowed : ∀ k log act, allowed k log act → Allowed env k log act ∧ ReadyWhenBlocking k)
    {P : Kernel → List Event → Queues → Prop}
    (hinit : P (threadInit initialCount) [] { ready := [], suspended := [], waiting := fun _ => [] })
    (hstep : ∀ k k' log events q q' m m' act, Inv env k log q m → P k log q → allowed k log act →
      Outcome env k act q k' q' events → k'.halted = none → Inv env k' (events ++ log) q' m' →
      P k' (events ++ log) q')
    (h : Reachable (threadInit initialCount) step allowed k log) :
    k.halted = none ∧ ∃ q m, Inv env k log q m ∧ P k log q := by
  refine h.invariant
    (P := fun k log => k.halted = none ∧ ∃ q m, Inv env k log q m ∧ P k log q)
    ⟨rfl, _, _, init_inv env initialCount, hinit⟩ ?_
  intro k k' log events act _ hinv hact hrun
  obtain ⟨hrunning, q, m, hinv, hp⟩ := hinv
  obtain ⟨hact', hready⟩ := hallowed k log act hact
  obtain ⟨q', houtcome, hnext⟩ := step_inv hinv hact' hrun
  have hrunning' := hinv.not_stopped henv hready houtcome hrunning
  obtain ⟨m', hinv'⟩ := hnext hrunning'
  exact ⟨hrunning', q', m', hinv', hstep _ _ _ _ _ _ _ _ _ hinv hp hact houtcome hrunning' hinv'⟩

/-! ### The partition -/

/-- The waiter list of the semaphore holds the thread. -/
def WaitsOn (k : Kernel) (t : ThreadId) (id : SemaphoreId) : Prop :=
  ∃ nodes, Linked (waiterNext k.waiter) (k.semaphore id).head nodes ∧ t ∈ nodes

/-- The running thread is between the `spin_unlock` of `semaphore_lock` and the next
`thread_schedule`: the `thread_yield` of `semaphore_lock` has not yet called it. -/
def InBlockWindow (k : Kernel) : Prop :=
  ∃ before id rest, k.blocker k.currentThread = some id ∧
    k.stack = before ++ .threadYieldBody :: .spinUnlock .scheduler :: .semaphoreLockReturn id :: rest

structure Partitioned (k : Kernel) (ready suspended : List ThreadId) : Prop where
  ready_linked : Linked k.next k.readyList ready
  suspended_linked : Linked k.next k.suspendedList suspended
  /-- Running, ready and suspended threads are the created ones, each exactly once. -/
  partition : (k.currentThread :: ready ++ suspended).Perm (List.range k.threadCount)
  nodup : (k.currentThread :: ready ++ suspended).Nodup
  ready_state : ∀ t ∈ ready, k.state t = .ready
  suspended_state : ∀ t ∈ suspended, k.state t = .suspended
  current_state : k.state k.currentThread = .running ∨
    (k.state k.currentThread = .suspended ∧ InBlockWindow k)
  blocked : ∀ t < k.threadCount, k.state t = .suspended →
    ∃ id, k.blocker t = some id ∧ ∀ id', WaitsOn k t id' ↔ id' = id

/-- A running thread that is marked suspended is in the window. -/
def Windowed (k : Kernel) : Prop :=
  k.state k.currentThread = .suspended → InBlockWindow k

/-- A step that consumes the head of the stack, or pushes on it, leaves the window only through
`thread_schedule`. -/
theorem Windowed.push (h : Windowed k) {instr : Instr} {rest : List Instr} (pushed : List Instr)
    (hstack : k.stack = instr :: rest) (hstack' : k'.stack = pushed ++ rest)
    (hinstr : instr ≠ .threadYieldBody)
    (hstate : k'.state k'.currentThread = .suspended → k.state k.currentThread = .suspended)
    (hblocker : k'.blocker k'.currentThread = k.blocker k.currentThread) : Windowed k' := by
  intro hsuspended
  obtain ⟨before, id, tail, hid, hwindow⟩ := h (hstate hsuspended)
  rw [hstack] at hwindow
  cases before with
  | nil => exact absurd (List.cons.inj hwindow).1 hinstr
  | cons first before =>
      refine ⟨pushed ++ before, id, tail, by rw [hblocker, hid], ?_⟩
      rw [hstack', List.append_assoc]
      exact congrArg _ (List.cons.inj hwindow).2

theorem windowed_step (h : Inv env k log q m) (hwindow : Windowed k)
    (houtcome : Outcome env k act q k' q' events) (hrunning : k'.halted = none) : Windowed k' := by
  cases houtcome with
  | call op hact hstack =>
      intro hsuspended
      obtain ⟨before, id, rest, -, hwindow⟩ := hwindow hsuspended
      rw [hstack] at hwindow
      simp at hwindow
  | interrupt irq handler hact hflag hhandler =>
      intro hsuspended
      obtain ⟨before, id, rest, hid, hwindow⟩ := hwindow hsuspended
      refine ⟨interruptDispatch irq handler ++ .iret k.interruptFlag :: before, id, rest, hid, ?_⟩
      simp [interruptEntry, hwindow]
  | stay rest hstack hcount hready hstate =>
      intro hsuspended
      rw [hstate] at hsuspended
      cases hsuspended
  | switch rest new tail next readyList suspendedList state ready suspended hstack hcount hready
      hqueues =>
      intro hsuspended
      rcases hqueues with ⟨-, -, -, rfl⟩ | ⟨-, -, -, rfl⟩ <;> simp at hsuspended
  | wakeup t rest next readyList suspendedList hstack ht =>
      have hne : k.currentThread ≠ t := fun heq => h.lists.current_not_suspended (heq ▸ ht)
      refine hwindow.push [] hstack rfl (by simp) ?_ ?_
      · simp [hne]
      · simp [hne]
  | create rest next readyList hstack =>
      have hne : k.currentThread ≠ k.threadCount := Nat.ne_of_lt h.lists.current_lt
      refine hwindow.push [] hstack rfl (by simp) ?_ ?_
      · simp [hne]
      · simp [hne]
  | block id rest waiter semaphore hstack hcount hsemaphore =>
      exact fun _ => ⟨[.spinLock .scheduler], id, rest, by simp, rfl⟩
  | grant id rest event hstack hcount =>
      rcases hstack with ⟨hstack, -⟩ | ⟨hstack, -⟩
      · exact hwindow.push [] hstack rfl (by simp) (fun h => h) rfl
      · exact hwindow.push [] hstack rfl (by simp) (fun h => h) rfl
  | spinLock lock rest hstack => exact hwindow.push [_] hstack rfl (by simp) (fun h => h) rfl
  | picEnableIrq irq rest hstack => exact hwindow.push [_] hstack rfl (by simp) (fun h => h) rfl
  | pop id rest t waiting semaphore hstack hwaiting ht hsemaphore =>
      exact hwindow.push [_, _, _] hstack rfl (by simp) (fun h => h) rfl
  | timerCallback rest hstack => exact hwindow.push _ hstack rfl (by simp) (fun h => h) rfl
  | take lock b rest hstack => exact hwindow.push [] hstack rfl (by simp) (fun h => h) rfl
  | unlock lock rest hstack => exact hwindow.push [] hstack rfl (by simp) (fun h => h) rfl
  | scheduleReturn b rest hstack => exact hwindow.push [] hstack rfl (by simp) (fun h => h) rfl
  | createAssert rest hstack => exact hwindow.push [] hstack rfl (by simp) (fun h => h) rfl
  | refuse id rest hstack => exact hwindow.push [] hstack rfl (by simp) (fun h => h) rfl
  | lockReturn id rest hstack =>
      exact hwindow.push [] hstack rfl (by simp) (fun h => h) rfl
  | increment id rest hstack =>
      exact hwindow.push [] hstack rfl (by simp) (fun h => h) rfl
  | picDisableIrq irq rest hstack => exact hwindow.push [] hstack rfl (by simp) (fun h => h) rfl
  | picOut irq mask rest hstack => exact hwindow.push [] hstack rfl (by simp) (fun h => h) rfl
  | iret b rest hstack => exact hwindow.push [] hstack rfl (by simp) (fun h => h) rfl
  | stop => cases hrunning

theorem Inv.waitsOn_iff (h : Inv env k log q m) (t : ThreadId) (id : SemaphoreId) :
    WaitsOn k t id ↔ t ∈ q.waiting id := by
  refine ⟨fun ⟨nodes, hlinked, hmem⟩ => ?_, fun hmem => ⟨q.waiting id, h.waiters.linked id, hmem⟩⟩
  rwa [linked_unique (h.waiters.linked id) hlinked]

theorem Inv.partitioned (h : Inv env k log q m) (hwindow : Windowed k)
    (hfree : k.lock .scheduler = false) : Partitioned k q.ready q.suspended := by
  have hpending : wakeupTarget k.stack = none := by
    refine wakeupTarget_of_typed h.typed fun id hheld => ?_
    rw [← Bool.not_eq_true, h.locks.locked, Mode.locks, hheld] at hfree
    simp [Held.locks] at hfree
  refine ⟨h.lists.ready_linked, h.lists.suspended_linked, h.lists.partition, h.lists.nodup,
    h.lists.ready_state, h.lists.suspended_state, ?_, fun t hlt hstate => ?_⟩
  · cases hstate : k.state k.currentThread with
    | ready => exact absurd hstate h.lists.current_state
    | running => exact Or.inl rfl
    | suspended => exact Or.inr ⟨rfl, hwindow hstate⟩
  · have hwaiters := h.waiters_at _ hpending
    obtain ⟨id, hmem⟩ := hwaiters.waits t hlt hstate (Option.some_ne_none _).symm
    refine ⟨id, (hwaiters.blocked id t hmem).2.2, fun id' => ?_⟩
    rw [h.waitsOn_iff]
    exact ⟨fun hmem' => hwaiters.unique hmem' hmem, fun heq => by rwa [heq]⟩

/-- No thread is lost, none runs twice, and no `fatal` is reached. -/
theorem scheduler_partition (h : Reachable (threadInit initialCount) step ThreadRun k log) :
    k.halted = none ∧
      (k.lock .scheduler = false → ∃ ready suspended, Partitioned k ready suspended) := by
  obtain ⟨hrunning, q, m, hinv, hwindow⟩ := running_invariant .threads
    (P := fun k _ _ => Windowed k) rfl (fun _ _ _ hact => ⟨hact.preempted.allowed, hact.ready⟩)
    (fun hstate => nomatch hstate)
    (fun k k' log events q q' m m' act hinv hwindow _ houtcome hrunning _ =>
      windowed_step hinv hwindow houtcome hrunning) h
  exact ⟨hrunning, fun hfree => ⟨q.ready, q.suspended, hinv.partitioned hwindow hfree⟩⟩

/-- `thread0` creates a thread and blocks. -/
def blockingRun : List Act :=
  .call .threadCreate :: List.replicate 5 .run ++ .call (.semaphoreLock 0) :: List.replicate 7 .run

theorem scheduler_partition_blocked : ∃ k log,
    Reachable (threadInit fun _ => 0) step ThreadRun k log ∧ k.state 0 = .suspended ∧
      k.lock .scheduler = false ∧ k.halted = none ∧
      (k.lock .scheduler = false → ∃ ready suspended, Partitioned k ready suspended) := by
  have h : Reachable (threadInit fun _ => 0) step ThreadRun _ _ :=
    reachable_of_replay blockingRun (by decide)
  exact ⟨_, _, h, by decide, by decide, scheduler_partition h⟩

end Kiznix
