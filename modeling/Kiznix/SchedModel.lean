import Kiznix.SchedList
import Kiznix.RunLog

/-! The scheduler, the spinlocks and the semaphores on one processor. The stack of a thread is the list
of program points it still has to execute. A step runs the code between two lock operations, or up to
the stack switch; everything in between runs with interrupts disabled or touches only the thread's own
data. Where interrupts are enabled between two steps, the timer and the other interrupt lines may push
the code of `interrupt_dispatch` on the running stack. -/

namespace Kiznix

/-- A `semaphore_t*`. -/
abbrev SemaphoreId := Nat

inductive ThreadState where
  | running
  | ready
  | suspended
  deriving DecidableEq, Repr

/-- The `spinlock_t` objects: `scheduler_lock`, the lock inside a semaphore, and the locks that callers
define for themselves. They are distinct four-byte objects of kernel memory, so their number stays far
below the range of `g_spinLockCount`. -/
inductive Spinlock where
  | scheduler
  | semaphore (id : SemaphoreId)
  | user (id : Nat)
  deriving DecidableEq, Repr

/-- A program point, with the local variables that live across it. -/
inductive Instr where
  | spinLock (lock : Spinlock)
  | spinLockCli (lock : Spinlock) (interruptsEnabled : Bool)
  | spinLockSpin (lock : Spinlock)
  | spinUnlock (lock : Spinlock)
  | threadYieldBody
  | threadScheduleReturn (interruptsEnabled : Bool)
  | threadWakeupBody (thread : ThreadId)
  | threadCreateAssert
  | threadCreateBody
  | semaphoreLockBody (id : SemaphoreId)
  | semaphoreLockReturn (id : SemaphoreId)
  | semaphoreTryLockBody (id : SemaphoreId)
  | semaphoreUnlockBody (id : SemaphoreId)
  | timerCallback
  | picDisableIrq (irq : Nat)
  | picEnableIrq (irq : Nat)
  | picOut (irq : Nat) (mask : BitVec 8)
  | iret (interruptFlag : Bool)
  deriving DecidableEq, Repr

/-! ### Code of the functions -/

def threadYield : List Instr :=
  [.spinLock .scheduler, .threadYieldBody, .spinUnlock .scheduler]

def threadWakeup (thread : ThreadId) : List Instr :=
  [.spinLock .scheduler, .threadWakeupBody thread, .spinUnlock .scheduler]

/-- What a new stack executes: `thread_entry`, then `interrupt_exit` into the thread function. -/
def threadEntry : List Instr :=
  [.spinUnlock .scheduler, .picEnableIrq 0, .iret true]

def threadCreate : List Instr :=
  [.threadCreateAssert, .spinLock .scheduler, .threadCreateBody, .spinUnlock .scheduler]

def semaphoreLock (id : SemaphoreId) : List Instr :=
  [.spinLock (.semaphore id), .semaphoreLockBody id]

def semaphoreTryLock (id : SemaphoreId) : List Instr :=
  [.spinLock (.semaphore id), .semaphoreTryLockBody id]

def semaphoreUnlock (id : SemaphoreId) : List Instr :=
  [.spinLock (.semaphore id), .semaphoreUnlockBody id]

/-- `interrupt_dispatch` for a genuine IRQ. -/
def interruptDispatch (irq : Nat) (handler : List Instr) : List Instr :=
  .picDisableIrq irq :: handler ++ [.picEnableIrq irq]

/-! ### Machine state -/

structure Semaphore where
  count : Int
  head : Option ThreadId
  tail : Option ThreadId
  deriving DecidableEq, Repr

/-- A `waiter_t` on the stack of the thread that waits. -/
structure Waiter where
  thread : ThreadId
  next : Option ThreadId
  deriving DecidableEq, Repr

structure PicMasks where
  master : BitVec 8
  slave : BitVec 8
  deriving DecidableEq, Repr

/-- Why the machine stopped: the `fatal` calls of `thread.c`, a failed `assert`, a dereference of a null
`new_thread` or of a `waiter_t` whose stack frame is gone, and a list walk that does not end. -/
inductive Halt where
  | schedulerNotLocked
  | spinLockCountIsNotOne
  | currentThreadIsRunning
  | interruptsAreEnabled
  | threadIsNotSuspended
  | currentThreadIsNotRunning
  | assertion
  | nullThread
  | deadWaiter
  | endlessList
  deriving DecidableEq, Repr

structure Kernel where
  interruptFlag : Bool
  gSpinLockCount : Nat
  gInterruptsEnabled : Bool
  lock : Spinlock → Bool
  timerTick : BitVec 64
  masks : PicMasks
  state : ThreadId → ThreadState
  next : Links
  blocker : ThreadId → Option SemaphoreId
  /-- What a thread that is not running executes once it is switched to. -/
  context : ThreadId → List Instr
  threadCount : Nat
  currentThread : ThreadId
  readyList : Option ThreadId
  suspendedList : Option ThreadId
  semaphore : SemaphoreId → Semaphore
  /-- The live `waiter_t` nodes; a node has the address of its thread's stack. -/
  waiter : ThreadId → Option Waiter
  /-- What the running thread still has to execute; empty in the thread function. -/
  stack : List Instr
  halted : Option Halt

/-- What the history records. -/
inductive Event where
  | acquired (thread : ThreadId) (lock : Spinlock) (interruptFlag outermost : Bool)
  | released (thread : ThreadId) (lock : Spinlock)
  | lockGranted (thread : ThreadId) (id : SemaphoreId)
  | tryLockGranted (thread : ThreadId) (id : SemaphoreId)
  | tryLockRefused (thread : ThreadId) (id : SemaphoreId)
  | enqueued (thread : ThreadId) (id : SemaphoreId)
  | lockReturned (thread : ThreadId) (id : SemaphoreId)
  | unlocked (thread : ThreadId) (id : SemaphoreId)
  | handedOver (thread waiter : ThreadId) (id : SemaphoreId)
  deriving DecidableEq, Repr

def fatal (k : Kernel) (reason : Halt) : Kernel :=
  { k with interruptFlag := false, halted := some reason }

/-! ### Spinlocks -/

/-- `spin_lock` from `interrupt_disable` on. -/
def spinLockTake (k : Kernel) (lock : Spinlock) (interruptsEnabled : Bool) (rest : List Instr) :
    Kernel × List Event :=
  let k' := { k with
    interruptFlag := false
    gSpinLockCount := k.gSpinLockCount + 1
    gInterruptsEnabled := if k.gSpinLockCount = 0 then interruptsEnabled else k.gInterruptsEnabled }
  if k.lock lock then
    ({ k' with stack := .spinLockSpin lock :: rest }, [])
  else
    ({ k' with lock := Function.update k.lock lock true, stack := rest },
      [.acquired k.currentThread lock interruptsEnabled (k.gSpinLockCount = 0)])

def spinUnlock (k : Kernel) (lock : Spinlock) (rest : List Instr) : Kernel × List Event :=
  if k.interruptFlag ∨ k.gSpinLockCount = 0 then (fatal k .assertion, [])
  else
    ({ k with
        lock := Function.update k.lock lock false
        gSpinLockCount := k.gSpinLockCount - 1
        interruptFlag := decide (k.gSpinLockCount - 1 = 0) && k.gInterruptsEnabled
        stack := rest },
      [.released k.currentThread lock])

/-! ### Scheduler -/

/-- `thread_schedule` from the append on, up to the stack switch. -/
def threadSwitch (k : Kernel) (rest : List Instr) : Kernel :=
  let old := k.currentThread
  let toReady := k.state old = .ready
  match listAppend k.threadCount k.next (if toReady then k.readyList else k.suspendedList) old with
  | none => fatal k .endlessList
  | some (next, head) =>
      match listPop next (if toReady then head else k.readyList) with
      | (none, _, _) => fatal k .nullThread
      | (some new, next, readyList) =>
          { k with
            next := next
            readyList := readyList
            suspendedList := if toReady then k.suspendedList else head
            state := Function.update k.state new .running
            currentThread := new
            context := Function.update k.context old (.threadScheduleReturn k.gInterruptsEnabled :: rest)
            stack := k.context new }

def threadSchedule (k : Kernel) (rest : List Instr) : Kernel :=
  if k.lock .scheduler = false then fatal k .schedulerNotLocked
  else if k.gSpinLockCount ≠ 1 then fatal k .spinLockCountIsNotOne
  else if k.state k.currentThread = .running then fatal k .currentThreadIsRunning
  else if k.interruptFlag then fatal k .interruptsAreEnabled
  else if k.readyList = none ∧ k.state k.currentThread = .ready then
    { k with state := Function.update k.state k.currentThread .running, stack := rest }
  else threadSwitch k rest

def threadYieldStep (k : Kernel) (rest : List Instr) : Kernel :=
  match k.state k.currentThread with
  | .ready => fatal k .currentThreadIsNotRunning
  | .running =>
      threadSchedule { k with state := Function.update k.state k.currentThread .ready } rest
  | .suspended => threadSchedule k rest

def threadWakeupStep (k : Kernel) (thread : ThreadId) (rest : List Instr) : Kernel :=
  if k.state thread ≠ .suspended then fatal k .threadIsNotSuspended
  else
    match listRemove k.threadCount k.next k.suspendedList thread with
    | none => fatal k .endlessList
    | some (next, suspendedList) =>
        match listAppend k.threadCount next k.readyList thread with
        | none => fatal k .endlessList
        | some (next, readyList) =>
            { k with
              state := Function.update k.state thread .ready
              blocker := Function.update k.blocker thread none
              next := next
              suspendedList := suspendedList
              readyList := readyList
              stack := rest }

/-- `thread_create` with the lock held. The block that `malloc` returned is private until now, so its
initialisation is folded into this step and the block is named here. -/
def threadCreateStep (k : Kernel) (rest : List Instr) : Kernel :=
  match listAppend k.threadCount k.next k.readyList k.threadCount with
  | none => fatal k .endlessList
  | some (next, readyList) =>
      { k with
        state := Function.update k.state k.threadCount .ready
        blocker := Function.update k.blocker k.threadCount none
        context := Function.update k.context k.threadCount threadEntry
        next := next
        readyList := readyList
        threadCount := k.threadCount + 1
        stack := rest }

/-! ### Semaphores -/

/-- `++` on a 32-bit `int`. -/
def intIncrement (count : Int) : Int := Int.bmod (count + 1) (2 ^ 32)

/-- The function asserts that the initial count is not negative. -/
def semaphoreInit (initialCount : Nat) : Semaphore :=
  { count := initialCount, head := none, tail := none }

/-- A mutex is this semaphore; its other functions are those of the semaphore. -/
def mutexInit : Semaphore := semaphoreInit 1

def setSemaphore (k : Kernel) (id : SemaphoreId) (semaphore : Semaphore) : Kernel :=
  { k with semaphore := Function.update k.semaphore id semaphore }

/-- Queue a waiter for the running thread: the waiter nodes and the semaphore after the call. -/
def enqueueWaiter (waiter : ThreadId → Option Waiter) (semaphore : Semaphore) (thread : ThreadId) :
    Option ((ThreadId → Option Waiter) × Semaphore) :=
  let waiter := Function.update waiter thread (some { thread := thread, next := none })
  match semaphore.tail with
  | none => some (waiter, { semaphore with head := some thread, tail := some thread })
  | some last =>
      (waiter last).map fun node =>
        (Function.update waiter last (some { node with next := some thread }),
          { semaphore with tail := some thread })

def semaphoreLockStep (k : Kernel) (id : SemaphoreId) (rest : List Instr) : Kernel × List Event :=
  let thread := k.currentThread
  let semaphore := k.semaphore id
  if semaphore.count > 0 then
    let (k, events) := spinUnlock (setSemaphore k id { semaphore with count := semaphore.count - 1 })
      (.semaphore id) rest
    (k, events ++ [.lockGranted thread id])
  else
    match enqueueWaiter k.waiter semaphore thread with
    | none => (fatal k .deadWaiter, [])
    | some (waiter, semaphore) =>
        let (k, events) := spinUnlock
          { setSemaphore k id semaphore with
            waiter := waiter
            state := Function.update k.state thread .suspended
            blocker := Function.update k.blocker thread (some id) }
          (.semaphore id) (threadYield ++ .semaphoreLockReturn id :: rest)
        (k, events ++ [.enqueued thread id])

def semaphoreTryLockStep (k : Kernel) (id : SemaphoreId) (rest : List Instr) : Kernel × List Event :=
  let thread := k.currentThread
  let semaphore := k.semaphore id
  if semaphore.count > 0 then
    let (k, events) := spinUnlock (setSemaphore k id { semaphore with count := semaphore.count - 1 })
      (.semaphore id) rest
    (k, events ++ [.tryLockGranted thread id])
  else
    let (k, events) := spinUnlock k (.semaphore id) rest
    (k, events ++ [.tryLockRefused thread id])

/-- `semaphore_unlock` with the lock held; the branch that wakes a thread runs through the `spin_lock` at the
head of `thread_wakeup`. -/
def semaphoreUnlockStep (k : Kernel) (id : SemaphoreId) (rest : List Instr) : Kernel × List Event :=
  let thread := k.currentThread
  let semaphore := k.semaphore id
  match semaphore.head with
  | none =>
      let (k, events) := spinUnlock
        (setSemaphore k id { semaphore with count := intIncrement semaphore.count })
        (.semaphore id) rest
      (k, events ++ [.unlocked thread id])
  | some waiter =>
      match k.waiter waiter with
      | none => (fatal k .deadWaiter, [])
      | some node =>
          let semaphore := { semaphore with
            head := node.next
            tail := if node.next = none then none else semaphore.tail }
          let (k, events) := spinLockTake (setSemaphore k id semaphore) .scheduler k.interruptFlag
            ((threadWakeup node.thread).tail ++ .spinUnlock (.semaphore id) :: rest)
          (k, events ++ [.handedOver thread node.thread id])

/-! ### Interrupt controller -/

def picMask (masks : PicMasks) (irq : Nat) : BitVec 8 :=
  if irq < 8 then masks.master else masks.slave

def picWrite (masks : PicMasks) (irq : Nat) (mask : BitVec 8) : PicMasks :=
  if irq < 8 then { masks with master := mask } else { masks with slave := mask }

def picBit (irq : Nat) : BitVec 8 := 1#8 <<< (if irq < 8 then irq else irq - 8)

/-- `pic_disable_irq`, which only `interrupt_dispatch` calls, with interrupts disabled. -/
def picDisableIrq (masks : PicMasks) (irq : Nat) : PicMasks :=
  picWrite masks irq (picMask masks irq ||| picBit irq)

/-- IRQ 0 is masked in the master PIC. -/
def irq0Masked (k : Kernel) : Bool := k.masks.master.getLsbD 0

/-! ### Steps -/

def exec (k : Kernel) (instr : Instr) (rest : List Instr) : Kernel × List Event :=
  match instr with
  | .spinLock lock => ({ k with stack := .spinLockCli lock k.interruptFlag :: rest }, [])
  | .spinLockCli lock interruptsEnabled => spinLockTake k lock interruptsEnabled rest
  | .spinLockSpin lock =>
      if k.lock lock then (k, [])
      else
        ({ k with lock := Function.update k.lock lock true, stack := rest },
          [.acquired k.currentThread lock false (k.gSpinLockCount = 1)])
  | .spinUnlock lock => spinUnlock k lock rest
  | .threadYieldBody => (threadYieldStep k rest, [])
  | .threadScheduleReturn interruptsEnabled =>
      ({ k with gInterruptsEnabled := interruptsEnabled, stack := rest }, [])
  | .threadWakeupBody thread => (threadWakeupStep k thread rest, [])
  | .threadCreateAssert =>
      if k.interruptFlag then ({ k with stack := rest }, []) else (fatal k .assertion, [])
  | .threadCreateBody => (threadCreateStep k rest, [])
  | .semaphoreLockBody id => semaphoreLockStep k id rest
  | .semaphoreLockReturn id =>
      ({ k with waiter := Function.update k.waiter k.currentThread none, stack := rest },
        [.lockReturned k.currentThread id])
  | .semaphoreTryLockBody id => semaphoreTryLockStep k id rest
  | .semaphoreUnlockBody id => semaphoreUnlockStep k id rest
  | .timerCallback =>
      ({ k with timerTick := k.timerTick + 1, stack := threadYield ++ rest }, [])
  | .picDisableIrq irq => ({ k with masks := picDisableIrq k.masks irq, stack := rest }, [])
  | .picEnableIrq irq =>
      ({ k with stack := .picOut irq (picMask k.masks irq &&& ~~~picBit irq) :: rest }, [])
  | .picOut irq mask => ({ k with masks := picWrite k.masks irq mask, stack := rest }, [])
  | .iret interruptFlag => ({ k with interruptFlag := interruptFlag, stack := rest }, [])

/-- What a thread function may call. -/
inductive Op where
  | threadYield
  | threadCreate
  | semaphoreLock (id : SemaphoreId)
  | semaphoreTryLock (id : SemaphoreId)
  | semaphoreUnlock (id : SemaphoreId)
  | spinLock (id : Nat)
  | spinUnlock (id : Nat)
  deriving DecidableEq, Repr

def Op.code : Op → List Instr
  | .threadYield => Kiznix.threadYield
  | .threadCreate => Kiznix.threadCreate
  | .semaphoreLock id => Kiznix.semaphoreLock id
  | .semaphoreTryLock id => Kiznix.semaphoreTryLock id
  | .semaphoreUnlock id => Kiznix.semaphoreUnlock id
  | .spinLock id => [.spinLock (.user id)]
  | .spinUnlock id => [.spinUnlock (.user id)]

/-- The running thread executes its next program point or, in its thread function, calls `op`; a timer
tick arrives; interrupt line `irq` arrives, whose handler signals the semaphores `ids` in turn. -/
inductive Act where
  | run
  | call (op : Op)
  | timer
  | irq (irq : Nat) (ids : List SemaphoreId)
  deriving DecidableEq, Repr

/-- The CPU accepts an interrupt: the flags are saved, interrupts are disabled, the stub calls
`interrupt_dispatch` and `iret` restores the flags. -/
def interruptEntry (k : Kernel) (irq : Nat) (handler : List Instr) : Kernel :=
  { k with
    interruptFlag := false
    stack := interruptDispatch irq handler ++ .iret k.interruptFlag :: k.stack }

theorem interruptEntry_stack (k : Kernel) (irq : Nat) (handler : List Instr) :
    (interruptEntry k irq handler).stack = interruptDispatch irq handler ++ [.iret k.interruptFlag] ++ k.stack := by
  simp [interruptEntry]

def step (k : Kernel) (act : Act) : Option (Kernel × List Event) :=
  if k.halted.isSome then none
  else
    match act with
    | .run =>
        match k.stack with
        | [] => none
        | instr :: rest => some (exec k instr rest)
    | .call op => if k.stack = [] then some ({ k with stack := op.code }, []) else none
    | .timer => if k.interruptFlag then some (interruptEntry k 0 [.timerCallback], []) else none
    | .irq irq ids =>
        if k.interruptFlag ∧ 0 < irq ∧ irq ≤ 15 then
          some (interruptEntry k irq (ids.flatMap semaphoreUnlock), [])
        else none

theorem step_run {k : Kernel} {instr : Instr} {rest : List Instr} (hrunning : k.halted = none)
    (hstack : k.stack = instr :: rest) : step k .run = some (exec k instr rest) := by
  simp [step, hrunning, hstack]

/-- What a step does, by action. -/
theorem step_cases {k k' : Kernel} {act : Act} {events : List Event}
    (h : step k act = some (k', events)) :
    k.halted = none ∧
      ((∃ instr rest, act = .run ∧ k.stack = instr :: rest ∧ (k', events) = exec k instr rest) ∨
        (∃ op, act = .call op ∧ k.stack = [] ∧ (k', events) = ({ k with stack := op.code }, [])) ∨
        (act = .timer ∧ k.interruptFlag = true ∧
          (k', events) = (interruptEntry k 0 [.timerCallback], [])) ∨
        (∃ irq ids, act = .irq irq ids ∧ k.interruptFlag = true ∧ 0 < irq ∧
          (k', events) = (interruptEntry k irq (ids.flatMap semaphoreUnlock), []))) := by
  cases act with
  | run =>
      simp only [step, Option.ite_none_left_eq_some] at h
      refine ⟨by simpa using h.1, Or.inl ?_⟩
      have hrun := h.2
      cases hstack : k.stack with
      | nil => simp [hstack] at hrun
      | cons instr rest =>
          simp only [hstack, Option.some.injEq] at hrun
          exact ⟨instr, rest, rfl, rfl, hrun.symm⟩
  | call op =>
      simp only [step, Option.ite_none_left_eq_some, Option.ite_none_right_eq_some,
        Option.some.injEq] at h
      exact ⟨by simpa using h.1, Or.inr (Or.inl ⟨op, rfl, h.2.1, h.2.2.symm⟩)⟩
  | timer =>
      simp only [step, Option.ite_none_left_eq_some, Option.ite_none_right_eq_some,
        Option.some.injEq] at h
      exact ⟨by simpa using h.1, Or.inr (Or.inr (Or.inl ⟨rfl, h.2.1, h.2.2.symm⟩))⟩
  | irq irq ids =>
      simp only [step, Option.ite_none_left_eq_some, Option.ite_none_right_eq_some,
        Option.some.injEq] at h
      exact ⟨by simpa using h.1,
        Or.inr (Or.inr (Or.inr ⟨irq, ids, rfl, h.2.1.1, h.2.1.2.1, h.2.2.symm⟩))⟩

/-- The state after `thread_init`: `thread0` runs, interrupts are enabled, the PICs are as `pic_init` and
`pic_enable_irq(0)` left them, and semaphore `id` is initialised with `initialCount id`. -/
def threadInit (initialCount : SemaphoreId → Nat) : Kernel where
  interruptFlag := true
  gSpinLockCount := 0
  gInterruptsEnabled := false
  lock := fun _ => false
  timerTick := 0
  masks := { master := 0xfa#8, slave := 0xff#8 }
  state := fun _ => .running
  next := fun _ => none
  blocker := fun _ => none
  context := fun _ => []
  threadCount := 1
  currentThread := 0
  readyList := none
  suspendedList := none
  semaphore := fun id => semaphoreInit (initialCount id)
  waiter := fun _ => none
  stack := []
  halted := none

end Kiznix
