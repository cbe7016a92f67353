import Kiznix.SchedLists

/-! The invariant of the scheduler and the semaphores. `Queues` is the abstract state: who is ready, who
is suspended and who waits on each semaphore, as sequences of threads. `Inv` says that the machine
represents the queues through its pointers, that the stack of every thread is typed, and that the lock
words, counters and flags agree with the running thread's mode. `Outcome` lists everything one step can
do to the machine and to the queues. -/

namespace Kiznix

open LinkedList

structure Queues where
  ready : List ThreadId
  suspended : List ThreadId
  waiting : SemaphoreId → List ThreadId

/-- The `next` fields of the waiter nodes. -/
def waiterNext (waiter : ThreadId → Option Waiter) (thread : ThreadId) : Option ThreadId :=
  (waiter thread).bind Waiter.next

theorem waiterNext_update (waiter : ThreadId → Option Waiter) (thread : ThreadId) (node : Waiter) :
    waiterNext (Function.update waiter thread (some node)) =
      Function.update (waiterNext waiter) thread node.next := by
  funext t
  by_cases ht : t = thread
  · subst ht
    simp [waiterNext]
  · simp [waiterNext, ht]

/-- The waiter lists: every waiter is a live node of a thread that is suspended on that semaphore, and
every suspended thread waits, except the one that `semaphore_unlock` is handing to `thread_wakeup`. -/
structure Waiters (semaphore : SemaphoreId → Semaphore) (waiter : ThreadId → Option Waiter)
    (state : ThreadId → ThreadState) (blocker : ThreadId → Option SemaphoreId) (count : Nat)
    (suspended : List ThreadId) (pending : Option ThreadId)
    (waiting : SemaphoreId → List ThreadId) : Prop where
  linked : ∀ id, Linked (waiterNext waiter) (semaphore id).head (waiting id)
  tail : ∀ id, (semaphore id).tail = (waiting id).getLast?
  node : ∀ id, ∀ t ∈ waiting id, ∃ next, waiter t = some { thread := t, next := next }
  blocked : ∀ id, ∀ t ∈ waiting id, t < count ∧ state t = .suspended ∧ blocker t = some id
  waits : ∀ t, t < count → state t = .suspended → pending ≠ some t → ∃ id, t ∈ waiting id
  pending_suspended : ∀ t, pending = some t → t ∈ suspended ∧ ∀ id, t ∉ waiting id

/-- The thread's last operation on the lock was `spin_lock`. The history has the newest event first. -/
def holdsLock (thread : ThreadId) (lock : Spinlock) : List Event → Bool
  | [] => false
  | .acquired t l _ _ :: log =>
      if t = thread ∧ l = lock then true else holdsLock thread lock log
  | .released t l :: log => if t = thread ∧ l = lock then false else holdsLock thread lock log
  | _ :: log => holdsLock thread lock log

structure Inv (env : Env) (k : Kernel) (log : List Event) (q : Queues) (m : Mode) : Prop where
  locks : Locks k.lock k.gSpinLockCount k.interruptFlag k.gInterruptsEnabled m
  users : m.users ≠ [] → env.userLocks = true
  typed : Typed env m k.stack
  suspended : m.suspended = true ↔ k.state k.currentThread = .suspended
  parked : ∀ t, t < k.threadCount → t ≠ k.currentThread → ∀ flag,
    Typed env (Mode.resume flag) (k.context t)
  held : ∀ t id, holdsLock t (.user id) log = true ↔ t = k.currentThread ∧ id ∈ m.users
  lists : Lists k.next k.readyList k.suspendedList k.state k.currentThread k.threadCount q.ready
    q.suspended
  waiters : Waiters k.semaphore k.waiter k.state k.blocker k.threadCount q.suspended
    (wakeupTarget k.stack) q.waiting

/-- Everything a step can do. The queues change as the text of each case says; a case leaves the fields
it does not name as they were. -/
inductive Outcome (env : Env) (k : Kernel) (act : Act) (q : Queues) : Kernel → Queues → List Event → Prop where
  | call (op : Op) (hact : act = .call op) (hstack : k.stack = []) : Outcome env k act q { k with stack := op.code } q []
  | interrupt (irq : Nat) (handler : List Instr) (hact : act ≠ .run) (hflag : k.interruptFlag = true)
      (hhandler : (irq = 0 ∧ handler = [.timerCallback]) ∨
        (0 < irq ∧ env.signals = true ∧ ∃ ids, handler = List.flatMap semaphoreUnlock ids)) :
      Outcome env k act q (interruptEntry k irq handler) q []
  | spinLock (lock : Spinlock) (rest : List Instr) (hstack : k.stack = .spinLock lock :: rest) :
      Outcome env k act q { k with stack := .spinLockCli lock k.interruptFlag :: rest } q []
  | take (lock : Spinlock) (b : Bool) (rest : List Instr)
      (hstack : k.stack = .spinLockCli lock b :: rest) (hfree : k.lock lock = false) :
      Outcome env k act q { k with
        interruptFlag := false
        gSpinLockCount := k.gSpinLockCount + 1
        gInterruptsEnabled := if k.gSpinLockCount = 0 then b else k.gInterruptsEnabled
        lock := Function.update k.lock lock true
        stack := rest } q [.acquired k.currentThread lock b (k.gSpinLockCount = 0)]
  | unlock (lock : Spinlock) (rest : List Instr) (hstack : k.stack = .spinUnlock lock :: rest)
      (hcount : k.gSpinLockCount ≠ 0) :
      Outcome env k act q { k with
        lock := Function.update k.lock lock false
        gSpinLockCount := k.gSpinLockCount - 1
        interruptFlag := decide (k.gSpinLockCount - 1 = 0) && k.gInterruptsEnabled
        stack := rest } q [.released k.currentThread lock]
  | stay (rest : List Instr) (hstack : k.stack = .threadYieldBody :: rest)
      (hcount : k.gSpinLockCount = 1) (hready : q.ready = [])
      (hstate : k.state k.currentThread = .running) : Outcome env k act q { k with stack := rest } q []
  | switch (rest : List Instr) (new : ThreadId) (tail : List ThreadId) (next : Links)
      (readyList suspendedList : Option ThreadId) (state : ThreadId → ThreadState)
      (ready suspended : List ThreadId) (hstack : k.stack = .threadYieldBody :: rest)
      (hcount : k.gSpinLockCount = 1) (hready : q.ready = new :: tail)
      (hqueues : (k.state k.currentThread = .running ∧ ready = tail ++ [k.currentThread] ∧
          suspended = q.suspended ∧
          state = Function.update (Function.update k.state k.currentThread .ready) new .running) ∨
        (k.state k.currentThread = .suspended ∧ ready = tail ∧
          suspended = q.suspended ++ [k.currentThread] ∧
          state = Function.update k.state new .running)) :
      Outcome env k act q { k with
        next := next
        readyList := readyList
        suspendedList := suspendedList
        state := state
        currentThread := new
        context := Function.update k.context k.currentThread
          (.threadScheduleReturn k.gInterruptsEnabled :: rest)
        stack := k.context new }
        { ready := ready, suspended := suspended, waiting := q.waiting } []
  | scheduleReturn (b : Bool) (rest : List Instr)
      (hstack : k.stack = .threadScheduleReturn b :: rest) :
      Outcome env k act q { k with gInterruptsEnabled := b, stack := rest } q []
  | wakeup (t : ThreadId) (rest : List Instr) (next : Links)
      (readyList suspendedList : Option ThreadId) (hstack : k.stack = .threadWakeupBody t :: rest)
      (ht : t ∈ q.suspended) :
      Outcome env k act q { k with
        state := Function.update k.state t .ready
        blocker := Function.update k.blocker t none
        next := next
        suspendedList := suspendedList
        readyList := readyList
        stack := rest }
        { ready := q.ready ++ [t], suspended := q.suspended.erase t, waiting := q.waiting } []
  | createAssert (rest : List Instr) (hstack : k.stack = .threadCreateAssert :: rest) :
      Outcome env k act q { k with stack := rest } q []
  | create (rest : List Instr) (next : Links) (readyList : Option ThreadId)
      (hstack : k.stack = .threadCreateBody :: rest) :
      Outcome env k act q { k with
        state := Function.update k.state k.threadCount .ready
        blocker := Function.update k.blocker k.threadCount none
        context := Function.update k.context k.threadCount threadEntry
        next := next
        readyList := readyList
        threadCount := k.threadCount + 1
        stack := rest }
        { ready := q.ready ++ [k.threadCount], suspended := q.suspended, waiting := q.waiting } []
  | grant (id : SemaphoreId) (rest : List Instr) (event : Event)
      (hstack : (k.stack = .semaphoreLockBody id :: rest ∧ event = .lockGranted k.currentThread id) ∨
        (k.stack = .semaphoreTryLockBody id :: rest ∧ event = .tryLockGranted k.currentThread id))
      (hcount : (k.semaphore id).count > 0) :
      Outcome env k act q { k with
        semaphore := Function.update k.semaphore id
          { k.semaphore id with count := (k.semaphore id).count - 1 }
        lock := Function.update k.lock (.semaphore id) false
        gSpinLockCount := k.gSpinLockCount - 1
        interruptFlag := decide (k.gSpinLockCount - 1 = 0) && k.gInterruptsEnabled
        stack := rest } q [.released k.currentThread (.semaphore id), event]
  | refuse (id : SemaphoreId) (rest : List Instr)
      (hstack : k.stack = .semaphoreTryLockBody id :: rest)
      (hcount : ¬(k.semaphore id).count > 0) :
      Outcome env k act q { k with
        lock := Function.update k.lock (.semaphore id) false
        gSpinLockCount := k.gSpinLockCount - 1
        interruptFlag := decide (k.gSpinLockCount - 1 = 0) && k.gInterruptsEnabled
        stack := rest } q
        [.released k.currentThread (.semaphore id), .tryLockRefused k.currentThread id]
  | block (id : SemaphoreId) (rest : List Instr) (waiter : ThreadId → Option Waiter)
      (semaphore : Semaphore) (hstack : k.stack = .semaphoreLockBody id :: rest)
      (hcount : ¬(k.semaphore id).count > 0)
      (hsemaphore : semaphore.count = (k.semaphore id).count) :
      Outcome env k act q { k with
        semaphore := Function.update k.semaphore id semaphore
        waiter := waiter
        state := Function.update k.state k.currentThread .suspended
        blocker := Function.update k.blocker k.currentThread (some id)
        lock := Function.update k.lock (.semaphore id) false
        gSpinLockCount := k.gSpinLockCount - 1
        interruptFlag := decide (k.gSpinLockCount - 1 = 0) && k.gInterruptsEnabled
        stack := threadYield ++ .semaphoreLockReturn id :: rest }
        { q with waiting := Function.update q.waiting id (q.waiting id ++ [k.currentThread]) }
        [.released k.currentThread (.semaphore id), .enqueued k.currentThread id]
  | lockReturn (id : SemaphoreId) (rest : List Instr)
      (hstack : k.stack = .semaphoreLockReturn id :: rest) :
      Outcome env k act q { k with
        waiter := Function.update k.waiter k.currentThread none
        stack := rest } q [.lockReturned k.currentThread id]
  | increment (id : SemaphoreId) (rest : List Instr)
      (hstack : k.stack = .semaphoreUnlockBody id :: rest) (hwaiting : q.waiting id = []) :
      Outcome env k act q { k with
        semaphore := Function.update k.semaphore id
          { k.semaphore id with count := intIncrement (k.semaphore id).count }
        lock := Function.update k.lock (.semaphore id) false
        gSpinLockCount := k.gSpinLockCount - 1
        interruptFlag := decide (k.gSpinLockCount - 1 = 0) && k.gInterruptsEnabled
        stack := rest } q
        [.released k.currentThread (.semaphore id), .unlocked k.currentThread id]
  | pop (id : SemaphoreId) (rest : List Instr) (t : ThreadId) (waiting : List ThreadId)
      (semaphore : Semaphore) (hstack : k.stack = .semaphoreUnlockBody id :: rest)
      (hwaiting : q.waiting id = t :: waiting) (ht : t ≠ k.currentThread)
      (hsemaphore : semaphore.count = (k.semaphore id).count) :
      Outcome env k act q { k with
        semaphore := Function.update k.semaphore id semaphore
        interruptFlag := false
        gSpinLockCount := k.gSpinLockCount + 1
        lock := Function.update k.lock .scheduler true
        stack := .threadWakeupBody t :: .spinUnlock .scheduler :: .spinUnlock (.semaphore id) :: rest }
        { q with waiting := Function.update q.waiting id waiting }
        [.acquired k.currentThread .scheduler false false, .handedOver k.currentThread t id]
  | timerCallback (rest : List Instr) (hstack : k.stack = .timerCallback :: rest) :
      Outcome env k act q { k with
        timerTick := k.timerTick + 1
        stack := threadYield ++ rest } q []
  | picDisableIrq (irq : Nat) (rest : List Instr) (hstack : k.stack = .picDisableIrq irq :: rest) :
      Outcome env k act q { k with masks := picDisableIrq k.masks irq, stack := rest } q []
  | picEnableIrq (irq : Nat) (rest : List Instr) (hstack : k.stack = .picEnableIrq irq :: rest) :
      Outcome env k act q { k with
        stack := .picOut irq (picMask k.masks irq &&& ~~~picBit irq) :: rest } q []
  | picOut (irq : Nat) (mask : BitVec 8) (rest : List Instr)
      (hstack : k.stack = .picOut irq mask :: rest) :
      Outcome env k act q { k with masks := picWrite k.masks irq mask, stack := rest } q []
  | iret (b : Bool) (rest : List Instr) (hstack : k.stack = .iret b :: rest) :
      Outcome env k act q { k with interruptFlag := b, stack := rest } q []
  | stop (k' : Kernel) (reason : Halt)
      (hreason : (reason = .spinLockCountIsNotOne ∧ k.gSpinLockCount ≠ 1 ∧
          ∃ rest, k.stack = .threadYieldBody :: rest) ∨
        (reason = .nullThread ∧ q.ready = [] ∧ k.state k.currentThread = .suspended ∧
          ∃ rest, k.stack = .threadYieldBody :: rest) ∨
        (reason = .assertion ∧ k.gSpinLockCount ≠ 0 ∧
          ∃ rest, k.stack = .threadCreateAssert :: rest))
      (hlock : k'.lock = k.lock) (hcount : k'.gSpinLockCount = k.gSpinLockCount) :
      Outcome env k act q (fatal k' reason) q []

end Kiznix
