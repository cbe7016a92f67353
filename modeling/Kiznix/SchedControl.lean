import Kiznix.SchedModel

/-! Typing of stacks. A mode says which locks are held at a program point, what the interrupt flag is
(or will be once the last lock is released) and whether the running thread is marked suspended. A stack
is typed at a mode when every remaining program point finds the locks it needs and the stack returns to
the thread function with no kernel lock held. The judgement covers interrupted stacks as well: the code
that an interrupt pushes ends in the mode it started in. -/

namespace Kiznix

/-- The kernel's own locks that are held. Inside `semaphore_unlock` both locks are held, first with a
popped waiter to wake, then with the thread woken. -/
inductive Held where
  | none
  | scheduler
  | semaphore (id : SemaphoreId)
  | both (id : SemaphoreId)
  | woken (id : SemaphoreId)
  deriving DecidableEq

def Held.locks : Held → List Spinlock
  | .none => []
  | .scheduler => [.scheduler]
  | .semaphore id => [.semaphore id]
  | .both id => [.scheduler, .semaphore id]
  | .woken id => [.scheduler, .semaphore id]

structure Mode where
  held : Held
  /-- The callers' own locks that are held. -/
  users : List Nat
  flag : Bool
  suspended : Bool

namespace Mode

def locks (m : Mode) : List Spinlock := m.held.locks ++ m.users.map .user

def acquire (m : Mode) : Spinlock → Mode
  | .scheduler =>
      { m with held := match m.held with | .semaphore id => .both id | _ => .scheduler }
  | .semaphore id => { m with held := .semaphore id }
  | .user id => { m with users := id :: m.users }

def release (m : Mode) : Spinlock → Mode
  | .scheduler =>
      { m with held := match m.held with | .woken id => .semaphore id | _ => .none }
  | .semaphore _ => { m with held := .none }
  | .user id => { m with users := m.users.erase id }

/-- The lock may be taken: it is not held, and kernel locks nest in the one order the code uses. -/
def Acquirable (m : Mode) : Spinlock → Prop
  | .scheduler => m.held = .none ∨ ∃ id, m.held = .semaphore id
  | .semaphore _ => m.held = .none
  | .user id => m.held = .none ∧ id ∉ m.users

def Releasable (m : Mode) : Spinlock → Prop
  | .scheduler => m.held = .scheduler ∨ ∃ id, m.held = .woken id
  | .semaphore id => m.held = .semaphore id
  | .user id => m.held = .none ∧ id ∈ m.users

/-- The mode of a thread that `thread_switch` is about to resume. -/
def resume (flag : Bool) : Mode :=
  { held := .scheduler, users := [], flag := flag, suspended := false }

end Mode

/-- Which parts of the interface a run uses: interrupt handlers that call `semaphore_unlock`, spinlocks
that callers define for themselves. -/
structure Env where
  signals : Bool
  userLocks : Bool

/-- What a program point needs. With `signals`, interrupt handlers call `semaphore_unlock`, so that call
may also run on the stack of a thread that is marked suspended. -/
def Instr.Pre (env : Env) (m : Mode) : Instr → Prop
  | .spinLock .scheduler => m.held = .none
  | .spinLock (.semaphore _) => m.held = .none
  | .spinLock (.user id) =>
      m.held = .none ∧ id ∉ m.users ∧ m.suspended = false ∧ env.userLocks = true
  | .spinLockCli .scheduler b => m.held = .none ∧ (m.users = [] → b = m.flag)
  | .spinLockCli (.semaphore _) b => m.held = .none ∧ (m.users = [] → b = m.flag)
  | .spinLockCli (.user id) b =>
      m.held = .none ∧ id ∉ m.users ∧ m.suspended = false ∧ env.userLocks = true ∧
        (m.users = [] → b = m.flag)
  | .spinLockSpin _ => False
  | .spinUnlock lock => m.Releasable lock
  | .threadYieldBody => m.held = .scheduler
  | .threadScheduleReturn _ => m.held = .scheduler ∧ m.users = [] ∧ m.suspended = false
  | .threadWakeupBody _ => ∃ id, m.held = .both id
  | .threadCreateAssert => m.held = .none ∧ m.suspended = false ∧ m.flag = true
  | .threadCreateBody => m.held = .scheduler ∧ m.suspended = false
  | .semaphoreLockBody id => m.held = .semaphore id ∧ m.suspended = false
  | .semaphoreLockReturn _ => m.held = .none ∧ m.suspended = false
  | .semaphoreTryLockBody id => m.held = .semaphore id ∧ m.suspended = false
  | .semaphoreUnlockBody id => m.held = .semaphore id ∧ (m.suspended = true → env.signals = true)
  | .timerCallback => m.held = .none ∧ m.users = [] ∧ m.flag = false
  | .picDisableIrq _ => m.held = .none ∧ m.users = [] ∧ m.flag = false
  | .picEnableIrq _ => m.held = .none ∧ m.users = []
  | .picOut _ _ => m.held = .none ∧ m.users = []
  | .iret _ => m.held = .none ∧ m.users = []

/-- The mode after a program point, its callees included. -/
def Instr.post (m : Mode) : Instr → Mode
  | .spinLock lock => m.acquire lock
  | .spinLockCli lock _ => m.acquire lock
  | .spinLockSpin lock => m.acquire lock
  | .spinUnlock lock => m.release lock
  | .threadYieldBody => { m with suspended := false }
  | .threadScheduleReturn b => { m with flag := b }
  | .threadWakeupBody _ =>
      { m with held := match m.held with | .both id => .woken id | held => held }
  | .semaphoreLockBody id => m.release (.semaphore id)
  | .semaphoreTryLockBody id => m.release (.semaphore id)
  | .semaphoreUnlockBody id => m.release (.semaphore id)
  | .timerCallback => { m with suspended := false }
  | .iret b => { m with flag := b }
  | _ => m

/-- The stack runs from mode `m` back into the thread function, where no kernel lock is held and
interrupts are enabled. -/
def Typed (env : Env) : Mode → List Instr → Prop
  | m, [] => m.held = .none ∧ m.suspended = false ∧ m.flag = true
  | m, instr :: rest => instr.Pre env m ∧ Typed env (instr.post m) rest

variable {env : Env} {m : Mode} {stack rest : List Instr} {lock : Spinlock}

@[simp] theorem typed_nil :
    Typed env m [] ↔ m.held = .none ∧ m.suspended = false ∧ m.flag = true := Iff.rfl

@[simp] theorem typed_cons {instr : Instr} :
    Typed env m (instr :: rest) ↔ instr.Pre env m ∧ Typed env (instr.post m) rest :=
  Iff.rfl

/-- A stack that is typed for a suspended thread is typed once the thread runs again. -/
theorem Typed.resumed (h : Typed env m stack) :
    Typed env { m with suspended := false } stack := by
  induction stack generalizing m with
  | nil => exact ⟨h.1, rfl, h.2.2⟩
  | cons instr rest ih =>
      have hrest := ih h.2
      obtain ⟨hpre, -⟩ := h
      cases instr with
      | spinLock lock | spinLockCli lock _ =>
          cases lock <;> simp_all [Instr.Pre, Instr.post, Mode.acquire]
      | spinUnlock lock =>
          cases lock <;> simp_all [Instr.Pre, Instr.post, Mode.release, Mode.Releasable]
      | _ => simp_all [Instr.Pre, Instr.post, Mode.acquire, Mode.release]

/-- The head of a stack is in the middle of `thread_wakeup` only while both locks are held. -/
def wakeupTarget : List Instr → Option ThreadId
  | .threadWakeupBody thread :: _ => some thread
  | _ => none

theorem Typed.wakeupTarget_eq_none (h : Typed env m stack) (hheld : ∀ id, m.held ≠ .both id) :
    wakeupTarget stack = none := by
  cases stack with
  | nil => rfl
  | cons instr rest =>
      cases instr with
      | threadWakeupBody thread =>
          obtain ⟨id, hid⟩ := h.1
          exact absurd hid (hheld id)
      | _ => rfl

/-! ### The code of the functions is typed -/

theorem typed_threadYield (hheld : m.held = .none) :
    Typed env m (threadYield ++ rest) ↔ Typed env { m with suspended := false } rest := by
  obtain ⟨held, users, flag, suspended⟩ := m
  obtain rfl : held = .none := hheld
  simp [threadYield, Instr.Pre, Instr.post, Mode.acquire, Mode.release, Mode.Releasable]

theorem typed_op (op : Op) (hheld : m.held = .none) (hflag : m.flag = true)
    (hsuspended : m.suspended = false) (hlock : ∀ id, op = .spinLock id → env.userLocks = true ∧ id ∉ m.users)
    (hunlock : ∀ id, op = .spinUnlock id → id ∈ m.users) : Typed env m op.code := by
  cases op with
  | spinLock id =>
      simp [Op.code, Instr.Pre, Instr.post, Mode.acquire, hheld, hflag, hsuspended, hlock id rfl]
  | spinUnlock id =>
      simp [Op.code, Instr.Pre, Instr.post, Mode.release, Mode.Releasable, hheld, hflag, hsuspended,
        hunlock id rfl]
  | _ =>
      simp [Op.code, threadYield, threadCreate, semaphoreLock, semaphoreTryLock, semaphoreUnlock,
        Instr.Pre, Instr.post, Mode.acquire, Mode.release, Mode.Releasable, hheld, hflag, hsuspended]

theorem typed_threadEntry (flag : Bool) : Typed env (Mode.resume flag) threadEntry := by
  simp [threadEntry, Mode.resume, Instr.Pre, Instr.post, Mode.release, Mode.Releasable]

theorem typed_signals (ids : List SemaphoreId) (hheld : m.held = .none)
    (hsignals : m.suspended = true → env.signals = true) :
    Typed env m (ids.flatMap semaphoreUnlock ++ rest) ↔ Typed env m rest := by
  obtain ⟨held, users, flag, suspended⟩ := m
  obtain rfl : held = .none := hheld
  induction ids with
  | nil => rfl
  | cons id ids ih =>
      rw [List.flatMap_cons, List.append_assoc, ← ih]
      simp only [semaphoreUnlock, List.cons_append, List.nil_append, typed_cons, Instr.Pre,
        Instr.post, Mode.acquire, Mode.release, true_and]
      exact ⟨fun h => h.2, fun h => ⟨hsignals, h⟩⟩

/-- What an interrupt pushes, on top of a stack that is interrupted at mode `m`. -/
theorem typed_timer (h : Typed env m stack) (hheld : m.held = .none) (husers : m.users = []) :
    Typed env { m with flag := false }
      (interruptDispatch 0 [.timerCallback] ++ .iret m.flag :: stack) := by
  have hrest := h.resumed
  obtain ⟨held, users, flag, suspended⟩ := m
  obtain rfl : held = .none := hheld
  obtain rfl : users = [] := husers
  simpa [interruptDispatch, Instr.Pre, Instr.post] using hrest

theorem typed_irq (h : Typed env m stack) (hheld : m.held = .none) (husers : m.users = [])
    (irq : Nat) (ids : List SemaphoreId) (hsignals : m.suspended = true → env.signals = true) :
    Typed env { m with flag := false }
      (interruptDispatch irq (ids.flatMap semaphoreUnlock) ++ .iret m.flag :: stack) := by
  obtain ⟨held, users, flag, suspended⟩ := m
  obtain rfl : held = .none := hheld
  obtain rfl : users = [] := husers
  rw [interruptDispatch, List.append_assoc, List.cons_append, typed_cons]
  refine ⟨⟨rfl, rfl, rfl⟩, (typed_signals ids rfl ?_).mpr ?_⟩
  · exact hsignals
  · simpa [Instr.Pre, Instr.post] using h

/-! ### Lock state -/

/-- The lock words, the count and the flags agree with a mode. -/
structure Locks (locked : Spinlock → Bool) (count : Nat) (interruptFlag interruptsEnabled : Bool)
    (m : Mode) : Prop where
  locked : ∀ lock, locked lock = true ↔ lock ∈ m.locks
  nodup : m.locks.Nodup
  counted : count = m.locks.length
  disabled : count ≠ 0 → interruptFlag = false
  flag : m.flag = if count = 0 then interruptFlag else interruptsEnabled

variable {locked : Spinlock → Bool} {count : Nat} {interruptFlag interruptsEnabled : Bool}

theorem Mode.acquire_locks (hlock : m.Acquirable lock) :
    (m.acquire lock).locks.Perm (lock :: m.locks) := by
  cases lock with
  | scheduler =>
      rcases hlock with hheld | ⟨id, hheld⟩ <;>
        simp [Mode.locks, Mode.acquire, hheld, Held.locks]
  | semaphore id => simp [Mode.locks, Mode.acquire, show m.held = .none from hlock, Held.locks]
  | user id => simp [Mode.locks, Mode.acquire, hlock.1, Held.locks]

theorem Mode.release_locks (hlock : m.Releasable lock) :
    m.locks.Perm (lock :: (m.release lock).locks) := by
  cases lock with
  | scheduler =>
      rcases hlock with hheld | ⟨id, hheld⟩ <;>
        simp [Mode.locks, Mode.release, hheld, Held.locks]
  | semaphore id => simp [Mode.locks, Mode.release, show m.held = .semaphore id from hlock, Held.locks]
  | user id =>
      have hperm := (List.perm_cons_erase hlock.2).map Spinlock.user
      simpa [Mode.locks, Mode.release, hlock.1, Held.locks] using hperm

theorem Mode.not_mem_of_acquirable (hlock : m.Acquirable lock) : lock ∉ m.locks := by
  cases lock with
  | scheduler =>
      rcases hlock with hheld | ⟨id, hheld⟩ <;> simp [Mode.locks, hheld, Held.locks]
  | semaphore id => simp [Mode.locks, show m.held = .none from hlock, Held.locks]
  | user id => simp [Mode.locks, hlock.1, Held.locks, hlock.2]

/-- A lock that may be taken is free. -/
theorem Locks.free (h : Locks locked count interruptFlag interruptsEnabled m)
    (hlock : m.Acquirable lock) : locked lock = false := by
  rw [← Bool.not_eq_true, h.locked]
  exact Mode.not_mem_of_acquirable hlock

theorem Locks.take (h : Locks locked count interruptFlag interruptsEnabled m)
    (hlock : m.Acquirable lock) {b : Bool} (hb : count = 0 → b = m.flag) :
    Locks (Function.update locked lock true) (count + 1) false
      (if count = 0 then b else interruptsEnabled) (m.acquire lock) := by
  have hperm := Mode.acquire_locks hlock
  refine ⟨fun other => ?_, ?_, ?_, fun _ => rfl, ?_⟩
  · rw [hperm.mem_iff, List.mem_cons, ← h.locked]
    by_cases hother : other = lock
    · simp [hother]
    · simp [hother]
  · rw [hperm.nodup_iff, List.nodup_cons]
    exact ⟨Mode.not_mem_of_acquirable hlock, h.nodup⟩
  · rw [hperm.length_eq, List.length_cons, ← h.counted]
  · have hflag : (m.acquire lock).flag = m.flag := by cases lock <;> rfl
    rw [hflag, if_neg (Nat.succ_ne_zero count)]
    by_cases hcount : count = 0
    · rw [if_pos hcount, hb hcount]
    · rw [if_neg hcount, h.flag, if_neg hcount]

theorem Locks.ready_to_unlock (h : Locks locked count interruptFlag interruptsEnabled m)
    (hlock : m.Releasable lock) : interruptFlag = false ∧ count ≠ 0 := by
  have hlength := (Mode.release_locks hlock).length_eq
  have hcount : count ≠ 0 := by
    rw [h.counted, hlength, List.length_cons]
    omega
  exact ⟨h.disabled hcount, hcount⟩

theorem Locks.unlock (h : Locks locked count interruptFlag interruptsEnabled m)
    (hlock : m.Releasable lock) :
    Locks (Function.update locked lock false) (count - 1)
      (decide (count - 1 = 0) && interruptsEnabled) interruptsEnabled (m.release lock) := by
  have hperm := Mode.release_locks hlock
  have hnodup := List.nodup_cons.mp (hperm.nodup_iff.mp h.nodup)
  have hcount := (h.ready_to_unlock hlock).2
  refine ⟨fun other => ?_, hnodup.2, ?_, fun hne => ?_, ?_⟩
  · by_cases hother : other = lock
    · rw [hother]
      simp [hnodup.1]
    · rw [Function.update_of_ne hother, h.locked, hperm.mem_iff, List.mem_cons]
      simp [hother]
  · rw [h.counted, hperm.length_eq, List.length_cons, Nat.add_sub_cancel]
  · simp [hne]
  · have hflag : (m.release lock).flag = m.flag := by cases lock <;> rfl
    rw [hflag, h.flag, if_neg hcount]
    by_cases hone : count - 1 = 0 <;> simp [hone]

theorem spinUnlock_eq {k : Kernel} (h : Locks k.lock k.gSpinLockCount k.interruptFlag
    k.gInterruptsEnabled m) (hlock : m.Releasable lock) :
    spinUnlock k lock rest =
      ({ k with
          lock := Function.update k.lock lock false
          gSpinLockCount := k.gSpinLockCount - 1
          interruptFlag := decide (k.gSpinLockCount - 1 = 0) && k.gInterruptsEnabled
          stack := rest },
        [.released k.currentThread lock]) := by
  obtain ⟨hflag, hcount⟩ := h.ready_to_unlock hlock
  simp [spinUnlock, hflag, hcount]

theorem spinLockTake_eq {k : Kernel} {b : Bool} (h : Locks k.lock k.gSpinLockCount k.interruptFlag
    k.gInterruptsEnabled m) (hlock : m.Acquirable lock) :
    spinLockTake k lock b rest =
      ({ k with
          interruptFlag := false
          gSpinLockCount := k.gSpinLockCount + 1
          gInterruptsEnabled := if k.gSpinLockCount = 0 then b else k.gInterruptsEnabled
          lock := Function.update k.lock lock true
          stack := rest },
        [.acquired k.currentThread lock b (k.gSpinLockCount = 0)]) := by
  simp [spinLockTake, h.free hlock]

end Kiznix
