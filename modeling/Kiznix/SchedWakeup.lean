import Kiznix.SchedSemaphore

/-! Wake-ups from interrupt handlers. A handler's `semaphore_unlock` may land between the `spin_unlock` of
`semaphore_lock` and its `thread_yield`. If it pops the waiter of the thread it interrupted, that thread is
put on the ready list while it runs. In all other runs the scheduler's invariant holds, and a thread whose
waiter was popped is ready or running; once it runs, its own steps take it out of `semaphore_lock` or back to
the ready list with a `thread_yield` less ahead of it. -/

namespace Kiznix

open LinkedList RunLog

variable {env : Env} {k k' : Kernel} {log events : List Event} {q q' : Queues} {m m' : Mode}
  {initialCount : SemaphoreId → Nat} {act : Act} {id : SemaphoreId} {stack stack' rest : List Instr}

/-- The `semaphore_unlock` at the head of the stack pops the waiter of the thread it runs on. -/
def popsOwnWaiter (k : Kernel) : Bool :=
  match k.stack with
  | .semaphoreUnlockBody id :: _ => (k.semaphore id).head = some k.currentThread
  | _ => false

/-- Threads and interrupt handlers; a thread that blocks finds another one ready. -/
structure InterruptRun (k : Kernel) (log : List Event) (act : Act) : Prop where
  spinlock : act.usesSpinlock = false
  ready : ReadyWhenBlocking k

instance (act : Act) : Decidable (InterruptRun k log act) :=
  decidable_of_iff (act.usesSpinlock = false ∧ ReadyWhenBlocking k)
    ⟨fun h => ⟨h.1, h.2⟩, fun h => ⟨h.spinlock, h.ready⟩⟩

/-- Besides, no `semaphore_unlock` pops the waiter of the thread it interrupted. -/
structure SignalRun (k : Kernel) (log : List Event) (act : Act) : Prop where
  interrupt : InterruptRun k log act
  other : popsOwnWaiter k = false

instance (act : Act) : Decidable (SignalRun k log act) :=
  decidable_of_iff (InterruptRun k log act ∧ popsOwnWaiter k = false)
    ⟨fun h => ⟨h.1, h.2⟩, fun h => ⟨h.interrupt, h.other⟩⟩

def Env.interrupts : Env := { signals := true, userLocks := false }

theorem allowed_interrupts (hspinlock : act.usesSpinlock = false) (hother : popsOwnWaiter k = false) :
    Allowed .interrupts k log act := by
  refine ⟨fun id hact => ?_, fun id hact => ?_, fun irq ids hact => rfl, fun _ id rest hstack => ?_⟩
  · rw [hact] at hspinlock
    cases hspinlock
  · rw [hact] at hspinlock
    cases hspinlock
  · rw [popsOwnWaiter, hstack] at hother
    simpa using hother

theorem SignalRun.allowed (h : SignalRun k log act) : Allowed .interrupts k log act :=
  allowed_interrupts h.interrupt.spinlock h.other

/-- The thread was handed a unit of the semaphore and has not returned since. -/
def owed (thread : ThreadId) (id : SemaphoreId) : List Event → Bool
  | [] => false
  | .handedOver _ waiter id' :: log => if waiter = thread ∧ id' = id then true else owed thread id log
  | .lockReturned caller id' :: log => if caller = thread ∧ id' = id then false else owed thread id log
  | _ :: log => owed thread id log

/-! ### The frame of `semaphore_lock` -/

def Instr.isLock : Instr → Bool
  | .semaphoreLockBody _ => true
  | .semaphoreLockReturn _ => true
  | _ => false

/-- `semaphore_lock` is called by the thread function: its frame is the lowest one. -/
def LockAtBottom : List Instr → Prop
  | [] => True
  | instr :: rest => (instr.isLock = true → rest = []) ∧ LockAtBottom rest

/-- The stacks differ only above the frame of `semaphore_lock`. -/
def SameBottom (stack stack' : List Instr) : Prop :=
  ∃ dropped pushed rest, stack = dropped ++ rest ∧ stack' = pushed ++ rest ∧
    (∀ instr ∈ dropped, instr.isLock = false) ∧ ∀ instr ∈ pushed, instr.isLock = false

theorem SameBottom.refl (stack : List Instr) : SameBottom stack stack :=
  ⟨[], [], stack, rfl, rfl, by simp, by simp⟩

theorem lockAtBottom_append {pushed : List Instr} (h : ∀ instr ∈ pushed, instr.isLock = false) :
    LockAtBottom (pushed ++ rest) ↔ LockAtBottom rest := by
  induction pushed with
  | nil => rfl
  | cons instr pushed ih =>
      rw [List.cons_append, LockAtBottom, ih fun other hmem => h other (List.mem_cons_of_mem _ hmem)]
      simp [h instr List.mem_cons_self]

theorem getLast?_append_of_isLock {pushed : List Instr} {last : Instr}
    (h : ∀ instr ∈ pushed, instr.isLock = false) (hlast : last.isLock = true) :
    (pushed ++ rest).getLast? = some last ↔ rest.getLast? = some last := by
  rw [List.getLast?_append]
  cases hrest : rest.getLast? with
  | some other => simp
  | none =>
      simp only [Option.none_or, reduceCtorEq, iff_false]
      intro hpushed
      rw [h last (List.mem_of_getLast? hpushed)] at hlast
      cases hlast

theorem SameBottom.lockAtBottom (h : SameBottom stack stack') (hstack : LockAtBottom stack) :
    LockAtBottom stack' := by
  obtain ⟨dropped, pushed, rest, rfl, rfl, hdropped, hpushed⟩ := h
  rw [lockAtBottom_append hpushed]
  exact (lockAtBottom_append hdropped).mp hstack

theorem SameBottom.getLast? (h : SameBottom stack stack') {last : Instr}
    (hlast : last.isLock = true) (hstack : stack.getLast? = some last) :
    stack'.getLast? = some last := by
  obtain ⟨dropped, pushed, rest, rfl, rfl, hdropped, hpushed⟩ := h
  rw [getLast?_append_of_isLock hpushed hlast]
  exact (getLast?_append_of_isLock hdropped hlast).mp hstack

/-- Who waits, and who is owed a unit, is inside `semaphore_lock` of that semaphore. -/
structure WakeupInv (k : Kernel) (log : List Event) (q : Queues) : Prop where
  bottom : ∀ t, LockAtBottom (stackOf k t)
  waiting : ∀ id, ∀ t ∈ q.waiting id, (stackOf k t).getLast? = some (.semaphoreLockReturn id)
  owed : ∀ t id, owed t id log = true →
    t ∉ q.waiting id ∧ (stackOf k t).getLast? = some (.semaphoreLockReturn id)

theorem sameBottom_frame (dropped pushed : List Instr) (hstack : k.stack = dropped ++ rest)
    (hstack' : k'.stack = pushed ++ rest) (hdropped : ∀ instr ∈ dropped, instr.isLock = false)
    (hpushed : ∀ instr ∈ pushed, instr.isLock = false)
    (hcurrent : k'.currentThread = k.currentThread) (hcontext : k'.context = k.context)
    (hcount : k'.threadCount = k.threadCount) (t : ThreadId) :
    SameBottom (stackOf k t) (stackOf k' t) := by
  rw [stackOf_frame hcurrent hcontext hcount]
  by_cases ht : t = k.currentThread
  · rw [if_pos ht, ht, stackOf_current]
    exact ⟨dropped, pushed, rest, hstack, hstack', hdropped, hpushed⟩
  · rw [if_neg ht]
    exact .refl _

theorem Replaces.sameBottom {instr : Instr} {pushed : List Instr} (h : Replaces k k' instr pushed rest)
    (hinstr : instr.isLock = false) (hpushed : ∀ other ∈ pushed, other.isLock = false) (t : ThreadId) :
    SameBottom (Kiznix.stackOf k t) (Kiznix.stackOf k' t) :=
  sameBottom_frame [instr] pushed h.stack h.stack' (by simpa using hinstr) hpushed h.current h.context h.threads t

theorem sameBottom_switch {new : ThreadId} {b : Bool} (hstack : k.stack = .threadYieldBody :: rest)
    (hnew : new ≠ k.currentThread) (hlt : k.currentThread < k.threadCount) (hnewlt : new < k.threadCount)
    (hcurrent : k'.currentThread = new) (hstack' : k'.stack = k.context new)
    (hcontext : k'.context = Function.update k.context k.currentThread (.threadScheduleReturn b :: rest))
    (hcount : k'.threadCount = k.threadCount) (t : ThreadId) :
    SameBottom (stackOf k t) (stackOf k' t) := by
  rw [stackOf_switch hnew hlt hnewlt hcurrent hstack' hcontext hcount]
  by_cases ht : t = k.currentThread
  · rw [if_pos ht, ht, stackOf_current, hstack]
    exact ⟨[.threadYieldBody], [.threadScheduleReturn b], rest, rfl, rfl, by simp [Instr.isLock],
      by simp [Instr.isLock]⟩
  · rw [if_neg ht]
    exact .refl _

theorem sameBottom_create (hstack : k.stack = .threadCreateBody :: rest)
    (hlt : k.currentThread < k.threadCount) (hcurrent : k'.currentThread = k.currentThread)
    (hstack' : k'.stack = rest)
    (hcontext : k'.context = Function.update k.context k.threadCount threadEntry)
    (hcount : k'.threadCount = k.threadCount + 1) (t : ThreadId) :
    SameBottom (stackOf k t) (stackOf k' t) := by
  rw [stackOf_create hcurrent hcontext hcount]
  by_cases ht : t = k.currentThread
  · rw [if_pos ht, ht, stackOf_current, hstack, hstack']
    exact ⟨[.threadCreateBody], [], rest, rfl, rfl, by simp [Instr.isLock], by simp⟩
  rw [if_neg ht]
  by_cases hfresh : t = k.threadCount
  · rw [if_pos hfresh, hfresh, stackOf_fresh hlt]
    exact ⟨[], threadEntry, [], rfl, rfl, by simp, by simp [threadEntry, Instr.isLock]⟩
  · rw [if_neg hfresh]
    exact .refl _

theorem WakeupInv.quiet (h : WakeupInv k log q)
    (hstacks : ∀ t, SameBottom (stackOf k t) (stackOf k' t)) (hwaiting : q'.waiting = q.waiting)
    (howed : ∀ t id, Kiznix.owed t id (events ++ log) = Kiznix.owed t id log) :
    WakeupInv k' (events ++ log) q' := by
  refine ⟨fun t => (hstacks t).lockAtBottom (h.bottom t), fun id t ht => ?_, fun t id ht => ?_⟩
  · rw [hwaiting] at ht
    exact (hstacks t).getLast? rfl (h.waiting id t ht)
  · rw [howed] at ht
    obtain ⟨hnot, hlast⟩ := h.owed t id ht
    rw [hwaiting]
    exact ⟨hnot, (hstacks t).getLast? rfl hlast⟩

/-- A step at a program point that is no part of `semaphore_lock`. -/
theorem WakeupInv.push (h : WakeupInv k log q) {instr : Instr} (pushed : List Instr)
    (hreplaces : Replaces k k' instr pushed rest) (hinstr : instr.isLock = false)
    (hpushed : ∀ other ∈ pushed, other.isLock = false) (hwaiting : q'.waiting = q.waiting)
    (howed : ∀ t id, Kiznix.owed t id (events ++ log) = Kiznix.owed t id log) :
    WakeupInv k' (events ++ log) q' :=
  h.quiet (hreplaces.sameBottom hinstr hpushed) hwaiting howed

/-- The thread at the bottom of whose stack `semaphore_lock` was just entered waits on nothing. -/
theorem WakeupInv.not_waiting (h : WakeupInv k log q)
    (hlast : ∀ id, k.stack.getLast? ≠ some (.semaphoreLockReturn id)) (id : SemaphoreId) :
    k.currentThread ∉ q.waiting id ∧ Kiznix.owed k.currentThread id log = false := by
  refine ⟨fun hmem => hlast id ?_, ?_⟩
  · rw [← stackOf_current]
    exact h.waiting id _ hmem
  · rw [← Bool.not_eq_true]
    intro howed
    refine hlast id ?_
    rw [← stackOf_current]
    exact (h.owed _ id howed).2

/-- The running thread enters or leaves `semaphore_lock`; nobody else is concerned. -/
theorem WakeupInv.replace (h : WakeupInv k log q)
    (hlast : ∀ id, k.stack.getLast? ≠ some (.semaphoreLockReturn id)) (hbottom : LockAtBottom k'.stack)
    (hcurrent : k'.currentThread = k.currentThread) (hcontext : k'.context = k.context)
    (hcount : k'.threadCount = k.threadCount) (hwaiting : q'.waiting = q.waiting)
    (howed : ∀ t id, Kiznix.owed t id (events ++ log) = Kiznix.owed t id log) :
    WakeupInv k' (events ++ log) q' := by
  refine ⟨fun t => ?_, fun id t ht => ?_, fun t id ht => ?_⟩
  · rw [stackOf_frame hcurrent hcontext hcount]
    split
    · exact hbottom
    · exact h.bottom t
  · rw [hwaiting] at ht
    have hne : t ≠ k.currentThread := ne_of_mem_of_not_mem ht (h.not_waiting hlast id).1
    rw [stackOf_frame hcurrent hcontext hcount, if_neg hne]
    exact h.waiting id t ht
  · rw [howed] at ht
    have hne : t ≠ k.currentThread := by
      rintro rfl
      rw [(h.not_waiting hlast id).2] at ht
      cases ht
    rw [stackOf_frame hcurrent hcontext hcount, if_neg hne, hwaiting]
    exact h.owed t id ht

theorem op_lockAtBottom (op : Op) : LockAtBottom op.code := by
  cases op <;> simp [Op.code, threadYield, threadCreate, semaphoreLock, semaphoreTryLock,
    semaphoreUnlock, LockAtBottom, Instr.isLock]

theorem interrupt_isLock {irq : Nat} {handler : List Instr} {flag : Bool}
    (hhandler : (irq = 0 ∧ handler = [.timerCallback]) ∨
      (0 < irq ∧ env.signals = true ∧ ∃ ids, handler = List.flatMap semaphoreUnlock ids)) :
    ∀ instr ∈ interruptDispatch irq handler ++ [Instr.iret flag], instr.isLock = false := by
  rcases hhandler with ⟨-, rfl⟩ | ⟨-, -, ids, rfl⟩
  · simp [interruptDispatch, Instr.isLock]
  · intro instr hmem
    simp only [interruptDispatch, semaphoreUnlock, List.cons_append, List.append_assoc, List.mem_cons,
      List.mem_append, List.mem_flatMap, List.not_mem_nil, or_false, false_or] at hmem
    rcases hmem with rfl | ⟨id, -, rfl | rfl⟩ | rfl | rfl <;> rfl

theorem lockAtBottom_head {instr : Instr} (h : WakeupInv k log q) (hstack : k.stack = instr :: rest)
    (hinstr : instr.isLock = true) : rest = [] := by
  have hbottom := h.bottom k.currentThread
  rw [stackOf_current, hstack] at hbottom
  exact hbottom.1 hinstr

/-- The caller of `semaphore_lock` queues. -/
theorem WakeupInv.block {lock : Spinlock} (h : WakeupInv k log q)
    (hstack : k.stack = .semaphoreLockBody id :: rest)
    (hstack' : k'.stack = threadYield ++ .semaphoreLockReturn id :: rest)
    (hcurrent : k'.currentThread = k.currentThread) (hcontext : k'.context = k.context)
    (hcount : k'.threadCount = k.threadCount) :
    WakeupInv k' (.released k.currentThread lock :: .enqueued k.currentThread id :: log)
      { q with waiting := Function.update q.waiting id (q.waiting id ++ [k.currentThread]) } := by
  obtain rfl := lockAtBottom_head h hstack rfl
  have hlast : ∀ id, k.stack.getLast? ≠ some (.semaphoreLockReturn id) := by simp [hstack]
  have hframe := stackOf_frame hcurrent hcontext hcount
  have hothers : ∀ id' t, t ≠ k.currentThread →
      t ∈ Function.update q.waiting id (q.waiting id ++ [k.currentThread]) id' → t ∈ q.waiting id' := by
    intro id' t hself hmem
    by_cases hid : id' = id
    · subst hid
      rw [Function.update_self, List.mem_append, List.mem_singleton] at hmem
      exact hmem.resolve_right hself
    · rwa [Function.update_of_ne hid] at hmem
  refine ⟨fun t => ?_, fun id' t ht => ?_, fun t id' ht => ?_⟩
  · rw [hframe, hstack']
    split
    · simp [threadYield, LockAtBottom, Instr.isLock]
    · exact h.bottom t
  · rw [hframe]
    by_cases hself : t = k.currentThread
    · have hid : id' = id := by
        by_contra hne
        simp only [Function.update_of_ne hne] at ht
        rw [hself] at ht
        exact (h.not_waiting hlast id').1 ht
      rw [if_pos hself, hid, hstack']
      rfl
    · rw [if_neg hself]
      exact h.waiting id' t (hothers id' t hself ht)
  · have howed : Kiznix.owed t id' log = true := ht
    have hself : t ≠ k.currentThread := by
      rintro rfl
      rw [(h.not_waiting hlast id').2] at howed
      cases howed
    obtain ⟨hnot, hstacks⟩ := h.owed t id' howed
    rw [hframe, if_neg hself]
    exact ⟨fun hmem => hnot (hothers id' t hself hmem), hstacks⟩

/-- The blocked caller leaves `semaphore_lock`. -/
theorem WakeupInv.lockReturn (h : WakeupInv k log q) (hstack : k.stack = .semaphoreLockReturn id :: rest)
    (hnot : ∀ id, k.currentThread ∉ q.waiting id) (hstack' : k'.stack = rest)
    (hcurrent : k'.currentThread = k.currentThread) (hcontext : k'.context = k.context)
    (hcount : k'.threadCount = k.threadCount) :
    WakeupInv k' (.lockReturned k.currentThread id :: log) q := by
  obtain rfl := lockAtBottom_head h hstack rfl
  refine ⟨fun t => ?_, fun id' t ht => ?_, fun t id' ht => ?_⟩
  · rw [stackOf_frame hcurrent hcontext hcount, hstack']
    split
    · trivial
    · exact h.bottom t
  · rw [stackOf_frame hcurrent hcontext hcount, if_neg (ne_of_mem_of_not_mem ht (hnot id'))]
    exact h.waiting id' t ht
  · rw [Kiznix.owed] at ht
    split at ht
    · cases ht
    rename_i hother
    obtain ⟨hwaiting, hlast⟩ := h.owed t id' ht
    have hself : t ≠ k.currentThread := by
      rintro rfl
      rw [stackOf_current, hstack] at hlast
      exact hother ⟨rfl, by simpa using hlast⟩
    rw [stackOf_frame hcurrent hcontext hcount, if_neg hself]
    exact ⟨hwaiting, hlast⟩

/-- `semaphore_unlock` hands a unit to the first waiter. -/
theorem WakeupInv.handOver (h : WakeupInv k log q) {t : ThreadId} {waiting : List ThreadId}
    (hnodup : (q.waiting id).Nodup) (hwaiting : q.waiting id = t :: waiting)
    (hstacks : ∀ t, SameBottom (stackOf k t) (stackOf k' t)) {b outermost : Bool} {lock : Spinlock}
    {thread caller : ThreadId} :
    WakeupInv k' (.acquired thread lock b outermost :: .handedOver caller t id :: log)
      { q with waiting := Function.update q.waiting id waiting } := by
  have hsub : ∀ id', ∀ other ∈ Function.update q.waiting id waiting id', other ∈ q.waiting id' := by
    intro id' other hmem
    by_cases hid : id' = id
    · subst hid
      rw [Function.update_self] at hmem
      rw [hwaiting]
      exact List.mem_cons_of_mem _ hmem
    · rwa [Function.update_of_ne hid] at hmem
  refine ⟨fun other => (hstacks other).lockAtBottom (h.bottom other), fun id' other hmem => ?_,
    fun other id' howed => ?_⟩
  · exact (hstacks other).getLast? rfl (h.waiting id' other (hsub id' other hmem))
  · have howed : (if t = other ∧ id = id' then true else Kiznix.owed other id' log) = true := howed
    split at howed
    · rename_i hself
      obtain ⟨rfl, rfl⟩ := hself
      have hmem : t ∈ q.waiting id := by
        rw [hwaiting]
        exact List.mem_cons_self
      rw [hwaiting] at hnodup
      refine ⟨?_, (hstacks t).getLast? rfl (h.waiting id t hmem)⟩
      simp only [Function.update_self]
      exact (List.nodup_cons.mp hnodup).1
    · obtain ⟨hnot, hlast⟩ := h.owed other id' howed
      exact ⟨fun hmem => hnot (hsub id' other hmem), (hstacks other).getLast? rfl hlast⟩

theorem wakeup_step (hinv : Inv env k log q m) (h : WakeupInv k log q)
    (houtcome : Outcome env k act q k' q' events) (hrunning : k'.halted = none) :
    WakeupInv k' (events ++ log) q' := by
  cases houtcome with
  | call op hact hstack =>
      exact h.replace (by simp [hstack]) (op_lockAtBottom op) rfl rfl rfl rfl fun _ _ => rfl
  | interrupt irq handler hact hflag hhandler =>
      exact h.quiet (sameBottom_frame [] _ rfl (interruptEntry_stack k irq handler) (by simp)
        (interrupt_isLock hhandler) rfl rfl rfl) rfl fun _ _ => rfl
  | switch rest new tail next readyList suspendedList state ready suspended hstack hcount hready
      hqueues =>
      obtain ⟨hnew, hlt⟩ := hinv.next_thread hready
      exact h.quiet (sameBottom_switch hstack hnew hinv.lists.current_lt hlt rfl rfl
        rfl rfl) rfl fun _ _ => rfl
  | create rest next readyList hstack =>
      exact h.quiet (sameBottom_create hstack hinv.lists.current_lt rfl rfl rfl rfl) rfl fun _ _ => rfl
  | grant id rest event hstack hcount =>
      rcases hstack with ⟨hstack, rfl⟩ | ⟨hstack, rfl⟩
      · have hrest := lockAtBottom_head h hstack rfl
        subst hrest
        exact h.replace (by simp [hstack]) trivial rfl rfl rfl rfl fun _ _ => rfl
      · exact h.push [] ⟨hstack, rfl, rfl, rfl, rfl⟩ rfl (by simp) rfl fun _ _ => rfl
  | block id rest waiter semaphore hstack hcount hsemaphore => exact h.block hstack rfl rfl rfl rfl
  | lockReturn id rest hstack =>
      exact h.lockReturn hstack (hinv.current_not_waiting (hinv.at_head hstack).1.2) rfl rfl rfl rfl
  | pop id rest t waiting semaphore hstack hwaiting ht hsemaphore =>
      refine h.handOver (hinv.waiters.nodup id) hwaiting fun other => ?_
      have hsame : ∀ k', Replaces k k' (.semaphoreUnlockBody id)
          [.threadWakeupBody t, .spinUnlock .scheduler, .spinUnlock (.semaphore id)] rest →
          SameBottom (stackOf k other) (stackOf k' other) :=
        fun _ hreplaces => hreplaces.sameBottom rfl (by simp [Instr.isLock]) other
      exact hsame _ ⟨hstack, rfl, rfl, rfl, rfl⟩
  | timerCallback rest hstack =>
      exact h.push _ ⟨hstack, rfl, rfl, rfl, rfl⟩ rfl (by simp [threadYield, Instr.isLock]) rfl fun _ _ => rfl
  | spinLock lock rest hstack | picEnableIrq irq rest hstack =>
      exact h.push [_] ⟨hstack, rfl, rfl, rfl, rfl⟩ rfl (by simp [Instr.isLock]) rfl fun _ _ => rfl
  | take lock b rest hstack | unlock lock rest hstack | stay rest hstack | scheduleReturn b rest hstack
  | wakeup t rest next ready suspended hstack | createAssert rest hstack | refuse id rest hstack
  | increment id rest hstack | picDisableIrq irq rest hstack | picOut irq mask rest hstack | iret b rest hstack =>
      exact h.push [] ⟨hstack, rfl, rfl, rfl, rfl⟩ rfl (by simp) rfl fun _ _ => rfl
  | stop => cases hrunning

/-! ### The woken thread returns -/

/-- A bound on the steps that the code of a program point takes, its callees included. -/
def Instr.weight : Instr → Nat
  | .spinLock _ => 2
  | .picEnableIrq _ => 2
  | .timerCallback => 5
  | .semaphoreUnlockBody _ => 4
  | _ => 1

theorem Instr.weight_pos (instr : Instr) : 0 < instr.weight := by
  cases instr <;> simp [Instr.weight]

def weight (stack : List Instr) : Nat := (stack.map Instr.weight).sum

def Instr.isYield : Instr → Bool
  | .threadYieldBody => true
  | .timerCallback => true
  | _ => false

/-- How often the stack will still call `thread_schedule`. -/
def pendingYields (stack : List Instr) : Nat := stack.countP Instr.isYield

theorem weight_cons (instr : Instr) (rest : List Instr) :
    weight (instr :: rest) = instr.weight + weight rest := rfl

theorem pendingYields_cons (instr : Instr) (rest : List Instr) :
    pendingYields (instr :: rest) = pendingYields rest + instr.isYield.toNat := by
  rw [pendingYields, List.countP_cons]
  cases instr.isYield <;> rfl

/-- What such a step does. -/
structure OwnStep (k k' : Kernel) (log events : List Event) : Prop where
  current : k'.currentThread = k.currentThread
  weight : weight k'.stack < weight k.stack
  yields : pendingYields k'.stack ≤ pendingYields k.stack
  owed : ∀ t id, owed t id log = true → owed t id (events ++ log) = true

theorem OwnStep.push {instr : Instr} (pushed : List Instr) (hstack : k.stack = instr :: rest)
    (hcurrent : k'.currentThread = k.currentThread) (hstack' : k'.stack = pushed ++ rest)
    (hweight : Kiznix.weight pushed < instr.weight)
    (hyields : pendingYields pushed ≤ pendingYields [instr])
    (howed : ∀ t id, Kiznix.owed t id log = true → Kiznix.owed t id (events ++ log) = true) :
    OwnStep k k' log events := by
  refine ⟨hcurrent, ?_, ?_, howed⟩
  · rw [hstack, hstack', weight_cons, Kiznix.weight, Kiznix.weight, List.map_append, List.sum_append]
    exact Nat.add_lt_add_right hweight _
  · rw [hstack, hstack', ← List.singleton_append (l := rest), pendingYields, pendingYields,
      List.countP_append, List.countP_append]
    exact Nat.add_le_add_right hyields _

theorem OwnStep.pop {instr : Instr} (hstack : k.stack = instr :: rest)
    (hcurrent : k'.currentThread = k.currentThread) (hstack' : k'.stack = rest)
    (howed : ∀ t id, Kiznix.owed t id log = true → Kiznix.owed t id (events ++ log) = true) :
    OwnStep k k' log events :=
  .push [] hstack hcurrent hstack' instr.weight_pos (Nat.zero_le _) howed

/-- A step that the running thread makes on its own, short of `thread_schedule` and of the ends of
`semaphore_lock`, uses up its stack. -/
theorem own_step (log : List Event) (houtcome : Outcome env k .run q k' q' events) (hrunning : k'.halted = none)
    {instr : Instr} (hstack : k.stack = instr :: rest) (hyield : instr ≠ .threadYieldBody)
    (hlock : instr.isLock = false) : OwnStep k k' log events := by
  cases houtcome with
  | call op hact => cases hact
  | interrupt irq handler hact => exact absurd rfl hact
  | stay rest' hstack' =>
      rw [hstack] at hstack'
      exact absurd (List.cons.inj hstack').1 hyield
  | switch rest' new tail next readyList suspendedList state ready suspended hstack' =>
      rw [hstack] at hstack'
      exact absurd (List.cons.inj hstack').1 hyield
  | stop => cases hrunning
  | take lock b rest' hstack' | unlock lock rest' hstack' | scheduleReturn b rest' hstack'
  | wakeup t rest' next ready suspended hstack' | createAssert rest' hstack' | create rest' next ready hstack'
  | refuse id rest' hstack' | increment id rest' hstack' | picDisableIrq irq rest' hstack'
  | picOut irq mask rest' hstack' | iret b rest' hstack' =>
      exact .pop hstack' rfl rfl fun _ _ howed => howed
  | spinLock lock rest' hstack' | picEnableIrq irq rest' hstack' =>
      exact .push [_] hstack' rfl rfl (Nat.lt_succ_self 1) (Nat.le_refl 0) fun _ _ howed => howed
  | timerCallback rest' hstack' =>
      exact .push _ hstack' rfl rfl (by decide) (by decide) fun _ _ howed => howed
  | grant id rest' event hstack' hcount =>
      rcases hstack' with ⟨hstack', rfl⟩ | ⟨hstack', rfl⟩
      · rw [hstack] at hstack'
        rw [(List.cons.inj hstack').1] at hlock
        cases hlock
      · exact .pop hstack' rfl rfl fun _ _ howed => howed
  | block id rest' waiter semaphore hstack' =>
      rw [hstack] at hstack'
      rw [(List.cons.inj hstack').1] at hlock
      cases hlock
  | lockReturn id rest' hstack' =>
      rw [hstack] at hstack'
      rw [(List.cons.inj hstack').1] at hlock
      cases hlock
  | pop id rest' t waiting semaphore hstack' =>
      refine .push [_, _, _] hstack' rfl rfl (Nat.lt_succ_self 3) (Nat.le_refl 0)
        fun other id' howed => ?_
      show (if t = other ∧ id = id' then true else Kiznix.owed other id' log) = true
      rw [howed, ite_self]

theorem WakeupInv.blocked_unique (h : WakeupInv k log q) {t : ThreadId} {id' : SemaphoreId}
    (howed : Kiznix.owed t id log = true) : t ∉ q.waiting id' := by
  intro hmem
  obtain ⟨hnot, hlast⟩ := h.owed t id howed
  have hlast' := h.waiting id' t hmem
  rw [hlast] at hlast'
  obtain rfl : id = id' := by simpa using hlast'
  exact hnot hmem

/-- A thread that is owed a unit is suspended only while `thread_wakeup` is about to wake it. -/
theorem WakeupInv.not_suspended (hinv : Inv env k log q m) (h : WakeupInv k log q) {t : ThreadId}
    (howed : Kiznix.owed t id log = true) (hlt : t < k.threadCount)
    (hpending : wakeupTarget k.stack ≠ some t) : k.state t ≠ .suspended := by
  intro hstate
  obtain ⟨id', hmem⟩ := hinv.waiters.waits t hlt hstate hpending
  exact h.blocked_unique howed hmem

theorem WakeupInv.current_running (hinv : Inv env k log q m) (h : WakeupInv k log q)
    (howed : Kiznix.owed k.currentThread id log = true) : k.state k.currentThread = .running := by
  have hsuspended := h.not_suspended hinv howed hinv.lists.current_lt fun hpending =>
    hinv.lists.current_not_suspended (hinv.waiters.pending_suspended _ hpending).1
  cases hstate : k.state k.currentThread with
  | running => rfl
  | ready => exact absurd hstate hinv.lists.current_state
  | suspended => exact absurd hstate hsuspended

/-- A thread that is owed a unit runs, is ready, or is being put on the ready list. -/
theorem WakeupInv.scheduled (hinv : Inv env k log q m) (h : WakeupInv k log q) {t : ThreadId}
    (howed : Kiznix.owed t id log = true) :
    (t = k.currentThread ∧ k.state t = .running) ∨
      (k.state t = .ready ∧ ∃ ready, Linked k.next k.readyList ready ∧ t ∈ ready) ∨
      wakeupTarget k.stack = some t := by
  by_cases hself : t = k.currentThread
  · subst hself
    exact Or.inl ⟨rfl, h.current_running hinv howed⟩
  by_cases hpending : wakeupTarget k.stack = some t
  · exact Or.inr (Or.inr hpending)
  have hlt : t < k.threadCount := by
    have hlast := (h.owed t id howed).2
    by_contra hge
    rw [stackOf_of_ne hself, if_neg hge] at hlast
    cases hlast
  have hstate := h.not_suspended hinv howed hlt hpending
  have hmem := (hinv.lists.mem_iff t).mpr hlt
  rw [List.cons_append, List.mem_cons, List.mem_append] at hmem
  rcases hmem with hmem | hmem | hmem
  · exact absurd hmem hself
  · exact Or.inr (Or.inl ⟨hinv.lists.ready_state t hmem, q.ready, hinv.lists.ready_linked, hmem⟩)
  · exact absurd (hinv.lists.suspended_state t hmem) hstate

/-- The running thread returns from `semaphore_lock` by steps of its own, or it leaves the CPU as a ready
thread with fewer calls of `thread_schedule` ahead of it. -/
def ReturnsOrYields (k : Kernel) (id : SemaphoreId) : Prop :=
  ∃ k' log', Reachable k step (fun _ _ act => act = .run) k' log' ∧
    (.lockReturned k.currentThread id ∈ log' ∨
      (k'.state k.currentThread = .ready ∧
        pendingYields (stackOf k' k.currentThread) < pendingYields k.stack))

theorem ReturnsOrYields.prepend (h : ReturnsOrYields k' id) (hstep : step k .run = some (k', events))
    (hcurrent : k'.currentThread = k.currentThread)
    (hyields : pendingYields k'.stack ≤ pendingYields k.stack) : ReturnsOrYields k id := by
  obtain ⟨k'', log', hreach, hend⟩ := h
  rw [hcurrent] at hend
  refine ⟨k'', log' ++ events, hreach.prepend rfl hstep, hend.imp (fun hmem => ?_) fun hready => ?_⟩
  · exact List.mem_append_left _ hmem
  · exact ⟨hready.1, Nat.lt_of_lt_of_le hready.2 hyields⟩

/-- What `thread_schedule` does to a running thread: it goes on, or it becomes ready. -/
theorem yield_step (hinv : Inv env k log q m) (houtcome : Outcome env k .run q k' q' events)
    (hrunning : k'.halted = none) (hstack : k.stack = .threadYieldBody :: rest)
    (hstate : k.state k.currentThread = .running) :
    (k'.currentThread = k.currentThread ∧ k'.stack = rest ∧ events = []) ∨
      (k'.state k.currentThread = .ready ∧
        pendingYields (stackOf k' k.currentThread) = pendingYields rest) := by
  cases houtcome with
  | call op hact => cases hact
  | interrupt irq handler hact => exact absurd rfl hact
  | stop => cases hrunning
  | stay rest' hstack' =>
      rw [hstack] at hstack'
      exact Or.inl ⟨rfl, (List.cons.inj hstack').2.symm, rfl⟩
  | switch rest' new tail next readyList suspendedList state ready suspended hstack' hcount hready
      hqueues =>
      obtain rfl : rest' = rest := by
        rw [hstack] at hstack'
        exact (List.cons.inj hstack').2.symm
      obtain ⟨hnew, hlt⟩ := hinv.next_thread hready
      refine Or.inr ⟨?_, ?_⟩
      · rcases hqueues with ⟨-, -, -, rfl⟩ | ⟨hsuspended, -⟩
        · simp [hnew.symm]
        · rw [hstate] at hsuspended
          cases hsuspended
      · simp [stackOf, hnew.symm, hinv.lists.current_lt, pendingYields_cons, Instr.isYield]
  | _ => simp_all

theorem returnsOrYields (hinv : Inv .interrupts k log q m) (h : WakeupInv k log q)
    (howed : Kiznix.owed k.currentThread id log = true) (hrunning : k.halted = none) :
    ReturnsOrYields k id := by
  induction hweight : weight k.stack using Nat.strongRecOn generalizing k log q m with
  | ind n ih =>
      have hstate := h.current_running hinv howed
      have hlast := (h.owed _ _ howed).2
      rw [stackOf_current] at hlast
      cases hstack : k.stack with
      | nil =>
          rw [hstack] at hlast
          cases hlast
      | cons instr rest =>
          have hstep := step_run hrunning hstack
          have hallowed : Allowed .interrupts k log .run := by
            refine ⟨nofun, nofun, nofun, fun _ id' rest' hstack' hhead => ?_⟩
            have hmem : k.currentThread ∈ q.waiting id' := by
              refine List.mem_of_mem_head? ?_
              rw [← (hinv.waiters.linked id').head_eq]
              exact hhead
            exact h.blocked_unique howed hmem
          generalize hexec : exec k instr rest = result at hstep
          obtain ⟨k', events⟩ := result
          obtain ⟨q', houtcome, hnext⟩ := step_inv hinv hallowed hstep
          have hready : ReadyWhenBlocking k := fun _ hsuspended => by
            rw [hstate] at hsuspended
            cases hsuspended
          have hrunning' := hinv.not_stopped rfl hready houtcome hrunning
          obtain ⟨m', hinv'⟩ := hnext hrunning'
          have h' := wakeup_step hinv h houtcome hrunning'
          by_cases hyield : instr = .threadYieldBody
          · subst hyield
            rcases yield_step hinv houtcome hrunning' hstack hstate with ⟨hcurrent, hstack', rfl⟩ | hleft
            · have hless : weight k'.stack < n := by
                rw [← hweight, hstack, hstack', weight_cons]
                exact Nat.lt_add_of_pos_left (Instr.weight_pos _)
              refine (ih _ hless hinv' h' ?_ hrunning' rfl).prepend hstep hcurrent ?_
              · rwa [hcurrent]
              · rw [hstack, hstack', pendingYields_cons]
                exact Nat.le_add_right _ _
            · refine ⟨k', events ++ [], .step .init rfl hstep, Or.inr ⟨hleft.1, ?_⟩⟩
              rw [hleft.2, hstack, pendingYields_cons]
              exact Nat.lt_succ_self _
          by_cases hlock : instr.isLock = true
          · have hrest := lockAtBottom_head h hstack hlock
            subst hrest
            rw [hstack] at hlast
            obtain rfl : instr = .semaphoreLockReturn id := by simpa using hlast
            obtain ⟨-, rfl⟩ := Prod.mk.inj hexec
            exact ⟨k', [.lockReturned k.currentThread id] ++ [], .step .init rfl hstep, Or.inl (by simp)⟩
          · have hown := own_step log houtcome hrunning' hstack hyield (by simpa using hlock)
            have hless : weight k'.stack < n := by
              rw [← hweight]
              exact hown.weight
            refine (ih _ hless hinv' h' ?_ hrunning' rfl).prepend hstep hown.current hown.yields
            rw [hown.current]
            exact hown.owed _ _ howed

theorem wakeup_init : WakeupInv (threadInit initialCount) []
    { ready := [], suspended := [], waiting := fun _ => [] } := by
  refine ⟨fun t => ?_, fun id t ht => (nomatch ht), fun t id howed => (nomatch howed)⟩
  rw [stackOf]
  split
  · trivial
  · split <;> trivial

/-- `thread0` blocks; a handler on the stack of the other thread unlocks, and a tick resumes `thread0`. -/
def signalRun : List Act :=
  blockingRun ++ List.replicate 3 .run ++ .irq 9 [0] :: List.replicate 10 .run ++
    .timer :: List.replicate 5 .run

end Kiznix
