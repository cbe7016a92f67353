import Kiznix.SchedPartition
import Mathlib.Data.Finset.Card

/-! Spinlocks and the interrupt flag across context switches. One global holds the flag to restore, yet
every thread finds the flag of its own outermost `spin_lock` again: a thread that leaves the CPU parks it
in the frame of `thread_schedule`. -/

namespace Kiznix

open LinkedList RunLog

variable {env : Env} {k k' : Kernel} {log events : List Event} {q q' : Queues} {m m' : Mode}
  {initialCount : SemaphoreId → Nat} {act : Act} {stack rest : List Instr} {t : ThreadId}

/-- Callers take a spinlock only if they do not hold it, and release only what they hold. -/
def lockDiscipline (k : Kernel) (log : List Event) : Act → Bool
  | .call (.spinLock id) => !holdsLock k.currentThread (.user id) log
  | .call (.spinUnlock id) => holdsLock k.currentThread (.user id) log
  | _ => true

/-- Threads with spinlocks of their own, preempted by the timer. -/
structure SpinRun (k : Kernel) (log : List Event) (act : Act) : Prop where
  irq : act.isIrq = false
  discipline : lockDiscipline k log act = true

instance (act : Act) : Decidable (SpinRun k log act) :=
  decidable_of_iff (act.isIrq = false ∧ lockDiscipline k log act = true)
    ⟨fun h => ⟨h.1, h.2⟩, fun h => ⟨h.irq, h.discipline⟩⟩

def Env.spinlocks : Env := { signals := false, userLocks := true }

theorem SpinRun.allowed (h : SpinRun k log act) : Allowed .spinlocks k log act := by
  refine ⟨fun id hact => ⟨rfl, ?_⟩, fun id hact => ?_, fun irq ids hact => ?_, fun hsignals => ?_⟩
  · have hdiscipline := h.discipline
    rw [hact] at hdiscipline
    simpa [lockDiscipline] using hdiscipline
  · have hdiscipline := h.discipline
    rwa [hact] at hdiscipline
  · have hirq := h.irq
    rw [hact] at hirq
    cases hirq
  · cases hsignals

/-- The interrupt flag that the thread's latest outermost `spin_lock` found. -/
def lastOuter (thread : ThreadId) : List Event → Option Bool
  | [] => none
  | .acquired t _ flag true :: log => if t = thread then some flag else lastOuter thread log
  | _ :: log => lastOuter thread log

theorem lastOuter_acquired {thread : ThreadId} {lock : Spinlock} {flag outermost : Bool} :
    lastOuter t (.acquired thread lock flag outermost :: log) =
      if outermost = true ∧ thread = t then some flag else lastOuter t log := by
  cases outermost <;> simp [lastOuter]

def Instr.isScheduleReturn : Instr → Bool
  | .threadScheduleReturn _ => true
  | _ => false

/-- A `thread_schedule` that is waiting for its switch back is the innermost call of its stack. -/
def ReturnsFirst (stack : List Instr) : Prop := ∀ instr ∈ stack.tail, instr.isScheduleReturn = false

/-- The running thread is in `thread_entry` and has taken no lock yet. A thread that a tick took off the
CPU also comes to the code of `threadEntry`, but from a `thread_schedule` of its own. -/
def NewThread (k : Kernel) (log : List Event) : Prop :=
  k.stack = threadEntry ∧ lastOuter k.currentThread log = none

/-- Where the flag to restore is: in `g_interruptsEnabled` while the thread runs with a lock held, in the
frame of `thread_schedule` while it is off the CPU. A new thread has none. -/
structure SpinInv (k : Kernel) (log : List Event) : Prop where
  shape : ReturnsFirst k.stack
  holding : k.gSpinLockCount ≠ 0 → (∀ b, k.stack.head? ≠ some (.threadScheduleReturn b)) →
    lastOuter k.currentThread log = some k.gInterruptsEnabled ∨ NewThread k log
  resuming : ∀ b, k.stack.head? = some (.threadScheduleReturn b) →
    lastOuter k.currentThread log = some b
  parked : ∀ t, t < k.threadCount → t ≠ k.currentThread → ReturnsFirst (k.context t) ∧
    ((k.context t = threadEntry ∧ lastOuter t log = none) ∨
      ∃ b rest, k.context t = .threadScheduleReturn b :: rest ∧ lastOuter t log = some b)
  unborn : ∀ t, k.threadCount ≤ t → t ≠ k.currentThread → lastOuter t log = none

theorem SpinInv.clean (h : SpinInv k log) (hhead : ∀ b, k.stack.head? ≠ some (.threadScheduleReturn b)) :
    ∀ instr ∈ k.stack, instr.isScheduleReturn = false := by
  intro instr hmem
  cases hstack : k.stack with
  | nil =>
      rw [hstack] at hmem
      cases hmem
  | cons first rest =>
      rw [hstack, List.mem_cons] at hmem
      rcases hmem with rfl | hmem
      · cases instr with
        | threadScheduleReturn b => exact absurd (by rw [hstack]; rfl) (hhead b)
        | _ => rfl
      · exact h.shape instr (by rwa [hstack])

/-- After the step no `thread_schedule` is left on the stack. -/
theorem SpinInv.leave (h : SpinInv k log) (hclean : ∀ instr ∈ k'.stack, instr.isScheduleReturn = false)
    (hcurrent : k'.currentThread = k.currentThread) (hcontext : k'.context = k.context)
    (hthreads : k'.threadCount = k.threadCount)
    (houter : ∀ t, t ≠ k.currentThread → lastOuter t (events ++ log) = lastOuter t log)
    (hholding : k'.gSpinLockCount ≠ 0 → lastOuter k.currentThread (events ++ log) = some k'.gInterruptsEnabled) :
    SpinInv k' (events ++ log) := by
  refine ⟨fun instr hmem => hclean instr (List.mem_of_mem_tail hmem), fun hcount _ => ?_, fun b hhead => ?_,
    fun t hlt ht => ?_, fun t hge ht => ?_⟩
  · rw [hcurrent]
    exact Or.inl (hholding hcount)
  · have hreturn := hclean _ (List.mem_of_mem_head? hhead)
    cases hreturn
  · rw [hcurrent] at ht
    rw [hthreads] at hlt
    rw [hcontext, houter t ht]
    exact h.parked t hlt ht
  · rw [hcurrent] at ht
    rw [hthreads] at hge
    rw [houter t ht]
    exact h.unborn t hge ht

/-- A step by code that is not `thread_schedule`. -/
theorem SpinInv.push (h : SpinInv k log) {instr : Instr} (pushed : List Instr)
    (hreplaces : Replaces k k' instr pushed rest) (hinstr : instr.isScheduleReturn = false)
    (hpushed : ∀ other ∈ pushed, other.isScheduleReturn = false)
    (houter : ∀ t, t ≠ k.currentThread → lastOuter t (events ++ log) = lastOuter t log)
    (hholding : k'.gSpinLockCount ≠ 0 →
      (k.gSpinLockCount ≠ 0 → lastOuter k.currentThread log = some k.gInterruptsEnabled ∨
        instr :: rest = threadEntry) →
      lastOuter k.currentThread (events ++ log) = some k'.gInterruptsEnabled) :
    SpinInv k' (events ++ log) := by
  refine h.leave (fun other hmem => ?_) hreplaces.current hreplaces.context hreplaces.threads houter
    fun hcount => hholding hcount fun hne => ?_
  · rw [hreplaces.stack'] at hmem
    rcases List.mem_append.mp hmem with hmem | hmem
    · exact hpushed other hmem
    · exact h.shape other (by rw [hreplaces.stack]; exact hmem)
  · refine (h.holding hne fun b hhead => ?_).imp_right fun hnew => ?_
    · rw [hreplaces.stack] at hhead
      rw [Option.some.inj hhead] at hinstr
      cases hinstr
    · rw [← hreplaces.stack]
      exact hnew.1

/-- A step that takes no lock, or releases one. -/
theorem SpinInv.pass (h : SpinInv k log) {instr : Instr} (pushed : List Instr)
    (hreplaces : Replaces k k' instr pushed rest) (hinstr : instr.isScheduleReturn = false)
    (hpushed : ∀ other ∈ pushed, other.isScheduleReturn = false)
    (houter : ∀ t, lastOuter t (events ++ log) = lastOuter t log)
    (hcount : k'.gSpinLockCount ≠ 0 → k.gSpinLockCount ≠ 0)
    (hflag : k'.gInterruptsEnabled = k.gInterruptsEnabled)
    (hentry : k'.gSpinLockCount ≠ 0 → instr :: rest ≠ threadEntry) : SpinInv k' (events ++ log) := by
  refine h.push pushed hreplaces hinstr hpushed (fun t _ => houter t) fun hne hholding => ?_
  rw [houter, hflag]
  exact (hholding (hcount hne)).resolve_right (hentry hne)

theorem op_isScheduleReturn (op : Op) : ∀ instr ∈ op.code, instr.isScheduleReturn = false := by
  cases op <;> simp [Op.code, threadYield, threadCreate, semaphoreLock, semaphoreTryLock,
    semaphoreUnlock, Instr.isScheduleReturn]

/-- A new thread starts with `scheduler_lock` as the only lock. -/
theorem Inv.count_threadEntry (h : Inv env k log q m) (hstack : k.stack = threadEntry) :
    k.gSpinLockCount = 1 := by
  have htyped := h.typed
  rw [hstack] at htyped
  obtain ⟨hreleasable, ⟨hheld, husers⟩, -⟩ := htyped
  have hcounted := h.locks.counted
  rcases hreleasable with hm | ⟨id, hm⟩
  · have husers : m.users = [] := husers
    rw [hcounted, Mode.locks, hm, husers]
    rfl
  · simp [Instr.post, Mode.release, hm] at hheld

/-- Without a lock no `thread_schedule` waits for its switch back. -/
theorem Inv.not_returning (h : Inv env k log q m) (hcount : k.gSpinLockCount = 0) (b : Bool) :
    k.stack.head? ≠ some (.threadScheduleReturn b) := by
  intro hhead
  obtain ⟨rest, hstack⟩ := List.head?_eq_some_iff.mp hhead
  have hheld : m.held = .scheduler := (h.at_head hstack).1.1
  exact (h.count_ne (by rw [hheld]; decide)).1 hcount

theorem timer_isScheduleReturn (flag : Bool) :
    ∀ instr ∈ interruptDispatch irq [.timerCallback] ++ [.iret flag], instr.isScheduleReturn = false := by
  simp [interruptDispatch, Instr.isScheduleReturn]

/-- The thread that is switched to runs on with the flag in its own frame. -/
theorem SpinInv.switch (h : SpinInv k log) {new : ThreadId} (hstack : k.stack = .threadYieldBody :: rest)
    (hcount : k.gSpinLockCount ≠ 0) (hcurrent_lt : k.currentThread < k.threadCount)
    (hlt : new < k.threadCount) (hnew : new ≠ k.currentThread)
    (hcurrent : k'.currentThread = new) (hstack' : k'.stack = k.context new)
    (hcontext : k'.context = Function.update k.context k.currentThread
      (.threadScheduleReturn k.gInterruptsEnabled :: rest))
    (hthreads : k'.threadCount = k.threadCount) : SpinInv k' log := by
  obtain ⟨hshape, hparked⟩ := h.parked new hlt hnew
  refine ⟨?_, fun _ hhead => Or.inr ?_, fun b hhead => ?_, fun t hlt' ht => ?_, fun t hge ht => ?_⟩
  · rw [hstack']
    exact hshape
  · rw [hstack'] at hhead
    rw [NewThread, hstack', hcurrent]
    refine hparked.resolve_right ?_
    rintro ⟨b, rest', hreturn, -⟩
    exact hhead b (by rw [hreturn]; rfl)
  · rw [hstack'] at hhead
    rw [hcurrent]
    rcases hparked with ⟨hentry, -⟩ | ⟨b', rest', hreturn, houter⟩
    · rw [hentry] at hhead
      cases hhead
    · rw [hreturn] at hhead
      cases hhead
      exact houter
  · rw [hthreads] at hlt'
    by_cases hold : t = k.currentThread
    · have hrest := h.shape
      rw [hstack] at hrest
      have houter := (h.holding hcount (by simp [hstack])).resolve_right (by simp [NewThread, hstack, threadEntry])
      rw [hcontext, hold, Function.update_self]
      exact ⟨hrest, Or.inr ⟨k.gInterruptsEnabled, rest, rfl, houter⟩⟩
    · rw [hcontext, Function.update_of_ne hold]
      exact h.parked t hlt' hold
  · rw [hthreads] at hge
    exact h.unborn t hge (hcurrent_lt.trans_le hge).ne'

theorem spin_step (hinv : Inv .spinlocks k log q m) (h : SpinInv k log)
    (houtcome : Outcome .spinlocks k act q k' q' events) (hrunning : k'.halted = none) :
    SpinInv k' (events ++ log) := by
  cases houtcome with
  | call op hact hstack =>
      refine h.leave (op_isScheduleReturn op) rfl rfl rfl (fun _ _ => rfl) fun hcount => ?_
      exact (h.holding hcount fun b => by simp [hstack]).resolve_right (by simp [NewThread, hstack, threadEntry])
  | interrupt irq handler hact hflag hhandler =>
      have hcount : k.gSpinLockCount = 0 := by
        by_contra hne
        rw [hinv.locks.disabled hne] at hflag
        cases hflag
      refine h.leave (fun instr hmem => ?_) rfl rfl rfl (fun _ _ => rfl) fun hne => absurd hcount hne
      rcases hhandler with ⟨-, rfl⟩ | ⟨-, hsignals, -⟩
      · rw [interruptEntry_stack, List.mem_append] at hmem
        rcases hmem with hmem | hmem
        · exact timer_isScheduleReturn k.interruptFlag instr hmem
        · exact h.clean (hinv.not_returning hcount) instr hmem
      · cases hsignals
  | switch rest new tail next readyList suspendedList state ready suspended hstack hcount hready
      hqueues =>
      obtain ⟨hnew, hlt⟩ := hinv.next_thread hready
      exact h.switch hstack (by rw [hcount]; decide) hinv.lists.current_lt hlt hnew rfl rfl rfl rfl
  | scheduleReturn b rest hstack =>
      have hclean := h.shape
      rw [hstack] at hclean
      exact h.leave hclean rfl rfl rfl (fun _ _ => rfl) fun _ => h.resuming b (by rw [hstack]; rfl)
  | create rest next readyList hstack =>
      have hpass : SpinInv { k with stack := rest } ([] ++ log) :=
        h.pass [] ⟨hstack, rfl, rfl, rfl, rfl⟩ rfl (by simp) (fun _ => rfl) (fun hne => hne) rfl
          fun _ => by simp [threadEntry]
      refine ⟨hpass.shape, hpass.holding, hpass.resuming, fun t hlt ht => ?_,
        fun t hge ht => hpass.unborn t (Nat.le_of_succ_le hge) ht⟩
      by_cases hfresh : t = k.threadCount
      · have hnone := hpass.unborn t hfresh.ge ht
        simp only [hfresh, Function.update_self]
        rw [hfresh] at hnone
        exact ⟨by simp [ReturnsFirst, threadEntry, Instr.isScheduleReturn], Or.inl ⟨trivial, hnone⟩⟩
      · simp only [Function.update_of_ne hfresh]
        exact h.parked t (Nat.lt_of_le_of_ne (Nat.le_of_lt_succ hlt) hfresh) ht
  | take lock b rest hstack hfree =>
      refine h.push [] ⟨hstack, rfl, rfl, rfl, rfl⟩ rfl (by simp) (fun t ht => ?_) fun _ hholding => ?_
      · rw [List.singleton_append, lastOuter_acquired, if_neg fun hself => ht hself.2.symm]
      · rw [List.singleton_append, lastOuter_acquired]
        by_cases hcount : k.gSpinLockCount = 0
        · simp [hcount]
        · simp only [hcount, decide_false, if_false]
          simpa using (hholding hcount).resolve_right (by simp [threadEntry])
  | unlock lock rest hstack hcount =>
      refine h.pass [] ⟨hstack, rfl, rfl, rfl, rfl⟩ rfl (by simp) (fun _ => rfl)
        (fun hne => by simp only at hne; omega) rfl fun hne hentry => ?_
      rw [hentry] at hstack
      have hone := hinv.count_threadEntry hstack
      simp only at hne
      omega
  | grant id rest event hstack hcount =>
      rcases hstack with ⟨hstack, rfl⟩ | ⟨hstack, rfl⟩
      · exact h.pass [] ⟨hstack, rfl, rfl, rfl, rfl⟩ rfl (by simp) (fun _ => rfl)
          (fun hne => by simp only at hne; omega) rfl fun _ => by simp [threadEntry]
      · exact h.pass [] ⟨hstack, rfl, rfl, rfl, rfl⟩ rfl (by simp) (fun _ => rfl)
          (fun hne => by simp only at hne; omega) rfl fun _ => by simp [threadEntry]
  | block id rest waiter semaphore hstack =>
      exact h.pass (threadYield ++ [.semaphoreLockReturn id]) ⟨hstack, by simp, rfl, rfl, rfl⟩ rfl
        (by simp [threadYield, Instr.isScheduleReturn]) (fun _ => rfl) (fun hne => by simp only at hne; omega) rfl
        fun _ => by simp [threadEntry]
  | pop id rest t waiting semaphore hstack =>
      have hheld : m.held = .semaphore id := (hinv.at_head hstack).1.1
      have hcount := (hinv.count_ne (by rw [hheld]; simp)).1
      exact h.pass [_, _, _] ⟨hstack, rfl, rfl, rfl, rfl⟩ rfl (by simp [Instr.isScheduleReturn]) (fun _ => rfl)
        (fun _ => hcount) rfl fun _ => by simp [threadEntry]
  | stop => cases hrunning
  | timerCallback rest hstack =>
      exact h.pass _ ⟨hstack, rfl, rfl, rfl, rfl⟩ rfl (by simp [threadYield, Instr.isScheduleReturn]) (fun _ => rfl)
        (fun hne => hne) rfl fun _ => by simp [threadEntry]
  | spinLock lock rest hstack | picEnableIrq irq rest hstack =>
      exact h.pass [_] ⟨hstack, rfl, rfl, rfl, rfl⟩ rfl (by simp [Instr.isScheduleReturn]) (fun _ => rfl)
        (fun hne => hne) rfl fun _ => by simp [threadEntry]
  | refuse id rest hstack | increment id rest hstack =>
      exact h.pass [] ⟨hstack, rfl, rfl, rfl, rfl⟩ rfl (by simp) (fun _ => rfl)
        (fun hne => by simp only at hne; omega) rfl fun _ => by simp [threadEntry]
  | stay rest hstack | wakeup t rest next ready suspended hstack | createAssert rest hstack
  | lockReturn id rest hstack | picDisableIrq irq rest hstack | picOut irq mask rest hstack | iret b rest hstack =>
      exact h.pass [] ⟨hstack, rfl, rfl, rfl, rfl⟩ rfl (by simp) (fun _ => rfl) (fun hne => hne) rfl
        fun _ => by simp [threadEntry]

/-- The flag that a thread with a lock held will get back. -/
theorem SpinInv.outer (h : SpinInv k log) {instr : Instr} (hstack : k.stack = instr :: rest)
    (hinstr : instr.isScheduleReturn = false) (hcount : k.gSpinLockCount ≠ 0)
    (hold : ¬NewThread k log) : lastOuter k.currentThread log = some k.gInterruptsEnabled := by
  refine (h.holding hcount fun b hhead => ?_).resolve_right hold
  rw [hstack] at hhead
  rw [Option.some.inj hhead] at hinstr
  cases hinstr

/-- The `spin_unlock` that brings the count to zero restores the flag of the thread's own outermost
`spin_lock`. -/
theorem release_restores (hinv : Inv env k log q m) (h : SpinInv k log)
    (houtcome : Outcome env k act q k' q' events) {thread : ThreadId} {lock : Spinlock}
    (hreleased : .released thread lock ∈ events) (hzero : k'.gSpinLockCount = 0)
    (hold : ¬NewThread k log) : lastOuter k.currentThread log = some k'.interruptFlag := by
  have hsemaphore : ∀ id, m.held = .semaphore id → k.gSpinLockCount ≠ 0 := fun id hheld =>
    (hinv.count_ne (by rw [hheld]; simp)).1
  cases houtcome with
  | unlock lock rest hstack hcount =>
      rw [h.outer hstack rfl hcount hold]
      simp only at hzero
      simp [hzero]
  | grant id rest event hstack hcount =>
      rcases hstack with ⟨hstack, -⟩ | ⟨hstack, -⟩ <;>
      · rw [h.outer hstack rfl (hsemaphore id (hinv.at_head hstack).1.1) hold]
        simp only at hzero
        simp [hzero]
  | refuse id rest hstack =>
      rw [h.outer hstack rfl (hsemaphore id (hinv.at_head hstack).1.1) hold]
      simp only at hzero
      simp [hzero]
  | increment id rest hstack =>
      rw [h.outer hstack rfl (hsemaphore id (hinv.at_head hstack).1.1) hold]
      simp only at hzero
      simp [hzero]
  | block id rest waiter semaphore hstack =>
      rw [h.outer hstack rfl (hsemaphore id (hinv.at_head hstack).1.1) hold]
      simp only at hzero
      simp [hzero]
  | _ => simp at hreleased

/-! ### Runs -/

/-- `g_spinLockCount` is the number of spinlocks that are set. -/
def Counted (k : Kernel) : Prop :=
  ∃ locks : Finset Spinlock, (∀ lock, lock ∈ locks ↔ k.lock lock = true) ∧
    k.gSpinLockCount = locks.card

theorem Inv.counted (h : Inv env k log q m) : Counted k := by
  refine ⟨⟨m.locks, Multiset.coe_nodup.mpr h.locks.nodup⟩, fun lock => ?_, ?_⟩
  · rw [h.locks.locked]
    exact Iff.rfl
  · exact h.locks.counted

/-- What the spinlocks promise in every state, also after a `fatal`. -/
structure SpinSafe (k : Kernel) (log : List Event) : Prop where
  counted : Counted k
  disabled : 0 < k.gSpinLockCount → k.interruptFlag = false
  /-- `spin_lock` finds the lock free when it is called and when it tests the lock. -/
  free : k.halted = none → ∀ lock rest,
    (k.stack = .spinLock lock :: rest ∨ ∃ b, k.stack = .spinLockCli lock b :: rest) → k.lock lock = false
  no_spin : k.halted = none → ∀ lock rest, k.stack ≠ .spinLockSpin lock :: rest
  /-- The last `spin_unlock` gives a thread that has already run the interrupt flag that its own outermost
  `spin_lock` found. -/
  restored : ∀ k' events thread lock, step k .run = some (k', events) → .released thread lock ∈ events →
    k'.gSpinLockCount = 0 → ¬NewThread k log →
    lastOuter k.currentThread log = some k'.interruptFlag

theorem spin_init : SpinInv (threadInit initialCount) [] :=
  ⟨by simp [ReturnsFirst, threadInit], fun hcount => absurd rfl hcount, by simp [threadInit],
    fun t hlt ht => absurd (Nat.lt_one_iff.mp hlt) ht, fun _ _ _ => rfl⟩

theorem Outcome.stopped (houtcome : Outcome env k act q k' q' events) (hrunning : k.halted = none)
    (hstopped : k'.halted ≠ none) :
    k'.lock = k.lock ∧ k'.gSpinLockCount = k.gSpinLockCount ∧ k'.interruptFlag = false := by
  cases houtcome with
  | stop k'' reason hreason hlock hcount => exact ⟨hlock, hcount, rfl⟩
  | _ => exact absurd hrunning hstopped

theorem acquirable_of_spinLock {lock : Spinlock} (h : (Instr.spinLock lock).Pre env m) :
    m.Acquirable lock := by
  cases lock with
  | scheduler => exact Or.inl h
  | semaphore id => exact h
  | user id => exact ⟨h.1, h.2.1⟩

/-- Spinlocks and the interrupt flag stay in step in every run of threads that use them properly. -/
theorem spinlocks_safe (h : Reachable (threadInit initialCount) step SpinRun k log) :
    SpinSafe k log := by
  have hall : (k.halted = none → ∃ q m, Inv .spinlocks k log q m ∧ SpinInv k log) ∧ Counted k ∧
      (0 < k.gSpinLockCount → k.interruptFlag = false) := by
    refine h.invariant (P := fun k log =>
      (k.halted = none → ∃ q m, Inv .spinlocks k log q m ∧ SpinInv k log) ∧ Counted k ∧
        (0 < k.gSpinLockCount → k.interruptFlag = false)) ?_ ?_
    · have hinit := init_inv .spinlocks initialCount
      exact ⟨fun _ => ⟨_, _, hinit, spin_init⟩, hinit.counted, fun hpos => absurd hpos (Nat.lt_irrefl 0)⟩
    · intro k k' log events act _ ⟨hinv, hcounted, _⟩ hact hrun
      have hrunning := (step_cases hrun).1
      obtain ⟨q, m, hinv, hspin⟩ := hinv hrunning
      obtain ⟨q', houtcome, hnext⟩ := step_inv hinv hact.allowed hrun
      by_cases hrunning' : k'.halted = none
      · obtain ⟨m', hinv'⟩ := hnext hrunning'
        exact ⟨fun _ => ⟨q', m', hinv', spin_step hinv hspin houtcome hrunning'⟩, hinv'.counted,
          fun hpos => hinv'.locks.disabled hpos.ne'⟩
      · obtain ⟨hlock, hcount, hflag⟩ := houtcome.stopped hrunning hrunning'
        refine ⟨fun hrunning => absurd hrunning hrunning', ?_, fun _ => hflag⟩
        rwa [Counted, hlock, hcount]
  obtain ⟨hinv, hcounted, hdisabled⟩ := hall
  refine ⟨hcounted, hdisabled, fun hrunning lock rest hstack => ?_, fun hrunning lock rest hstack => ?_,
    fun k' events thread lock hrun hreleased hzero hold => ?_⟩
  · obtain ⟨q, m, hinv, -⟩ := hinv hrunning
    rcases hstack with hstack | ⟨b, hstack⟩
    · exact hinv.locks.free (acquirable_of_spinLock (hinv.at_head hstack).1)
    · exact hinv.locks.free (acquirable_of_pre (hinv.at_head hstack).1).1
  · obtain ⟨q, m, hinv, -⟩ := hinv hrunning
    exact (hinv.at_head hstack).1
  · obtain ⟨q, m, hinv, hspin⟩ := hinv (step_cases hrun).1
    have hallowed : Allowed .spinlocks k log .run := ⟨nofun, nofun, nofun, nofun⟩
    obtain ⟨q', houtcome, -⟩ := step_inv hinv hallowed hrun
    exact release_restores hinv hspin houtcome hreleased hzero hold

/-- A new thread is preempted in its turn, and `thread0` takes two locks and releases the first. -/
def nestedRun : List Act :=
  .call .threadCreate :: List.replicate 5 .run ++ .timer :: List.replicate 9 .run ++
    .timer :: List.replicate 10 .run ++ .call (.spinLock 0) :: List.replicate 2 .run ++
    .call (.spinLock 1) :: List.replicate 2 .run ++ [.call (.spinUnlock 0), .run]

/-- In the second run a tick takes `thread0` through `thread_schedule`, and it runs on in the code that a
new thread starts with. -/
theorem spinlocks_safe_nested :
    (∃ k log, Reachable (threadInit fun _ => 0) step SpinRun k log ∧ k.gSpinLockCount = 1 ∧
      k.lock (.user 0) = false ∧ k.lock (.user 1) = true ∧ SpinSafe k log) ∧
    ∃ k log, Reachable (threadInit fun _ => 0) step SpinRun k log ∧ k.stack = threadEntry ∧
      ¬NewThread k log ∧ SpinSafe k log := by
  have h : Reachable (threadInit fun _ => 0) step SpinRun _ _ :=
    reachable_of_replay nestedRun (by decide)
  have hticked : Reachable (threadInit fun _ => 0) step SpinRun _ _ :=
    reachable_of_replay (.timer :: List.replicate 5 .run) (by decide)
  refine ⟨⟨_, _, h, by decide, by decide, by decide, spinlocks_safe h⟩,
    ⟨_, _, hticked, by decide, fun hnew => ?_, spinlocks_safe hticked⟩⟩
  have hnone := hnew.2
  revert hnone
  decide

end Kiznix
