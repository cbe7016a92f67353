import Kiznix.SchedPartition
import Kiznix.FifoSemaphore

/-! The semaphores of the kernel refine the counting semaphore with hand-over. Every step of a run is no
step or one step of each abstract semaphore; a thread has one pending return from `semaphore_lock` on its
stack while it waits or is owed a unit. -/

namespace Kiznix

open LinkedList RunLog

variable {env : Env} {k k' : Kernel} {log events : List Event} {q q' : Queues} {m m' : Mode}
  {initialCount : SemaphoreId → Nat} {act : Act} {id : SemaphoreId} {n : Nat}

/-- What an event means to a semaphore. -/
def Event.on (id : SemaphoreId) : Event → Option (FifoSemaphore.Event ThreadId)
  | .lockGranted thread id' => if id' = id then some (.granted thread) else none
  | .tryLockGranted thread id' => if id' = id then some (.granted thread) else none
  | .tryLockRefused thread id' => if id' = id then some (.refused thread) else none
  | .enqueued thread id' => if id' = id then some (.enqueued thread) else none
  | .lockReturned thread id' => if id' = id then some (.returned thread) else none
  | .unlocked thread id' => if id' = id then some (.released thread) else none
  | .handedOver thread waiter id' => if id' = id then some (.handedOver thread waiter) else none
  | .acquired _ _ _ _ => none
  | .released _ _ => none

def history (id : SemaphoreId) (log : List Event) : List (FifoSemaphore.Event ThreadId) :=
  log.filterMap (Event.on id)

@[simp] theorem history_nil : history id [] = [] := rfl

@[simp] theorem history_cons (e : Event) :
    history id (e :: log) = (e.on id).toList ++ history id log := by
  rw [history, List.filterMap_cons]
  cases e.on id <;> rfl

theorem history_append : history id (events ++ log) = history id events ++ history id log :=
  List.filterMap_append

/-- What a thread still has to execute. -/
def stackOf (k : Kernel) (t : ThreadId) : List Instr :=
  if t = k.currentThread then k.stack else if t < k.threadCount then k.context t else []

theorem stackOf_current : stackOf k k.currentThread = k.stack := if_pos rfl

theorem stackOf_of_ne {t : ThreadId} (ht : t ≠ k.currentThread) :
    stackOf k t = if t < k.threadCount then k.context t else [] := if_neg ht

theorem stackOf_frame (hcurrent : k'.currentThread = k.currentThread)
    (hcontext : k'.context = k.context) (hcount : k'.threadCount = k.threadCount) (t : ThreadId) :
    stackOf k' t = if t = k.currentThread then k'.stack else stackOf k t := by
  by_cases ht : t = k.currentThread
  · rw [if_pos ht, stackOf, hcurrent, if_pos ht]
  · rw [if_neg ht, stackOf, hcurrent, if_neg ht, hcontext, hcount, stackOf_of_ne ht]

theorem Replaces.stackOf {instr : Instr} {pushed rest : List Instr} (h : Replaces k k' instr pushed rest)
    (t : ThreadId) : stackOf k' t = if t = k.currentThread then pushed ++ rest else Kiznix.stackOf k t := by
  rw [stackOf_frame h.current h.context h.threads, h.stack']

/-- A stack switch changes the stack of the thread that leaves only. -/
theorem stackOf_switch {new : ThreadId} {old : List Instr} (hnew : new ≠ k.currentThread)
    (hlt : k.currentThread < k.threadCount) (hnewlt : new < k.threadCount)
    (hcurrent : k'.currentThread = new) (hstack : k'.stack = k.context new)
    (hcontext : k'.context = Function.update k.context k.currentThread old)
    (hcount : k'.threadCount = k.threadCount) (t : ThreadId) :
    stackOf k' t = if t = k.currentThread then old else stackOf k t := by
  rw [stackOf, hcurrent, hstack, hcontext, hcount]
  by_cases ht : t = k.currentThread
  · rw [if_pos ht, ht, if_neg hnew.symm, if_pos hlt, Function.update_self]
  · rw [if_neg ht, Function.update_of_ne ht, stackOf_of_ne ht]
    by_cases ht' : t = new
    · rw [if_pos ht', ht', if_pos hnewlt]
    · rw [if_neg ht']

theorem stackOf_create (hcurrent : k'.currentThread = k.currentThread)
    (hcontext : k'.context = Function.update k.context k.threadCount threadEntry)
    (hcount : k'.threadCount = k.threadCount + 1) (t : ThreadId) :
    stackOf k' t = if t = k.currentThread then k'.stack else
      if t = k.threadCount then threadEntry else stackOf k t := by
  rw [stackOf, hcurrent, hcontext, hcount]
  by_cases ht : t = k.currentThread
  · rw [if_pos ht, if_pos ht]
  rw [if_neg ht, if_neg ht]
  by_cases hfresh : t = k.threadCount
  · rw [if_pos hfresh, hfresh, if_pos (Nat.lt_succ_self _), Function.update_self]
  rw [if_neg hfresh, Function.update_of_ne hfresh, stackOf_of_ne ht]
  by_cases hold : t < k.threadCount
  · rw [if_pos hold, if_pos (Nat.lt_succ_of_lt hold)]
  · rw [if_neg hold, if_neg fun hlt' => hold (Nat.lt_of_le_of_ne (Nat.le_of_lt_succ hlt') hfresh)]

theorem stackOf_fresh (hlt : k.currentThread < k.threadCount) : stackOf k k.threadCount = [] := by
  rw [stackOf_of_ne hlt.ne', if_neg (Nat.lt_irrefl _)]

/-- A thread has one pending return for each time it waits or is owed a unit. -/
def PendingReturns (id : SemaphoreId) (k : Kernel) (s : FifoSemaphore.State ThreadId) : Prop :=
  ∀ t, s.owed.count t + s.waiting.count t = (stackOf k t).count (.semaphoreLockReturn id)

/-- The semaphore stands where the abstract one stands after the same history. -/
def Refines (n : Nat) (id : SemaphoreId) (k : Kernel) (log : List Event) (q : Queues) : Prop :=
  ∃ s, FifoSemaphore.Run n (history id log) s ∧ s.waiting = q.waiting id ∧
    (k.semaphore id).count = s.count ∧ PendingReturns id k s

theorem PendingReturns.push {s s' : FifoSemaphore.State ThreadId} {instr : Instr}
    {rest pushed : List Instr} (h : PendingReturns id k s) (hreplaces : Replaces k k' instr pushed rest)
    (howed : ∀ t, s'.owed.count t + s'.waiting.count t +
        (if t = k.currentThread then [instr].count (.semaphoreLockReturn id) else 0) =
      s.owed.count t + s.waiting.count t +
        (if t = k.currentThread then pushed.count (.semaphoreLockReturn id) else 0)) :
    PendingReturns id k' s' := by
  intro t
  have hbefore := h t
  have hchange := howed t
  rw [hreplaces.stackOf]
  by_cases ht : t = k.currentThread
  · rw [ht, stackOf_current, hreplaces.stack, ← List.singleton_append, List.count_append] at hbefore
    rw [if_pos ht, if_pos ht, ht] at hchange
    rw [if_pos ht, List.count_append, ht]
    omega
  · rw [if_neg ht, if_neg ht] at hchange
    rw [if_neg ht]
    omega

theorem PendingReturns.push_clean {s : FifoSemaphore.State ThreadId} {pushed : List Instr}
    (h : PendingReturns id k s) (hstack' : k'.stack = pushed ++ k.stack)
    (hpushed : pushed.count (.semaphoreLockReturn id) = 0) (hcurrent : k'.currentThread = k.currentThread)
    (hcontext : k'.context = k.context) (hcount : k'.threadCount = k.threadCount) :
    PendingReturns id k' s := by
  intro t
  rw [h t, stackOf_frame hcurrent hcontext hcount]
  by_cases ht : t = k.currentThread
  · rw [if_pos ht, ht, stackOf_current, hstack', List.count_append, hpushed, Nat.zero_add]
  · rw [if_neg ht]

theorem PendingReturns.switch {s : FifoSemaphore.State ThreadId} {new : ThreadId} {b : Bool}
    {rest : List Instr} (h : PendingReturns id k s) (hstack : k.stack = .threadYieldBody :: rest)
    (hnew : new ≠ k.currentThread) (hlt : k.currentThread < k.threadCount) (hnewlt : new < k.threadCount)
    (hcurrent : k'.currentThread = new) (hstack' : k'.stack = k.context new)
    (hcontext : k'.context = Function.update k.context k.currentThread (.threadScheduleReturn b :: rest))
    (hcount : k'.threadCount = k.threadCount) : PendingReturns id k' s := by
  intro t
  rw [h t, stackOf_switch hnew hlt hnewlt hcurrent hstack' hcontext hcount]
  by_cases ht : t = k.currentThread
  · rw [if_pos ht, ht, stackOf_current, hstack]
    simp
  · rw [if_neg ht]

theorem PendingReturns.create {s : FifoSemaphore.State ThreadId} {rest : List Instr}
    (h : PendingReturns id k s) (hstack : k.stack = .threadCreateBody :: rest)
    (hlt : k.currentThread < k.threadCount) (hcurrent : k'.currentThread = k.currentThread)
    (hstack' : k'.stack = rest)
    (hcontext : k'.context = Function.update k.context k.threadCount threadEntry)
    (hcount : k'.threadCount = k.threadCount + 1) : PendingReturns id k' s := by
  intro t
  rw [h t, stackOf_create hcurrent hcontext hcount]
  by_cases ht : t = k.currentThread
  · rw [if_pos ht, ht, stackOf_current, hstack, hstack']
    simp
  rw [if_neg ht]
  by_cases hfresh : t = k.threadCount
  · rw [if_pos hfresh, hfresh, stackOf_fresh hlt]
    simp [threadEntry]
  · rw [if_neg hfresh]

/-- A step that means nothing to the semaphore. -/
theorem Refines.stutter {instr : Instr} {rest : List Instr} (pushed : List Instr) (h : Refines n id k log q)
    (hreplaces : Replaces k k' instr pushed rest) (hevents : history id events = [])
    (hwaiting : q'.waiting id = q.waiting id)
    (hsemaphore : (k'.semaphore id).count = (k.semaphore id).count)
    (hpushed : pushed.count (.semaphoreLockReturn id) = [instr].count (.semaphoreLockReturn id)) :
    Refines n id k' (events ++ log) q' := by
  obtain ⟨s, hrun, hs, hvalue, hpending⟩ := h
  refine ⟨s, ?_, by rw [hs, hwaiting], by rw [hsemaphore, hvalue],
    hpending.push hreplaces fun t => by rw [hpushed]⟩
  rwa [history_append, hevents, List.nil_append]

/-- A step that is a step of the semaphore. -/
theorem Refines.advance {instr : Instr} {rest : List Instr} (pushed : List Instr) {e : FifoSemaphore.Event ThreadId}
    {s s' : FifoSemaphore.State ThreadId} (hrun : FifoSemaphore.Run n (history id log) s)
    (hpending : PendingReturns id k s) (hstep : FifoSemaphore.Step s e s')
    (hreplaces : Replaces k k' instr pushed rest) (hevents : history id events = [e])
    (hwaiting : s'.waiting = q'.waiting id) (hsemaphore : (k'.semaphore id).count = s'.count)
    (howed : ∀ t, s'.owed.count t + s'.waiting.count t +
        (if t = k.currentThread then [instr].count (.semaphoreLockReturn id) else 0) =
      s.owed.count t + s.waiting.count t +
        (if t = k.currentThread then pushed.count (.semaphoreLockReturn id) else 0)) :
    Refines n id k' (events ++ log) q' := by
  refine ⟨s', ?_, hwaiting, hsemaphore, hpending.push hreplaces howed⟩
  rw [history_append, hevents]
  exact hrun.step hstep

/-- The kernel's counter stands for the abstract one as long as it cannot wrap. -/
theorem intIncrement_eq {count : Nat} (h : count + 1 < 2 ^ 31) :
    intIncrement (count : Int) = ((count + 1 : Nat) : Int) := by
  have hbmod : Int.bmod ((count : Int) + 1) (2 ^ 32) = (count : Int) + 1 :=
    Int.bmod_eq_of_le (by omega) (by omega)
  rw [intIncrement, hbmod]
  omega

/-- A unit is taken from the counter. -/
theorem Refines.grant {instr : Instr} {rest : List Instr} (h : Refines n id k log q)
    (hcount : (k.semaphore id).count > 0) (hreplaces : Replaces k k' instr [] rest)
    (hinstr : instr ≠ .semaphoreLockReturn id) (hevents : history id events = [.granted k.currentThread])
    (hwaiting : q'.waiting id = q.waiting id)
    (hsemaphore : (k'.semaphore id).count = (k.semaphore id).count - 1) : Refines n id k' (events ++ log) q' := by
  obtain ⟨s, hrun, hs, hvalue, hpending⟩ := h
  have hpos : 0 < s.count := by
    rw [hvalue] at hcount
    exact_mod_cast hcount
  refine .advance [] hrun hpending (.granted s k.currentThread hpos) hreplaces hevents (hs.trans hwaiting.symm) ?_ ?_
  · rw [hsemaphore, hvalue]
    simp only
    omega
  · simp [hinstr]

/-- The running thread queues. -/
theorem Refines.enqueue {instr : Instr} {rest : List Instr} (pushed : List Instr) (h : Refines n id k log q)
    (hcount : ¬ (k.semaphore id).count > 0) (hreplaces : Replaces k k' instr pushed rest)
    (hinstr : instr ≠ .semaphoreLockReturn id) (hpushed : pushed.count (.semaphoreLockReturn id) = 1)
    (hevents : history id events = [.enqueued k.currentThread])
    (hwaiting : q'.waiting id = q.waiting id ++ [k.currentThread])
    (hsemaphore : (k'.semaphore id).count = (k.semaphore id).count) : Refines n id k' (events ++ log) q' := by
  obtain ⟨s, hrun, hs, hvalue, hpending⟩ := h
  have hzero : s.count = 0 := by
    rw [hvalue] at hcount
    omega
  refine .advance pushed hrun hpending (.enqueued s k.currentThread hzero) hreplaces hevents ?_ ?_ fun t => ?_
  · rw [hwaiting, hs]
  · rw [hsemaphore, hvalue]
  · by_cases ht : t = k.currentThread
    · simp only [ht, if_true, hpushed, List.count_append, List.count_singleton_self]
      simp [hinstr]
      omega
    · simp [ht, Ne.symm ht]

/-- The running thread, which has waited, returns with the unit that it was handed. -/
theorem Refines.returned {rest : List Instr} (h : Refines n id k log q)
    (hreplaces : Replaces k k' (.semaphoreLockReturn id) [] rest) (hnot : k.currentThread ∉ q.waiting id)
    (hevents : history id events = [.returned k.currentThread]) (hwaiting : q'.waiting id = q.waiting id)
    (hsemaphore : (k'.semaphore id).count = (k.semaphore id).count) : Refines n id k' (events ++ log) q' := by
  obtain ⟨s, hrun, hs, hvalue, hpending⟩ := h
  have howed : k.currentThread ∈ s.owed := by
    have hcount := hpending k.currentThread
    rw [hs, List.count_eq_zero.mpr hnot, stackOf_current, hreplaces.stack, List.count_cons_self] at hcount
    exact List.count_pos_iff.mp (by omega)
  refine .advance [] hrun hpending (.returned s k.currentThread howed) hreplaces hevents (hs.trans hwaiting.symm)
    (hsemaphore.trans hvalue) fun t => ?_
  by_cases ht : t = k.currentThread
  · subst ht
    have hpos := List.count_pos_iff.mpr howed
    simp only [List.count_erase_self, if_true, List.count_singleton_self, List.count_nil]
    omega
  · simp [ht, List.count_erase_of_ne ht]

/-- Nobody waits, so a unit goes to the counter. -/
theorem Refines.release {instr : Instr} {rest : List Instr} (h : Refines n id k log q)
    (hbound : n + FifoSemaphore.releases (history id (events ++ log)) < 2 ^ 31) (hnil : q.waiting id = [])
    (hreplaces : Replaces k k' instr [] rest) (hinstr : instr ≠ .semaphoreLockReturn id)
    (hevents : history id events = [.released k.currentThread]) (hwaiting : q'.waiting id = q.waiting id)
    (hsemaphore : (k'.semaphore id).count = intIncrement (k.semaphore id).count) :
    Refines n id k' (events ++ log) q' := by
  obtain ⟨s, hrun, hs, hvalue, hpending⟩ := h
  have hledger := hrun.ledger
  rw [history_append, hevents, List.singleton_append, FifoSemaphore.releases_cons] at hbound
  refine .advance [] hrun hpending (.released s k.currentThread (by rw [hs, hnil])) hreplaces hevents
    (hs.trans hwaiting.symm) ?_ (by simp [hinstr])
  rw [hsemaphore, hvalue]
  refine intIncrement_eq ?_
  simp only [FifoSemaphore.Event.releaser, Option.toList_some, List.length_singleton] at hbound
  omega

/-- The unit goes to the thread that has waited longest. -/
theorem Refines.handOver {instr : Instr} {rest : List Instr} {t : ThreadId} (pushed : List Instr)
    (h : Refines n id k log q)
    (hreplaces : Replaces k k' instr pushed rest) (hinstr : instr ≠ .semaphoreLockReturn id)
    (hpushed : pushed.count (.semaphoreLockReturn id) = 0)
    (hevents : history id events = [.handedOver k.currentThread t]) (hwaiting : q.waiting id = t :: q'.waiting id)
    (hsemaphore : (k'.semaphore id).count = (k.semaphore id).count) : Refines n id k' (events ++ log) q' := by
  obtain ⟨s, hrun, hs, hvalue, hpending⟩ := h
  have hs' : s.waiting = t :: q'.waiting id := by rw [hs, hwaiting]
  refine .advance pushed hrun hpending (.handedOver s k.currentThread t _ hs') hreplaces hevents rfl
    (hsemaphore.trans hvalue) fun other => ?_
  simp only [hs', hpushed, List.count_cons]
  simp [hinstr]
  omega

theorem count_return_signals (ids : List SemaphoreId) :
    (ids.flatMap semaphoreUnlock).count (.semaphoreLockReturn id) = 0 := by
  rw [List.count_eq_zero, List.mem_flatMap]
  rintro ⟨other, -, hmem⟩
  simp [semaphoreUnlock] at hmem

theorem count_return_op (op : Op) : op.code.count (.semaphoreLockReturn id) = 0 := by
  rw [List.count_eq_zero]
  intro hmem
  cases op <;>
    simp [Op.code, threadYield, threadCreate, semaphoreLock, semaphoreTryLock, semaphoreUnlock] at hmem

theorem count_return_interrupt {irq : Nat} {handler : List Instr} {flag : Bool}
    (hhandler : (irq = 0 ∧ handler = [.timerCallback]) ∨
      (0 < irq ∧ env.signals = true ∧ ∃ ids, handler = List.flatMap semaphoreUnlock ids)) :
    (interruptDispatch irq handler ++ [Instr.iret flag]).count (.semaphoreLockReturn id) = 0 := by
  rcases hhandler with ⟨-, rfl⟩ | ⟨-, -, ids, rfl⟩
  · simp [interruptDispatch]
  · have hids : (ids.flatMap semaphoreUnlock).count (.semaphoreLockReturn id) = 0 :=
      count_return_signals ids
    simp only [interruptDispatch, List.count_append, List.count_cons, List.count_nil] at hids ⊢
    simp [hids]

theorem refines_step (hinv : Inv env k log q m) (h : Refines n id k log q)
    (hbound : n + FifoSemaphore.releases (history id (events ++ log)) < 2 ^ 31)
    (houtcome : Outcome env k act q k' q' events) (hrunning : k'.halted = none) :
    Refines n id k' (events ++ log) q' := by
  cases houtcome with
  | call op hact hstack =>
      obtain ⟨s, hrun, hs, hvalue, hpending⟩ := h
      exact ⟨s, hrun, hs, hvalue,
        hpending.push_clean (by simp [hstack]) (count_return_op op) rfl rfl rfl⟩
  | interrupt irq handler hact hflag hhandler =>
      obtain ⟨s, hrun, hs, hvalue, hpending⟩ := h
      exact ⟨s, hrun, hs, hvalue, hpending.push_clean (interruptEntry_stack k irq handler)
        (count_return_interrupt hhandler) rfl rfl rfl⟩
  | switch rest new tail next readyList suspendedList state ready suspended hstack hcount hready
      hqueues =>
      obtain ⟨s, hrun, hs, hvalue, hpending⟩ := h
      obtain ⟨hnew, hlt⟩ := hinv.next_thread hready
      exact ⟨s, hrun, hs, hvalue, hpending.switch hstack hnew hinv.lists.current_lt
        (hlt) rfl rfl rfl rfl⟩
  | create rest next readyList hstack =>
      obtain ⟨s, hrun, hs, hvalue, hpending⟩ := h
      exact ⟨s, hrun, hs, hvalue, hpending.create hstack hinv.lists.current_lt rfl rfl rfl rfl⟩
  | grant id' rest event hstack hcount =>
      by_cases hid : id' = id
      · subst hid
        have hevents : history id' [.released k.currentThread (.semaphore id'), event] =
            [.granted k.currentThread] := by
          rcases hstack with ⟨-, rfl⟩ | ⟨-, rfl⟩ <;> simp [Event.on]
        have hnew := congrArg Semaphore.count (Function.update_self id'
          { k.semaphore id' with count := (k.semaphore id').count - 1 } k.semaphore)
        rcases hstack with ⟨hstack, -⟩ | ⟨hstack, -⟩
        · exact h.grant hcount ⟨hstack, rfl, rfl, rfl, rfl⟩ (by simp) hevents rfl hnew
        · exact h.grant hcount ⟨hstack, rfl, rfl, rfl, rfl⟩ (by simp) hevents rfl hnew
      · have hevents : history id [.released k.currentThread (.semaphore id'), event] = [] := by
          rcases hstack with ⟨-, rfl⟩ | ⟨-, rfl⟩ <;> simp [Event.on, hid]
        have hsame := Function.update_of_ne (Ne.symm hid)
          { k.semaphore id' with count := (k.semaphore id').count - 1 } k.semaphore
        rcases hstack with ⟨hstack, -⟩ | ⟨hstack, -⟩
        · exact h.stutter [] ⟨hstack, rfl, rfl, rfl, rfl⟩ hevents rfl (congrArg Semaphore.count hsame) (by simp)
        · exact h.stutter [] ⟨hstack, rfl, rfl, rfl, rfl⟩ hevents rfl (congrArg Semaphore.count hsame) (by simp)
  | refuse id' rest hstack hcount =>
      by_cases hid : id' = id
      · subst hid
        obtain ⟨s, hrun, hs, hvalue, hpending⟩ := h
        have hzero : s.count = 0 := by
          rw [hvalue] at hcount
          omega
        exact .advance [] hrun hpending (.refused s k.currentThread hzero) ⟨hstack, rfl, rfl, rfl, rfl⟩
          (by simp [Event.on]) hs hvalue (by simp)
      · exact h.stutter [] ⟨hstack, rfl, rfl, rfl, rfl⟩ (by simp [Event.on, hid]) rfl rfl (by simp)
  | block id' rest waiter semaphore hstack hcount hsemaphore =>
      by_cases hid : id' = id
      · subst hid
        refine h.enqueue (threadYield ++ [.semaphoreLockReturn id']) hcount ⟨hstack, by simp, rfl, rfl, rfl⟩
          (by simp) (by simp [threadYield]) (by simp [Event.on]) ?_ ?_
        · exact Function.update_self ..
        · simp only [Function.update_self, hsemaphore]
      · refine h.stutter (threadYield ++ [.semaphoreLockReturn id']) ⟨hstack, by simp, rfl, rfl, rfl⟩
          (by simp [Event.on, hid]) ?_ ?_ (by simp [threadYield, hid])
        · exact Function.update_of_ne (Ne.symm hid) _ _
        · exact congrArg Semaphore.count (Function.update_of_ne (Ne.symm hid) _ _)
  | lockReturn id' rest hstack =>
      by_cases hid : id' = id
      · subst hid
        have hsuspended := (hinv.at_head hstack).1.2
        exact h.returned ⟨hstack, rfl, rfl, rfl, rfl⟩ (hinv.current_not_waiting hsuspended id')
          (by simp [Event.on]) rfl rfl
      · exact h.stutter [] ⟨hstack, rfl, rfl, rfl, rfl⟩ (by simp [Event.on, hid]) rfl rfl (by simp [hid])
  | increment id' rest hstack hwaiting =>
      by_cases hid : id' = id
      · subst hid
        refine h.release hbound hwaiting ⟨hstack, rfl, rfl, rfl, rfl⟩ (by simp) (by simp [Event.on]) rfl ?_
        simp only [Function.update_self]
      · exact h.stutter [] ⟨hstack, rfl, rfl, rfl, rfl⟩ (by simp [Event.on, hid]) rfl
          (congrArg Semaphore.count (Function.update_of_ne (Ne.symm hid) _ _)) (by simp)
  | pop id' rest t waiting semaphore hstack hwaiting ht hsemaphore =>
      by_cases hid : id' = id
      · subst hid
        refine h.handOver (t := t) [_, _, _] ⟨hstack, rfl, rfl, rfl, rfl⟩ (by simp) (by simp)
          (by simp [Event.on]) ?_ ?_
        · simp only [Function.update_self, hwaiting]
        · simp only [Function.update_self, hsemaphore]
      · refine h.stutter [_, _, _] ⟨hstack, rfl, rfl, rfl, rfl⟩ (by simp [Event.on, hid]) ?_ ?_ (by simp)
        · exact Function.update_of_ne (Ne.symm hid) _ _
        · exact congrArg Semaphore.count (Function.update_of_ne (Ne.symm hid) _ _)
  | timerCallback rest hstack => exact h.stutter _ ⟨hstack, rfl, rfl, rfl, rfl⟩ rfl rfl rfl (by simp [threadYield])
  | spinLock lock rest hstack | picEnableIrq irq rest hstack =>
      exact h.stutter [_] ⟨hstack, rfl, rfl, rfl, rfl⟩ rfl rfl rfl (by simp)
  | take lock b rest hstack | unlock lock rest hstack | stay rest hstack | wakeup t rest next ready suspended hstack
  | scheduleReturn b rest hstack | createAssert rest hstack | picDisableIrq irq rest hstack
  | picOut irq mask rest hstack | iret b rest hstack =>
      exact h.stutter [] ⟨hstack, rfl, rfl, rfl, rfl⟩ rfl rfl rfl (by simp)
  | stop => cases hrunning

/-! ### The contract -/

/-- What a semaphore that was initialised with `n` promises in a state with the given history. An unlock
counts from the step in which it gives its unit away. -/
structure SemaphoreContract (n : Nat) (id : SemaphoreId) (k : Kernel) (log : List Event) : Prop where
  nonneg : 0 ≤ (k.semaphore id).count
  idle : 0 < (k.semaphore id).count → (k.semaphore id).head = none
  empty : (k.semaphore id).head = none ↔ (k.semaphore id).tail = none
  /-- The waiter list is linked from `head` to `tail` and holds, in order, the callers that were queued
  and not yet handed a unit. -/
  fifo : ∃ waiting, Linked (waiterNext k.waiter) (k.semaphore id).head waiting ∧
    (k.semaphore id).tail = waiting.getLast? ∧
    FifoSemaphore.arrivals (history id log) = FifoSemaphore.recipients (history id log) ++ waiting
  ledger : (k.semaphore id).count =
    n + FifoSemaphore.releases (history id log) - FifoSemaphore.grants (history id log)
  /-- Whenever a caller got a unit at once, everybody who was queued before had been served. -/
  no_overtaking : ∀ newer older t, history id log = newer ++ .granted t :: older →
    FifoSemaphore.arrivals older = FifoSemaphore.recipients older
  /-- A blocked caller returns at most as often as it was handed a unit. -/
  returned : ∀ t, (FifoSemaphore.returners (history id log)).count t ≤
    (FifoSemaphore.recipients (history id log)).count t
  bounded : FifoSemaphore.acquisitions (history id log) ≤
    n + FifoSemaphore.releases (history id log)
  /-- A mutex that only its holders unlock has one holder at most. -/
  exclusive : semaphoreInit n = mutexInit →
    ((history id log).filterMap FifoSemaphore.Event.releaser : Multiset ThreadId) ≤
      ((history id log).filterMap FifoSemaphore.Event.acquirer : Multiset ThreadId) →
    ∀ a ∈ FifoSemaphore.holders (history id log), ∀ b ∈ FifoSemaphore.holders (history id log), a = b

theorem Refines.contract (hinv : Inv env k log q m) (h : Refines n id k log q) :
    SemaphoreContract n id k log := by
  obtain ⟨s, hrun, hs, hvalue, -⟩ := h
  have hlinked := hinv.waiters.linked id
  have htail := hinv.waiters.tail id
  have hledger := hrun.ledger
  refine ⟨by omega, fun hpos => ?_, ?_, ⟨q.waiting id, hlinked, htail, ?_⟩, by omega,
    fun newer older t hlog => ?_, fun t => ?_, ?_, fun hmutex howner a ha b hb => ?_⟩
  · rw [hlinked.eq_nil_iff, ← hs]
    exact hrun.idle (by omega)
  · rw [hlinked.eq_nil_iff, htail, List.getLast?_eq_none_iff]
  · rw [← hs]
    exact hrun.fifo
  · rw [hlog] at hrun
    exact hrun.no_overtaking
  · have hreturned := hrun.returned t
    omega
  · have htaken := hrun.taken
    omega
  · obtain rfl : n = 1 := by
      have hcount : (n : Int) = (1 : Nat) := congrArg Semaphore.count hmutex
      omega
    exact hrun.exclusive howner ha hb

theorem releases_mono :
    FifoSemaphore.releases (history id log) ≤ FifoSemaphore.releases (history id (events ++ log)) := by
  rw [history_append, FifoSemaphore.releases, FifoSemaphore.releases, List.filterMap_append,
    List.length_append]
  omega

theorem init_refines : Refines (initialCount id) id (threadInit initialCount) []
    { ready := [], suspended := [], waiting := fun _ => [] } := by
  refine ⟨_, .init, rfl, rfl, fun t => ?_⟩
  simp [stackOf, threadInit]

theorem running_refines (env : Env) {allowed : Kernel → List Event → Act → Prop} (henv : env.userLocks = false)
    (hallowed : ∀ k log act, allowed k log act → Allowed env k log act ∧ ReadyWhenBlocking k)
    (h : Reachable (threadInit initialCount) step allowed k log)
    (hbound : initialCount id + FifoSemaphore.releases (history id log) < 2 ^ 31) :
    ∃ q m, Inv env k log q m ∧ Refines (initialCount id) id k log q := by
  obtain ⟨-, q, m, hinv, hrefines⟩ := running_invariant env henv hallowed
    (P := fun k log q => initialCount id + FifoSemaphore.releases (history id log) < 2 ^ 31 →
      Refines (initialCount id) id k log q) (fun _ => init_refines)
    (fun k k' log events q q' m m' act hinv hrefines _ houtcome hrunning _ hbound =>
      refines_step hinv (hrefines (Nat.lt_of_le_of_lt (Nat.add_le_add_left releases_mono _) hbound)) hbound
        houtcome hrunning) h
  exact ⟨q, m, hinv, hrefines hbound⟩

/-- Conservation, FIFO hand-over and mutual exclusion of every semaphore in every thread run. -/
theorem semaphore_contract (h : Reachable (threadInit initialCount) step ThreadRun k log)
    (hbound : initialCount id + FifoSemaphore.releases (history id log) < 2 ^ 31) :
    SemaphoreContract (initialCount id) id k log := by
  obtain ⟨q, m, hinv, hrefines⟩ := running_refines .threads rfl
    (fun _ _ _ hact => ⟨hact.preempted.allowed, hact.ready⟩) h hbound
  exact hrefines.contract hinv

/-- `thread0` blocks, the other thread unlocks and yields, `thread0` returns. -/
def handOverRun : List Act :=
  blockingRun ++ List.replicate 3 .run ++ .call (.semaphoreUnlock 0) :: List.replicate 6 .run ++
    .call .threadYield :: List.replicate 6 .run

theorem semaphore_contract_handOver : ∃ k log,
    Reachable (threadInit fun _ => 0) step ThreadRun k log ∧
      FifoSemaphore.returners (history 0 log) = [0] ∧ SemaphoreContract 0 0 k log := by
  have h : Reachable (threadInit fun _ => 0) step ThreadRun _ _ :=
    reachable_of_replay handOverRun (by decide)
  exact ⟨_, _, h, by decide, semaphore_contract h (by decide)⟩

end Kiznix
