import Kiznix.SchedInvariant

/-! Every step keeps the invariant. There is one lemma for each kind of program point; `step_inv` puts
them together, and `running_invariant` lifts them to runs that do not stop. -/

namespace Kiznix

open LinkedList RunLog

/-- `k'` has the threads, the lists and the semaphores of `k`. -/
structure Frame (k k' : Kernel) : Prop where
  state : k'.state = k.state
  next : k'.next = k.next
  blocker : k'.blocker = k.blocker
  context : k'.context = k.context
  threadCount : k'.threadCount = k.threadCount
  currentThread : k'.currentThread = k.currentThread
  readyList : k'.readyList = k.readyList
  suspendedList : k'.suspendedList = k.suspendedList
  semaphore : k'.semaphore = k.semaphore
  waiter : k'.waiter = k.waiter

/-- The running thread goes on with `pushed` in place of the instruction at the head of its stack. -/
structure Replaces (k k' : Kernel) (instr : Instr) (pushed rest : List Instr) : Prop where
  stack : k.stack = instr :: rest
  stack' : k'.stack = pushed ++ rest
  current : k'.currentThread = k.currentThread
  context : k'.context = k.context
  threads : k'.threadCount = k.threadCount

/-- What the environment promises: callers use their own spinlocks without recursion and release only
what they hold, interrupt handlers call `semaphore_unlock` only with `signals`, and then no
`semaphore_unlock` pops the waiter of the thread whose stack it runs on. -/
structure Allowed (env : Env) (k : Kernel) (log : List Event) (act : Act) : Prop where
  lock : ∀ id, act = .call (.spinLock id) →
    env.userLocks = true ∧ holdsLock k.currentThread (.user id) log = false
  unlock : ∀ id, act = .call (.spinUnlock id) → holdsLock k.currentThread (.user id) log = true
  irq : ∀ irq ids, act = .irq irq ids → env.signals = true
  pop : env.signals = true → ∀ id rest, k.stack = .semaphoreUnlockBody id :: rest →
    (k.semaphore id).head ≠ some k.currentThread

variable {env : Env} {k k' : Kernel} {log log' events : List Event} {q : Queues} {m m' : Mode}
  {rest : List Instr} {act : Act}

/-- What a step lemma shows. -/
def Steps (env : Env) (k : Kernel) (act : Act) (log : List Event) (q : Queues)
    (result : Kernel × List Event) : Prop :=
  ∃ q', Outcome env k act q result.1 q' result.2 ∧
    (result.1.halted = none → ∃ m', Inv env result.1 (result.2 ++ log) q' m')

theorem Steps.of_inv {q' : Queues} (houtcome : Outcome env k act q k' q' events)
    (hinv : ∃ m', Inv env k' (events ++ log) q' m') : Steps env k act log q (k', events) :=
  ⟨q', houtcome, fun _ => hinv⟩

theorem Steps.of_stop {reason : Halt} (houtcome : Outcome env k act q (fatal k' reason) q []) :
    Steps env k act log q (fatal k' reason, []) :=
  ⟨q, houtcome, fun hrunning => nomatch hrunning⟩

/-- A step that leaves threads, lists and semaphores alone. -/
theorem Inv.move (h : Inv env k log q m) (hframe : Frame k k')
    (hlocks : Locks k'.lock k'.gSpinLockCount k'.interruptFlag k'.gInterruptsEnabled m')
    (husers : m'.users ≠ [] → env.userLocks = true) (htyped : Typed env m' k'.stack)
    (hsuspended : m'.suspended = m.suspended)
    (hheld : ∀ t id, holdsLock t (.user id) log' = true ↔ t = k.currentThread ∧ id ∈ m'.users)
    (hpending : wakeupTarget k'.stack = wakeupTarget k.stack) : Inv env k' log' q m' := by
  refine ⟨hlocks, husers, htyped, ?_, ?_, ?_, ?_, ?_⟩
  · rw [hsuspended, hframe.state, hframe.currentThread]
    exact h.suspended
  · rw [hframe.threadCount, hframe.currentThread, hframe.context]
    exact h.parked
  · rw [hframe.currentThread]
    exact hheld
  · rw [hframe.next, hframe.readyList, hframe.suspendedList, hframe.state, hframe.currentThread,
      hframe.threadCount]
    exact h.lists
  · rw [hframe.semaphore, hframe.waiter, hframe.state, hframe.blocker, hframe.threadCount, hpending]
    exact h.waiters

/-- The thread that `thread_schedule` takes from the ready list. -/
theorem Inv.next_thread (h : Inv env k log q m) {new : ThreadId} {tail : List ThreadId}
    (hready : q.ready = new :: tail) : new ≠ k.currentThread ∧ new < k.threadCount := by
  have hmem : new ∈ q.ready := by
    rw [hready]
    exact List.mem_cons_self
  exact ⟨h.lists.ready_ne hmem, h.lists.ready_lt hmem⟩

theorem Inv.at_head {instr : Instr} (h : Inv env k log q m) (hstack : k.stack = instr :: rest) :
    instr.Pre env m ∧ Typed env (instr.post m) rest := by
  have htyped := h.typed
  rwa [hstack, typed_cons] at htyped

/-- With no kernel lock and no caller's lock held, the mode's flag is the interrupt flag. -/
theorem Inv.flag_eq (h : Inv env k log q m) (hheld : m.held = .none) (husers : m.users = []) :
    k.gSpinLockCount = 0 ∧ m.flag = k.interruptFlag := by
  have hcount : k.gSpinLockCount = 0 := by
    rw [h.locks.counted]
    simp [Mode.locks, hheld, husers, Held.locks]
  exact ⟨hcount, by rw [h.locks.flag, if_pos hcount]⟩

theorem Inv.count_ne (h : Inv env k log q m) (hheld : m.held ≠ .none) :
    k.gSpinLockCount ≠ 0 ∧ k.interruptFlag = false := by
  have hcount : k.gSpinLockCount ≠ 0 := by
    rw [h.locks.counted]
    cases hm : m.held <;> simp_all [Mode.locks, Held.locks]
  exact ⟨hcount, h.locks.disabled hcount⟩

theorem wakeupTarget_of_typed (h : Typed env m rest) (hheld : ∀ id, m.held ≠ .both id) :
    wakeupTarget rest = none := h.wakeupTarget_eq_none hheld

/-! ### Lock operations -/

theorem holdsLock_acquired_user {t : ThreadId} {id : Nat} {thread : ThreadId} {lock : Spinlock}
    {b outermost : Bool} : holdsLock t (.user id) (.acquired thread lock b outermost :: log) =
      if thread = t ∧ lock = .user id then true else holdsLock t (.user id) log := rfl

theorem holdsLock_released_user {t : ThreadId} {id : Nat} {thread : ThreadId} {lock : Spinlock} :
    holdsLock t (.user id) (.released thread lock :: log) =
      if thread = t ∧ lock = .user id then false else holdsLock t (.user id) log := rfl

theorem held_acquire (h : Inv env k log q m) (lock : Spinlock) (b outermost : Bool) (t : ThreadId)
    (id : Nat) :
    holdsLock t (.user id) (.acquired k.currentThread lock b outermost :: log) = true ↔
      t = k.currentThread ∧ id ∈ (m.acquire lock).users := by
  rw [holdsLock_acquired_user]
  cases lock with
  | scheduler => simp [Mode.acquire, h.held]
  | semaphore other => simp [Mode.acquire, h.held]
  | user other =>
      by_cases ht : t = k.currentThread <;> by_cases hid : id = other <;>
        simp_all [Mode.acquire, h.held, eq_comm]

theorem held_release (h : Inv env k log q m) (lock : Spinlock) (t : ThreadId) (id : Nat) :
    holdsLock t (.user id) (.released k.currentThread lock :: log) = true ↔
      t = k.currentThread ∧ id ∈ (m.release lock).users := by
  rw [holdsLock_released_user]
  cases lock with
  | scheduler => simp [Mode.release, h.held]
  | semaphore other => simp [Mode.release, h.held]
  | user other =>
      have hnodup : m.users.Nodup := by
        have := h.locks.nodup
        rw [Mode.locks, List.nodup_append] at this
        exact this.2.1.of_map _
      by_cases ht : t = k.currentThread <;> by_cases hid : id = other <;>
        simp_all [Mode.release, h.held, eq_comm, hnodup.mem_erase_iff]

theorem acquirable_of_pre {lock : Spinlock} {b : Bool}
    (h : (Instr.spinLockCli lock b).Pre env m) :
    m.Acquirable lock ∧ m.held = .none ∧ (m.users = [] → b = m.flag) := by
  cases lock with
  | scheduler => exact ⟨Or.inl h.1, h.1, h.2⟩
  | semaphore id => exact ⟨h.1, h.1, h.2⟩
  | user id => exact ⟨⟨h.1, h.2.1⟩, h.1, h.2.2.2.2⟩

theorem spinLock_steps (h : Inv env k log q m) {lock : Spinlock}
    (hstack : k.stack = .spinLock lock :: rest) :
    Steps env k .run log q (exec k (.spinLock lock) rest) := by
  obtain ⟨hpre, hrest⟩ := h.at_head hstack
  have hheld : m.held = .none := by
    cases lock with
    | scheduler => exact hpre
    | semaphore id => exact hpre
    | user id => exact hpre.1
  refine Steps.of_inv (.spinLock lock rest hstack) ⟨m, h.move ⟨rfl, rfl, rfl, rfl, rfl, rfl, rfl, rfl,
    rfl, rfl⟩ h.locks h.users ⟨?_, hrest⟩ rfl h.held ?_⟩
  · have hflag : m.users = [] → k.interruptFlag = m.flag := fun husers =>
      (h.flag_eq hheld husers).2.symm
    cases lock with
    | scheduler => exact ⟨hpre, hflag⟩
    | semaphore id => exact ⟨hpre, hflag⟩
    | user id => exact ⟨hpre.1, hpre.2.1, hpre.2.2.1, hpre.2.2.2, hflag⟩
  · rw [hstack]
    rfl

theorem spinLockCli_steps (h : Inv env k log q m) {lock : Spinlock} {b : Bool}
    (hstack : k.stack = .spinLockCli lock b :: rest) :
    Steps env k .run log q (exec k (.spinLockCli lock b) rest) := by
  obtain ⟨hpre, hrest⟩ := h.at_head hstack
  obtain ⟨hacquirable, hheld, hflag⟩ := acquirable_of_pre hpre
  have hcount : k.gSpinLockCount = 0 → b = m.flag := fun hzero => by
    refine hflag ?_
    rw [h.locks.counted, Mode.locks, hheld] at hzero
    simpa [Held.locks] using hzero
  rw [exec, spinLockTake_eq h.locks hacquirable]
  refine Steps.of_inv (.take lock b rest hstack (h.locks.free hacquirable))
    ⟨_, h.move ⟨rfl, rfl, rfl, rfl, rfl, rfl, rfl, rfl, rfl, rfl⟩ (h.locks.take hacquirable hcount)
      ?_ hrest ?_ (fun t id => held_acquire h lock b _ t id) ?_⟩
  · cases lock with
    | scheduler => exact h.users
    | semaphore id => exact h.users
    | user id => exact fun _ => hpre.2.2.2.1
  · cases lock <;> rfl
  · rw [hstack]
    refine wakeupTarget_of_typed hrest fun id hboth => ?_
    cases lock <;> simp [Instr.post, Mode.acquire, hheld] at hboth

theorem spinUnlock_steps (h : Inv env k log q m) {lock : Spinlock}
    (hstack : k.stack = .spinUnlock lock :: rest) :
    Steps env k .run log q (exec k (.spinUnlock lock) rest) := by
  obtain ⟨hpre, hrest⟩ := h.at_head hstack
  have hreleasable : m.Releasable lock := hpre
  rw [exec, spinUnlock_eq h.locks hreleasable]
  refine Steps.of_inv (.unlock lock rest hstack (h.locks.ready_to_unlock hreleasable).2)
    ⟨_, h.move ⟨rfl, rfl, rfl, rfl, rfl, rfl, rfl, rfl, rfl, rfl⟩ (h.locks.unlock hreleasable)
      ?_ hrest ?_ (fun t id => held_release h lock t id) ?_⟩
  · intro hne
    refine h.users fun hnil => hne ?_
    cases lock <;> simp [Mode.release, hnil]
  · cases lock <;> rfl
  · rw [hstack]
    refine wakeupTarget_of_typed hrest fun id hboth => ?_
    cases lock with
    | scheduler => rcases hreleasable with hheld | ⟨id, hheld⟩ <;>
        simp [Instr.post, Mode.release, hheld] at hboth
    | semaphore other => simp [Instr.post, Mode.release] at hboth
    | user other => simp [Instr.post, Mode.release, hreleasable.1] at hboth

/-! ### Steps that touch neither locks nor lists -/

/-- A step that leaves threads, lists, semaphores and lock words alone; the flag may change. -/
theorem Inv.pass (h : Inv env k log q m) (hframe : Frame k k') (hlock : k'.lock = k.lock)
    (hcount : k'.gSpinLockCount = k.gSpinLockCount) {flag : Bool}
    (hdisabled : k.gSpinLockCount ≠ 0 → k'.interruptFlag = false)
    (hflag : flag = if k.gSpinLockCount = 0 then k'.interruptFlag else k'.gInterruptsEnabled)
    (htyped : Typed env { m with flag := flag } k'.stack)
    (hheld : ∀ id, m.held ≠ .both id) : ∃ m', Inv env k' log q m' := by
  have hpending : wakeupTarget k'.stack = none := wakeupTarget_of_typed htyped hheld
  refine ⟨{ m with flag := flag },
    h.move hframe ⟨?_, h.locks.nodup, ?_, ?_, ?_⟩ h.users htyped rfl h.held ?_⟩
  · rw [hlock]
    exact h.locks.locked
  · rw [hcount]
    exact h.locks.counted
  · rw [hcount]
    exact hdisabled
  · rw [hcount]
    exact hflag
  · rw [hpending, wakeupTarget_of_typed h.typed hheld]

theorem threadScheduleReturn_steps (h : Inv env k log q m) {b : Bool}
    (hstack : k.stack = .threadScheduleReturn b :: rest) :
    Steps env k .run log q (exec k (.threadScheduleReturn b) rest) := by
  obtain ⟨⟨hheld, -, -⟩, hrest⟩ := h.at_head hstack
  obtain ⟨hcount, hflag⟩ := h.count_ne (by rw [hheld]; decide)
  refine Steps.of_inv (.scheduleReturn b rest hstack) ?_
  refine h.pass
    ⟨rfl, rfl, rfl, rfl, rfl, rfl, rfl, rfl, rfl, rfl⟩ rfl rfl (fun _ => hflag) ?_ hrest ?_
  · rw [if_neg hcount]
  · simp [hheld]

theorem threadCreateAssert_steps (h : Inv env k log q m)
    (hstack : k.stack = .threadCreateAssert :: rest) :
    Steps env k .run log q (exec k .threadCreateAssert rest) := by
  obtain ⟨⟨hheld, -, hmode⟩, hrest⟩ := h.at_head hstack
  cases hflag : k.interruptFlag with
  | false =>
      rw [exec, if_neg (by simp [hflag])]
      have hcount : k.gSpinLockCount ≠ 0 := by
        intro hzero
        rw [h.locks.flag, if_pos hzero, hflag] at hmode
        cases hmode
      exact Steps.of_stop (.stop k .assertion (Or.inr (Or.inr ⟨rfl, hcount, rest, hstack⟩)) rfl rfl)
  | true =>
      rw [exec, if_pos hflag]
      refine Steps.of_inv (.createAssert rest hstack) ?_
      exact h.pass
        ⟨rfl, rfl, rfl, rfl, rfl, rfl, rfl, rfl, rfl, rfl⟩ rfl rfl h.locks.disabled h.locks.flag
        hrest (by simp [hheld])

theorem timerCallback_steps (h : Inv env k log q m)
    (hstack : k.stack = .timerCallback :: rest) :
    Steps env k .run log q (exec k .timerCallback rest) := by
  obtain ⟨⟨hheld, -, -⟩, hrest⟩ := h.at_head hstack
  refine Steps.of_inv (.timerCallback rest hstack) ?_
  exact h.pass
    ⟨rfl, rfl, rfl, rfl, rfl, rfl, rfl, rfl, rfl, rfl⟩ rfl rfl h.locks.disabled h.locks.flag
    ((typed_threadYield hheld).mpr hrest) (by simp [hheld])

theorem picDisableIrq_steps (h : Inv env k log q m) {irq : Nat}
    (hstack : k.stack = .picDisableIrq irq :: rest) :
    Steps env k .run log q (exec k (.picDisableIrq irq) rest) := by
  obtain ⟨⟨hheld, -, -⟩, hrest⟩ := h.at_head hstack
  refine Steps.of_inv (.picDisableIrq irq rest hstack) ?_
  exact h.pass
    ⟨rfl, rfl, rfl, rfl, rfl, rfl, rfl, rfl, rfl, rfl⟩ rfl rfl h.locks.disabled h.locks.flag hrest
    (by simp [hheld])

theorem picEnableIrq_steps (h : Inv env k log q m) {irq : Nat}
    (hstack : k.stack = .picEnableIrq irq :: rest) :
    Steps env k .run log q (exec k (.picEnableIrq irq) rest) := by
  obtain ⟨⟨hheld, husers⟩, hrest⟩ := h.at_head hstack
  refine Steps.of_inv (.picEnableIrq irq rest hstack) ?_
  exact h.pass
    ⟨rfl, rfl, rfl, rfl, rfl, rfl, rfl, rfl, rfl, rfl⟩ rfl rfl h.locks.disabled h.locks.flag
    ⟨⟨hheld, husers⟩, hrest⟩ (by simp [hheld])

theorem picOut_steps (h : Inv env k log q m) {irq : Nat} {mask : BitVec 8}
    (hstack : k.stack = .picOut irq mask :: rest) :
    Steps env k .run log q (exec k (.picOut irq mask) rest) := by
  obtain ⟨⟨hheld, -⟩, hrest⟩ := h.at_head hstack
  refine Steps.of_inv (.picOut irq mask rest hstack) ?_
  exact h.pass
    ⟨rfl, rfl, rfl, rfl, rfl, rfl, rfl, rfl, rfl, rfl⟩ rfl rfl h.locks.disabled h.locks.flag hrest
    (by simp [hheld])

theorem iret_steps (h : Inv env k log q m) {b : Bool} (hstack : k.stack = .iret b :: rest) :
    Steps env k .run log q (exec k (.iret b) rest) := by
  obtain ⟨⟨hheld, husers⟩, hrest⟩ := h.at_head hstack
  have hcount := (h.flag_eq hheld husers).1
  refine Steps.of_inv (.iret b rest hstack) ?_
  exact h.pass
    ⟨rfl, rfl, rfl, rfl, rfl, rfl, rfl, rfl, rfl, rfl⟩ rfl rfl (fun hne => absurd hcount hne)
    (by rw [if_pos hcount]) hrest (by simp [hheld])

theorem call_steps (h : Inv env k log q m) {op : Op} (hstack : k.stack = [])
    (hallowed : Allowed env k log (.call op)) :
    Steps env k (.call op) log q ({ k with stack := op.code }, []) := by
  have htyped := h.typed
  rw [hstack, typed_nil] at htyped
  obtain ⟨hheld, hsuspended, hflag⟩ := htyped
  have hop : Typed env m op.code := by
    refine typed_op op hheld hflag hsuspended (fun id hid => ?_) fun id hid => ?_
    · obtain ⟨huser, hnot⟩ := hallowed.lock id (by rw [hid])
      refine ⟨huser, fun hmem => ?_⟩
      rw [(h.held k.currentThread id).mpr ⟨rfl, hmem⟩] at hnot
      cases hnot
    · exact ((h.held k.currentThread id).mp (hallowed.unlock id (by rw [hid]))).2
  refine Steps.of_inv (.call op rfl hstack) ?_
  exact h.pass
    ⟨rfl, rfl, rfl, rfl, rfl, rfl, rfl, rfl, rfl, rfl⟩ rfl rfl h.locks.disabled h.locks.flag hop
    (by simp [hheld])

theorem interrupt_steps (h : Inv env k log q m) {act : Act} {irq : Nat} {handler : List Instr}
    (hact : act ≠ .run) (hflag : k.interruptFlag = true)
    (hhandler : (irq = 0 ∧ handler = [.timerCallback]) ∨
      (0 < irq ∧ env.signals = true ∧ ∃ ids, handler = List.flatMap semaphoreUnlock ids)) :
    Steps env k act log q (interruptEntry k irq handler, []) := by
  have hcount : k.gSpinLockCount = 0 := by
    by_contra hne
    rw [h.locks.disabled hne] at hflag
    cases hflag
  have hlocks : m.locks = [] := List.length_eq_zero_iff.mp (by rw [← h.locks.counted, hcount])
  have hheld : m.held = .none := by
    cases hm : m.held <;> simp_all [Mode.locks, Held.locks]
  have husers : m.users = [] := by
    simpa [Mode.locks, hheld, Held.locks] using hlocks
  have hmode : m.flag = k.interruptFlag := (h.flag_eq hheld husers).2
  have hrun : Typed env { m with flag := false } (interruptEntry k irq handler).stack := by
    rcases hhandler with ⟨rfl, rfl⟩ | ⟨-, hsignals, ids, rfl⟩
    · have := typed_timer h.typed hheld husers
      rwa [hmode] at this
    · have := typed_irq h.typed hheld husers irq ids (fun _ => hsignals)
      rwa [hmode] at this
  have hframe : Frame k (interruptEntry k irq handler) :=
    ⟨rfl, rfl, rfl, rfl, rfl, rfl, rfl, rfl, rfl, rfl⟩
  refine Steps.of_inv (.interrupt irq handler hact hflag hhandler) ?_
  exact h.pass hframe rfl rfl (fun _ => rfl) (by rw [if_pos hcount]; rfl) hrun (by simp [hheld])

end Kiznix
