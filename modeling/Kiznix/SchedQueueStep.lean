import Kiznix.SchedStep
import Kiznix.SchedWaiters

/-! The steps that move threads between the queues: `thread_yield`, `thread_wakeup`, `thread_create`
and the bodies of the semaphore functions. With the steps of `SchedStep` they make up `step_inv`. -/

namespace Kiznix

open LinkedList RunLog

variable {env : Env} {k k' : Kernel} {log log' events : List Event} {q : Queues} {m m' : Mode}
  {rest : List Instr}

theorem Inv.waiters_at (h : Inv env k log q m) (pending : Option ThreadId)
    (hpending : wakeupTarget k.stack = pending) :
    Waiters k.semaphore k.waiter k.state k.blocker k.threadCount q.suspended pending q.waiting := by
  rw [← hpending]
  exact h.waiters

/-- A thread that is not marked suspended is running, or ready only in a list. -/
theorem Inv.current_not_waiting (h : Inv env k log q m) (hsuspended : m.suspended = false)
    (id : SemaphoreId) : k.currentThread ∉ q.waiting id := by
  refine h.waiters.not_mem (fun hstate => ?_) id
  rw [h.suspended.mpr hstate] at hsuspended
  cases hsuspended

/-! ### Scheduler -/

theorem Locks.users_nil {locked : Spinlock → Bool} {interruptFlag interruptsEnabled : Bool}
    (h : Locks locked 1 interruptFlag interruptsEnabled m) (hheld : m.held = .scheduler) :
    m.users = [] ∧ m.flag = interruptsEnabled := by
  have hcounted := h.counted
  refine ⟨?_, h.flag⟩
  simpa [Mode.locks, hheld, Held.locks] using hcounted

theorem update_running_iff {state : ThreadId → ThreadState} {new t : ThreadId} (hnew : state new ≠ .suspended) :
    Function.update state new .running t = .suspended ↔ state t = .suspended := by
  by_cases ht : t = new
  · rw [ht, Function.update_self]
    exact iff_of_false (by decide) hnew
  · rw [Function.update_of_ne ht]

/-- Another thread takes over, with `scheduler_lock` held. -/
theorem Inv.switch (h : Inv env k log q m) (hstack : k.stack = .threadYieldBody :: rest)
    (hcount : k.gSpinLockCount = 1) {new : ThreadId} {tail ready suspended : List ThreadId}
    (hready : q.ready = new :: tail) {next : Links} {readyList suspendedList : Option ThreadId}
    {state : ThreadId → ThreadState}
    (hsame : ∀ t, state t = .suspended ↔ k.state t = .suspended)
    (hlists : Lists next readyList suspendedList state new k.threadCount ready suspended) :
    Inv env
      { k with
        next := next, readyList := readyList, suspendedList := suspendedList, state := state,
        currentThread := new,
        context := Function.update k.context k.currentThread
          (.threadScheduleReturn k.gInterruptsEnabled :: rest),
        stack := k.context new }
      log { ready := ready, suspended := suspended, waiting := q.waiting }
      (Mode.resume k.gInterruptsEnabled) := by
  obtain ⟨hheld, hrest⟩ := h.at_head hstack
  have hheld : m.held = .scheduler := hheld
  have hlocks := h.locks
  rw [hcount] at hlocks
  obtain ⟨husers, hmode⟩ := hlocks.users_nil hheld
  have hold : m = { Mode.resume k.gInterruptsEnabled with suspended := m.suspended } := by
    obtain ⟨held, users, flag, suspended⟩ := m
    simp_all [Mode.resume]
  obtain ⟨hnew, hlt⟩ := h.next_thread hready
  have hnewtyped := h.parked new hlt hnew k.gInterruptsEnabled
  have hnone : wakeupTarget (k.context new) = none := wakeupTarget_of_typed hnewtyped (by simp [Mode.resume])
  refine ⟨?_, fun hne => absurd rfl hne, hnewtyped, ?_, fun t hlt ht flag => ?_, fun t id => ?_, hlists, ?_⟩
  · rw [hold] at hlocks
    refine ⟨hlocks.locked, hlocks.nodup, ?_, ?_, ?_⟩
    · rw [hcount]
      exact hlocks.counted
    · exact fun _ => (h.count_ne (by rw [hheld]; decide)).2
    · rw [hcount]
      exact hlocks.flag
  · simp [hsame, h.lists.ready_state new (by simp [hready]), Mode.resume]
  · show Typed env (Mode.resume flag)
      (Function.update k.context k.currentThread (.threadScheduleReturn k.gInterruptsEnabled :: rest) t)
    by_cases ht' : t = k.currentThread
    · rw [ht', Function.update_self]
      rw [hold] at hrest
      exact ⟨⟨rfl, rfl, rfl⟩, hrest⟩
    · rw [Function.update_of_ne ht']
      exact h.parked t hlt ht' flag
  · have hnever : holdsLock t (.user id) log ≠ true := by
      rw [Ne, h.held, husers]
      simp
    simp [hnever, Mode.resume]
  · show Waiters k.semaphore k.waiter state k.blocker k.threadCount suspended (wakeupTarget (k.context new)) q.waiting
    rw [hnone]
    exact (h.waiters_at none (by rw [hstack]; rfl)).congr_state fun t _ => hsame t

theorem threadYieldBody_steps (h : Inv env k log q m)
    (hstack : k.stack = .threadYieldBody :: rest) :
    Steps env k .run log q (exec k .threadYieldBody rest) := by
  obtain ⟨hheld, hrest⟩ := h.at_head hstack
  have hheld : m.held = .scheduler := hheld
  have hlock : k.lock .scheduler = true := by
    rw [h.locks.locked, Mode.locks, hheld]
    simp [Held.locks]
  have hflag := (h.count_ne (by rw [hheld]; decide)).2
  rcases threadYieldStep_cases rest h.lists hlock hflag with
    ⟨hcount, k', hrun, hlock', hcount'⟩ | ⟨-, hready, hstate, k', hrun, hlock', hcount'⟩ |
    ⟨hcount, hready, hstate, hrun⟩ |
    ⟨hcount, new, tail, next, readyList, suspendedList, state, hready, hrun, hcases⟩
  · rw [exec, hrun]
    exact Steps.of_stop (.stop k' _ (Or.inl ⟨rfl, hcount, rest, hstack⟩) hlock' hcount')
  · rw [exec, hrun]
    exact Steps.of_stop
      (.stop k' _ (Or.inr (Or.inl ⟨rfl, hready, hstate, rest, hstack⟩)) hlock' hcount')
  · rw [exec, hrun]
    have hsuspended : m.suspended = false := by
      rw [← Bool.not_eq_true, h.suspended, hstate]
      decide
    refine Steps.of_inv (.stay rest hstack hcount hready hstate) ⟨{ m with suspended := false },
      h.move ⟨rfl, rfl, rfl, rfl, rfl, rfl, rfl, rfl, rfl, rfl⟩ ?_ h.users hrest hsuspended.symm h.held ?_⟩
    · exact ⟨h.locks.locked, h.locks.nodup, h.locks.counted, h.locks.disabled, h.locks.flag⟩
    · rw [hstack, wakeupTarget_of_typed hrest (by simp [Instr.post, hheld])]
      rfl
  · rw [exec, hrun]
    have hnewstate : k.state new ≠ .suspended := by
      rw [h.lists.ready_state new (by rw [hready]; exact List.mem_cons_self)]
      decide
    rcases hcases with ⟨hstate, rfl, hlists⟩ | ⟨hstate, rfl, hlists⟩
    · have hnewready : Function.update k.state k.currentThread .ready new ≠ .suspended := by
        rw [Function.update_apply]
        split
        · decide
        · exact hnewstate
      refine Steps.of_inv (.switch rest new tail next readyList suspendedList _ _ _ hstack hcount
        hready (Or.inl ⟨hstate, rfl, rfl, rfl⟩)) ⟨_, h.switch hstack hcount hready (fun t => ?_) hlists⟩
      rw [update_running_iff hnewready]
      by_cases ht : t = k.currentThread
      · simp [ht, hstate]
      · rw [Function.update_of_ne ht]
    · exact Steps.of_inv (.switch rest new tail next readyList suspendedList _ _ _ hstack hcount
        hready (Or.inr ⟨hstate, rfl, rfl, rfl⟩))
        ⟨_, h.switch hstack hcount hready (fun t => update_running_iff hnewstate) hlists⟩

theorem threadWakeupBody_steps (h : Inv env k log q m) {t : ThreadId}
    (hstack : k.stack = .threadWakeupBody t :: rest) :
    Steps env k .run log q (exec k (.threadWakeupBody t) rest) := by
  obtain ⟨⟨id, hheld⟩, hrest⟩ := h.at_head hstack
  have hwaiters := h.waiters_at (some t) (by rw [hstack]; rfl)
  have ht := (hwaiters.pending_suspended t rfl).1
  obtain ⟨next, readyList, suspendedList, hrun, hlists⟩ :=
    threadWakeupStep_eq rest h.lists ht
  have hcurrent : k.currentThread ≠ t := fun heq => h.lists.current_not_suspended (heq ▸ ht)
  have hpost : (Instr.threadWakeupBody t).post m = { m with held := .woken id } := by
    simp [Instr.post, hheld]
  rw [hpost] at hrest
  rw [exec, hrun]
  refine Steps.of_inv (.wakeup t rest next readyList suspendedList hstack ht)
    ⟨{ m with held := .woken id }, ⟨?_, h.users, hrest, ?_, h.parked, h.held, hlists, ?_⟩⟩
  · have hlocks : ({ m with held := Held.woken id } : Mode).locks = m.locks := by
      simp [Mode.locks, hheld, Held.locks]
    refine ⟨?_, ?_, ?_, h.locks.disabled, h.locks.flag⟩
    · rw [hlocks]
      exact h.locks.locked
    · rw [hlocks]
      exact h.locks.nodup
    · rw [hlocks]
      exact h.locks.counted
  · show m.suspended = true ↔ Function.update k.state t .ready k.currentThread = .suspended
    rw [Function.update_of_ne hcurrent]
    exact h.suspended
  · have hnone : wakeupTarget rest = none := wakeupTarget_of_typed hrest (by simp)
    show Waiters k.semaphore k.waiter _ _ k.threadCount _ (wakeupTarget rest) q.waiting
    rw [hnone]
    exact hwaiters.wake

theorem threadCreateBody_steps (h : Inv env k log q m)
    (hstack : k.stack = .threadCreateBody :: rest) :
    Steps env k .run log q (exec k .threadCreateBody rest) := by
  obtain ⟨⟨hheld, -⟩, hrest⟩ := h.at_head hstack
  have hwaiters := h.waiters_at none (by rw [hstack]; rfl)
  obtain ⟨next, readyList, hrun, hlists⟩ := threadCreateStep_eq rest h.lists
  have hcurrent : k.currentThread ≠ k.threadCount := Nat.ne_of_lt h.lists.current_lt
  have hnone : wakeupTarget rest = none :=
    wakeupTarget_of_typed hrest (by simp [Instr.post, hheld])
  rw [exec, hrun]
  refine Steps.of_inv (.create rest next readyList hstack)
    ⟨m, ⟨h.locks, h.users, hrest, ?_, fun t hlt ht flag => ?_, h.held, hlists, ?_⟩⟩
  · show m.suspended = true ↔
      Function.update k.state k.threadCount .ready k.currentThread = .suspended
    rw [Function.update_of_ne hcurrent]
    exact h.suspended
  · change Typed env _ (Function.update k.context k.threadCount threadEntry t)
    by_cases hfresh : t = k.threadCount
    · rw [hfresh, Function.update_self]
      exact typed_threadEntry flag
    · rw [Function.update_of_ne hfresh]
      exact h.parked t (Nat.lt_of_le_of_ne (Nat.le_of_lt_succ hlt) hfresh) ht flag
  · show Waiters k.semaphore k.waiter _ _ (k.threadCount + 1) _ (wakeupTarget rest) q.waiting
    rw [hnone]
    exact hwaiters.create

/-! ### Semaphores -/

/-- A semaphore function ends: the counter has changed and the semaphore's lock is released. -/
theorem Inv.semaphore_end (h : Inv env k log q m) {id : SemaphoreId} (value : Int) (event : Event)
    (hheld : m.held = .semaphore id) (hpending : wakeupTarget k.stack = none)
    (hrest : Typed env (m.release (.semaphore id)) rest)
    (hevent : ∀ t lock log, holdsLock t lock (event :: log) = holdsLock t lock log) :
    Inv env
      { k with
        semaphore := Function.update k.semaphore id { k.semaphore id with count := value }
        lock := Function.update k.lock (.semaphore id) false
        gSpinLockCount := k.gSpinLockCount - 1
        interruptFlag := decide (k.gSpinLockCount - 1 = 0) && k.gInterruptsEnabled
        stack := rest }
      ([.released k.currentThread (.semaphore id), event] ++ log) q (m.release (.semaphore id)) := by
  have hnone : wakeupTarget rest = none :=
    wakeupTarget_of_typed hrest (by simp [Mode.release])
  refine ⟨h.locks.unlock (show m.Releasable (.semaphore id) from hheld), h.users, hrest, h.suspended, h.parked,
    fun t other => ?_, h.lists, ?_⟩
  · rw [List.cons_append, List.cons_append, List.nil_append, holdsLock_released_user, hevent]
    have := held_release h (.semaphore id) t other
    rwa [holdsLock_released_user] at this
  · change Waiters _ k.waiter k.state k.blocker k.threadCount q.suspended (wakeupTarget rest) q.waiting
    rw [hnone]
    exact (h.waiters_at _ hpending).set_count id value

theorem semaphoreLockBody_steps (h : Inv env k log q m) {id : SemaphoreId}
    (hstack : k.stack = .semaphoreLockBody id :: rest) :
    Steps env k .run log q (exec k (.semaphoreLockBody id) rest) := by
  obtain ⟨⟨hheld, hsuspended⟩, hrest⟩ := h.at_head hstack
  have hreleasable : m.Releasable (.semaphore id) := hheld
  have hpending : wakeupTarget k.stack = none := by rw [hstack]; rfl
  rw [exec, semaphoreLockStep]
  by_cases hcount : (k.semaphore id).count > 0
  · rw [if_pos hcount, spinUnlock_eq (k := setSemaphore k id _) h.locks hreleasable]
    refine Steps.of_inv (.grant id rest _ (Or.inl ⟨hstack, rfl⟩) hcount)
      ⟨m.release (.semaphore id), ?_⟩
    exact h.semaphore_end _ _ hheld hpending hrest fun _ _ _ => rfl
  · have hwaiters := h.waiters_at _ hpending
    have hfree := h.current_not_waiting hsuspended
    obtain ⟨waiter, semaphore, hrun, hsemaphore, hlinked, htail, hnode, hother⟩ :=
      enqueueWaiter_spec hwaiters hfree id
    have hmode : ({ m.release (.semaphore id) with suspended := false } : Mode) =
        m.release (.semaphore id) := by simp [Mode.release, hsuspended]
    have hyield : Typed env { m.release (.semaphore id) with suspended := true }
        (threadYield ++ .semaphoreLockReturn id :: rest) := by
      rw [typed_threadYield rfl, typed_cons]
      refine ⟨⟨rfl, rfl⟩, ?_⟩
      show Typed env { m.release (.semaphore id) with suspended := false } rest
      rwa [hmode]
    have hlocks := h.locks.unlock hreleasable
    rw [if_neg hcount, hrun]
    simp only
    rw [spinUnlock_eq (m := m) (by exact h.locks) hreleasable]
    refine Steps.of_inv (.block id rest waiter semaphore hstack hcount hsemaphore)
      ⟨{ m.release (.semaphore id) with suspended := true }, ?_, h.users, hyield, ?_, h.parked, fun t other => ?_,
        ?_, ?_⟩
    · exact ⟨hlocks.locked, hlocks.nodup, hlocks.counted, hlocks.disabled, hlocks.flag⟩
    · simp [setSemaphore]
    · have := held_release h (.semaphore id) t other
      rwa [holdsLock_released_user] at this
    · obtain ⟨hready, hsuspendedlist, hpartition, hreadystate, hsuspendedstate, -⟩ := h.lists
      refine ⟨hready, hsuspendedlist, hpartition, fun t ht => ?_, fun t ht => ?_, ?_⟩
      · change Function.update k.state k.currentThread .suspended t = .ready
        rw [Function.update_of_ne (h.lists.ready_ne ht)]
        exact hreadystate t ht
      · change Function.update k.state k.currentThread .suspended t = .suspended
        rw [Function.update_of_ne (ne_of_mem_of_not_mem ht h.lists.current_not_suspended)]
        exact hsuspendedstate t ht
      · simp [setSemaphore]
    · exact hwaiters.block h.lists.current_lt hfree id hlinked htail hnode hother

theorem semaphoreLockReturn_steps (h : Inv env k log q m) {id : SemaphoreId}
    (hstack : k.stack = .semaphoreLockReturn id :: rest) :
    Steps env k .run log q (exec k (.semaphoreLockReturn id) rest) := by
  obtain ⟨⟨hheld, hsuspended⟩, hrest⟩ := h.at_head hstack
  have hnone : wakeupTarget rest = none :=
    wakeupTarget_of_typed hrest (by simp [Instr.post, hheld])
  rw [exec]
  refine Steps.of_inv (.lockReturn id rest hstack)
    ⟨m, ⟨h.locks, h.users, hrest, h.suspended, h.parked, h.held, h.lists, ?_⟩⟩
  show Waiters k.semaphore _ k.state k.blocker k.threadCount q.suspended (wakeupTarget rest) q.waiting
  rw [hnone]
  exact (h.waiters_at none (by rw [hstack]; rfl)).drop_node (h.current_not_waiting hsuspended)

theorem semaphoreTryLockBody_steps (h : Inv env k log q m) {id : SemaphoreId}
    (hstack : k.stack = .semaphoreTryLockBody id :: rest) :
    Steps env k .run log q (exec k (.semaphoreTryLockBody id) rest) := by
  obtain ⟨⟨hheld, -⟩, hrest⟩ := h.at_head hstack
  have hreleasable : m.Releasable (.semaphore id) := hheld
  have hpending : wakeupTarget k.stack = none := by rw [hstack]; rfl
  rw [exec, semaphoreTryLockStep]
  by_cases hcount : (k.semaphore id).count > 0
  · rw [if_pos hcount, spinUnlock_eq (k := setSemaphore k id _) h.locks hreleasable]
    refine Steps.of_inv (.grant id rest _ (Or.inr ⟨hstack, rfl⟩) hcount)
      ⟨m.release (.semaphore id), ?_⟩
    exact h.semaphore_end _ _ hheld hpending hrest fun _ _ _ => rfl
  · rw [if_neg hcount, spinUnlock_eq h.locks hreleasable]
    refine Steps.of_inv (.refuse id rest hstack hcount)
      ⟨m.release (.semaphore id), ?_⟩
    have := h.semaphore_end (k.semaphore id).count
      (.tryLockRefused k.currentThread id) hheld hpending hrest fun _ _ _ => rfl
    rwa [Function.update_eq_self] at this

theorem semaphoreUnlockBody_steps (h : Inv env k log q m) {id : SemaphoreId}
    (hstack : k.stack = .semaphoreUnlockBody id :: rest)
    (hpop : env.signals = true → (k.semaphore id).head ≠ some k.currentThread) :
    Steps env k .run log q (exec k (.semaphoreUnlockBody id) rest) := by
  obtain ⟨⟨hheld, hsuspended⟩, hrest⟩ := h.at_head hstack
  have hreleasable : m.Releasable (.semaphore id) := hheld
  have hpending : wakeupTarget k.stack = none := by rw [hstack]; rfl
  have hwaiters := h.waiters_at _ hpending
  have hlinked := hwaiters.linked id
  rw [exec, semaphoreUnlockStep]
  cases hwaiting : q.waiting id with
  | nil =>
      have hhead : (k.semaphore id).head = none := by rwa [hwaiting, linked_nil] at hlinked
      split
      swap
      · rename_i heq
        rw [hhead] at heq
        cases heq
      rw [spinUnlock_eq (k := setSemaphore k id _) h.locks hreleasable]
      refine Steps.of_inv (.increment id rest hstack hwaiting)
        ⟨m.release (.semaphore id), ?_⟩
      exact h.semaphore_end _ _ hheld hpending hrest fun _ _ _ => rfl
  | cons t tail =>
      rw [hwaiting] at hlinked
      have hhead : (k.semaphore id).head = some t := hlinked.1
      have hmem : t ∈ q.waiting id := by
        rw [hwaiting]
        exact List.mem_cons_self
      obtain ⟨link, hnode⟩ := hwaiters.node id t hmem
      obtain ⟨hlt, hstate, -⟩ := hwaiters.blocked id t hmem
      have ht : t ≠ k.currentThread := by
        rintro rfl
        cases hmode : m.suspended with
        | false => exact h.current_not_waiting hmode id hmem
        | true => exact hpop (hsuspended hmode) hhead
      have hacquirable : m.Acquirable .scheduler := Or.inr ⟨id, hheld⟩
      obtain ⟨hcount, hflag⟩ := h.count_ne (by rw [hheld]; simp)
      have hlocks := h.locks.take hacquirable (b := k.interruptFlag) fun hzero => absurd hzero hcount
      rw [hhead]
      simp only [hnode]
      rw [spinLockTake_eq (k := setSemaphore k id _) h.locks hacquirable]
      have hacquire : m.acquire .scheduler = { m with held := .both id } := by
        simp [Mode.acquire, hheld]
      have houtcome : Outcome env k .run q _ _ _ := .pop id rest t tail
        { k.semaphore id with
          head := link, tail := if link = none then none else (k.semaphore id).tail }
        hstack hwaiting ht rfl
      simp only [setSemaphore, hcount, if_false, decide_false, hflag] at hlocks ⊢
      refine Steps.of_inv houtcome ⟨m.acquire .scheduler, hlocks, h.users, ?_, h.suspended, h.parked, ?_,
        h.lists, ?_⟩
      · rw [hacquire]
        refine ⟨⟨id, rfl⟩, Or.inr ⟨id, rfl⟩, rfl, ?_⟩
        simpa [Instr.post, Mode.release] using hrest
      · exact fun other user => held_acquire h .scheduler false false other user
      · exact hwaiters.pop hwaiting (h.lists.mem_suspended hlt ht hstate) hnode

/-! ### All steps -/

/-- Every step does one of the things `Outcome` lists and keeps the invariant while the machine runs. -/
theorem step_inv {act : Act} (h : Inv env k log q m) (hallowed : Allowed env k log act)
    (hstep : step k act = some (k', events)) : Steps env k act log q (k', events) := by
  obtain ⟨-, ⟨instr, rest, rfl, hstack, hrun⟩ | ⟨op, rfl, hstack, hrun⟩ | ⟨rfl, hflag, hrun⟩ |
    ⟨irq, ids, rfl, hflag, hirq, hrun⟩⟩ := step_cases hstep
  · rw [hrun]
    cases instr with
    | spinLock lock => exact spinLock_steps h hstack
    | spinLockCli lock b => exact spinLockCli_steps h hstack
    | spinLockSpin lock => exact (h.at_head hstack).1.elim
    | spinUnlock lock => exact spinUnlock_steps h hstack
    | threadYieldBody => exact threadYieldBody_steps h hstack
    | threadScheduleReturn b => exact threadScheduleReturn_steps h hstack
    | threadWakeupBody t => exact threadWakeupBody_steps h hstack
    | threadCreateAssert => exact threadCreateAssert_steps h hstack
    | threadCreateBody => exact threadCreateBody_steps h hstack
    | semaphoreLockBody id => exact semaphoreLockBody_steps h hstack
    | semaphoreLockReturn id => exact semaphoreLockReturn_steps h hstack
    | semaphoreTryLockBody id => exact semaphoreTryLockBody_steps h hstack
    | semaphoreUnlockBody id =>
        exact semaphoreUnlockBody_steps h hstack fun hsignals =>
          hallowed.pop hsignals id rest hstack
    | timerCallback => exact timerCallback_steps h hstack
    | picDisableIrq irq => exact picDisableIrq_steps h hstack
    | picEnableIrq irq => exact picEnableIrq_steps h hstack
    | picOut irq mask => exact picOut_steps h hstack
    | iret b => exact iret_steps h hstack
  · rw [hrun]
    exact call_steps h hstack hallowed
  · rw [hrun]
    exact interrupt_steps h (by simp) hflag (Or.inl ⟨rfl, rfl⟩)
  · rw [hrun]
    exact interrupt_steps h (by simp) hflag (Or.inr ⟨hirq, hallowed.irq irq ids rfl, ids, rfl⟩)

theorem init_inv (env : Env) (initialCount : SemaphoreId → Nat) :
    Inv env (threadInit initialCount) []
      { ready := [], suspended := [], waiting := fun _ => [] }
      { held := .none, users := [], flag := true, suspended := false } := by
  refine ⟨⟨fun lock => ?_, List.nodup_nil, rfl, fun hne => absurd rfl hne, rfl⟩,
    fun hne => absurd rfl hne, ⟨rfl, rfl, rfl⟩, ?_,
    fun t hlt ht => ?_, fun t id => ?_, ⟨rfl, rfl, List.Perm.refl _, ?_, ?_, ?_⟩,
    ⟨fun id => rfl, fun id => rfl, ?_, ?_, fun t hlt hstate => ?_, ?_⟩⟩
  · simp [threadInit, Mode.locks, Held.locks]
  · simp [threadInit]
  · exact absurd (Nat.lt_one_iff.mp hlt) ht
  · simp [holdsLock]
  · simp
  · simp
  · simp [threadInit]
  · simp
  · simp
  · cases hstate
  · simp [threadInit, wakeupTarget]

end Kiznix
