import Kiznix.SchedPartition

/-! Who unmasks IRQ 0. A timer tick masks the line and the same stack unmasks it when `interrupt_dispatch`
returns, unless the tick switched to another thread. The line is kept open exactly as long as a tick
switches only to threads that have an unmasking of IRQ 0 ahead of them: threads that a tick preempted,
and new ones, whose `thread_entry` does it. -/

namespace Kiznix

open RunLog

variable {env : Env} {k k' : Kernel} {log events : List Event} {q q' : Queues} {m m' : Mode}
  {initialCount : SemaphoreId → Nat} {act : Act} {stack rest : List Instr}

def Instr.unmasksIrq0 : Instr → Bool
  | .picEnableIrq irq => irq = 0
  | .picOut irq _ => irq = 0
  | _ => false

/-- The stack is inside `interrupt_dispatch` for IRQ 0 or `thread_entry`, with the line not yet
re-enabled. -/
def unmasksIrq0 (stack : List Instr) : Bool := stack.any Instr.unmasksIrq0

/-- The running thread is neither inside `interrupt_dispatch` for IRQ 0 on its own stack nor inside
`thread_schedule` or `thread_entry`. -/
structure ThreadLevel (k : Kernel) : Prop where
  running : k.halted = none
  dispatch : unmasksIrq0 k.stack = false
  schedule : ∀ b, k.stack.head? ≠ some (.threadScheduleReturn b)

/-- If `thread_schedule` runs inside a timer tick, the thread at the head of the ready list is new or was
preempted by a tick itself. -/
def TickResumesTicked (k : Kernel) : Prop :=
  k.stack.head? = some .threadYieldBody → unmasksIrq0 k.stack = true →
    ∀ new, k.readyList = some new → unmasksIrq0 (k.context new) = true

instance : Decidable (TickResumesTicked k) :=
  decidable_of_iff (k.stack.head? = some .threadYieldBody → unmasksIrq0 k.stack = true →
    k.readyList.all (fun new => unmasksIrq0 (k.context new)) = true)
    (by simp [TickResumesTicked, Option.all_eq_true])

/-- On every stack the line that is masked, or written, is IRQ 0, what is written opens it, and a pending
mask is followed by an unmask. -/
def TimerFrames : List Instr → Prop
  | [] => True
  | .picDisableIrq irq :: rest => irq = 0 ∧ unmasksIrq0 rest = true ∧ TimerFrames rest
  | .picEnableIrq irq :: rest => irq = 0 ∧ TimerFrames rest
  | .picOut irq mask :: rest => irq = 0 ∧ mask.getLsbD 0 = false ∧ TimerFrames rest
  | _ :: rest => TimerFrames rest

def Instr.isPic : Instr → Bool
  | .picDisableIrq _ => true
  | .picEnableIrq _ => true
  | .picOut _ _ => true
  | _ => false

theorem timerFrames_cons {instr : Instr} (h : instr.isPic = false) :
    TimerFrames (instr :: rest) ↔ TimerFrames rest := by
  cases instr <;> first | rfl | cases h

theorem timerFrames_append {pushed : List Instr} (h : ∀ instr ∈ pushed, instr.isPic = false) :
    TimerFrames (pushed ++ rest) ↔ TimerFrames rest := by
  induction pushed with
  | nil => rfl
  | cons instr pushed ih =>
      rw [List.cons_append, timerFrames_cons (h instr List.mem_cons_self)]
      exact ih fun other hmem => h other (List.mem_cons_of_mem _ hmem)

theorem unmasksIrq0_cons {instr : Instr} (h : instr.isPic = false) :
    unmasksIrq0 (instr :: rest) = unmasksIrq0 rest := by
  cases instr <;> first | rfl | cases h

theorem unmasksIrq0_append {pushed : List Instr} (h : ∀ instr ∈ pushed, instr.isPic = false) :
    unmasksIrq0 (pushed ++ rest) = unmasksIrq0 rest := by
  induction pushed with
  | nil => rfl
  | cons instr pushed ih =>
      rw [List.cons_append, unmasksIrq0_cons (h instr List.mem_cons_self)]
      exact ih fun other hmem => h other (List.mem_cons_of_mem _ hmem)

/-- The running thread unmasks IRQ 0 if it is masked. -/
structure TimerInv (k : Kernel) : Prop where
  frames : TimerFrames k.stack
  parked : ∀ t, t < k.threadCount → t ≠ k.currentThread → TimerFrames (k.context t)
  unmasks : irq0Masked k = true → unmasksIrq0 k.stack = true

/-- A step that executes no code of the interrupt controller. -/
theorem TimerInv.push (h : TimerInv k) {instr : Instr} (pushed : List Instr)
    (hreplaces : Replaces k k' instr pushed rest) (hinstr : instr.isPic = false)
    (hpushed : ∀ other ∈ pushed, other.isPic = false) (hmasks : k'.masks = k.masks) : TimerInv k' := by
  obtain ⟨hframes, hparked, hunmasks⟩ := h
  rw [hreplaces.stack, timerFrames_cons hinstr] at hframes
  rw [hreplaces.stack, unmasksIrq0_cons hinstr] at hunmasks
  refine ⟨?_, ?_, fun hmasked => ?_⟩
  · rwa [hreplaces.stack', timerFrames_append hpushed]
  · rwa [hreplaces.current, hreplaces.context, hreplaces.threads]
  · rw [hreplaces.stack', unmasksIrq0_append hpushed]
    rw [irq0Masked, hmasks] at hmasked
    exact hunmasks hmasked

theorem op_isPic (op : Op) : ∀ instr ∈ op.code, instr.isPic = false := by
  cases op <;> simp [Op.code, threadYield, threadCreate, semaphoreLock, semaphoreTryLock,
    semaphoreUnlock, Instr.isPic]

theorem timer_step (hinv : Inv .threads k log q m) (h : TimerInv k) (hticked : TickResumesTicked k)
    (houtcome : Outcome .threads k act q k' q' events) (hrunning : k'.halted = none) : TimerInv k' := by
  cases houtcome with
  | call op hact hstack =>
      have hframes : TimerFrames (op.code ++ []) ↔ TimerFrames [] := timerFrames_append (op_isPic op)
      rw [List.append_nil] at hframes
      refine ⟨hframes.mpr trivial, h.parked, fun hmasked => ?_⟩
      have hnone := h.unmasks hmasked
      rw [hstack] at hnone
      cases hnone
  | interrupt irq handler hact hflag hhandler =>
      rcases hhandler with ⟨rfl, rfl⟩ | ⟨-, hsignals, -⟩
      · exact ⟨⟨rfl, rfl, rfl, h.frames⟩, h.parked, fun _ => rfl⟩
      · cases hsignals
  | switch rest new tail next readyList suspendedList state ready suspended hstack hcount hready
      hqueues =>
      obtain ⟨hnew, hlt⟩ := hinv.next_thread hready
      have hhead : k.readyList = some new := by
        rw [hinv.lists.ready_linked.head_eq, hready]
        rfl
      have hframes := h.frames
      rw [hstack] at hframes
      refine ⟨h.parked new hlt hnew, fun t hlt ht => ?_, fun hmasked => ?_⟩
      · by_cases hold : t = k.currentThread
        · simp only [hold, Function.update_self]
          exact hframes
        · simp only [Function.update_of_ne hold]
          exact h.parked t hlt hold
      · exact hticked (by rw [hstack]; rfl) (h.unmasks hmasked) new hhead
  | create rest next readyList hstack =>
      have hframes := h.frames
      have hunmasks := h.unmasks
      rw [hstack] at hframes hunmasks
      refine ⟨hframes, fun t hlt ht => ?_, hunmasks⟩
      by_cases hfresh : t = k.threadCount
      · simp only [hfresh, Function.update_self]
        exact ⟨rfl, trivial⟩
      · simp only [Function.update_of_ne hfresh]
        exact h.parked t (Nat.lt_of_le_of_ne (Nat.le_of_lt_succ hlt) hfresh) ht
  | picDisableIrq irq rest hstack =>
      have hframes := h.frames
      rw [hstack] at hframes
      exact ⟨hframes.2.2, h.parked, fun _ => hframes.2.1⟩
  | picEnableIrq irq rest hstack =>
      have hframes := h.frames
      rw [hstack] at hframes
      obtain ⟨rfl, hrest⟩ := hframes
      refine ⟨⟨rfl, ?_, hrest⟩, h.parked, fun _ => rfl⟩
      simp [picMask, picBit]
  | picOut irq mask rest hstack =>
      have hframes := h.frames
      rw [hstack] at hframes
      obtain ⟨rfl, hmask, hrest⟩ := hframes
      refine ⟨hrest, h.parked, fun hmasked => ?_⟩
      have hopen : mask.getLsbD 0 = true := hmasked
      rw [hmask] at hopen
      cases hopen
  | grant id rest event hstack hcount =>
      rcases hstack with ⟨hstack, -⟩ | ⟨hstack, -⟩
      · exact h.push [] ⟨hstack, rfl, rfl, rfl, rfl⟩ rfl (by simp) rfl
      · exact h.push [] ⟨hstack, rfl, rfl, rfl, rfl⟩ rfl (by simp) rfl
  | block id rest waiter semaphore hstack =>
      exact h.push (threadYield ++ [.semaphoreLockReturn id]) ⟨hstack, by simp, rfl, rfl, rfl⟩ rfl
        (by simp [threadYield, Instr.isPic]) rfl
  | pop id rest t waiting semaphore hstack =>
      exact h.push [_, _, _] ⟨hstack, rfl, rfl, rfl, rfl⟩ rfl (by simp [Instr.isPic]) rfl
  | timerCallback rest hstack =>
      exact h.push _ ⟨hstack, rfl, rfl, rfl, rfl⟩ rfl (by simp [threadYield, Instr.isPic]) rfl
  | spinLock lock rest hstack =>
      exact h.push [_] ⟨hstack, rfl, rfl, rfl, rfl⟩ rfl (by simp [Instr.isPic]) rfl
  | take lock b rest hstack | unlock lock rest hstack | stay rest hstack | scheduleReturn b rest hstack
  | wakeup t rest next ready suspended hstack | createAssert rest hstack | refuse id rest hstack
  | lockReturn id rest hstack | increment id rest hstack | iret b rest hstack =>
      exact h.push [] ⟨hstack, rfl, rfl, rfl, rfl⟩ rfl (by simp) rfl
  | stop => cases hrunning

/-- Threads and timer ticks, where every tick resumes a thread that will open the line. -/
structure TimerRun (k : Kernel) (log : List Event) (act : Act) : Prop where
  preempted : PreemptedRun k log act
  ticked : TickResumesTicked k

instance (act : Act) : Decidable (TimerRun k log act) :=
  decidable_of_iff (PreemptedRun k log act ∧ TickResumesTicked k)
    ⟨fun h => ⟨h.1, h.2⟩, fun h => ⟨h.preempted, h.ticked⟩⟩

/-- Thread-level code runs with IRQ 0 open. -/
theorem preemption_kept (h : Reachable (threadInit initialCount) step TimerRun k log)
    (hlevel : ThreadLevel k) : irq0Masked k = false := by
  have hall : k.halted = none → (∃ q m, Inv .threads k log q m) ∧ TimerInv k := by
    refine h.invariant
      (P := fun k log => k.halted = none → (∃ q m, Inv .threads k log q m) ∧ TimerInv k) (fun _ => ?_) ?_
    · refine ⟨⟨_, _, init_inv _ initialCount⟩, trivial, fun t hlt ht => trivial, fun hmasked => ?_⟩
      simp [irq0Masked, threadInit] at hmasked
    · intro k k' log events act _ hinv hact hrun hrunning
      obtain ⟨⟨q, m, hinv⟩, htimer⟩ := hinv (step_cases hrun).1
      obtain ⟨q', houtcome, hnext⟩ := step_inv hinv hact.preempted.allowed hrun
      exact ⟨⟨q', hnext hrunning⟩, timer_step hinv htimer hact.ticked houtcome hrunning⟩
  obtain ⟨-, htimer⟩ := hall hlevel.running
  rw [← Bool.not_eq_true]
  intro hmasked
  have hpending := htimer.unmasks hmasked
  rw [hlevel.dispatch] at hpending
  cases hpending

/-- A tick moves `thread0` to a new thread, and the next one moves back. -/
def tickedRun : List Act :=
  .call .threadCreate :: List.replicate 5 .run ++ .timer :: List.replicate 9 .run ++
    .timer :: List.replicate 10 .run

theorem preemption_kept_ticked : ∃ k log,
    Reachable (threadInit fun _ => 0) step TimerRun k log ∧ k.timerTick = 2 ∧ ThreadLevel k ∧
      irq0Masked k = false := by
  have h : Reachable (threadInit fun _ => 0) step TimerRun _ _ :=
    reachable_of_replay tickedRun (by decide)
  exact ⟨_, _, h, by decide, ⟨by decide, by decide, by decide⟩,
    preemption_kept h ⟨by decide, by decide, by decide⟩⟩

/-- `thread0` gives the CPU to a new thread by `thread_yield`, and a tick gives it back. -/
def yieldedRun : List Act :=
  .call .threadCreate :: List.replicate 5 .run ++ .call .threadYield :: List.replicate 7 .run ++
    .timer :: List.replicate 7 .run

/-- `thread0` then runs its thread function with IRQ 0 masked, although every tick came through an
unmasked line. -/
theorem preemption_lost : ∃ k log,
    Reachable (threadInit fun _ => 0) step
      (fun k log act => PreemptedRun k log act ∧ (act = .timer → irq0Masked k = false)) k log ∧
      k.stack = [] ∧ ThreadLevel k ∧ irq0Masked k = true :=
  ⟨_, _, reachable_of_replay yieldedRun (by decide), by decide, ⟨by decide, by decide, by decide⟩,
    by decide⟩

end Kiznix
