import Kiznix.SchedControl
import Mathlib.Data.List.Perm.Basic
import Mathlib.Data.List.Range

/-! The scheduler lists as a partition of the threads. `Lists` ties the two head pointers and the `next`
fields to two sequences of threads which, with the running thread, hold every created thread exactly
once and agree with the state fields. For each function that moves a thread there is one lemma with
everything it can do. -/

namespace Kiznix

open LinkedList

structure Lists (next : Links) (readyList suspendedList : Option ThreadId)
    (state : ThreadId → ThreadState) (current count : Nat) (ready suspended : List ThreadId) :
    Prop where
  ready_linked : Linked next readyList ready
  suspended_linked : Linked next suspendedList suspended
  partition : (current :: ready ++ suspended).Perm (List.range count)
  ready_state : ∀ t ∈ ready, state t = .ready
  suspended_state : ∀ t ∈ suspended, state t = .suspended
  current_state : state current ≠ .ready

section Lists

variable {next : Links} {readyList suspendedList : Option ThreadId}
  {state : ThreadId → ThreadState} {current count : Nat} {ready suspended : List ThreadId}
  (h : Lists next readyList suspendedList state current count ready suspended)

include h

theorem Lists.nodup : (current :: ready ++ suspended).Nodup :=
  h.partition.nodup_iff.mpr List.nodup_range

theorem Lists.mem_iff (t : ThreadId) :
    t ∈ current :: ready ++ suspended ↔ t < count := by
  rw [h.partition.mem_iff, List.mem_range]

theorem Lists.length_eq : ready.length + suspended.length + 1 = count := by
  have hlength := h.partition.length_eq
  simp only [List.length_append, List.length_cons, List.length_range] at hlength
  omega

theorem Lists.current_lt : current < count := (h.mem_iff current).mp List.mem_cons_self

theorem Lists.current_not_ready : current ∉ ready := fun hmem =>
  (List.nodup_cons.mp h.nodup).1 (List.mem_append_left _ hmem)

theorem Lists.current_not_suspended : current ∉ suspended := fun hmem =>
  (List.nodup_cons.mp h.nodup).1 (List.mem_append_right _ hmem)

theorem Lists.disjoint {t : ThreadId} (hready : t ∈ ready) : t ∉ suspended := fun hsuspended =>
  (List.nodup_append.mp (List.nodup_cons.mp h.nodup).2).2.2 t hready t hsuspended rfl

theorem Lists.ready_lt {t : ThreadId} (hready : t ∈ ready) : t < count :=
  (h.mem_iff t).mp (List.mem_cons_of_mem _ (List.mem_append_left _ hready))

theorem Lists.ready_ne {t : ThreadId} (hready : t ∈ ready) : t ≠ current :=
  ne_of_mem_of_not_mem hready h.current_not_ready

/-- A suspended thread other than the running one is on the suspended list. -/
theorem Lists.mem_suspended {t : ThreadId} (hlt : t < count) (hne : t ≠ current)
    (hstate : state t = .suspended) : t ∈ suspended := by
  have hmem := (h.mem_iff t).mpr hlt
  rw [List.cons_append, List.mem_cons, List.mem_append] at hmem
  rcases hmem with heq | hready | hsuspended
  · exact absurd heq hne
  · have hready' := h.ready_state t hready
    rw [hstate] at hready'
    cases hready'
  · exact hsuspended

end Lists

/-- `thread_schedule` for a thread that goes to the ready list and finds another one there. -/
theorem threadSwitch_ready {k : Kernel} (rest : List Instr) {new : ThreadId}
    {tail suspended : List ThreadId} {state : ThreadId → ThreadState}
    (h : Lists k.next k.readyList k.suspendedList state k.currentThread k.threadCount
      (new :: tail) suspended)
    (hstate : k.state = Function.update state k.currentThread .ready) :
    ∃ next readyList suspendedList,
      threadSwitch k rest = { k with
        next := next
        readyList := readyList
        suspendedList := suspendedList
        state := Function.update k.state new .running
        currentThread := new
        context := Function.update k.context k.currentThread
          (.threadScheduleReturn k.gInterruptsEnabled :: rest)
        stack := k.context new } ∧
      Lists next readyList suspendedList (Function.update k.state new .running) new k.threadCount
        (tail ++ [k.currentThread]) suspended := by
  have hlength := h.length_eq
  obtain ⟨next₁, head₁, happend, hlinked₁, hother₁⟩ :=
    listAppend_spec h.ready_linked h.current_not_ready (by omega : _ ≤ k.threadCount)
  obtain ⟨next₂, head₂, hpop, hlinked₂, hother₂⟩ := listPop_cons hlinked₁
  have hnew := h.ready_ne List.mem_cons_self
  refine ⟨next₂, head₂, k.suspendedList, ?_, hlinked₂, ?_, ?_, fun t ht => ?_, fun t ht => ?_, ?_⟩
  · simp [threadSwitch, hstate, happend, hpop]
  · refine h.suspended_linked.congr fun t ht => ?_
    have htnew : t ≠ new := fun heq => h.disjoint List.mem_cons_self (heq ▸ ht)
    have htcurrent : t ≠ k.currentThread := fun heq => h.current_not_suspended (heq ▸ ht)
    rw [hother₂ t htnew, hother₁ t (fun hmem => h.disjoint hmem ht) htcurrent]
  · refine List.Perm.trans (List.perm_iff_count.mpr fun t => ?_) h.partition
    simp only [List.cons_append, List.count_cons, List.count_append, List.count_nil]
    omega
  · rw [List.mem_append, List.mem_singleton] at ht
    have htnew : t ≠ new := by
      rintro rfl
      have hnodup := List.nodup_cons.mp hlinked₁.nodup
      exact hnodup.1 (by simpa using ht)
    rw [Function.update_of_ne htnew, hstate]
    rcases ht with ht | rfl
    · by_cases htcurrent : t = k.currentThread
      · simp [htcurrent]
      · rw [Function.update_of_ne htcurrent]
        exact h.ready_state t (List.mem_cons_of_mem _ ht)
    · simp
  · have htnew : t ≠ new := fun heq => h.disjoint List.mem_cons_self (heq ▸ ht)
    have htcurrent : t ≠ k.currentThread := fun heq => h.current_not_suspended (heq ▸ ht)
    rw [Function.update_of_ne htnew, hstate, Function.update_of_ne htcurrent]
    exact h.suspended_state t ht
  · simp

/-- `thread_schedule` for a thread that is marked suspended, when some thread is ready. -/
theorem threadSwitch_suspended {k : Kernel} (rest : List Instr) {new : ThreadId}
    {tail suspended : List ThreadId}
    (h : Lists k.next k.readyList k.suspendedList k.state k.currentThread k.threadCount
      (new :: tail) suspended)
    (hstate : k.state k.currentThread = .suspended) :
    ∃ next readyList suspendedList,
      threadSwitch k rest = { k with
        next := next
        readyList := readyList
        suspendedList := suspendedList
        state := Function.update k.state new .running
        currentThread := new
        context := Function.update k.context k.currentThread
          (.threadScheduleReturn k.gInterruptsEnabled :: rest)
        stack := k.context new } ∧
      Lists next readyList suspendedList (Function.update k.state new .running) new k.threadCount
        tail (suspended ++ [k.currentThread]) := by
  have hlength := h.length_eq
  obtain ⟨next₁, head₁, happend, hlinked₁, hother₁⟩ :=
    listAppend_spec h.suspended_linked h.current_not_suspended (by omega : _ ≤ k.threadCount)
  have hready₁ : Linked next₁ k.readyList (new :: tail) :=
    h.ready_linked.congr fun t ht => hother₁ t (h.disjoint ht)
      fun heq => h.current_not_ready (heq ▸ ht)
  obtain ⟨next₂, head₂, hpop, hlinked₂, hother₂⟩ := listPop_cons hready₁
  have hnew := h.ready_ne List.mem_cons_self
  have hnotin : ∀ t ∈ suspended ++ [k.currentThread], t ≠ new := by
    rintro t ht rfl
    rw [List.mem_append, List.mem_singleton] at ht
    exact ht.elim (h.disjoint List.mem_cons_self) hnew
  refine ⟨next₂, head₂, head₁, ?_, hlinked₂, ?_, ?_, fun t ht => ?_, fun t ht => ?_, ?_⟩
  · simp [threadSwitch, hstate, happend, hpop]
  · exact hlinked₁.congr fun t ht => hother₂ t (hnotin t ht)
  · refine List.Perm.trans (List.perm_iff_count.mpr fun t => ?_) h.partition
    simp only [List.cons_append, List.count_cons, List.count_append, List.count_nil]
    omega
  · have htnew : t ≠ new := by
      rintro rfl
      exact (List.nodup_cons.mp h.ready_linked.nodup).1 ht
    rw [Function.update_of_ne htnew]
    exact h.ready_state t (List.mem_cons_of_mem _ ht)
  · rw [Function.update_of_ne (hnotin t ht)]
    rw [List.mem_append, List.mem_singleton] at ht
    rcases ht with ht | rfl
    · exact h.suspended_state t ht
    · exact hstate
  · simp

theorem threadSchedule_eq {k : Kernel} {rest : List Instr} (hlock : k.lock .scheduler = true)
    (hcount : k.gSpinLockCount = 1) (hflag : k.interruptFlag = false)
    (hstate : k.state k.currentThread ≠ .running)
    (hready : ¬(k.readyList = none ∧ k.state k.currentThread = .ready)) :
    threadSchedule k rest = threadSwitch k rest := by
  rw [threadSchedule, if_neg (by simp [hlock]), if_neg (by simp [hcount]), if_neg hstate,
    if_neg (by simp [hflag]), if_neg hready]

/-- The ways out of `thread_yield` with the scheduler lock held. -/
theorem threadYieldStep_cases {k : Kernel} (rest : List Instr) {ready suspended : List ThreadId}
    (h : Lists k.next k.readyList k.suspendedList k.state k.currentThread k.threadCount ready
      suspended)
    (hlock : k.lock .scheduler = true) (hflag : k.interruptFlag = false) :
    (k.gSpinLockCount ≠ 1 ∧ ∃ k', threadYieldStep k rest = fatal k' .spinLockCountIsNotOne ∧
      k'.lock = k.lock ∧ k'.gSpinLockCount = k.gSpinLockCount) ∨
    (k.gSpinLockCount = 1 ∧ ready = [] ∧ k.state k.currentThread = .suspended ∧
      ∃ k', threadYieldStep k rest = fatal k' .nullThread ∧
        k'.lock = k.lock ∧ k'.gSpinLockCount = k.gSpinLockCount) ∨
    (k.gSpinLockCount = 1 ∧ ready = [] ∧ k.state k.currentThread = .running ∧
      threadYieldStep k rest = { k with stack := rest }) ∨
    (k.gSpinLockCount = 1 ∧ ∃ new tail next readyList suspendedList state,
      ready = new :: tail ∧
      threadYieldStep k rest = { k with
        next := next
        readyList := readyList
        suspendedList := suspendedList
        state := state
        currentThread := new
        context := Function.update k.context k.currentThread
          (.threadScheduleReturn k.gInterruptsEnabled :: rest)
        stack := k.context new } ∧
      ((k.state k.currentThread = .running ∧
          state = Function.update (Function.update k.state k.currentThread .ready) new .running ∧
          Lists next readyList suspendedList state new k.threadCount (tail ++ [k.currentThread])
            suspended) ∨
        (k.state k.currentThread = .suspended ∧ state = Function.update k.state new .running ∧
          Lists next readyList suspendedList state new k.threadCount tail
            (suspended ++ [k.currentThread])))) := by
  by_cases hcount : k.gSpinLockCount = 1
  swap
  · refine Or.inl ⟨hcount, ?_⟩
    cases hstate : k.state k.currentThread with
    | ready => exact absurd hstate h.current_state
    | running =>
        exact ⟨{ k with state := Function.update k.state k.currentThread .ready },
          by simp [threadYieldStep, hstate, threadSchedule, hlock, hcount], rfl, rfl⟩
    | suspended =>
        exact ⟨k, by simp [threadYieldStep, hstate, threadSchedule, hlock, hcount], rfl, rfl⟩
  cases ready with
  | nil =>
      have hnone : k.readyList = none := h.ready_linked
      cases hstate : k.state k.currentThread with
      | ready => exact absurd hstate h.current_state
      | running =>
          refine Or.inr (Or.inr (Or.inl ⟨hcount, rfl, rfl, ?_⟩))
          have hback : Function.update k.state k.currentThread .running = k.state := by
            rw [← hstate, Function.update_eq_self]
          simp [threadYieldStep, hstate, threadSchedule, hlock, hcount, hflag, hnone, hback]
      | suspended =>
          refine Or.inr (Or.inl ⟨hcount, rfl, rfl, k, ?_, rfl, rfl⟩)
          have hlength := h.length_eq
          obtain ⟨next₁, head₁, happend, -, -⟩ :=
            listAppend_spec h.suspended_linked h.current_not_suspended
              (by omega : _ ≤ k.threadCount)
          simp [threadYieldStep, hstate, threadSchedule, hlock, hcount, hflag, threadSwitch, hnone,
            happend, listPop]
  | cons new tail =>
      have hsome : k.readyList = some new := h.ready_linked.1
      refine Or.inr (Or.inr (Or.inr ⟨hcount, new, tail, ?_⟩))
      cases hstate : k.state k.currentThread with
      | ready => exact absurd hstate h.current_state
      | running =>
          obtain ⟨next, readyList, suspendedList, hrun, hlists⟩ :=
            threadSwitch_ready (k := { k with state := Function.update k.state k.currentThread .ready })
              rest h rfl
          refine ⟨next, readyList, suspendedList, _, rfl, ?_, Or.inl ⟨rfl, rfl, hlists⟩⟩
          rw [threadYieldStep, hstate]
          refine Eq.trans (threadSchedule_eq ?_ ?_ ?_ ?_ ?_) hrun
          · exact hlock
          · exact hcount
          · exact hflag
          · simp
          · simp [hsome]
      | suspended =>
          obtain ⟨next, readyList, suspendedList, hrun, hlists⟩ :=
            threadSwitch_suspended rest h hstate
          refine ⟨next, readyList, suspendedList, _, rfl, ?_, Or.inr ⟨rfl, rfl, hlists⟩⟩
          rw [threadYieldStep, hstate]
          exact (threadSchedule_eq hlock hcount hflag (by simp [hstate]) (by simp [hsome])).trans hrun

/-- `thread_wakeup` moves a suspended thread to the end of the ready list. -/
theorem threadWakeupStep_eq {k : Kernel} (rest : List Instr) {ready suspended : List ThreadId}
    {t : ThreadId}
    (h : Lists k.next k.readyList k.suspendedList k.state k.currentThread k.threadCount ready
      suspended)
    (ht : t ∈ suspended) :
    ∃ next readyList suspendedList,
      threadWakeupStep k t rest = { k with
        state := Function.update k.state t .ready
        blocker := Function.update k.blocker t none
        next := next
        suspendedList := suspendedList
        readyList := readyList
        stack := rest } ∧
      Lists next readyList suspendedList (Function.update k.state t .ready) k.currentThread
        k.threadCount (ready ++ [t]) (suspended.erase t) := by
  have hlength := h.length_eq
  have hready : t ∉ ready := fun hmem => h.disjoint hmem ht
  have hcurrent : k.currentThread ≠ t := fun heq => h.current_not_suspended (heq ▸ ht)
  have hnodup := h.suspended_linked.nodup
  obtain ⟨next₁, head₁, hremove, hlinked₁, hother₁⟩ :=
    listRemove_spec t h.suspended_linked (by omega : _ ≤ k.threadCount)
  have hready₁ : Linked next₁ k.readyList ready :=
    h.ready_linked.congr fun other hmem => hother₁ other (h.disjoint hmem)
  obtain ⟨next₂, head₂, happend, hlinked₂, hother₂⟩ :=
    listAppend_spec hready₁ hready (by omega : _ ≤ k.threadCount)
  refine ⟨next₂, head₂, head₁, ?_, hlinked₂, ?_, ?_, fun other hmem => ?_, fun other hmem => ?_, ?_⟩
  · simp [threadWakeupStep, h.suspended_state t ht, hremove, happend]
  · refine hlinked₁.congr fun other hmem => hother₂ other (fun hin => ?_) fun heq => ?_
    · exact h.disjoint hin (List.mem_of_mem_erase hmem)
    · exact hnodup.not_mem_erase (heq ▸ hmem)
  · refine List.Perm.trans (List.perm_iff_count.mpr fun other => ?_) h.partition
    have hcount := List.count_pos_iff.mpr ht
    by_cases hother : t = other
    · subst hother
      simp only [List.cons_append, List.count_cons, List.count_append, List.count_nil,
        List.count_erase_self, beq_self_eq_true, if_true]
      omega
    · simp [List.count_cons, List.count_append, List.count_erase_of_ne (Ne.symm hother), hother]
  · rw [List.mem_append, List.mem_singleton] at hmem
    rcases hmem with hmem | rfl
    · rw [Function.update_of_ne (ne_of_mem_of_not_mem hmem hready)]
      exact h.ready_state other hmem
    · simp
  · rw [Function.update_of_ne (ne_of_mem_of_not_mem hmem hnodup.not_mem_erase)]
    exact h.suspended_state other (List.mem_of_mem_erase hmem)
  · rw [Function.update_of_ne hcurrent]
    exact h.current_state

/-- `thread_create` puts the new thread at the end of the ready list. -/
theorem threadCreateStep_eq {k : Kernel} (rest : List Instr) {ready suspended : List ThreadId}
    (h : Lists k.next k.readyList k.suspendedList k.state k.currentThread k.threadCount ready
      suspended) :
    ∃ next readyList,
      threadCreateStep k rest = { k with
        state := Function.update k.state k.threadCount .ready
        blocker := Function.update k.blocker k.threadCount none
        context := Function.update k.context k.threadCount threadEntry
        next := next
        readyList := readyList
        threadCount := k.threadCount + 1
        stack := rest } ∧
      Lists next readyList k.suspendedList (Function.update k.state k.threadCount .ready)
        k.currentThread (k.threadCount + 1) (ready ++ [k.threadCount]) suspended := by
  have hlength := h.length_eq
  have hfresh : ∀ t ∈ k.currentThread :: ready ++ suspended, t ≠ k.threadCount := fun t ht =>
    Nat.ne_of_lt ((h.mem_iff t).mp ht)
  have hready : k.threadCount ∉ ready := fun hmem =>
    hfresh _ (List.mem_append_left _ (List.mem_cons_of_mem _ hmem)) rfl
  have hsuspended : ∀ t ∈ suspended, t ≠ k.threadCount := fun t ht =>
    hfresh t (List.mem_append_right _ ht)
  obtain ⟨next₁, head₁, happend, hlinked₁, hother₁⟩ :=
    listAppend_spec h.ready_linked hready (by omega : _ ≤ k.threadCount)
  refine ⟨next₁, head₁, ?_, hlinked₁, ?_, ?_, fun t ht => ?_, fun t ht => ?_, ?_⟩
  · simp [threadCreateStep, happend]
  · exact h.suspended_linked.congr fun t ht =>
      hother₁ t (fun hmem => h.disjoint hmem ht) (hsuspended t ht)
  · rw [List.range_succ]
    refine List.Perm.trans (List.perm_iff_count.mpr fun t => ?_)
      (h.partition.append_right [k.threadCount])
    simp only [List.cons_append, List.count_cons, List.count_append, List.count_nil]
    omega
  · rw [List.mem_append, List.mem_singleton] at ht
    rcases ht with ht | rfl
    · rw [Function.update_of_ne (ne_of_mem_of_not_mem ht hready)]
      exact h.ready_state t ht
    · simp
  · rw [Function.update_of_ne (hsuspended t ht)]
    exact h.suspended_state t ht
  · rw [Function.update_of_ne (hfresh _ List.mem_cons_self)]
    exact h.current_state

end Kiznix
