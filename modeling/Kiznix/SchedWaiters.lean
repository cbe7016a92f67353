import Kiznix.SchedInvariant

/-! The waiter lists of the semaphores under every change that the scheduler and the semaphore
functions make: the set of suspended threads stays, a popped waiter is woken, a thread is created,
queued or taken off. -/

namespace Kiznix

open LinkedList

variable {semaphore : SemaphoreId → Semaphore} {waiter : ThreadId → Option Waiter}
  {state state' : ThreadId → ThreadState} {blocker : ThreadId → Option SemaphoreId} {count : Nat}
  {suspended suspended' : List ThreadId} {pending : Option ThreadId}
  {waiting : SemaphoreId → List ThreadId}

/-- Only the set of suspended threads matters to the waiter lists. -/
theorem Waiters.congr_state
    (h : Waiters semaphore waiter state blocker count suspended none waiting)
    (hstate : ∀ t, t < count → (state' t = .suspended ↔ state t = .suspended)) :
    Waiters semaphore waiter state' blocker count suspended' none waiting := by
  refine ⟨h.linked, h.tail, h.node, fun id t ht => ?_, fun t hlt hsuspended _ => ?_, ?_⟩
  · obtain ⟨hlt, hsuspended, hblocker⟩ := h.blocked id t ht
    exact ⟨hlt, (hstate t hlt).mpr hsuspended, hblocker⟩
  · exact h.waits t hlt ((hstate t hlt).mp hsuspended) (Option.some_ne_none _).symm
  · intro t hnone
    cases hnone

/-- A thread waits on one semaphore at most. -/
theorem Waiters.unique (h : Waiters semaphore waiter state blocker count suspended pending waiting)
    {id id' : SemaphoreId} {t : ThreadId} (ht : t ∈ waiting id) (ht' : t ∈ waiting id') : id = id' := by
  have hblocker := (h.blocked id t ht).2.2
  rw [(h.blocked id' t ht').2.2] at hblocker
  exact (Option.some.inj hblocker).symm

theorem Waiters.nodup (h : Waiters semaphore waiter state blocker count suspended pending waiting)
    (id : SemaphoreId) : (waiting id).Nodup := (h.linked id).nodup

theorem Waiters.not_mem (h : Waiters semaphore waiter state blocker count suspended pending waiting)
    {t : ThreadId} (ht : state t ≠ .suspended) (id : SemaphoreId) : t ∉ waiting id := fun hmem =>
  ht (h.blocked id t hmem).2.1

/-- `thread_wakeup` ends the hand-over of the popped waiter. -/
theorem Waiters.wake {t : ThreadId}
    (h : Waiters semaphore waiter state blocker count suspended (some t) waiting) :
    Waiters semaphore waiter (Function.update state t .ready) (Function.update blocker t none) count
      suspended' none waiting := by
  have hnot := (h.pending_suspended t rfl).2
  refine ⟨h.linked, h.tail, h.node, fun id other hmem => ?_, fun other hlt hsuspended _ => ?_, ?_⟩
  · have hne : other ≠ t := ne_of_mem_of_not_mem hmem (hnot id)
    rw [Function.update_of_ne hne, Function.update_of_ne hne]
    exact h.blocked id other hmem
  · have hne : other ≠ t := by
      rintro rfl
      simp at hsuspended
    rw [Function.update_of_ne hne] at hsuspended
    exact h.waits other hlt hsuspended fun heq => hne (Option.some.inj heq).symm
  · intro t hnone
    cases hnone

/-- A new thread waits on nothing. -/
theorem Waiters.create (h : Waiters semaphore waiter state blocker count suspended none waiting) :
    Waiters semaphore waiter (Function.update state count .ready) (Function.update blocker count none)
      (count + 1) suspended none waiting := by
  refine ⟨h.linked, h.tail, h.node, fun id t hmem => ?_, fun t hlt hsuspended _ => ?_, ?_⟩
  · obtain ⟨hlt, hrest⟩ := h.blocked id t hmem
    rw [Function.update_of_ne (Nat.ne_of_lt hlt), Function.update_of_ne (Nat.ne_of_lt hlt)]
    exact ⟨Nat.lt_succ_of_lt hlt, hrest⟩
  · have hne : t ≠ count := by
      rintro rfl
      simp at hsuspended
    rw [Function.update_of_ne hne] at hsuspended
    exact h.waits t (by omega) hsuspended (Option.some_ne_none _).symm
  · intro t hnone
    cases hnone

/-- The counter is not part of a waiter list. -/
theorem Waiters.set_count
    (h : Waiters semaphore waiter state blocker count suspended pending waiting) (id : SemaphoreId)
    (value : Int) :
    Waiters (Function.update semaphore id { semaphore id with count := value }) waiter state blocker
      count suspended pending waiting := by
  refine ⟨fun other => ?_, fun other => ?_, h.node, h.blocked, h.waits, h.pending_suspended⟩
  · by_cases hother : other = id
    · subst hother
      simpa using h.linked other
    · simpa [hother] using h.linked other
  · by_cases hother : other = id
    · subst hother
      simpa using h.tail other
    · simpa [hother] using h.tail other

/-- The waiter node of a thread that does not wait may go. -/
theorem Waiters.drop_node
    (h : Waiters semaphore waiter state blocker count suspended pending waiting) {t : ThreadId}
    (ht : ∀ id, t ∉ waiting id) :
    Waiters semaphore (Function.update waiter t none) state blocker count suspended pending
      waiting := by
  have hsame : ∀ id, ∀ other ∈ waiting id, Function.update waiter t none other = waiter other :=
    fun id other hmem => Function.update_of_ne (ne_of_mem_of_not_mem hmem (ht id)) _ _
  refine ⟨fun id => ?_, h.tail, fun id other hmem => ?_, h.blocked, h.waits, h.pending_suspended⟩
  · exact (h.linked id).congr fun other hmem => by rw [waiterNext, waiterNext, hsame id other hmem]
  · rw [hsame id other hmem]
    exact h.node id other hmem

/-- Queueing a waiter links its node behind the last one and touches no other list. -/
theorem enqueueWaiter_spec
    (h : Waiters semaphore waiter state blocker count suspended pending waiting) {t : ThreadId}
    (ht : ∀ id, t ∉ waiting id) (id : SemaphoreId) :
    ∃ waiter' semaphore', enqueueWaiter waiter (semaphore id) t = some (waiter', semaphore') ∧
      semaphore'.count = (semaphore id).count ∧
      Linked (waiterNext waiter') semaphore'.head (waiting id ++ [t]) ∧
      semaphore'.tail = some t ∧
      (∀ other ∈ waiting id ++ [t], ∃ next, waiter' other = some { thread := other, next := next }) ∧
      ∀ other, other ∉ waiting id → other ≠ t → waiter' other = waiter other := by
  have hclean : Linked (waiterNext (Function.update waiter t (some { thread := t, next := none })))
      (semaphore id).head (waiting id) := by
    rw [waiterNext_update]
    exact (h.linked id).update (ht id) none
  rcases List.eq_nil_or_concat (waiting id) with hnil | ⟨front, last, hlast⟩
  · have htail : (semaphore id).tail = none := by rw [h.tail, hnil, List.getLast?_nil]
    refine ⟨Function.update waiter t (some { thread := t, next := none }),
      { semaphore id with head := some t, tail := some t }, by rw [enqueueWaiter, htail], rfl, ?_, rfl, ?_,
      fun other _ hother => Function.update_of_ne hother _ _⟩
    · rw [hnil, waiterNext_update]
      exact ⟨rfl, Function.update_self _ _ _⟩
    · rw [hnil]
      intro other hother
      obtain rfl : other = t := List.mem_singleton.mp hother
      exact ⟨none, Function.update_self _ _ _⟩
  · rw [List.concat_eq_append] at hlast
    have hmem : last ∈ waiting id := by rw [hlast]; simp
    have hne : last ≠ t := ne_of_mem_of_not_mem hmem (ht id)
    have htail : (semaphore id).tail = some last := by
      rw [h.tail, hlast, List.getLast?_append_of_ne_nil _ (List.cons_ne_nil _ _)]
      rfl
    obtain ⟨link, hnode⟩ := h.node id last hmem
    have hthis : Function.update waiter t (some { thread := t, next := none }) last =
        some { thread := last, next := link } := by rw [Function.update_of_ne hne, hnode]
    refine ⟨Function.update (Function.update waiter t (some { thread := t, next := none })) last
      (some { thread := last, next := some t }), { semaphore id with tail := some t }, ?_, rfl, ?_,
      rfl, fun other hother => ?_, fun other hmiss hother => ?_⟩
    · simp only [enqueueWaiter, htail, hthis, Option.map_some]
    · have hthread := ht id
      rw [hlast] at hclean hthread ⊢
      rw [waiterNext_update]
      refine hclean.append hthread ?_
      rw [waiterNext_update]
      exact Function.update_self _ _ _
    · by_cases hlastother : other = last
      · subst hlastother
        exact ⟨some t, Function.update_self _ _ _⟩
      rw [Function.update_of_ne hlastother]
      by_cases hself : other = t
      · subst hself
        exact ⟨none, Function.update_self _ _ _⟩
      rw [Function.update_of_ne hself]
      rw [List.mem_append, List.mem_singleton] at hother
      exact h.node id other (hother.resolve_right hself)
    · have hnelast : other ≠ last := fun heq => hmiss (by rwa [heq])
      rw [Function.update_of_ne hnelast, Function.update_of_ne hother]

/-- A thread that marks itself suspended and queues its waiter. -/
theorem Waiters.block
    (h : Waiters semaphore waiter state blocker count suspended none waiting) {t : ThreadId}
    (hlt : t < count) (ht : ∀ id, t ∉ waiting id) (id : SemaphoreId)
    {waiter' : ThreadId → Option Waiter} {semaphore' : Semaphore}
    (hlinked : Linked (waiterNext waiter') semaphore'.head (waiting id ++ [t]))
    (htail : semaphore'.tail = some t)
    (hnode : ∀ other ∈ waiting id ++ [t],
      ∃ next, waiter' other = some { thread := other, next := next })
    (hother : ∀ other, other ∉ waiting id → other ≠ t → waiter' other = waiter other) :
    Waiters (Function.update semaphore id semaphore') waiter' (Function.update state t .suspended)
      (Function.update blocker t (some id)) count suspended none
      (Function.update waiting id (waiting id ++ [t])) := by
  have hkeep : ∀ id', id' ≠ id → ∀ other ∈ waiting id', waiter' other = waiter other := by
    intro id' hid' other hmem
    refine hother other (fun hmem' => hid' (h.unique hmem hmem')) ?_
    exact ne_of_mem_of_not_mem hmem (ht id')
  refine ⟨fun id' => ?_, fun id' => ?_, fun id' other hmem => ?_, fun id' other hmem => ?_,
    fun other hltother hsuspended _ => ?_, ?_⟩
  · by_cases hid' : id' = id
    · subst hid'
      simpa using hlinked
    · rw [Function.update_of_ne hid', Function.update_of_ne hid']
      exact (h.linked id').congr fun other hmem => by
        rw [waiterNext, waiterNext, hkeep id' hid' other hmem]
  · by_cases hid' : id' = id
    · subst hid'
      simpa using htail
    · rw [Function.update_of_ne hid', Function.update_of_ne hid']
      exact h.tail id'
  · by_cases hid' : id' = id
    · subst hid'
      rw [Function.update_self] at hmem
      exact hnode other hmem
    · rw [Function.update_of_ne hid'] at hmem
      rw [hkeep id' hid' other hmem]
      exact h.node id' other hmem
  · by_cases hself : other = t
    · subst hself
      have hid' : id' = id := by
        by_contra hne
        rw [Function.update_of_ne hne] at hmem
        exact ht id' hmem
      subst hid'
      simp [hlt]
    · have hmem' : other ∈ waiting id' := by
        by_cases hid' : id' = id
        · subst hid'
          rw [Function.update_self, List.mem_append, List.mem_singleton] at hmem
          exact hmem.resolve_right hself
        · rwa [Function.update_of_ne hid'] at hmem
      rw [Function.update_of_ne hself, Function.update_of_ne hself]
      exact h.blocked id' other hmem'
  · by_cases hself : other = t
    · subst hself
      exact ⟨id, by simp⟩
    · rw [Function.update_of_ne hself] at hsuspended
      obtain ⟨id', hmem⟩ := h.waits other hltother hsuspended (Option.some_ne_none _).symm
      refine ⟨id', ?_⟩
      by_cases hid' : id' = id
      · subst hid'
        rw [Function.update_self]
        exact List.mem_append_left _ hmem
      · rwa [Function.update_of_ne hid']
  · intro t hnone
    cases hnone

/-- `semaphore_unlock` takes the first waiter off the list. -/
theorem Waiters.pop
    (h : Waiters semaphore waiter state blocker count suspended none waiting) {id : SemaphoreId}
    {t : ThreadId} {tail : List ThreadId} (hwaiting : waiting id = t :: tail)
    (hsuspended : t ∈ suspended) {node : Waiter} (hnode : waiter t = some node) :
    Waiters (Function.update semaphore id { semaphore id with
        head := node.next, tail := if node.next = none then none else (semaphore id).tail })
      waiter state blocker count suspended (some t) (Function.update waiting id tail) := by
  have hlinked := h.linked id
  rw [hwaiting] at hlinked
  have hnext : waiterNext waiter t = node.next := by rw [waiterNext, hnode, Option.bind_some]
  have hrest : Linked (waiterNext waiter) node.next tail := by
    rw [← hnext]
    exact hlinked.2
  have hnodup := List.nodup_cons.mp hlinked.nodup
  have hsub : ∀ id', ∀ other ∈ Function.update waiting id tail id', other ∈ waiting id' := by
    intro id' other hmem
    by_cases hid' : id' = id
    · subst hid'
      rw [Function.update_self] at hmem
      rw [hwaiting]
      exact List.mem_cons_of_mem _ hmem
    · rwa [Function.update_of_ne hid'] at hmem
  refine ⟨fun id' => ?_, fun id' => ?_, fun id' other hmem => ?_, fun id' other hmem => ?_,
    fun other hlt hstate hpending => ?_, fun other hother => ?_⟩
  · by_cases hid' : id' = id
    · subst hid'
      simpa using hrest
    · rw [Function.update_of_ne hid', Function.update_of_ne hid']
      exact h.linked id'
  · by_cases hid' : id' = id
    · subst hid'
      simp only [Function.update_self]
      cases tail with
      | nil =>
          have hnone : node.next = none := hrest
          simp [hnone]
      | cons second tail =>
          have hsome : node.next = some second := hrest.1
          rw [if_neg (by simp [hsome]), h.tail, hwaiting, List.getLast?_cons_cons]
    · rw [Function.update_of_ne hid', Function.update_of_ne hid']
      exact h.tail id'
  · exact h.node id' other (hsub id' other hmem)
  · exact h.blocked id' other (hsub id' other hmem)
  · obtain ⟨id', hmem⟩ := h.waits other hlt hstate (Option.some_ne_none _).symm
    refine ⟨id', ?_⟩
    by_cases hid' : id' = id
    · subst hid'
      rw [hwaiting, List.mem_cons] at hmem
      rw [Function.update_self]
      exact hmem.resolve_left fun heq => hpending (by rw [heq])
    · rwa [Function.update_of_ne hid']
  · obtain rfl : t = other := Option.some.inj hother
    refine ⟨hsuspended, fun id' hmem => ?_⟩
    by_cases hid' : id' = id
    · subst hid'
      rw [Function.update_self] at hmem
      exact hnodup.1 hmem
    · rw [Function.update_of_ne hid'] at hmem
      exact hid' (h.unique hmem (by rw [hwaiting]; exact List.mem_cons_self))

end Kiznix
