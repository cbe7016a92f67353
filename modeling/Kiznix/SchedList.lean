import Kiznix.LinkedList

/-! The scheduler's intrusive list helpers. A thread list is a head pointer and the `next` fields of
the thread nodes, kept as one map from threads to links. The loops of the source take fuel; with as
much fuel as the list has nodes they end and compute append, pop and remove on the sequence of
threads the list denotes. -/

namespace Kiznix

open LinkedList

/-- A `thread_t*`, named by the order in which the threads were published. -/
abbrev ThreadId := Nat

/-- The `next` fields of all thread nodes. -/
abbrev Links := ThreadId → Option ThreadId

/-- `while (last->next != NULL) last = last->next;` -/
def listLast (next : Links) : Nat → ThreadId → Option ThreadId
  | 0, _ => none
  | fuel + 1, last =>
      match next last with
      | none => some last
      | some node => listLast next fuel node

def listAppend (fuel : Nat) (next : Links) (head : Option ThreadId) (thread : ThreadId) :
    Option (Links × Option ThreadId) :=
  let next := Function.update next thread none
  match head with
  | none => some (next, some thread)
  | some first =>
      (listLast next fuel first).map fun last => (Function.update next last (some thread), head)

/-- The popped thread, the links and the head after the call. -/
def listPop (next : Links) (head : Option ThreadId) : Option ThreadId × Links × Option ThreadId :=
  match head with
  | some thread => (some thread, Function.update next thread none, next thread)
  | none => (none, next, none)

/-- The iterations of `list_remove` whose `pp` is the `next` field of `prev`. -/
def listRemoveAfter (next : Links) (thread : ThreadId) : Nat → ThreadId → Option Links
  | 0, _ => none
  | fuel + 1, prev =>
      match next prev with
      | none => some next
      | some node =>
          if node = thread then some (Function.update next prev (next thread))
          else listRemoveAfter next thread fuel node

def listRemove (fuel : Nat) (next : Links) (head : Option ThreadId) (thread : ThreadId) :
    Option (Links × Option ThreadId) :=
  match head with
  | none => some (next, none)
  | some first =>
      if first = thread then some (next, next thread)
      else (listRemoveAfter next thread fuel first).map fun next => (next, head)

variable {next : Links} {head : Option ThreadId} {threads : List ThreadId} {thread : ThreadId}

theorem listLast_eq {first : ThreadId} {rest : List ThreadId} {fuel : Nat}
    (h : Linked next (some first) (first :: rest)) (hfuel : rest.length < fuel) :
    listLast next fuel first = some ((first :: rest).getLast (List.cons_ne_nil _ _)) := by
  induction fuel generalizing first rest with
  | zero => omega
  | succ fuel ih =>
      rw [listLast]
      cases rest with
      | nil =>
          have hnone : next first = none := h.2
          rw [hnone]
          rfl
      | cons second rest =>
          have hsome : next first = some second := h.2.1
          have hlist : Linked next (some second) (second :: rest) := ⟨rfl, h.2.2⟩
          have hrest := ih hlist (by rw [List.length_cons] at hfuel; omega)
          rw [hsome]
          exact hrest

/-- `list_append` on a list that does not hold the thread ends, links the thread behind the last node
and touches no link of a thread outside the list. -/
theorem listAppend_spec {fuel : Nat} (h : Linked next head threads) (hthread : thread ∉ threads)
    (hfuel : threads.length ≤ fuel) :
    ∃ next' head', listAppend fuel next head thread = some (next', head') ∧
      Linked next' head' (threads ++ [thread]) ∧
      ∀ other, other ∉ threads → other ≠ thread → next' other = next other := by
  have hclean := h.update hthread none
  cases threads with
  | nil =>
      rw [linked_nil] at h
      subst h
      refine ⟨Function.update next thread none, some thread, rfl, ⟨rfl, ?_⟩, fun other _ hother => ?_⟩
      · exact Function.update_self _ _ _
      · exact Function.update_of_ne hother _ _
  | cons first rest =>
      obtain rfl : head = some first := h.1
      have hlast := listLast_eq hclean
        (show rest.length < fuel by rw [List.length_cons] at hfuel; omega)
      generalize hlastdef : (first :: rest).getLast (List.cons_ne_nil _ _) = last at hlast
      have hsplit : (first :: rest).dropLast ++ [last] = first :: rest := by
        rw [← hlastdef]
        exact List.dropLast_append_getLast _
      have hmem : last ∈ first :: rest := by
        rw [← hlastdef]
        exact List.getLast_mem _
      refine ⟨Function.update (Function.update next thread none) last (some thread), some first,
        ?_, ?_, fun other hmiss hother => ?_⟩
      · simp only [listAppend, hlast, Option.map_some]
      · rw [← hsplit] at hclean hthread ⊢
        exact hclean.append hthread (Function.update_self _ _ _)
      · have hne : other ≠ last := fun heq => hmiss (by rwa [heq])
        rw [Function.update_of_ne hne, Function.update_of_ne hother]

theorem listPop_cons {first : ThreadId} {rest : List ThreadId}
    (h : Linked next head (first :: rest)) :
    ∃ next' head', listPop next head = (some first, next', head') ∧ Linked next' head' rest ∧
      ∀ other, other ≠ first → next' other = next other := by
  have hdup := List.nodup_cons.mp h.nodup
  obtain rfl : head = some first := h.1
  refine ⟨Function.update next first none, next first, rfl, ?_, fun other hother => ?_⟩
  · exact Linked.update h.2 hdup.1 none
  · exact Function.update_of_ne hother _ _

theorem listRemoveAfter_eq {prev : ThreadId} {before after : List ThreadId} {fuel : Nat}
    (h : Linked next (some prev) (prev :: before ++ thread :: after))
    (hfuel : before.length < fuel) :
    listRemoveAfter next thread fuel prev =
      some (Function.update next ((prev :: before).getLast (List.cons_ne_nil _ _)) (next thread)) := by
  induction fuel generalizing prev before with
  | zero => omega
  | succ fuel ih =>
      rw [listRemoveAfter]
      cases before with
      | nil =>
          have hnext : next prev = some thread := h.2.1
          rw [hnext]
          simp
      | cons second before =>
          have hnext : next prev = some second := h.2.1
          have hne : second ≠ thread := by
            have hdup := List.nodup_cons.mp (Linked.nodup (h.2))
            exact fun heq => hdup.1 (by simp [heq])
          rw [hnext]
          simp only [hne, if_false]
          exact ih ⟨rfl, h.2.2⟩ (by rw [List.length_cons] at hfuel; omega)

theorem listRemoveAfter_absent {prev : ThreadId} {rest : List ThreadId} {fuel : Nat}
    (h : Linked next (some prev) (prev :: rest)) (hthread : thread ∉ rest)
    (hfuel : rest.length < fuel) : listRemoveAfter next thread fuel prev = some next := by
  induction fuel generalizing prev rest with
  | zero => omega
  | succ fuel ih =>
      rw [listRemoveAfter]
      cases rest with
      | nil =>
          have hnext : next prev = none := h.2
          rw [hnext]
      | cons second rest =>
          have hnext : next prev = some second := h.2.1
          have hne : second ≠ thread := fun heq => hthread (by simp [heq])
          rw [hnext]
          simp only [hne, if_false]
          exact ih ⟨rfl, h.2.2⟩ (fun hmem => hthread (List.mem_cons_of_mem _ hmem))
            (by rw [List.length_cons] at hfuel; omega)

/-- `list_remove` ends and deletes the thread from the list; a thread that is not in the list changes
nothing. Links of threads outside the list are untouched. -/
theorem listRemove_spec {fuel : Nat} (thread : ThreadId) (h : Linked next head threads)
    (hfuel : threads.length ≤ fuel) :
    ∃ next' head', listRemove fuel next head thread = some (next', head') ∧
      Linked next' head' (threads.erase thread) ∧
      ∀ other, other ∉ threads → next' other = next other := by
  cases threads with
  | nil =>
      rw [linked_nil] at h
      subst h
      exact ⟨next, none, rfl, rfl, fun _ _ => rfl⟩
  | cons first rest =>
      obtain rfl : head = some first := h.1
      by_cases hfirst : first = thread
      · subst hfirst
        refine ⟨next, next first, by simp [listRemove], ?_, fun _ _ => rfl⟩
        rw [List.erase_cons_head]
        exact h.2
      by_cases hmem : thread ∈ rest
      · obtain ⟨before, after, hsplit⟩ := List.append_of_mem hmem
        subst hsplit
        have hlist : Linked next (some first) (first :: before ++ thread :: after) := h
        have hrun := listRemoveAfter_eq hlist (show before.length < fuel by
          simp only [List.length_cons, List.length_append] at hfuel; omega)
        generalize hprevdef : (first :: before).getLast (List.cons_ne_nil _ _) = prev at hrun
        have hprev : (first :: before).dropLast ++ [prev] = first :: before := by
          rw [← hprevdef]
          exact List.dropLast_append_getLast _
        have hprevmem : prev ∈ first :: before := by
          rw [← hprevdef]
          exact List.getLast_mem _
        have hdup := List.nodup_append.mp hlist.nodup
        have hbefore : thread ∉ first :: before := fun hin =>
          hdup.2.2 thread hin thread List.mem_cons_self rfl
        refine ⟨Function.update next prev (next thread), some first,
          by simp only [listRemove, hfirst, if_false, hrun, Option.map_some], ?_,
          fun other hother => ?_⟩
        · rw [show first :: (before ++ thread :: after) = (first :: before) ++ thread :: after from rfl,
            List.erase_append_right _ hbefore, List.erase_cons_head]
          rw [← hprev] at hlist ⊢
          exact hlist.remove
        · refine Function.update_of_ne (fun heq => hother ?_) _ _
          rw [heq]
          exact List.mem_append_left (thread :: after) hprevmem
      · refine ⟨next, some first, ?_, ?_, fun _ _ => rfl⟩
        · have hrun := listRemoveAfter_absent h hmem
            (show rest.length < fuel by rw [List.length_cons] at hfuel; omega)
          simp only [listRemove, hfirst, if_false, hrun, Option.map_some]
        · rw [List.erase_of_not_mem]
          · exact h
          · simp only [List.mem_cons, not_or]
            exact ⟨Ne.symm hfirst, hmem⟩

end Kiznix
