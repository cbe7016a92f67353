import Mathlib.Algebra.Order.Ring.Nat
import Mathlib.Data.List.Basic
import Mathlib.Data.Multiset.AddSub
import Mathlib.Data.Multiset.Count

/-! A counting semaphore with direct hand-over, over an arbitrary type of callers: a unit that is
released while callers wait goes to the first of them and never passes through the counter. A run is the
list of its events, newest first. -/

namespace Kiznix.FifoSemaphore

variable {α : Type}

structure State (α : Type) where
  count : Nat
  waiting : List α
  /-- Callers that were handed a unit and have not yet returned. -/
  owed : List α

inductive Event (α : Type) where
  | granted (caller : α)
  | refused (caller : α)
  | enqueued (caller : α)
  | returned (caller : α)
  | released (caller : α)
  | handedOver (caller waiter : α)
  deriving DecidableEq

inductive Step [DecidableEq α] : State α → Event α → State α → Prop where
  | granted (s : State α) (a : α) (hcount : 0 < s.count) :
      Step s (.granted a) { s with count := s.count - 1 }
  | refused (s : State α) (a : α) (hcount : s.count = 0) : Step s (.refused a) s
  | enqueued (s : State α) (a : α) (hcount : s.count = 0) :
      Step s (.enqueued a) { s with waiting := s.waiting ++ [a] }
  | returned (s : State α) (a : α) (howed : a ∈ s.owed) :
      Step s (.returned a) { s with owed := s.owed.erase a }
  | released (s : State α) (a : α) (hwaiting : s.waiting = []) :
      Step s (.released a) { s with count := s.count + 1 }
  | handedOver (s : State α) (a b : α) (waiting : List α) (hwaiting : s.waiting = b :: waiting) :
      Step s (.handedOver a b) { s with waiting := waiting, owed := b :: s.owed }

/-- The runs of a semaphore that starts with `n` units. -/
inductive Run [DecidableEq α] (n : Nat) : List (Event α) → State α → Prop where
  | init : Run n [] { count := n, waiting := [], owed := [] }
  | step {log : List (Event α)} {s s' : State α} {e : Event α} :
      Run n log s → Step s e s' → Run n (e :: log) s'

namespace Event

/-- The unit leaves the semaphore. -/
def isGrant : Event α → Bool
  | .granted _ => true
  | .handedOver _ _ => true
  | _ => false

def releaser : Event α → Option α
  | .released a => some a
  | .handedOver a _ => some a
  | _ => none

/-- The caller that goes on with a unit. -/
def acquirer : Event α → Option α
  | .granted a => some a
  | .returned a => some a
  | _ => none

def arrival : Event α → Option α
  | .enqueued a => some a
  | _ => none

def recipient : Event α → Option α
  | .handedOver _ a => some a
  | _ => none

def returner : Event α → Option α
  | .returned a => some a
  | _ => none

end Event

def grants (log : List (Event α)) : Nat := log.countP Event.isGrant

def releases (log : List (Event α)) : Nat := (log.filterMap Event.releaser).length

def acquisitions (log : List (Event α)) : Nat := (log.filterMap Event.acquirer).length

/-- The blocked callers in the order in which they were queued. -/
def arrivals (log : List (Event α)) : List α := log.reverse.filterMap Event.arrival

/-- The blocked callers in the order in which they were handed a unit. -/
def recipients (log : List (Event α)) : List α := log.reverse.filterMap Event.recipient

/-- The blocked callers that returned, newest first. -/
def returners (log : List (Event α)) : List α := log.filterMap Event.returner

/-- Who took a unit and did not give it back. -/
def holders [DecidableEq α] (log : List (Event α)) : Multiset α :=
  (log.filterMap Event.acquirer : Multiset α) - (log.filterMap Event.releaser : Multiset α)

section Counting

variable (e : Event α) (log : List (Event α))

theorem grants_cons : grants (e :: log) = grants log + e.isGrant.toNat := by
  cases e <;> simp [grants, List.countP_cons, Event.isGrant]

theorem releases_cons : releases (e :: log) = releases log + e.releaser.toList.length := by
  cases e <;> rfl

theorem acquisitions_cons :
    acquisitions (e :: log) = acquisitions log + e.acquirer.toList.length := by
  cases e <;> rfl

theorem arrivals_cons : arrivals (e :: log) = arrivals log ++ e.arrival.toList := by
  cases e <;> simp [arrivals, Event.arrival]

theorem recipients_cons : recipients (e :: log) = recipients log ++ e.recipient.toList := by
  cases e <;> simp [recipients, Event.recipient]

theorem returners_cons : returners (e :: log) = e.returner.toList ++ returners log := by
  cases e <;> rfl

end Counting

variable [DecidableEq α] {n : Nat} {log older newer : List (Event α)} {s s' : State α} {e : Event α}

/-- Units are neither lost nor made up. -/
theorem Run.ledger (h : Run n log s) : s.count + grants log = n + releases log := by
  induction h with
  | init => rfl
  | step _ hstep ih =>
      rw [grants_cons, releases_cons]
      cases hstep with
      | granted a hcount =>
          simp only [Event.isGrant, Event.releaser, Bool.toNat_true, Option.toList_none, List.length_nil]
          omega
      | released a hwaiting =>
          simp only [Event.isGrant, Event.releaser, Bool.toNat_false, Option.toList_some,
            List.length_singleton]
          omega
      | handedOver a b waiting hwaiting =>
          simp only [Event.isGrant, Event.releaser, Bool.toNat_true, Option.toList_some,
            List.length_singleton]
          omega
      | _ => exact ih

/-- There are units on the shelf only when nobody waits. -/
theorem Run.idle (h : Run n log s) (hcount : 0 < s.count) : s.waiting = [] := by
  induction h with
  | init => rfl
  | step _ hstep ih =>
      cases hstep with
      | granted a hpos => exact ih hpos
      | refused a hzero => exact ih hcount
      | enqueued a hzero =>
          rw [hzero] at hcount
          cases hcount
      | returned a howed => exact ih hcount
      | released a hwaiting => exact hwaiting
      | handedOver a b waiting hwaiting =>
          have hnil := ih hcount
          rw [hwaiting] at hnil
          cases hnil

/-- Blocked callers are served in the order of their arrival. -/
theorem Run.fifo (h : Run n log s) : arrivals log = recipients log ++ s.waiting := by
  induction h with
  | init => rfl
  | step _ hstep ih =>
      rw [arrivals_cons, recipients_cons, ih]
      cases hstep with
      | handedOver a b waiting hwaiting => simp [Event.arrival, Event.recipient, hwaiting]
      | _ => simp [Event.arrival, Event.recipient]

theorem Run.suffix (h : Run n (newer ++ log) s) : ∃ s₀, Run n log s₀ := by
  induction newer generalizing s with
  | nil => exact ⟨s, h⟩
  | cons e newer ih =>
      cases h with
      | step hrun _ => exact ih hrun

/-- Nobody takes a unit past a waiting caller. -/
theorem Run.no_overtaking {a : α} (h : Run n (newer ++ .granted a :: older) s) :
    arrivals older = recipients older := by
  obtain ⟨s₁, hgrant⟩ := h.suffix
  cases hgrant with
  | step hrun hstep =>
      cases hstep with
      | granted a hcount => rw [hrun.fifo, hrun.idle hcount, List.append_nil]

/-- A blocked caller returns only with a unit that was handed to it. -/
theorem Run.returned (h : Run n log s) (a : α) :
    (returners log).count a + s.owed.count a = (recipients log).count a := by
  induction h with
  | init => rfl
  | step _ hstep ih =>
      rw [returners_cons, recipients_cons, List.count_append, List.count_append]
      cases hstep with
      | handedOver b c waiting hwaiting =>
          simp only [Event.returner, Event.recipient, Option.toList_none, Option.toList_some,
            List.count_nil, List.count_cons]
          omega
      | returned b howed =>
          have hpos := List.count_pos_iff.mpr howed
          simp only [Event.returner, Event.recipient, Option.toList_none, Option.toList_some,
            List.count_nil]
          by_cases hb : a = b
          · subst hb
            rw [List.count_erase_self, List.count_singleton_self]
            omega
          · rw [List.count_erase_of_ne hb, List.count_singleton, if_neg (by simpa using Ne.symm hb)]
            omega
      | _ => simpa [Event.returner, Event.recipient] using ih

/-- Every unit is on the shelf, on its way to a caller, or taken. -/
theorem Run.taken (h : Run n log s) :
    acquisitions log + s.owed.length + s.count = n + releases log := by
  induction h with
  | init => simp [acquisitions, releases]
  | step _ hstep ih =>
      rw [acquisitions_cons, releases_cons]
      cases hstep with
      | granted a hcount =>
          simp only [Event.acquirer, Event.releaser, Option.toList_none, Option.toList_some,
            List.length_nil, List.length_singleton]
          omega
      | returned a howed =>
          have hlength := List.length_erase_of_mem howed
          have hpos := List.length_pos_of_mem howed
          simp only [Event.acquirer, Event.releaser, Option.toList_none, Option.toList_some,
            List.length_nil, List.length_singleton]
          omega
      | handedOver a b waiting hwaiting =>
          simp only [Event.acquirer, Event.releaser, Option.toList_none, Option.toList_some,
            List.length_nil, List.length_cons]
          omega
      | released a hwaiting =>
          simp only [Event.acquirer, Event.releaser, Option.toList_none, Option.toList_some,
            List.length_nil, List.length_singleton]
          omega
      | _ => exact ih

/-- Where only holders release, there are never more than `n` holders. -/
theorem Run.card_holders (h : Run n log s)
    (howner : (log.filterMap Event.releaser : Multiset α) ≤ (log.filterMap Event.acquirer : Multiset α)) :
    Multiset.card (holders log) ≤ n := by
  have htaken := h.taken
  rw [holders, Multiset.card_sub howner, Multiset.coe_card, Multiset.coe_card]
  simp only [acquisitions, releases] at htaken
  omega

/-- Mutual exclusion for a single unit. -/
theorem Run.exclusive (h : Run 1 log s)
    (howner : (log.filterMap Event.releaser : Multiset α) ≤ (log.filterMap Event.acquirer : Multiset α))
    {a b : α} (ha : a ∈ holders log) (hb : b ∈ holders log) : a = b := by
  by_contra hne
  have hpair : ({a, b} : Multiset α) ≤ holders log := by
    rw [Multiset.le_iff_subset]
    · intro c hc
      rcases Multiset.mem_cons.mp hc with rfl | hc
      · exact ha
      · rwa [Multiset.mem_singleton.mp hc]
    · simp [hne]
  have hcard := (Multiset.card_le_card hpair).trans (h.card_holders howner)
  simp at hcard

end Kiznix.FifoSemaphore
