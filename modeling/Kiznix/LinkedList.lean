import Mathlib.Algebra.Order.Ring.Nat
import Mathlib.Data.List.Basic
import Mathlib.Data.List.Nodup
import Mathlib.Logic.Function.Basic

/-! Null-terminated singly linked lists threaded through a `next` map. `Segment next head nodes tail`
says that following `next` from `head` visits exactly `nodes` and then reads `tail`; a list is a
segment whose tail is null. The node type is arbitrary. The lemmas say what redirecting one link does
to a list: a link outside the list is invisible, redirecting the last link appends a node, and
redirecting the link before a node removes it. -/

namespace Kiznix.LinkedList

variable {α : Type} {next next' : α → Option α} {head tail : Option α} {nodes front back : List α}

/-- Following `next` from `head` visits exactly `nodes`, in order, and then reads `tail`. -/
def Segment (next : α → Option α) : Option α → List α → Option α → Prop
  | head, [], tail => head = tail
  | head, node :: nodes, tail => head = some node ∧ Segment next (next node) nodes tail

/-- A null-terminated list. -/
def Linked (next : α → Option α) (head : Option α) (nodes : List α) : Prop :=
  Segment next head nodes none

@[simp] theorem segment_nil : Segment next head [] tail ↔ head = tail := Iff.rfl

@[simp] theorem segment_cons {node : α} :
    Segment next head (node :: nodes) tail ↔ head = some node ∧ Segment next (next node) nodes tail :=
  Iff.rfl

@[simp] theorem linked_nil : Linked next head [] ↔ head = none := Iff.rfl

@[simp] theorem linked_cons {node : α} :
    Linked next head (node :: nodes) ↔ head = some node ∧ Linked next (next node) nodes := Iff.rfl

theorem segment_append : Segment next head (front ++ back) tail ↔
    ∃ middle, Segment next head front middle ∧ Segment next middle back tail := by
  induction front generalizing head with
  | nil => simp
  | cons node front ih =>
      rw [List.cons_append, segment_cons, ih]
      constructor
      · rintro ⟨hhead, middle, hfront, hback⟩
        exact ⟨middle, ⟨hhead, hfront⟩, hback⟩
      · rintro ⟨middle, ⟨hhead, hfront⟩, hback⟩
        exact ⟨hhead, middle, hfront, hback⟩

/-- Two maps that agree on the nodes of a segment thread the same segment. -/
theorem Segment.congr (h : Segment next head nodes tail)
    (hagree : ∀ node ∈ nodes, next' node = next node) : Segment next' head nodes tail := by
  induction nodes generalizing head with
  | nil => exact h
  | cons node nodes ih =>
      refine ⟨h.1, ?_⟩
      rw [hagree node List.mem_cons_self]
      exact ih h.2 fun other hother => hagree other (List.mem_cons_of_mem _ hother)

theorem Linked.congr (h : Linked next head nodes)
    (hagree : ∀ node ∈ nodes, next' node = next node) : Linked next' head nodes :=
  Segment.congr h hagree

theorem Linked.head_eq (h : Linked next head nodes) : head = nodes.head? := by
  cases nodes with
  | nil => exact h
  | cons node nodes => exact h.1

theorem linked_none : Linked next none nodes ↔ nodes = [] := by
  cases nodes <;> simp

theorem Linked.eq_nil_iff (h : Linked next head nodes) : head = none ↔ nodes = [] := by
  rw [h.head_eq, List.head?_eq_none_iff]

theorem linked_unique {nodes' : List α} (h : Linked next head nodes)
    (h' : Linked next head nodes') : nodes = nodes' := by
  induction nodes generalizing head nodes' with
  | nil =>
      rw [linked_nil] at h
      subst h
      exact (linked_none.mp h').symm
  | cons node nodes ih =>
      cases nodes' with
      | nil =>
          rw [linked_nil] at h'
          subst h'
          cases h.1
      | cons node' nodes' =>
          have hnode : node = node' := Option.some.inj (h.1.symm.trans h'.1)
          subst hnode
          rw [ih h.2 h'.2]

/-- A list that ends visits no node twice: the suffixes from both visits would be the same list. -/
theorem Linked.nodup (h : Linked next head nodes) : nodes.Nodup := by
  induction nodes generalizing head with
  | nil => exact List.nodup_nil
  | cons node nodes ih =>
      refine List.nodup_cons.mpr ⟨fun hmem => ?_, ih h.2⟩
      obtain ⟨before, after, hsplit⟩ := List.append_of_mem hmem
      have htail := h.2
      rw [hsplit] at htail
      obtain ⟨middle, hbefore, hafter⟩ := segment_append.mp htail
      have hsuffix : Linked next (next node) after := hafter.2
      have hlength := congrArg List.length (linked_unique h.2 hsuffix)
      rw [hsplit, List.length_append, List.length_cons] at hlength
      omega

variable [DecidableEq α]

theorem Segment.update (h : Segment next head nodes tail) {node : α} (hnode : node ∉ nodes)
    (link : Option α) : Segment (Function.update next node link) head nodes tail :=
  h.congr fun _ hother => Function.update_of_ne (fun heq => hnode (by rwa [← heq])) _ _

theorem Linked.update (h : Linked next head nodes) {node : α} (hnode : node ∉ nodes)
    (link : Option α) : Linked (Function.update next node link) head nodes :=
  Segment.update h hnode link

/-- Redirecting the last link of a segment redirects its tail. -/
theorem Segment.redirect {last : α} (h : Segment next head (front ++ [last]) tail)
    (hlast : last ∉ front) (link : Option α) :
    Segment (Function.update next last link) head (front ++ [last]) link := by
  obtain ⟨middle, hfront, hback⟩ := segment_append.mp h
  refine segment_append.mpr ⟨middle, hfront.update hlast link, hback.1, ?_⟩
  exact Function.update_self _ _ _

theorem Linked.append {last node : α} (h : Linked next head (front ++ [last]))
    (hnode : node ∉ front ++ [last]) (hnext : next node = none) :
    Linked (Function.update next last (some node)) head (front ++ [last] ++ [node]) := by
  have hlast : last ∉ front := by
    have hdup := List.nodup_append.mp h.nodup
    exact fun hmem => hdup.2.2 last hmem last List.mem_cons_self rfl
  refine segment_append.mpr ⟨some node, Segment.redirect h hlast _, rfl, ?_⟩
  have hne : node ≠ last := fun heq =>
    hnode (List.mem_append_right _ (heq ▸ List.mem_cons_self))
  rw [segment_nil, Function.update_of_ne hne, hnext]

theorem Linked.remove {prev node : α} (h : Linked next head (front ++ [prev] ++ node :: back)) :
    Linked (Function.update next prev (next node)) head (front ++ [prev] ++ back) := by
  have hdup := List.nodup_append.mp h.nodup
  have hprev : prev ∉ front := by
    have hfront := List.nodup_append.mp hdup.1
    exact fun hmem => hfront.2.2 prev hmem prev List.mem_cons_self rfl
  obtain ⟨middle, hfront, hmiddle⟩ := segment_append.mp h
  refine segment_append.mpr ⟨next node, hfront.redirect hprev _, ?_⟩
  refine hmiddle.2.update (fun hmem => ?_) _
  exact hdup.2.2 prev (List.mem_append_right _ List.mem_cons_self) prev
    (List.mem_cons_of_mem _ hmem) rfl

end Kiznix.LinkedList
