import Kiznix.SchedModel

/-! The list helpers of `thread.c` on whole thread nodes: two lists share one `next` field for each node, and
`list_remove` works through a pointer that is the head or such a field. -/

namespace Kiznix.ThreadList

open LinkedList

/-- `struct thread`; pointers other than `next` are addresses. -/
structure Thread where
  state : ThreadState
  stack : Nat
  interruptFrame : Nat
  context : Nat
  next : Option ThreadId
  blocker : Nat
  deriving DecidableEq

/-- The nodes, and the variables that hold the heads of lists. -/
structure Heap (H : Type) where
  node : ThreadId → Thread
  head : H → Option ThreadId

/-- A `thread_t**`. -/
inductive Pointer (H : Type) where
  | head (x : H)
  | next (thread : ThreadId)

variable {H : Type} [DecidableEq H]

namespace Heap

def setHead (h : Heap H) (x : H) (link : Option ThreadId) : Heap H :=
  { h with head := Function.update h.head x link }

def setNext (h : Heap H) (thread : ThreadId) (link : Option ThreadId) : Heap H :=
  { h with node := Function.update h.node thread { h.node thread with next := link } }

def read (h : Heap H) : Pointer H → Option ThreadId
  | .head x => h.head x
  | .next thread => (h.node thread).next

def write (h : Heap H) (pp : Pointer H) (link : Option ThreadId) : Heap H :=
  match pp with
  | .head x => h.setHead x link
  | .next thread => h.setNext thread link

end Heap

/-- `while (last->next != NULL) last = last->next;` -/
def lastOf (h : Heap H) : Nat → ThreadId → Option ThreadId
  | 0, _ => none
  | fuel + 1, last =>
      match (h.node last).next with
      | none => some last
      | some thread => lastOf h fuel thread

def listAppend (fuel : Nat) (head : H) (thread : ThreadId) (h : Heap H) : Option (Heap H) :=
  let h := h.setNext thread none
  match h.head head with
  | none => some (h.setHead head (some thread))
  | some first => (lastOf h fuel first).map fun last => h.setNext last (some thread)

def listPop (head : H) (h : Heap H) : Option ThreadId × Heap H :=
  match h.head head with
  | some thread =>
      let h := h.setHead head (h.node thread).next
      (some thread, h.setNext thread none)
  | none => (none, h)

/-- The loop of `list_remove`. -/
def removeLoop (thread : ThreadId) : Nat → Pointer H → Heap H → Option (Heap H)
  | 0, _, _ => none
  | fuel + 1, pp, h =>
      match h.read pp with
      | none => some h
      | some node =>
          if node = thread then some (h.write pp (h.node thread).next)
          else removeLoop thread fuel (.next node) h

def listRemove (fuel : Nat) (head : H) (thread : ThreadId) (h : Heap H) : Option (Heap H) :=
  removeLoop thread fuel (.head head) h

/-! ### The links of a heap -/

variable {h h' : Heap H} {x y : H} {xs ys xs' : List ThreadId} {thread : ThreadId} {fuel : Nat}

namespace Heap

def links (h : Heap H) : Links := fun thread => (h.node thread).next

/-- The heap with other links and another head. -/
def relink (h : Heap H) (x : H) (next : Links) (head : Option ThreadId) : Heap H where
  node thread := { h.node thread with next := next thread }
  head := Function.update h.head x head

theorem relink_same : h.relink x h.links (h.head x) = h := by
  rw [relink, Function.update_eq_self]
  rfl

theorem setHead_relink (next : Links) (head link : Option ThreadId) :
    (h.relink x next head).setHead x link = h.relink x next link := by
  rw [relink, relink, setHead, Function.update_idem]

theorem setNext_relink (next : Links) (head : Option ThreadId) (thread : ThreadId) (link : Option ThreadId) :
    (h.relink x next head).setNext thread link = h.relink x (Function.update next thread link) head := by
  rw [relink, relink, setNext]
  congr 1
  funext other
  by_cases heq : other = thread
  · subst heq
    rw [Function.update_self, Function.update_self]
  · rw [Function.update_of_ne heq, Function.update_of_ne heq]

theorem setHead_eq (link : Option ThreadId) : h.setHead x link = h.relink x h.links link := rfl

theorem setNext_eq (thread : ThreadId) (link : Option ThreadId) :
    h.setNext thread link = h.relink x (Function.update h.links thread link) (h.head x) := by
  rw [← setNext_relink, relink_same]

omit [DecidableEq H] in
theorem links_setNext (thread : ThreadId) (link : Option ThreadId) :
    (h.setNext thread link).links = Function.update h.links thread link := by
  funext other
  show (Function.update h.node thread _ other).next = _
  by_cases heq : other = thread
  · subst heq
    rw [Function.update_self, Function.update_self]
  · rw [Function.update_of_ne heq, Function.update_of_ne heq]
    rfl

end Heap

omit [DecidableEq H] in
theorem lastOf_eq (fuel : Nat) (last : ThreadId) : lastOf h fuel last = listLast h.links fuel last := by
  induction fuel generalizing last with
  | zero => rfl
  | succ fuel ih =>
      rw [lastOf, listLast]
      cases hnext : (h.node last).next with
      | none =>
          have hlink : h.links last = none := hnext
          rw [hlink]
      | some thread =>
          have hlink : h.links last = some thread := hnext
          rw [hlink]
          exact ih thread

/-- The helpers do to the links and the head what they do there. -/
theorem listAppend_eq (fuel : Nat) : listAppend fuel x thread h =
    (Kiznix.listAppend fuel h.links (h.head x) thread).map fun r => h.relink x r.1 r.2 := by
  have hclean : h.setNext thread none = h.relink x (Function.update h.links thread none) (h.head x) :=
    Heap.setNext_eq thread none
  unfold listAppend Kiznix.listAppend
  dsimp only
  rw [show (h.setNext thread none).head x = h.head x from rfl]
  cases hhead : h.head x with
  | none =>
      dsimp only
      rw [Option.map_some, hclean, Heap.setHead_relink]
  | some first =>
      dsimp only
      rw [lastOf_eq, Heap.links_setNext, Option.map_map]
      refine congrArg (Option.map · _) (funext fun last => ?_)
      rw [hclean, Heap.setNext_relink, hhead]
      rfl

theorem listPop_eq : listPop x h =
    ((Kiznix.listPop h.links (h.head x)).1,
      h.relink x (Kiznix.listPop h.links (h.head x)).2.1 (Kiznix.listPop h.links (h.head x)).2.2) := by
  unfold listPop Kiznix.listPop
  cases hhead : h.head x with
  | none =>
      dsimp only
      rw [← hhead, Heap.relink_same]
  | some thread =>
      dsimp only
      rw [Heap.setHead_eq, Heap.setNext_relink]
      rfl

theorem removeLoop_next (fuel : Nat) (prev : ThreadId) : removeLoop thread fuel (.next prev) h =
    (listRemoveAfter h.links thread fuel prev).map fun next => h.relink x next (h.head x) := by
  induction fuel generalizing prev with
  | zero => rfl
  | succ fuel ih =>
      rw [removeLoop, listRemoveAfter]
      show (match h.links prev with | none => _ | some node => _) = _
      cases h.links prev with
      | none =>
          rw [Option.map_some, Heap.relink_same]
      | some node =>
          dsimp only
          split
          · rw [Option.map_some]
            exact congrArg some (Heap.setNext_eq prev _)
          · exact ih node

theorem listRemove_eq (fuel : Nat) : listRemove (fuel + 1) x thread h =
    (Kiznix.listRemove fuel h.links (h.head x) thread).map fun r => h.relink x r.1 r.2 := by
  unfold listRemove Kiznix.listRemove
  rw [removeLoop]
  show (match h.head x with | none => _ | some node => _) = _
  cases hhead : h.head x with
  | none =>
      dsimp only
      rw [Option.map_some, ← hhead, Heap.relink_same]
  | some first =>
      dsimp only
      split
      · rfl
      · rw [removeLoop_next (x := x), Option.map_map, hhead]
        rfl

theorem listRemove_absent {next : Links} {head : Option ThreadId} (hlist : Linked next head xs) (hthread : thread ∉ xs)
    (hfuel : xs.length ≤ fuel) : Kiznix.listRemove fuel next head thread = some (next, head) := by
  cases xs with
  | nil =>
      obtain rfl : head = none := hlist
      rfl
  | cons first rest =>
      obtain rfl : head = some first := hlist.1
      obtain ⟨hne, hrest⟩ := not_or.mp fun hmem => hthread (List.mem_cons.mpr hmem)
      have hrun := listRemoveAfter_absent hlist hrest (show rest.length < fuel by rw [List.length_cons] at hfuel; omega)
      simp only [Kiznix.listRemove, Ne.symm hne, if_false, hrun, Option.map_some]

/-! ### The sequences of two lists -/

/-- The heads `x` and `y` denote the lists `xs` and `ys`, which have no node in common. -/
structure Denotes (h : Heap H) (x y : H) (xs ys : List ThreadId) : Prop where
  ne : x ≠ y
  first : Linked h.links (h.head x) xs
  second : Linked h.links (h.head y) ys
  disjoint : xs.Disjoint ys

/-- What an operation on the list `x` leaves alone, but for the `next` fields of `changed` and the head. -/
structure Frame (h h' : Heap H) (x : H) (ys changed : List ThreadId) : Prop where
  heads : ∀ z, z ≠ x → h'.head z = h.head z
  nodes : ∀ thread, thread ∉ changed → h'.node thread = h.node thread
  fields : ∀ thread, h'.node thread = { h.node thread with next := (h'.node thread).next }
  other : ∀ thread ∈ ys, h'.node thread = h.node thread

theorem Denotes.relink {next : Links} {head : Option ThreadId} {changed : List ThreadId} (hd : Denotes h x y xs ys)
    (hfirst : Linked next head xs') (hdisjoint : xs'.Disjoint ys) (hchanged : changed.Disjoint ys)
    (hnext : ∀ thread, thread ∉ changed → next thread = h.links thread) :
    Denotes (h.relink x next head) x y xs' ys ∧ Frame h (h.relink x next head) x ys changed := by
  have hnode : ∀ thread, thread ∉ changed → (h.relink x next head).node thread = h.node thread := by
    intro thread hthread
    show { h.node thread with next := next thread } = _
    rw [hnext thread hthread]
    rfl
  have hother : ∀ thread ∈ ys, thread ∉ changed := fun thread hys hmem => hchanged hmem hys
  refine ⟨⟨hd.ne, ?_, ?_, hdisjoint⟩, fun z hz => Function.update_of_ne hz _ _, hnode, fun _ => rfl,
    fun thread hys => hnode thread (hother thread hys)⟩
  · rw [show (h.relink x next head).head x = head from Function.update_self _ _ _]
    exact hfirst
  · rw [show (h.relink x next head).head y = h.head y from Function.update_of_ne hd.ne.symm _ _]
    exact hd.second.congr fun thread hys => hnext thread (hother thread hys)

section Denotes

variable (hd : Denotes h x y xs ys)

include hd

theorem Denotes.append (hxs : thread ∉ xs) (hys : thread ∉ ys) (hfuel : xs.length ≤ fuel) :
    ∃ h', listAppend fuel x thread h = some h' ∧ Denotes h' x y (xs ++ [thread]) ys ∧
      Frame h h' x ys (thread :: xs) := by
  obtain ⟨next', head', hrun, hlist, hsame⟩ := listAppend_spec hd.first hxs hfuel
  have hthread : [thread].Disjoint ys := List.singleton_disjoint.mpr hys
  refine ⟨h.relink x next' head', ?_, hd.relink hlist (List.disjoint_append_left.mpr ⟨hd.disjoint, hthread⟩)
    (List.disjoint_cons_left.mpr ⟨hys, hd.disjoint⟩) fun other hother => ?_⟩
  · rw [listAppend_eq, hrun, Option.map_some]
  · obtain ⟨hne, hmiss⟩ := not_or.mp fun hmem => hother (List.mem_cons.mpr hmem)
    exact hsame other hmiss hne

theorem Denotes.pop_nil (hxs : xs = []) : listPop x h = (none, h) := by
  subst hxs
  have hhead : h.head x = none := hd.first
  unfold listPop
  rw [hhead]

theorem Denotes.pop_cons {rest : List ThreadId} (hxs : xs = thread :: rest) :
    ∃ h', listPop x h = (some thread, h') ∧ (h'.node thread).next = none ∧ Denotes h' x y rest ys ∧
      Frame h h' x ys [thread] := by
  subst hxs
  obtain ⟨hthread, hrest⟩ := List.disjoint_cons_left.mp hd.disjoint
  obtain ⟨next', head', hrun, hlist, hsame⟩ := listPop_cons hd.first
  refine ⟨h.relink x next' head', ?_, ?_, hd.relink hlist hrest (List.singleton_disjoint.mpr hthread)
    fun other hother => hsame other fun heq => hother (List.mem_singleton.mpr heq)⟩
  · rw [listPop_eq, hrun]
  · have hnext : Function.update h.links thread none = next' := by
      rw [show h.head x = some thread from hd.first.1] at hrun
      exact (Prod.mk.inj (Prod.mk.inj hrun).2).1
    show next' thread = none
    rw [← hnext, Function.update_self]

theorem Denotes.remove (thread : ThreadId) (hfuel : xs.length < fuel) :
    ∃ h', listRemove fuel x thread h = some h' ∧ Denotes h' x y (xs.erase thread) ys ∧ Frame h h' x ys xs ∧
      (thread ∉ xs → h' = h) := by
  obtain ⟨fuel, rfl⟩ : ∃ n, fuel = n + 1 := ⟨fuel - 1, by omega⟩
  obtain ⟨next', head', hrun, hlist, hsame⟩ := listRemove_spec thread hd.first (Nat.le_of_lt_succ hfuel)
  have hdisjoint : (xs.erase thread).Disjoint ys := fun other hmem => hd.disjoint (List.mem_of_mem_erase hmem)
  obtain ⟨hdenotes, hframe⟩ := hd.relink hlist hdisjoint hd.disjoint hsame
  refine ⟨h.relink x next' head', ?_, hdenotes, hframe, fun habsent => ?_⟩
  · rw [listRemove_eq, hrun, Option.map_some]
  · rw [listRemove_absent hd.first habsent (Nat.le_of_lt_succ hfuel)] at hrun
    obtain ⟨rfl, rfl⟩ := Prod.mk.inj (Option.some.inj hrun)
    exact Heap.relink_same

end Denotes

/-- The helpers compute append, pop and remove on the sequence, and leave the other list alone. -/
theorem list_helpers_refine (hd : Denotes h x y xs ys) (hfuel : xs.length < fuel) :
    (∀ thread, thread ∉ xs → thread ∉ ys → ∃ h', listAppend fuel x thread h = some h' ∧
      Denotes h' x y (xs ++ [thread]) ys ∧ Frame h h' x ys (thread :: xs)) ∧
    (xs = [] → listPop x h = (none, h)) ∧
    (∀ thread rest, xs = thread :: rest → ∃ h', listPop x h = (some thread, h') ∧
      (h'.node thread).next = none ∧ Denotes h' x y rest ys ∧ Frame h h' x ys [thread]) ∧
    ∀ thread, ∃ h', listRemove fuel x thread h = some h' ∧ Denotes h' x y (xs.erase thread) ys ∧
      Frame h h' x ys xs ∧ (thread ∉ xs → h' = h) :=
  ⟨fun _ hxs hys => hd.append hxs hys (Nat.le_of_lt hfuel), hd.pop_nil, fun _ _ => hd.pop_cons,
    fun thread => hd.remove thread hfuel⟩

/-- Threads 1 and 2 are in one list, thread 3 in the other. -/
def twoLists : Heap Bool where
  node thread := ⟨.ready, 0, 0, 0, if thread = 1 then some 2 else none, 0⟩
  head x := if x then some 3 else some 1

theorem twoLists_denotes : Denotes twoLists false true [1, 2] [3] :=
  ⟨by decide, ⟨rfl, rfl, rfl⟩, ⟨rfl, rfl⟩, List.disjoint_singleton.mpr (by decide)⟩

/-- The last node is removed. -/
theorem list_helpers_refine_two : Denotes twoLists false true [1, 2] [3] ∧
    ∃ h', listRemove 3 false 2 twoLists = some h' ∧ Denotes h' false true [1] [3] := by
  obtain ⟨-, -, -, hremove⟩ := list_helpers_refine twoLists_denotes (show [1, 2].length < 3 by decide)
  obtain ⟨h', hrun, hdenotes, -⟩ := hremove 2
  exact ⟨twoLists_denotes, h', hrun, hdenotes⟩

end Kiznix.ThreadList
