import Kiznix.MemHeap
import Kiznix.MutualExclusion
import Kiznix.RunLog

/-! `pmm_alloc_page` and `vmm_alloc` access by access. Neither takes a lock: the timer may switch to another thread
between any two accesses to their variables. -/

namespace Kiznix.Preempt

open Memory RunLog

/-- The variables of the two allocators. -/
structure Shared where
  pmmStackTop : Nat
  /-- The words of the free-page stack by address. -/
  stackWord : Nat → Nat
  sFreeMemory : Nat → FreeMemory
  sFreeMemoryCount : Nat
  sFreeMemoryCurrent : Nat
  pmmFreeMemory : Nat
  nextAlloc : Nat

def Shared.setStart (v : Shared) (i start : Nat) : Shared :=
  { v with sFreeMemory := Function.update v.sFreeMemory i ⟨start, (v.sFreeMemory i).stop⟩ }

/-- Where a call of `pmm_alloc_page` is, with what it has read: its next access. -/
inductive AllocPage where
  /-- `pmm_stack_top != pmm_stack_base` -/
  | compareTop
  /-- `--pmm_stack_top` -/
  | loadTop
  | storeTop (top : Nat)
  /-- `page = *pmm_stack_top` -/
  | loadPage
  /-- `IS_PAGE_ALIGNED(pmm_stack_top)` -/
  | testTop (page : Nat)
  /-- `vmm_unmap_page(pmm_stack_top)` -/
  | unmap (page : Nat)
  /-- `pmm_free_memory -= PAGE_SIZE` -/
  | loadFree (page : Nat)
  | storeFree (page free : Nat)
  /-- `s_free_memory_current != s_free_memory_count` -/
  | compareCurrent
  /-- `entry = &s_free_memory[s_free_memory_current]` -/
  | loadEntry
  /-- `entry->start != entry->end` -/
  | compareStart (i : Nat)
  /-- `page = entry->start` -/
  | loadStartPage (i : Nat)
  /-- `entry->start += PAGE_SIZE` -/
  | loadStart (i page : Nat)
  | storeStart (i page start : Nat)
  /-- `++s_free_memory_current` -/
  | loadCurrent
  | storeCurrent (i : Nat)
  deriving DecidableEq

namespace AllocPage

/-- One access. The call goes on, or returns a page; there is no step when the kernel stops. -/
def step (b : Build) (v : Shared) : AllocPage → Option (Shared × (AllocPage ⊕ Nat))
  | compareTop => some (v, .inl (if v.pmmStackTop ≠ b.pmmStackVma then loadTop else compareCurrent))
  | loadTop => some (v, .inl (storeTop v.pmmStackTop))
  | storeTop top => some ({ v with pmmStackTop := top - b.entrySize }, .inl loadPage)
  | loadPage => some (v, .inl (testTop (v.stackWord v.pmmStackTop)))
  | testTop page => some (v, .inl (if v.pmmStackTop % pageSize = 0 then unmap page else loadFree page))
  | unmap page => some (v, .inl (loadFree page))
  | loadFree page => some (v, .inl (storeFree page v.pmmFreeMemory))
  | storeFree page free => some ({ v with pmmFreeMemory := sub64 free pageSize }, .inr page)
  | compareCurrent => if v.sFreeMemoryCurrent ≠ v.sFreeMemoryCount then some (v, .inl loadEntry) else none
  | loadEntry => some (v, .inl (compareStart v.sFreeMemoryCurrent))
  | compareStart i =>
      some (v, .inl (if (v.sFreeMemory i).start ≠ (v.sFreeMemory i).stop then loadStartPage i else loadCurrent))
  | loadStartPage i => some (v, .inl (loadStart i (v.sFreeMemory i).start))
  | loadStart i page => some (v, .inl (storeStart i page (v.sFreeMemory i).start))
  | storeStart i page start =>
      some (v.setStart i ((pageSize + start) % 2 ^ b.physBits), .inl (loadFree page))
  | loadCurrent => some (v, .inl (storeCurrent v.sFreeMemoryCurrent))
  | storeCurrent i => some ({ v with sFreeMemoryCurrent := i + 1 }, .inl compareCurrent)

/-- A call that nothing interrupts, within `n` accesses. -/
def run (b : Build) : Nat → Shared → AllocPage → Option (Shared × Nat)
  | 0, _, _ => none
  | n + 1, v, pc =>
      match pc.step b v with
      | none => none
      | some (v', .inr page) => some (v', page)
      | some (v', .inl pc') => run b n v' pc'

end AllocPage

/-- Where a call of `vmm_alloc` is; its region is from `start` to `stop`, the loop at `p`. -/
inductive VmmAlloc where
  /-- `begin = next_alloc` -/
  | loadBegin
  /-- `i1 = next_alloc >> 12` -/
  | loadIndex (start p stop : Nat)
  /-- `vmm_page_mappings_1[i1] = PAGE_ALLOCATED` -/
  | mark (start p stop i1 : Nat)
  /-- `vmm_invalidate(next_alloc)` -/
  | invalidate (start p stop : Nat)
  /-- `next_alloc += PAGE_SIZE` -/
  | loadNext (start p stop : Nat)
  | storeNext (start p stop next : Nat)
  deriving DecidableEq

namespace VmmAlloc

/-- The test of the loop. -/
def loop (start p stop : Nat) : VmmAlloc ⊕ Nat := if p ≠ stop then .inl (loadIndex start p stop) else .inr start

/-- One access in a call for `length` bytes. -/
def step (b : Build) (length : Nat) (v : Shared) : VmmAlloc → Shared × (VmmAlloc ⊕ Nat)
  | loadBegin =>
      (v, loop v.nextAlloc v.nextAlloc ((v.nextAlloc + pageAlignUp b.wordBits length) % 2 ^ b.wordBits))
  | loadIndex start p stop => (v, .inl (mark start p stop ((v.nextAlloc >>> 12) &&& b.pageMask)))
  | mark start p stop _ => (v, .inl (invalidate start p stop))
  | invalidate start p stop => (v, .inl (loadNext start p stop))
  | loadNext start p stop => (v, .inl (storeNext start p stop v.nextAlloc))
  | storeNext start p stop next =>
      ({ v with nextAlloc := (pageSize + next) % 2 ^ b.wordBits }, loop start ((p + pageSize) % 2 ^ b.wordBits) stop)

end VmmAlloc

/-! ### Threads -/

inductive Activity where
  | other
  | allocPage (pc : AllocPage)
  | vmmAlloc (length : Nat) (pc : VmmAlloc)
  deriving DecidableEq

def Activity.InAllocPage : Activity → Prop
  | .allocPage _ => True
  | _ => False

def Activity.InVmmAlloc : Activity → Prop
  | .vmmAlloc _ _ => True
  | _ => False

instance : (x : Activity) → Decidable x.InAllocPage
  | .allocPage _ => isTrue trivial
  | .other | .vmmAlloc _ _ => isFalse id

instance : (x : Activity) → Decidable x.InVmmAlloc
  | .vmmAlloc _ _ => isTrue trivial
  | .other | .allocPage _ => isFalse id

structure State (T : Type) where
  shared : Shared
  activity : T → Activity

inductive Action (T : Type) where
  /-- A thread calls `pmm_alloc_page`. -/
  | enterPage (t : T)
  /-- Its next access in there. -/
  | page (t : T)
  /-- A page fault of a thread: the handler calls `pmm_alloc_page` with interrupts disabled, for `n` accesses. -/
  | fault (t : T) (n : Nat)
  /-- A thread calls `vmm_alloc`. -/
  | enterAlloc (t : T) (length : Nat)
  | alloc (t : T)

inductive Event (T : Type) where
  | pageReturned (t : T) (page : Nat)
  | regionReturned (t : T) (start length : Nat)

variable {T : Type} [DecidableEq T]

/-- Any thread may be the next to make an access. -/
def step (b : Build) (s : State T) : Action T → Option (State T × List (Event T))
  | .enterPage t =>
      match s.activity t with
      | .other => some ({ s with activity := Function.update s.activity t (.allocPage .compareTop) }, [])
      | _ => none
  | .page t =>
      match s.activity t with
      | .allocPage pc =>
          match pc.step b s.shared with
          | none => none
          | some (v, .inl pc') => some (⟨v, Function.update s.activity t (.allocPage pc')⟩, [])
          | some (v, .inr page) => some (⟨v, Function.update s.activity t .other⟩, [.pageReturned t page])
      | _ => none
  | .fault t n =>
      match s.activity t with
      | .allocPage _ => none
      | _ => (AllocPage.run b n s.shared .compareTop).map fun r => ({ s with shared := r.1 }, [.pageReturned t r.2])
  | .enterAlloc t length =>
      match s.activity t with
      | .other =>
          if length = 0 then none
          else some ({ s with activity := Function.update s.activity t (.vmmAlloc length .loadBegin) }, [])
      | _ => none
  | .alloc t =>
      match s.activity t with
      | .vmmAlloc length pc =>
          match pc.step b length s.shared with
          | (v, .inl pc') => some (⟨v, Function.update s.activity t (.vmmAlloc length pc')⟩, [])
          | (v, .inr start) =>
              some (⟨v, Function.update s.activity t .other⟩, [.regionReturned t start length])
      | _ => none

/-! ### What the allocators are to keep -/

namespace Shared

variable (b : Build) (v : Shared)

def stackCount : Nat := (v.pmmStackTop - b.pmmStackVma) / b.entrySize

def stackFrames : List Nat :=
  ((List.range (v.stackCount b)).map fun k => v.stackWord (b.slotVa k) / pageSize).reverse

def rangeFrames : List Nat :=
  (List.range' v.sFreeMemoryCurrent (v.sFreeMemoryCount - v.sFreeMemoryCurrent)).flatMap fun i =>
    (v.sFreeMemory i).frames b

/-- The frames that are free, the next one first. -/
def freeFrames : List Nat := v.stackFrames b ++ v.rangeFrames b

end Shared

/-- The frame that an event hands to a caller. -/
def Event.frame : Event T → Option Nat
  | .pageReturned _ page => some (page / pageSize)
  | .regionReturned _ _ _ => none

/-- The region that it hands to a caller, with its length. -/
def Event.region : Event T → Option (Nat × Nat)
  | .pageReturned _ _ => none
  | .regionReturned _ start length => some (start, length)

/-- Two regions have no address in common. -/
def Apart (x y : Nat × Nat) : Prop := x.1 + x.2 ≤ y.1 ∨ y.1 + y.2 ≤ x.1

instance : DecidableRel Apart := fun x y => inferInstanceAs (Decidable (x.1 + x.2 ≤ y.1 ∨ y.1 + y.2 ≤ x.1))

/-- No frame and no address is handed out twice, and the counter is right whenever no call of `pmm_alloc_page` is in
progress. -/
structure Correct (b : Build) (s : State T) (log : List (Event T)) : Prop where
  frames : (log.filterMap Event.frame).Nodup
  regions : (log.filterMap Event.region).Pairwise Apart
  counter : (∀ t, ¬ (s.activity t).InAllocPage) →
    s.shared.pmmFreeMemory = pageSize * (s.shared.freeFrames b).length

/-- `pmm_alloc_page` is not entered while another call of it is in progress, nor `vmm_alloc` while another call of
that is; and what `vmm_alloc` is asked for fits in the heap. -/
def Alone (b : Build) (s : State T) (_ : List (Event T)) : Action T → Prop
  | .enterPage _ | .fault _ _ => ∀ t, ¬ (s.activity t).InAllocPage
  | .enterAlloc _ length => (∀ t, ¬ (s.activity t).InVmmAlloc) ∧ s.shared.nextAlloc + length ≤ b.kernelHeapEnd
  | .page _ | .alloc _ => True

instance [Fintype T] (b : Build) (s : State T) (log : List (Event T)) :
    (a : Action T) → Decidable (Alone b s log a)
  | .enterPage _ | .fault _ _ => inferInstanceAs (Decidable (∀ t, ¬ (s.activity t).InAllocPage))
  | .enterAlloc _ length => inferInstanceAs
      (Decidable ((∀ t, ¬ (s.activity t).InVmmAlloc) ∧ s.shared.nextAlloc + length ≤ b.kernelHeapEnd))
  | .page _ | .alloc _ => isTrue trivial

/-- The variables of a machine, its ranges counted from the current one. -/
def sharedOf (b : Build) (s : Machine) : Shared where
  pmmStackTop := s.pmmStackTop
  stackWord va := s.mem ((s.translate b va).getD 0) (b.wordIndex va)
  sFreeMemory i := s.sFreeMemory.getD i ⟨0, 0⟩
  sFreeMemoryCount := s.sFreeMemory.length
  sFreeMemoryCurrent := 0
  pmmFreeMemory := s.pmmFreeMemory
  nextAlloc := s.nextAlloc

/-- All threads are outside the allocators. -/
def start (b : Build) (s : Machine) : State T := ⟨sharedOf b s, fun _ => .other⟩

/-! ### One call of `pmm_alloc_page` -/

variable {b : Build} {v v' : Shared} {F out pending : List Nat} {i k n page : Nat} {pc pc' : AllocPage}

/-- The frames that were free at first: those handed out since, one that a call has taken but not returned, and those
still free. -/
structure Frames (b : Build) (F out pending : List Nat) (v : Shared) : Prop where
  taken : F = out.reverse ++ (pending ++ v.freeFrames b)
  counter : v.pmmFreeMemory = pageSize * (pending ++ v.freeFrames b).length
  counter_lt : v.pmmFreeMemory < 2 ^ 64
  top : v.pmmStackTop = b.slotVa (v.stackCount b)
  ranges : ∀ i < v.sFreeMemoryCount, (v.sFreeMemory i).Valid b
  current_le : v.sFreeMemoryCurrent ≤ v.sFreeMemoryCount

/-- The call has got to the range `i`, the first that may have frames. -/
structure AtRange (b : Build) (F out : List Nat) (i : Nat) (v : Shared) : Prop where
  frames : Frames b F out [] v
  empty : v.pmmStackTop = b.pmmStackVma
  current : v.sFreeMemoryCurrent = i
  lt : i < v.sFreeMemoryCount

/-- What a call relies on before its next access, when it is the only one. -/
def AllocPage.Inv (b : Build) (F out : List Nat) (v : Shared) : AllocPage → Prop
  | compareTop => Frames b F out [] v
  | loadTop => Frames b F out [] v ∧ v.pmmStackTop ≠ b.pmmStackVma
  | storeTop top => Frames b F out [] v ∧ v.pmmStackTop ≠ b.pmmStackVma ∧ top = v.pmmStackTop
  | loadPage => Frames b F out [v.stackWord v.pmmStackTop / pageSize] v
  | testTop page | unmap page | loadFree page => Frames b F out [page / pageSize] v
  | storeFree page free => Frames b F out [page / pageSize] v ∧ free = v.pmmFreeMemory
  | compareCurrent => Frames b F out [] v ∧ v.pmmStackTop = b.pmmStackVma
  | loadEntry => AtRange b F out v.sFreeMemoryCurrent v
  | compareStart i => AtRange b F out i v
  | loadStartPage i => AtRange b F out i v ∧ (v.sFreeMemory i).start ≠ (v.sFreeMemory i).stop
  | loadStart i page =>
      AtRange b F out i v ∧ (v.sFreeMemory i).start ≠ (v.sFreeMemory i).stop ∧ page = (v.sFreeMemory i).start
  | storeStart i page start => AtRange b F out i v ∧ (v.sFreeMemory i).start ≠ (v.sFreeMemory i).stop ∧
      page = (v.sFreeMemory i).start ∧ start = (v.sFreeMemory i).start
  | loadCurrent => AtRange b F out v.sFreeMemoryCurrent v ∧
      (v.sFreeMemory v.sFreeMemoryCurrent).start = (v.sFreeMemory v.sFreeMemoryCurrent).stop
  | storeCurrent i => AtRange b F out i v ∧ (v.sFreeMemory i).start = (v.sFreeMemory i).stop

theorem Frames.pop (h : Frames b F out [] v) (hne : v.pmmStackTop ≠ b.pmmStackVma) :
    let v' := { v with pmmStackTop := v.pmmStackTop - b.entrySize }
    Frames b F out [v'.stackWord v'.pmmStackTop / pageSize] v' := by
  have htop := h.top
  obtain ⟨k, hk⟩ : ∃ k, v.stackCount b = k + 1 := by
    refine Nat.exists_eq_succ_of_ne_zero fun hzero => hne ?_
    rw [htop, hzero, Build.slotVa_zero]
  have htop' : v.pmmStackTop - b.entrySize = b.slotVa k := by
    rw [htop, hk, Build.slotVa_succ, Nat.add_sub_cancel]
  intro v'
  have hcount : v'.stackCount b = k := by
    show (v.pmmStackTop - b.entrySize - b.pmmStackVma) / b.entrySize = k
    rw [htop', Build.slotVa, Nat.add_sub_cancel_left, Nat.mul_div_cancel_left _ Build.entrySize_pos]
  have hfree : v.freeFrames b = v'.stackWord v'.pmmStackTop / pageSize :: v'.freeFrames b := by
    have hstack : v.stackFrames b = v'.stackWord v'.pmmStackTop / pageSize :: v'.stackFrames b := by
      rw [Shared.stackFrames, hk, List.range_succ, List.map_append, List.reverse_append, Shared.stackFrames, hcount]
      show v.stackWord (b.slotVa k) / pageSize :: _ = v.stackWord (v.pmmStackTop - b.entrySize) / pageSize :: _
      rw [htop']
      rfl
    rw [Shared.freeFrames, hstack]
    rfl
  refine ⟨?_, ?_, h.counter_lt, ?_, h.ranges, h.current_le⟩
  · rw [h.taken, hfree]
    rfl
  · show v.pmmFreeMemory = _
    rw [h.counter, hfree]
    rfl
  · show v.pmmStackTop - b.entrySize = _
    rw [hcount, htop']

/-- The frame that was taken is counted, and returned. -/
theorem Frames.count (h : Frames b F out [page] v) :
    Frames b F (page :: out) [] { v with pmmFreeMemory := sub64 v.pmmFreeMemory pageSize } := by
  obtain ⟨htaken, hcounter, hlt, htop, hranges, hcurrent⟩ := h
  have hsub : sub64 v.pmmFreeMemory pageSize = v.pmmFreeMemory - pageSize := by
    rw [List.length_append, List.length_singleton] at hcounter
    unfold sub64
    rw [pageSize] at hcounter ⊢
    omega
  refine ⟨?_, ?_, ?_, htop, hranges, hcurrent⟩
  · rw [htaken, List.reverse_cons, List.append_assoc]
    rfl
  · show sub64 v.pmmFreeMemory pageSize = pageSize * (v.freeFrames b).length
    rw [hsub, hcounter, List.length_append, List.length_singleton, Nat.mul_add, Nat.mul_one, Nat.add_sub_cancel_left]
  · show sub64 v.pmmFreeMemory pageSize < 2 ^ 64
    rw [hsub]
    exact (Nat.sub_le _ _).trans_lt hlt

theorem stackFrames_empty (h : v.pmmStackTop = b.pmmStackVma) : v.stackFrames b = [] := by
  rw [Shared.stackFrames, Shared.stackCount, h, Nat.sub_self, Nat.zero_div]
  rfl

theorem rangeFrames_eq (hcurrent : v.sFreeMemoryCurrent = i) (hlt : i < v.sFreeMemoryCount) :
    v.rangeFrames b = (v.sFreeMemory i).frames b ++
      (List.range' (i + 1) (v.sFreeMemoryCount - (i + 1))).flatMap fun i => (v.sFreeMemory i).frames b := by
  have hcount : v.sFreeMemoryCount - i = v.sFreeMemoryCount - (i + 1) + 1 := by omega
  rw [Shared.rangeFrames, hcurrent, hcount, List.range'_succ, List.flatMap_cons]

section AtRange

variable (h : AtRange b F out i v)

include h

/-- The next frame of the range is taken. -/
theorem AtRange.advance (hne : (v.sFreeMemory i).start ≠ (v.sFreeMemory i).stop) :
    Frames b F out [(v.sFreeMemory i).start / pageSize]
      (v.setStart i ((pageSize + (v.sFreeMemory i).start) % 2 ^ b.physBits)) := by
  obtain ⟨htaken, hcounter, hlt, htop, hranges, hcurrent⟩ := h.frames
  have hvalid := hranges i h.lt
  have hframes := hvalid.frames_eq hne
  have hadvance := hvalid.advance hne
  generalize (pageSize + (v.sFreeMemory i).start) % 2 ^ b.physBits = next at hframes hadvance ⊢
  have hother : ∀ j, j ≠ i → (v.setStart i next).sFreeMemory j = v.sFreeMemory j :=
    fun j hj => Function.update_of_ne hj _ _
  have hself : (v.setStart i next).sFreeMemory i = ⟨next, (v.sFreeMemory i).stop⟩ := Function.update_self _ _ _
  have hfree : v.freeFrames b = (v.sFreeMemory i).start / pageSize :: (v.setStart i next).freeFrames b := by
    -- The stack is empty, and the other ranges are as they were.
    have hempty : v.stackFrames b = [] := stackFrames_empty h.empty
    have hempty' : (v.setStart i next).stackFrames b = [] := stackFrames_empty h.empty
    have hrest : ((List.range' (i + 1) (v.sFreeMemoryCount - (i + 1))).flatMap fun j =>
        ((v.setStart i next).sFreeMemory j).frames b) =
        (List.range' (i + 1) (v.sFreeMemoryCount - (i + 1))).flatMap fun j => (v.sFreeMemory j).frames b := by
      refine List.flatMap_congr fun j hj => ?_
      have hle := (List.mem_range'_1.mp hj).1
      rw [hother j (by omega)]
    have hcurrent' : (v.setStart i next).sFreeMemoryCurrent = i := h.current
    have hlt' : i < (v.setStart i next).sFreeMemoryCount := h.lt
    rw [Shared.freeFrames, Shared.freeFrames, hempty, hempty', rangeFrames_eq h.current h.lt,
      rangeFrames_eq hcurrent' hlt', hself, hframes]
    exact congrArg (_ :: _ ++ ·) hrest.symm
  refine ⟨?_, ?_, hlt, htop, fun j hj => ?_, hcurrent⟩
  · rw [htaken, hfree]
    rfl
  · show v.pmmFreeMemory = _
    rw [hcounter, hfree]
    rfl
  · by_cases heq : j = i
    · subst heq
      rw [hself]
      exact hadvance
    · rw [hother j heq]
      exact hranges j hj

/-- The range has no frames left. -/
theorem AtRange.skip (heq : (v.sFreeMemory i).start = (v.sFreeMemory i).stop) :
    Frames b F out [] { v with sFreeMemoryCurrent := i + 1 } := by
  obtain ⟨htaken, hcounter, hlt, htop, hranges, hcurrent⟩ := h.frames
  have hfree : Shared.freeFrames b { v with sFreeMemoryCurrent := i + 1 } = v.freeFrames b := by
    rw [Shared.freeFrames, Shared.freeFrames, rangeFrames_eq h.current h.lt, FreeMemory.frames_of_eq heq]
    rfl
  refine ⟨?_, ?_, hlt, htop, hranges, h.lt⟩
  · rw [htaken, hfree]
  · refine hcounter.trans ?_
    rw [hfree]

end AtRange

/-- What the call has got to. -/
def AllocPage.After (b : Build) (F out : List Nat) (v : Shared) : AllocPage ⊕ Nat → Prop
  | .inl pc => pc.Inv b F out v
  | .inr page => Frames b F (page / pageSize :: out) [] v

theorem AllocPage.Inv.step {r : AllocPage ⊕ Nat} (h : pc.Inv b F out v) (hstep : pc.step b v = some (v', r)) :
    AllocPage.After b F out v' r := by
  cases pc with
  | compareTop =>
      obtain ⟨rfl, rfl⟩ := Prod.mk.inj (Option.some.inj hstep)
      by_cases htop : v.pmmStackTop = b.pmmStackVma
      · rw [if_neg (not_not.mpr htop)]
        exact ⟨h, htop⟩
      · rw [if_pos htop]
        exact ⟨h, htop⟩
  | loadTop =>
      obtain ⟨rfl, rfl⟩ := Prod.mk.inj (Option.some.inj hstep)
      exact ⟨h.1, h.2, rfl⟩
  | storeTop top =>
      obtain ⟨rfl, rfl⟩ := Prod.mk.inj (Option.some.inj hstep)
      obtain ⟨hframes, hne, rfl⟩ := h
      exact hframes.pop hne
  | loadPage =>
      obtain ⟨rfl, rfl⟩ := Prod.mk.inj (Option.some.inj hstep)
      exact h
  | testTop page =>
      obtain ⟨rfl, rfl⟩ := Prod.mk.inj (Option.some.inj hstep)
      split <;> exact h
  | unmap page =>
      obtain ⟨rfl, rfl⟩ := Prod.mk.inj (Option.some.inj hstep)
      exact h
  | loadFree page =>
      obtain ⟨rfl, rfl⟩ := Prod.mk.inj (Option.some.inj hstep)
      exact ⟨h, rfl⟩
  | storeFree page free =>
      obtain ⟨rfl, rfl⟩ := Prod.mk.inj (Option.some.inj hstep)
      obtain ⟨hframes, rfl⟩ := h
      exact hframes.count
  | compareCurrent =>
      obtain ⟨hframes, hempty⟩ := h
      have hle := hframes.current_le
      rw [AllocPage.step] at hstep
      split at hstep
      · obtain ⟨rfl, rfl⟩ := Prod.mk.inj (Option.some.inj hstep)
        exact ⟨hframes, hempty, rfl, by omega⟩
      · cases hstep
  | loadEntry =>
      obtain ⟨rfl, rfl⟩ := Prod.mk.inj (Option.some.inj hstep)
      exact h
  | compareStart i =>
      obtain ⟨rfl, rfl⟩ := Prod.mk.inj (Option.some.inj hstep)
      by_cases heq : (v.sFreeMemory i).start = (v.sFreeMemory i).stop
      · rw [if_neg (not_not.mpr heq)]
        obtain rfl := h.current
        exact ⟨h, heq⟩
      · rw [if_pos heq]
        exact ⟨h, heq⟩
  | loadStartPage i =>
      obtain ⟨rfl, rfl⟩ := Prod.mk.inj (Option.some.inj hstep)
      exact ⟨h.1, h.2, rfl⟩
  | loadStart i page =>
      obtain ⟨rfl, rfl⟩ := Prod.mk.inj (Option.some.inj hstep)
      exact ⟨h.1, h.2.1, h.2.2, rfl⟩
  | storeStart i page start =>
      obtain ⟨rfl, rfl⟩ := Prod.mk.inj (Option.some.inj hstep)
      obtain ⟨hrange, hne, rfl, rfl⟩ := h
      exact hrange.advance hne
  | loadCurrent =>
      obtain ⟨rfl, rfl⟩ := Prod.mk.inj (Option.some.inj hstep)
      exact h
  | storeCurrent i =>
      obtain ⟨rfl, rfl⟩ := Prod.mk.inj (Option.some.inj hstep)
      exact ⟨h.1.skip h.2, h.1.empty⟩

theorem AllocPage.Inv.run (h : pc.Inv b F out v) (hrun : pc.run b n v = some (v', page)) :
    Frames b F (page / pageSize :: out) [] v' := by
  induction n generalizing pc v with
  | zero => cases hrun
  | succ n ih =>
      rw [AllocPage.run] at hrun
      split at hrun
      · cases hrun
      · obtain ⟨rfl, rfl⟩ := Prod.mk.inj (Option.some.inj hrun)
        exact h.step ‹_›
      · rename_i v₁ pc₁ hstep
        have hnext : pc₁.Inv b F out v₁ := h.step hstep
        exact ih hnext hrun

/-- `pmm_alloc_page` has nothing to do with `next_alloc`. -/
theorem AllocPage.step_nextAlloc {r : AllocPage ⊕ Nat} (hstep : pc.step b v = some (v', r)) :
    v'.nextAlloc = v.nextAlloc := by
  cases pc with
  | compareCurrent =>
      rw [AllocPage.step] at hstep
      split at hstep
      · obtain ⟨rfl, -⟩ := Prod.mk.inj (Option.some.inj hstep)
        rfl
      · cases hstep
  | _ =>
      obtain ⟨rfl, -⟩ := Prod.mk.inj (Option.some.inj hstep)
      rfl

theorem AllocPage.run_nextAlloc (hrun : pc.run b n v = some (v', page)) : v'.nextAlloc = v.nextAlloc := by
  induction n generalizing pc v with
  | zero => cases hrun
  | succ n ih =>
      rw [AllocPage.run] at hrun
      split at hrun
      · cases hrun
      · obtain ⟨rfl, rfl⟩ := Prod.mk.inj (Option.some.inj hrun)
        exact AllocPage.step_nextAlloc ‹_›
      · exact (ih hrun).trans (AllocPage.step_nextAlloc ‹_›)

/-! ### One call of `vmm_alloc` -/

variable {regions : List (Nat × Nat)} {base length : Nat}

/-- The regions handed out are below `base`, where the next one begins. -/
structure Regions (b : Build) (regions : List (Nat × Nat)) (base : Nat) : Prop where
  apart : regions.Pairwise Apart
  below : ∀ r ∈ regions, r.1 + r.2 ≤ base
  aligned : base % pageSize = 0

theorem Regions.cons {stop : Nat} (h : Regions b regions base) (hfits : base + length ≤ stop)
    (hstop : stop % pageSize = 0) : Regions b ((base, length) :: regions) stop := by
  refine ⟨h.apart.cons fun r hr => Or.inr (h.below r hr), fun r hr => ?_, hstop⟩
  rcases List.mem_cons.mp hr with rfl | hr
  · exact hfits
  · have hle := h.below r hr
    omega

/-- A call for the region from `start` to `stop` has got to `p`. -/
structure InRegion (b : Build) (regions : List (Nat × Nat)) (length start p stop : Nat) (v : Shared) : Prop where
  regions : Regions b regions start
  fits : start + length ≤ stop
  stop_le : stop ≤ b.kernelHeapEnd
  stop_aligned : stop % pageSize = 0
  next : v.nextAlloc = p
  aligned : p % pageSize = 0
  lt : p < stop

/-- What a call relies on before its next access, when it is the only one. -/
def VmmAlloc.Inv (b : Build) (regions : List (Nat × Nat)) (length : Nat) (v : Shared) : VmmAlloc → Prop
  | loadBegin => Regions b regions v.nextAlloc ∧ v.nextAlloc + length ≤ b.kernelHeapEnd
  | loadIndex start p stop | mark start p stop _ | invalidate start p stop | loadNext start p stop =>
      InRegion b regions length start p stop v
  | storeNext start p stop next => InRegion b regions length start p stop v ∧ next = p

def VmmAlloc.After (b : Build) (regions : List (Nat × Nat)) (length : Nat) (v : Shared) : VmmAlloc ⊕ Nat → Prop
  | .inl pc => pc.Inv b regions length v
  | .inr start => Regions b ((start, length) :: regions) v.nextAlloc

theorem VmmAlloc.after_loop {start p stop : Nat} (hregions : Regions b regions start) (hfits : start + length ≤ stop)
    (hle : stop ≤ b.kernelHeapEnd) (hstop : stop % pageSize = 0) (hnext : v.nextAlloc = p) (hp : p % pageSize = 0)
    (hps : p ≤ stop) : VmmAlloc.After b regions length v (VmmAlloc.loop start p stop) := by
  rw [VmmAlloc.loop]
  by_cases heq : p = stop
  · rw [if_neg (not_not.mpr heq)]
    show Regions b ((start, length) :: regions) v.nextAlloc
    rw [hnext, heq]
    exact hregions.cons hfits hstop
  · rw [if_pos heq]
    exact ⟨hregions, hfits, hle, hstop, hnext, hp, Nat.lt_of_le_of_ne hps heq⟩

theorem VmmAlloc.Inv.step {pc : VmmAlloc} (h : pc.Inv b regions length v) :
    VmmAlloc.After b regions length (pc.step b length v).1 (pc.step b length v).2 := by
  cases pc with
  | loadBegin =>
      obtain ⟨hregions, hfits⟩ := h
      have haligned := hregions.aligned
      have hstop : v.nextAlloc + length ≤ (v.nextAlloc + pageAlignUp b.wordBits length) % 2 ^ b.wordBits ∧
          (v.nextAlloc + pageAlignUp b.wordBits length) % 2 ^ b.wordBits ≤ b.kernelHeapEnd ∧
          (v.nextAlloc + pageAlignUp b.wordBits length) % 2 ^ b.wordBits % pageSize = 0 := by
        cases b <;> simp only [pageAlignUp, pageAlignDown, pageSize, Build.wordBits, Build.kernelHeapEnd] at * <;> omega
      exact after_loop hregions hstop.1 hstop.2.1 hstop.2.2 rfl haligned (by omega)
  | loadIndex start p stop => exact h
  | mark start p stop i1 => exact h
  | invalidate start p stop => exact h
  | loadNext start p stop => exact ⟨h, h.next⟩
  | storeNext start p stop next =>
      obtain ⟨hregion, rfl⟩ := h
      obtain ⟨hregions, hfits, hle, hstop, hnext, hp, hlt⟩ := hregion
      have hend := b.kernelHeapEnd_lt
      have hsum : (pageSize + next) % 2 ^ b.wordBits = (next + pageSize) % 2 ^ b.wordBits := by rw [Nat.add_comm]
      have hadvance : (next + pageSize) % 2 ^ b.wordBits = next + pageSize ∧ next + pageSize ≤ stop := by
        rw [pageSize] at *
        have hle' : next + 4096 ≤ stop := by omega
        exact ⟨Nat.mod_eq_of_lt (by omega), hle'⟩
      have hp' : (next + pageSize) % 2 ^ b.wordBits % pageSize = 0 := by
        rw [hadvance.1, Nat.add_mod_right, hp]
      exact after_loop hregions hfits hle hstop hsum hp' (hadvance.1.trans_le hadvance.2)

/-- `vmm_alloc` has nothing to do with the variables of `pmm_alloc_page`. -/
theorem VmmAlloc.step_shared (b : Build) (v : Shared) (length : Nat) (pc : VmmAlloc) :
    (pc.step b length v).1 = { v with nextAlloc := (pc.step b length v).1.nextAlloc } := by
  cases pc <;> rfl

/-! ### All threads -/

def Activity.PageInv (b : Build) (F out : List Nat) (v : Shared) : Activity → Prop
  | .allocPage pc => pc.Inv b F out v
  | _ => True

def Activity.AllocInv (b : Build) (regions : List (Nat × Nat)) (v : Shared) : Activity → Prop
  | .vmmAlloc length pc => pc.Inv b regions length v
  | _ => True

structure Inv (b : Build) (F : List Nat) (s : State T) (log : List (Event T)) : Prop where
  page : Sole Activity.InAllocPage (Frames b F (log.filterMap Event.frame) [] s.shared)
    (Activity.PageInv b F (log.filterMap Event.frame) s.shared) s.activity
  alloc : Sole Activity.InVmmAlloc (Regions b (log.filterMap Event.region) s.shared.nextAlloc)
    (Activity.AllocInv b (log.filterMap Event.region) s.shared) s.activity

theorem Frames.setNextAlloc (h : Frames b F out pending v) (next : Nat) :
    Frames b F out pending { v with nextAlloc := next } :=
  ⟨h.taken, h.counter, h.counter_lt, h.top, h.ranges, h.current_le⟩

theorem AtRange.setNextAlloc (h : AtRange b F out i v) (next : Nat) :
    AtRange b F out i { v with nextAlloc := next } :=
  ⟨h.frames.setNextAlloc next, h.empty, h.current, h.lt⟩

theorem AllocPage.Inv.setNextAlloc (h : pc.Inv b F out v) (next : Nat) :
    pc.Inv b F out { v with nextAlloc := next } := by
  cases pc with
  | compareTop | loadPage | testTop _ | unmap _ | loadFree _ => exact Frames.setNextAlloc h next
  | loadTop | storeTop _ | storeFree _ _ | compareCurrent => exact ⟨h.1.setNextAlloc next, h.2⟩
  | loadEntry | compareStart _ => exact AtRange.setNextAlloc h next
  | loadStartPage _ | loadStart _ _ | storeStart _ _ _ | loadCurrent | storeCurrent _ =>
      exact ⟨h.1.setNextAlloc next, h.2⟩

theorem InRegion.congr {start p stop : Nat} (h : InRegion b regions length start p stop v)
    (hnext : v'.nextAlloc = v.nextAlloc) : InRegion b regions length start p stop v' :=
  ⟨h.regions, h.fits, h.stop_le, h.stop_aligned, hnext.trans h.next, h.aligned, h.lt⟩

theorem VmmAlloc.Inv.congr {pc : VmmAlloc} (h : pc.Inv b regions length v) (hnext : v'.nextAlloc = v.nextAlloc) :
    pc.Inv b regions length v' := by
  cases pc with
  | loadBegin =>
      rw [VmmAlloc.Inv, hnext]
      exact h
  | loadIndex _ _ _ | mark _ _ _ _ | invalidate _ _ _ | loadNext _ _ _ => exact InRegion.congr h hnext
  | storeNext _ _ _ _ => exact ⟨h.1.congr hnext, h.2⟩

variable {s s' : State T} {log events : List (Event T)} {a : Action T} {t : T}

omit [DecidableEq T] in
/-- What is kept of `vmm_alloc` while the other variables change. -/
theorem Inv.alloc_congr (h : Inv b F s log) (hnext : v'.nextAlloc = s.shared.nextAlloc) :
    Sole Activity.InVmmAlloc (Regions b (log.filterMap Event.region) v'.nextAlloc)
      (Activity.AllocInv b (log.filterMap Event.region) v') s.activity := by
  refine h.alloc.mono (fun hregions => hnext ▸ hregions) fun x hx => ?_
  cases x with
  | vmmAlloc length pc => exact VmmAlloc.Inv.congr hx hnext
  | _ => trivial

omit [DecidableEq T] in
/-- What is kept of `pmm_alloc_page` while `next_alloc` changes. -/
theorem Inv.page_setNextAlloc (h : Inv b F s log) (next : Nat) :
    Sole Activity.InAllocPage (Frames b F (log.filterMap Event.frame) [] { s.shared with nextAlloc := next })
      (Activity.PageInv b F (log.filterMap Event.frame) { s.shared with nextAlloc := next }) s.activity := by
  refine h.page.mono (fun hframes => hframes.setNextAlloc next) fun x hx => ?_
  cases x with
  | allocPage pc => exact AllocPage.Inv.setNextAlloc hx next
  | _ => trivial

theorem Inv.page_step {pc : AllocPage} (h : Inv b F s log) (ht : s.activity t = .allocPage pc)
    (hstep : step b s (.page t) = some (s', events)) : Inv b F s' (events ++ log) := by
  have hin : (s.activity t).InAllocPage := by
    rw [ht]
    trivial
  have hout : ¬ (s.activity t).InVmmAlloc := by
    rw [ht]
    exact id
  have hpc : pc.Inv b F (log.filterMap Event.frame) s.shared := by
    have hbusy := h.page.busy t hin
    rwa [ht] at hbusy
  simp only [Preempt.step, ht] at hstep
  split at hstep
  · cases hstep
  · rename_i v₁ pc₁ hpcstep
    obtain ⟨rfl, rfl⟩ := Prod.mk.inj (Option.some.inj hstep)
    have hnext : v₁.nextAlloc = s.shared.nextAlloc := AllocPage.step_nextAlloc hpcstep
    have hpc₁ : pc₁.Inv b F (log.filterMap Event.frame) v₁ := hpc.step hpcstep
    exact ⟨Sole.of_only (h.page.only hin) trivial hpc₁, (h.alloc_congr hnext).outside hout id⟩
  · rename_i v₁ page hpcstep
    obtain ⟨rfl, rfl⟩ := Prod.mk.inj (Option.some.inj hstep)
    have hnext : v₁.nextAlloc = s.shared.nextAlloc := AllocPage.step_nextAlloc hpcstep
    have hframes : Frames b F (page / pageSize :: log.filterMap Event.frame) [] v₁ := hpc.step hpcstep
    exact ⟨h.page.leave hin id hframes, (h.alloc_congr hnext).outside hout id⟩

theorem Inv.alloc_step {pc : VmmAlloc} (h : Inv b F s log) (ht : s.activity t = .vmmAlloc length pc)
    (hstep : step b s (.alloc t) = some (s', events)) : Inv b F s' (events ++ log) := by
  have hin : (s.activity t).InVmmAlloc := by
    rw [ht]
    trivial
  have hout : ¬ (s.activity t).InAllocPage := by
    rw [ht]
    exact id
  have hpc : pc.Inv b (log.filterMap Event.region) length s.shared := by
    have hbusy := h.alloc.busy t hin
    rwa [ht] at hbusy
  have hafter := hpc.step
  have hshared := VmmAlloc.step_shared b s.shared length pc
  simp only [Preempt.step, ht] at hstep
  split at hstep
  · rename_i v₁ pc₁ hpcstep
    rw [hpcstep] at hafter hshared
    obtain ⟨rfl, rfl⟩ := Prod.mk.inj (Option.some.inj hstep)
    refine ⟨?_, Sole.of_only (h.alloc.only hin) trivial hafter⟩
    show Sole _ (Frames b F _ [] v₁) (Activity.PageInv b F _ v₁) _
    rw [show v₁ = _ from hshared]
    exact (h.page_setNextAlloc v₁.nextAlloc).outside hout id
  · rename_i v₁ start hpcstep
    rw [hpcstep] at hafter hshared
    obtain ⟨rfl, rfl⟩ := Prod.mk.inj (Option.some.inj hstep)
    refine ⟨?_, h.alloc.leave hin id hafter⟩
    show Sole _ (Frames b F _ [] v₁) (Activity.PageInv b F _ v₁) _
    rw [show v₁ = _ from hshared]
    exact (h.page_setNextAlloc v₁.nextAlloc).outside hout id

theorem Inv.step (h : Inv b F s log) (halone : Alone b s log a) (hstep : step b s a = some (s', events)) :
    Inv b F s' (events ++ log) := by
  cases a with
  | enterPage t =>
      rw [Preempt.step] at hstep
      split at hstep
      · rename_i ht
        obtain ⟨rfl, rfl⟩ := Prod.mk.inj (Option.some.inj hstep)
        have hout : ¬ (s.activity t).InVmmAlloc := by
          rw [ht]
          exact id
        have hframes := h.page.idle halone
        exact ⟨Sole.of_only (fun t' ht' => absurd ht' (halone t')) trivial hframes, h.alloc.outside hout id⟩
      · cases hstep
  | page t =>
      cases ht : s.activity t with
      | allocPage pc => exact h.page_step ht hstep
      | other | vmmAlloc _ _ =>
          simp only [Preempt.step, ht] at hstep
          cases hstep
  | fault t n =>
      rw [Preempt.step] at hstep
      split at hstep
      · cases hstep
      · obtain ⟨⟨v₁, page⟩, hrun, hr⟩ := Option.map_eq_some_iff.mp hstep
        obtain ⟨rfl, rfl⟩ := Prod.mk.inj hr
        have hpc : AllocPage.Inv b F (log.filterMap Event.frame) s.shared .compareTop := h.page.idle halone
        exact ⟨Sole.of_none halone (hpc.run hrun), h.alloc_congr (AllocPage.run_nextAlloc hrun)⟩
  | enterAlloc t length =>
      rw [Preempt.step] at hstep
      split at hstep
      · rename_i ht
        split at hstep
        · cases hstep
        · obtain ⟨rfl, rfl⟩ := Prod.mk.inj (Option.some.inj hstep)
          obtain ⟨hnone, hfits⟩ := halone
          have hout : ¬ (s.activity t).InAllocPage := by
            rw [ht]
            exact id
          have hregions := h.alloc.idle hnone
          exact ⟨h.page.outside hout id,
            Sole.of_only (fun t' ht' => absurd ht' (hnone t')) trivial ⟨hregions, hfits⟩⟩
      · cases hstep
  | alloc t =>
      cases ht : s.activity t with
      | vmmAlloc length pc => exact h.alloc_step ht hstep
      | other | allocPage _ =>
          simp only [Preempt.step, ht] at hstep
          cases hstep

/-- Runs in which the calls are one at a time. -/
theorem run_inv {s₀ : State T} (hstart : Inv b F s₀ []) (h : Reachable s₀ (step b) (Alone b) s log) :
    Inv b F s log :=
  h.invariant hstart fun _ _ _ _ _ _ hinv halone hstep => hinv.step halone hstep

theorem AllocPage.Inv.taken (h : pc.Inv b F out v) : ∃ rest, F = out.reverse ++ rest := by
  have hframes : ∃ pending, Frames b F out pending v := by
    cases pc with
    | compareTop | loadPage | testTop _ | unmap _ | loadFree _ => exact ⟨_, h⟩
    | loadTop | storeTop _ | storeFree _ _ | compareCurrent => exact ⟨_, h.1⟩
    | loadEntry | compareStart _ => exact ⟨_, h.frames⟩
    | loadStartPage _ | loadStart _ _ | storeStart _ _ _ | loadCurrent | storeCurrent _ => exact ⟨_, h.1.frames⟩
  obtain ⟨pending, hframes⟩ := hframes
  exact ⟨_, hframes.taken⟩

theorem VmmAlloc.Inv.apart {pc : VmmAlloc} (h : pc.Inv b regions length v) : regions.Pairwise Apart := by
  cases pc with
  | loadBegin => exact h.1.apart
  | loadIndex _ _ _ | mark _ _ _ _ | invalidate _ _ _ | loadNext _ _ _ => exact h.regions.apart
  | storeNext _ _ _ _ => exact h.1.regions.apart

omit [DecidableEq T] in
/-- The frames handed out are the first of those that were free. -/
theorem Inv.taken (h : Inv b F s log) : ∃ rest, F = (log.filterMap Event.frame).reverse ++ rest := by
  refine h.page.of_either (fun hframes => ⟨_, hframes.taken⟩) fun x hin hbusy => ?_
  cases x with
  | allocPage pc => exact AllocPage.Inv.taken hbusy
  | other | vmmAlloc _ _ => exact hin.elim

omit [DecidableEq T] in
theorem Inv.correct (h : Inv b F s log) (hnodup : F.Nodup) : Correct b s log := by
  refine ⟨?_, ?_, fun hnone => (h.page.idle hnone).counter⟩
  · obtain ⟨rest, htaken⟩ := h.taken
    rw [htaken] at hnodup
    exact List.nodup_reverse.mp hnodup.of_append_left
  · refine h.alloc.of_either (fun hregions => hregions.apart) fun x hin hbusy => ?_
    cases x with
    | vmmAlloc length pc => exact VmmAlloc.Inv.apart hbusy
    | other | allocPage _ => exact hin.elim

/-! ### From the boot on -/

theorem sharedOf_range (m : Machine) (hi : i < m.sFreeMemory.length) :
    (sharedOf b m).sFreeMemory i = m.sFreeMemory[i] := by
  show m.sFreeMemory.getD i ⟨0, 0⟩ = _
  rw [List.getD_eq_getElem?_getD, List.getElem?_eq_getElem hi, Option.getD_some]

theorem sharedOf_freeFrames (m : Machine) : (sharedOf b m).freeFrames b = m.freeFrames b := by
  have hranges : (List.range m.sFreeMemory.length).map (sharedOf b m).sFreeMemory = m.sFreeMemory := by
    refine List.ext_getElem (by rw [List.length_map, List.length_range]) fun i hi hi' => ?_
    rw [List.getElem_map, List.getElem_range, sharedOf_range m hi']
  have hrange : (sharedOf b m).rangeFrames b = m.rangeFrames b := by
    show (List.range' 0 m.sFreeMemory.length).flatMap (fun i => ((sharedOf b m).sFreeMemory i).frames b) = _
    rw [← List.range_eq_range', Machine.rangeFrames]
    conv_rhs => rw [← hranges, List.flatMap_map]
  have hstack : (sharedOf b m).stackFrames b = m.stackFrames b := by
    refine congrArg List.reverse (List.map_congr_left fun k _ => ?_)
    show m.mem _ (b.wordIndex (b.slotVa k)) / pageSize = m.slot b k / pageSize
    rw [Build.wordIndex_slotVa]
    rfl
  rw [Shared.freeFrames, hrange, hstack]
  rfl

variable {image : KernelImage b} {map : List MemoryMapEntry} {m : Machine} {c : Callers} {pool : List Nat}

omit [DecidableEq T] in
theorem start_inv (h : RunInv b pool c) : Inv b (c.machine.freeFrames b) (start (T := T) b c.machine) [] := by
  have hfree := sharedOf_freeFrames (b := b) c.machine
  refine ⟨Sole.of_none (fun _ => id) ⟨?_, ?_, h.accounted.2, h.inv.top, fun i hi => ?_, Nat.zero_le _⟩,
    Sole.of_none (fun _ => id) ⟨List.Pairwise.nil, nofun, h.nextAlloc_mod⟩⟩
  · exact hfree.symm
  · refine h.accounted.1.trans ?_
    rw [← hfree]
    rfl
  · show ((sharedOf b c.machine).sFreeMemory i).Valid b
    rw [sharedOf_range c.machine hi]
    exact h.inv.ranges _ (List.getElem_mem hi)

/-- From every state between operations, in every order of accesses in which the calls of `pmm_alloc_page` do not
overlap, nor those of `vmm_alloc`: the allocators are correct, and hand out no frame that was held before. -/
theorem allocators_correct (hbase : LowMap map) (hdisjoint : DisjointMap map) (hstart : Started b image map n m)
    (hrun : Run b (n + 2) (Permitted b) (Callers.start m) c)
    (h : Reachable (start b c.machine) (step b) (Alone b) s log) :
    Correct b s log ∧ ∀ f ∈ log.filterMap Event.frame, f ∉ c.held := by
  have hrunInv := hrun.runInv hbase hdisjoint hstart fun _ _ hop => hop
  have hinv := run_inv (start_inv hrunInv) h
  refine ⟨hinv.correct hrunInv.inv.free_nodup, fun f hf => hrunInv.inv.free_not_held ?_⟩
  obtain ⟨rest, htaken⟩ := hinv.taken
  rw [htaken]
  exact List.mem_append_left _ (List.mem_reverse.mpr hf)

/-- The next frame is that of a range. -/
structure Shared.RangeNext (b : Build) (v : Shared) : Prop where
  empty : v.pmmStackTop = b.pmmStackVma
  current : v.sFreeMemoryCurrent ≠ v.sFreeMemoryCount
  range : (v.sFreeMemory v.sFreeMemoryCurrent).start ≠ (v.sFreeMemory v.sFreeMemoryCurrent).stop

/-- The small machine at the start, when its free-page stack is empty. -/
theorem small_start : ∃ m, Started .x86_64 (smallImage .x86_64) smallMap 0 m ∧
    (sharedOf .x86_64 m).RangeNext .x86_64 ∧ (sharedOf .x86_64 m).sFreeMemory 0 = ⟨0x400000, 0x500000⟩ ∧
    m.sFreeMemory.length = 1 ∧ m.pmmFreeMemory = 0x100000 ∧ m.nextAlloc = Build.x86_64.kernelHeapBegin := by
  have hfree : (pmmInitState .x86_64 (smallImage .x86_64).imageEnd smallMap).pmmFreeMemory = 0x100000 := by
    rw [pmmInitState_recorded.free]
    decide
  have hranges : (pmmInitState .x86_64 (smallImage .x86_64).imageEnd smallMap).sFreeMemory =
      [⟨0x400000, 0x500000⟩] := by
    rw [pmmInitState_recorded.ranges]
    decide
  have hboot : AtKernelEarly .x86_64 (smallImage .x86_64) _ := bootMachine_atKernelEarly
  obtain ⟨m, hstart, htop, hmranges, hmfree⟩ := exists_started_of_free hboot (by rw [hfree]; decide) 0
  rw [hranges] at hmranges
  have hcount : m.sFreeMemory.length = 1 := by
    rw [hmranges]
    rfl
  have hrange : (sharedOf .x86_64 m).sFreeMemory 0 = ⟨0x400000, 0x500000⟩ := by
    rw [sharedOf_range m (by omega)]
    simp only [hmranges, List.getElem_cons_zero]
  refine ⟨m, hstart, ⟨htop, ?_, ?_⟩, hrange, hcount, hmfree.trans hfree,
    (started_state smallMap_low smallMap_disjoint hstart).nextAlloc⟩
  · show 0 ≠ m.sFreeMemory.length
    rw [hcount]
    decide
  · show ((sharedOf .x86_64 m).sFreeMemory 0).start ≠ ((sharedOf .x86_64 m).sFreeMemory 0).stop
    rw [hrange]
    decide

/-- Thread 0 faults in `vmm_alloc`. The timer switches to thread 1 in the middle of the call and back in the middle
of `pmm_alloc_page`; then thread 1 allocates a region as well. -/
def faultSchedule : List (Action (Fin 2)) :=
  .enterAlloc 0 4096 :: List.replicate 2 (.alloc 0) ++ .fault 0 9 :: .enterPage 1 :: List.replicate 5 (.page 1) ++
    List.replicate 4 (.alloc 0) ++ List.replicate 4 (.page 1) ++ .enterAlloc 1 4096 :: List.replicate 6 (.alloc 1)

/-- What thread 1 finds after the fault of thread 0 and its call. -/
structure Shared.NextAgain (b : Build) (v : Shared) : Prop where
  range : (pageSize + (v.sFreeMemory v.sFreeMemoryCurrent).start) % 2 ^ b.physBits ≠
    (v.sFreeMemory v.sFreeMemoryCurrent).stop
  next : v.nextAlloc ≠ (v.nextAlloc + pageSize) % 2 ^ b.wordBits
  again : (pageSize + v.nextAlloc) % 2 ^ b.wordBits ≠ (pageSize + v.nextAlloc + pageSize) % 2 ^ b.wordBits
  fits : v.nextAlloc + 4096 ≤ b.kernelHeapEnd
  fits_again : (pageSize + v.nextAlloc) % 2 ^ b.wordBits + 4096 ≤ b.kernelHeapEnd

theorem faultSchedule_runs (h : v.RangeNext b) (hagain : v.NextAgain b) :
    ∃ s, replay (step b) (Alone b) ⟨v, fun _ : Fin 2 => .other⟩ [] faultSchedule =
      some (s, [.regionReturned 1 ((pageSize + v.nextAlloc) % 2 ^ b.wordBits) 4096,
        .pageReturned 1 ((pageSize + (v.sFreeMemory v.sFreeMemoryCurrent).start) % 2 ^ b.physBits),
        .regionReturned 0 v.nextAlloc 4096, .pageReturned 0 (v.sFreeMemory v.sFreeMemoryCurrent).start]) := by
  have halign : pageAlignUp b.wordBits 4096 = pageSize := by cases b <;> rfl
  simp [faultSchedule, replay, step, Alone, VmmAlloc.step, VmmAlloc.loop, AllocPage.run, AllocPage.step,
    Activity.InAllocPage, Activity.InVmmAlloc, Shared.setStart, Fin.forall_fin_two, Function.update, List.replicate,
    halign, hagain.range, hagain.next, hagain.again, hagain.fits, hagain.fits_again, h.empty, h.current, h.range]

/-- Two threads allocate a region and a frame each. -/
theorem allocators_correct_fault : ∃ m, Started .x86_64 (smallImage .x86_64) smallMap 0 m ∧
    ∃ (s : State (Fin 2)) (log : List (Event (Fin 2))),
      Reachable (start .x86_64 m) (step .x86_64) (Alone .x86_64) s log ∧
      log = [.regionReturned 1 (Build.x86_64.kernelHeapBegin + 4096) 4096, .pageReturned 1 0x401000,
        .regionReturned 0 Build.x86_64.kernelHeapBegin 4096, .pageReturned 0 0x400000] ∧
      Correct .x86_64 s log := by
  obtain ⟨m, hstart, hnextRange, hrange, -, -, hnext⟩ := small_start
  have hnext' : (sharedOf .x86_64 m).nextAlloc = Build.x86_64.kernelHeapBegin := hnext
  have hcurrent : (sharedOf .x86_64 m).sFreeMemoryCurrent = 0 := rfl
  have hagain : (sharedOf .x86_64 m).NextAgain .x86_64 := by
    constructor
    · rw [hcurrent, hrange]
      decide
    all_goals
      rw [hnext']
      decide
  obtain ⟨s, hreplay⟩ := faultSchedule_runs hnextRange hagain
  rw [hnext', hcurrent, hrange] at hreplay
  have hreach := Reachable.init.replay hreplay
  exact ⟨m, hstart, s, _, hreach, rfl, (allocators_correct smallMap_low smallMap_disjoint hstart .start hreach).1⟩

/-! ### Calls that overlap -/

/-- The timer switches to thread 1 when thread 0 has read `entry->start`, back when thread 1 has advanced it, and
to thread 1 again when thread 0 has read the counter. -/
def pageSchedule : List (Action (Fin 2)) :=
  .enterPage 0 :: List.replicate 5 (.page 0) ++ .enterPage 1 :: List.replicate 7 (.page 1) ++
    List.replicate 3 (.page 0) ++ List.replicate 2 (.page 1) ++ [.page 0]

/-- Both threads read `next_alloc` before one of them advances it. -/
def allocSchedule : List (Action (Fin 2)) :=
  [.enterAlloc 0 4096, .enterAlloc 1 4096, .alloc 0, .alloc 1] ++ List.replicate 5 (.alloc 1) ++
    List.replicate 5 (.alloc 0)

def Shared.advance (b : Build) (v : Shared) : Shared :=
  v.setStart v.sFreeMemoryCurrent ((pageSize + (v.sFreeMemory v.sFreeMemoryCurrent).start) % 2 ^ b.physBits)

theorem both_other (activity : Fin 2 → Activity) :
    Function.update (Function.update activity 1 .other) 0 .other = fun _ => .other :=
  funext (Fin.forall_fin_two.mpr ⟨rfl, rfl⟩)

/-- The frame is returned twice, and counted once. -/
theorem pageSchedule_runs (h : v.RangeNext b) :
    replay (step b) (fun _ _ _ => True) ⟨v, fun _ : Fin 2 => .other⟩ [] pageSchedule =
      some (⟨{ (v.advance b).advance b with pmmFreeMemory := sub64 v.pmmFreeMemory pageSize }, fun _ => .other⟩,
        [.pageReturned 0 (v.sFreeMemory v.sFreeMemoryCurrent).start,
          .pageReturned 1 (v.sFreeMemory v.sFreeMemoryCurrent).start]) := by
  simp [pageSchedule, replay, step, AllocPage.step, Function.update, List.replicate, h.empty, h.current, h.range,
    Shared.advance, Shared.setStart, both_other]

/-- The region is returned twice. -/
theorem allocSchedule_runs (v : Shared) (log : List (Event (Fin 2)))
    (hne : v.nextAlloc ≠ (v.nextAlloc + pageSize) % 2 ^ b.wordBits) :
    ∃ next, replay (step b) (fun _ _ _ => True) ⟨v, fun _ : Fin 2 => .other⟩ log allocSchedule =
      some (⟨{ v with nextAlloc := next }, fun _ => .other⟩,
        .regionReturned 0 v.nextAlloc 4096 :: .regionReturned 1 v.nextAlloc 4096 :: log) := by
  have halign : pageAlignUp b.wordBits 4096 = pageSize := by cases b <;> rfl
  refine ⟨(pageSize + (pageSize + v.nextAlloc) % 2 ^ b.wordBits) % 2 ^ b.wordBits, ?_⟩
  simp [allocSchedule, replay, step, VmmAlloc.step, VmmAlloc.loop, Function.update, List.replicate, halign, hne,
    both_other]

/-- With one range and nothing on the stack. -/
theorem freeFrames_one (hempty : v.pmmStackTop = b.pmmStackVma) (hcurrent : v.sFreeMemoryCurrent = 0)
    (hcount : v.sFreeMemoryCount = 1) : v.freeFrames b = (v.sFreeMemory 0).frames b := by
  rw [Shared.freeFrames, stackFrames_empty hempty, rangeFrames_eq hcurrent (by omega), hcount, List.nil_append]
  exact List.append_nil _

/-- The variables after both schedules. -/
def Shared.overlapped (b : Build) (v : Shared) (next : Nat) : Shared :=
  { (v.advance b).advance b with pmmFreeMemory := sub64 v.pmmFreeMemory pageSize, nextAlloc := next }

theorem overlap_runs (h : v.RangeNext b) (hne : v.nextAlloc ≠ (v.nextAlloc + pageSize) % 2 ^ b.wordBits) :
    ∃ next, Reachable (State.mk v fun _ : Fin 2 => .other) (step b) (fun _ _ _ => True)
      ⟨v.overlapped b next, fun _ => .other⟩
      [.regionReturned 0 v.nextAlloc 4096, .regionReturned 1 v.nextAlloc 4096,
        .pageReturned 0 (v.sFreeMemory v.sFreeMemoryCurrent).start,
        .pageReturned 1 (v.sFreeMemory v.sFreeMemoryCurrent).start] := by
  have hpages := Reachable.init.replay (pageSchedule_runs h)
  obtain ⟨next, halloc⟩ := allocSchedule_runs
    { (v.advance b).advance b with pmmFreeMemory := sub64 v.pmmFreeMemory pageSize }
    [.pageReturned 0 (v.sFreeMemory v.sFreeMemoryCurrent).start,
      .pageReturned 1 (v.sFreeMemory v.sFreeMemoryCurrent).start] hne
  exact ⟨next, hpages.replay halloc⟩

/-- A range of which two frames were taken. -/
theorem advance_twice {start stop : Nat} (hrange : v.sFreeMemory v.sFreeMemoryCurrent = ⟨start, stop⟩) :
    ((v.advance b).advance b).sFreeMemory v.sFreeMemoryCurrent =
      ⟨(pageSize + (pageSize + start) % 2 ^ b.physBits) % 2 ^ b.physBits, stop⟩ := by
  have hfirst : (v.advance b).sFreeMemory v.sFreeMemoryCurrent = ⟨(pageSize + start) % 2 ^ b.physBits, stop⟩ := by
    rw [Shared.advance, hrange]
    show Function.update _ _ _ _ = _
    rw [Function.update_self, hrange]
  have hcurrent : (v.advance b).sFreeMemoryCurrent = v.sFreeMemoryCurrent := rfl
  rw [Shared.advance, hcurrent, hfirst]
  show Function.update _ _ _ _ = _
  rw [Function.update_self, hfirst]

theorem allocators_interleaved : ∃ m, Started .x86_64 (smallImage .x86_64) smallMap 0 m ∧
    ∃ (s : State (Fin 2)) (log : List (Event (Fin 2))),
      Reachable (start .x86_64 m) (step .x86_64) (fun _ _ _ => True) s log ∧ (∀ t, s.activity t = .other) ∧
      ¬ (log.filterMap Event.frame).Nodup ∧ ¬ (log.filterMap Event.region).Pairwise Apart ∧
      s.shared.pmmFreeMemory ≠ pageSize * (s.shared.freeFrames .x86_64).length := by
  obtain ⟨m, hstart, hnextRange, hrange, hcount, hfree, hnext⟩ := small_start
  have hnext' : (sharedOf .x86_64 m).nextAlloc = Build.x86_64.kernelHeapBegin := hnext
  have hcurrent : (sharedOf .x86_64 m).sFreeMemoryCurrent = 0 := rfl
  obtain ⟨next, hreach⟩ := overlap_runs hnextRange (by rw [hnext']; decide)
  have hrange' := advance_twice (b := .x86_64) hrange
  rw [hnext', hcurrent, hrange] at hreach
  refine ⟨m, hstart, _, _, hreach, fun _ => rfl, by decide, by decide, ?_⟩
  have hfrees : ((sharedOf .x86_64 m).overlapped .x86_64 next).freeFrames .x86_64 =
      FreeMemory.frames .x86_64 ⟨0x402000, 0x500000⟩ := by
    refine (freeFrames_one (v := (sharedOf .x86_64 m).overlapped .x86_64 next) hnextRange.empty hcurrent hcount).trans ?_
    exact congrArg (FreeMemory.frames .x86_64) hrange'
  have hlength : (FreeMemory.frames .x86_64 ⟨0x402000, 0x500000⟩).length = 254 := by
    rw [FreeMemory.frames, List.length_map, List.length_range]
    decide
  show sub64 m.pmmFreeMemory pageSize ≠ _
  rw [hfrees, hlength, hfree, sub64]
  decide

end Kiznix.Preempt
