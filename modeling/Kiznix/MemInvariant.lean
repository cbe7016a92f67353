import Kiznix.MemUpdate
import Mathlib.Data.List.Nodup

/-! The invariant of the allocator and the page tables. The free frames are those on the free-page stack,
last freed first, and those left in the ranges; the first slot of each stack page in use holds the frame
that the page is mapped to. -/

namespace Kiznix.Memory

open RadixTree

variable {b : Build} {pool held held' : List Nat} {s s' : Machine} {va f g t i x w j k n : Nat}

/-! ### Free frames -/

def FreeMemory.frames (b : Build) (r : FreeMemory) : List Nat :=
  (List.range (pagesBetween b.physBits r.start r.stop)).map (r.start / pageSize + ·)

/-- A range of whole pages. On i386 a range up to 4 GB has its `stop` wrapped to 0. -/
structure FreeMemory.Valid (b : Build) (r : FreeMemory) : Prop where
  start_aligned : r.start % pageSize = 0
  stop_aligned : r.stop % pageSize = 0
  start_lt : r.start < 2 ^ b.physBits
  stop_lt : r.stop < 2 ^ b.physBits
  ordered : r.start ≤ r.stop ∨ r.stop = 0

/-- The slots in use on the free-page stack. -/
def Machine.stackCount (b : Build) (s : Machine) : Nat := (s.pmmStackTop - b.pmmStackVma) / b.entrySize

def Machine.slot (b : Build) (s : Machine) (k : Nat) : Nat :=
  s.mem ((s.translate b (b.slotVa k)).getD 0) (k % b.entries)

def Machine.stackFrames (b : Build) (s : Machine) : List Nat :=
  ((List.range (s.stackCount b)).map fun k => s.slot b k / pageSize).reverse

def Machine.rangeFrames (b : Build) (s : Machine) : List Nat := s.sFreeMemory.flatMap (FreeMemory.frames b)

def Machine.freeFrames (b : Build) (s : Machine) : List Nat := s.stackFrames b ++ s.rangeFrames b

/-- `held` are frames that callers of `pmm_alloc_page` hold for themselves. -/
structure MemInv (b : Build) (pool held : List Nat) (s : Machine) : Prop where
  tree : s.Tree b
  top : s.pmmStackTop = b.slotVa (s.stackCount b)
  count_le : s.stackCount b ≤ b.stackPages * b.entries
  /-- The first slot of a stack page is the frame of the page. -/
  backed : ∀ j, j * b.entries < s.stackCount b →
    s.translate b (b.stackPage j) = some (s.slot b (j * b.entries) / pageSize)
  aligned : ∀ k, k < s.stackCount b → s.slot b k % pageSize = 0
  ranges : ∀ r ∈ s.sFreeMemory, r.Valid b
  partition : (s.freeFrames b ++ s.handedOut).Perm pool
  nodup : pool.Nodup
  tables_used : ∀ f, s.IsTable b f → f ∉ s.freeFrames b
  held_out : ∀ f ∈ held, f ∈ s.handedOut
  held_data : ∀ f ∈ held, ¬ s.IsTable b f

namespace Build

theorem entries_pos : 0 < b.entries := by
  cases b <;> decide

theorem entrySize_pos : 0 < b.entrySize := by
  cases b <;> decide

theorem translate_page : s.translate b (pageAlignDown va) = s.translate b va := by
  have htop : s.top b (pageAlignDown va) = s.top b va := by
    have hdiv : pageAlignDown va = va / 4096 * 4096 := rfl
    have hlow : pageAlignDown va < 2 ^ 32 ↔ va < 2 ^ 32 := by omega
    have hthird : pageAlignDown va / 2 ^ 30 = va / 2 ^ 30 := by omega
    have hcanonical : pageAlignDown va < 2 ^ 47 ∨ 2 ^ 64 - 2 ^ 47 ≤ pageAlignDown va ∧
        pageAlignDown va < 2 ^ 64 ↔ va < 2 ^ 47 ∨ 2 ^ 64 - 2 ^ 47 ≤ va ∧ va < 2 ^ 64 := by omega
    cases b <;> simp only [Machine.top, hlow, hthird, hcanonical]
  rw [Machine.translate, Machine.translate, path_page, htop]

theorem translate_of_page {va va' : Nat} (h : va' / pageSize = va / pageSize) :
    s.translate b va' = s.translate b va := by
  rw [← translate_page, pageAlignDown, h, ← pageAlignDown, translate_page]

theorem stackPage_page : b.slotVa k / pageSize = b.stackPage (k / b.entries) / pageSize := by
  have h := congrArg (· / pageSize) (b.pageAlignDown_slotVa k)
  simpa [pageAlignDown, pageSize] using h

theorem translate_slotVa : s.translate b (b.slotVa k) = s.translate b (b.stackPage (k / b.entries)) :=
  translate_of_page stackPage_page

theorem stackCount_slotVa (h : s.pmmStackTop = b.slotVa n) : s.stackCount b = n := by
  rw [Machine.stackCount, h, slotVa, Nat.add_sub_cancel_left, Nat.mul_div_cancel_left _ entrySize_pos]

theorem slotVa_zero : b.slotVa 0 = b.pmmStackVma := by
  rw [slotVa, Nat.mul_zero, Nat.add_zero]

theorem slotVa_succ : b.slotVa (k + 1) = b.slotVa k + b.entrySize := by
  rw [slotVa, slotVa, Nat.mul_succ, Nat.add_assoc]

end Build

theorem slot_mem_free (hk : k < s.stackCount b) : s.slot b k / pageSize ∈ s.freeFrames b := by
  refine List.mem_append_left _ (List.mem_reverse.mpr (List.mem_map.mpr ⟨k, ?_, rfl⟩))
  exact List.mem_range.mpr hk

namespace MemInv

variable (h : MemInv b pool held s)

include h

theorem nodup_frames : (s.freeFrames b ++ s.handedOut).Nodup := h.partition.nodup_iff.mpr h.nodup

theorem free_nodup : (s.freeFrames b).Nodup := h.nodup_frames.of_append_left

theorem free_not_out (hf : f ∈ s.freeFrames b) : f ∉ s.handedOut :=
  List.disjoint_of_nodup_append h.nodup_frames hf

theorem free_not_held (hf : f ∈ s.freeFrames b) : f ∉ held :=
  fun hmem => h.free_not_out hf (h.held_out f hmem)

/-- A slot in use stands in the frame of its page. -/
theorem slot_eq (hk : k < s.stackCount b) :
    ∃ f, s.translate b (b.stackPage (k / b.entries)) = some f ∧ s.slot b k = s.mem f (k % b.entries) ∧
      f = s.slot b (k / b.entries * b.entries) / pageSize := by
  have hbacked := h.backed (k / b.entries) ((Nat.div_mul_le_self k b.entries).trans_lt hk)
  refine ⟨_, hbacked, ?_, rfl⟩
  rw [Machine.slot, Build.translate_slotVa, hbacked, Option.getD_some]

theorem stackPage_free (hj : j * b.entries < s.stackCount b) (hf : s.translate b (b.stackPage j) = some f) :
    f ∈ s.freeFrames b := by
  rw [h.backed j hj] at hf
  rw [← Option.some.inj hf]
  exact slot_mem_free hj

theorem stackPage_lt (hj : j * b.entries < s.stackCount b) : j < b.stackPages :=
  Nat.lt_of_mul_lt_mul_right (hj.trans_le h.count_le)

/-- The slots are unchanged when the pages in use and their frames are. -/
theorem slot_congr (htranslate : s'.translate b (b.stackPage (k / b.entries)) =
      s.translate b (b.stackPage (k / b.entries)))
    (hmem : ∀ f, s.translate b (b.stackPage (k / b.entries)) = some f → s'.mem f = s.mem f)
    (hk : k < s.stackCount b) : s'.slot b k = s.slot b k := by
  obtain ⟨f, hf, hslot, -⟩ := h.slot_eq hk
  rw [hslot, Machine.slot, Build.translate_slotVa, htranslate, hf, Option.getD_some, hmem f hf]

/-- A step that leaves the allocator's variables and the free frames alone keeps the invariant. -/
theorem update (htree : s'.Tree b) (htop : s'.pmmStackTop = s.pmmStackTop)
    (hranges : s'.sFreeMemory = s.sFreeMemory) (hout : s'.handedOut = s.handedOut)
    (hstack : ∀ j, j * b.entries < s.stackCount b →
      s'.translate b (b.stackPage j) = s.translate b (b.stackPage j))
    (hmem : ∀ f ∈ s.freeFrames b, s'.mem f = s.mem f)
    (htables : ∀ f, s'.IsTable b f → f ∉ s.freeFrames b)
    (hheld : ∀ f ∈ held, ¬ s'.IsTable b f) :
    MemInv b pool held s' ∧ s'.freeFrames b = s.freeFrames b := by
  have hcount : s'.stackCount b = s.stackCount b := by
    rw [Machine.stackCount, htop, Machine.stackCount]
  have hslot : ∀ k, k < s.stackCount b → s'.slot b k = s.slot b k := by
    intro k hk
    have hj := (Nat.div_mul_le_self k b.entries).trans_lt hk
    exact h.slot_congr (hstack _ hj) (fun f hf => hmem f (h.stackPage_free hj hf)) hk
  have hfree : s'.freeFrames b = s.freeFrames b := by
    rw [Machine.freeFrames, Machine.stackFrames, hcount, Machine.rangeFrames, hranges, Machine.freeFrames,
      Machine.rangeFrames, Machine.stackFrames]
    congr 2
    exact List.map_congr_left fun k hk => by rw [hslot k (List.mem_range.mp hk)]
  refine ⟨⟨htree, ?_, ?_, fun j hj => ?_, fun k hk => ?_, ?_, ?_, h.nodup, ?_, ?_, hheld⟩, hfree⟩
  · rw [htop, hcount, h.top]
  · rw [hcount]
    exact h.count_le
  · rw [hcount] at hj
    rw [hstack j hj, hslot _ hj, h.backed j hj]
  · rw [hcount] at hk
    rw [hslot k hk]
    exact h.aligned k hk
  · rw [hranges]
    exact h.ranges
  · rw [hfree, hout]
    exact h.partition
  · rw [hfree]
    exact htables
  · rw [hout]
    exact h.held_out

/-- A step that takes the last slot off the stack. -/
theorem pop (hcount : s.stackCount b = k + 1) (htree : s'.Tree b) (htop : s'.pmmStackTop = b.slotVa k)
    (hranges : s'.sFreeMemory = s.sFreeMemory)
    (hout : s'.handedOut = s.slot b k / pageSize :: s.handedOut)
    (hstack : ∀ j, j * b.entries < k → s'.translate b (b.stackPage j) = s.translate b (b.stackPage j))
    (hmem : ∀ f ∈ s.freeFrames b, s'.mem f = s.mem f) (htables : ∀ f, s'.IsTable b f ↔ s.IsTable b f) :
    MemInv b pool held s' ∧ s.freeFrames b = s.slot b k / pageSize :: s'.freeFrames b := by
  have hcount' : s'.stackCount b = k := Build.stackCount_slotVa htop
  have hslot : ∀ i, i < k → s'.slot b i = s.slot b i := by
    intro i hi
    have hj := (Nat.div_mul_le_self i b.entries).trans_lt hi
    exact h.slot_congr (hstack _ hj)
      (fun f hf => hmem f (h.stackPage_free (by omega) hf)) (by omega)
  have hfree : s.freeFrames b = s.slot b k / pageSize :: s'.freeFrames b := by
    rw [Machine.freeFrames, Machine.stackFrames, hcount, List.range_succ, List.map_append,
      List.map_singleton, List.reverse_append, List.reverse_singleton, List.singleton_append,
      List.cons_append, Machine.freeFrames, Machine.stackFrames, hcount', Machine.rangeFrames,
      Machine.rangeFrames, hranges]
    congr 3
    exact List.map_congr_left fun i hi => by rw [hslot i (List.mem_range.mp hi)]
  refine ⟨⟨htree, ?_, ?_, fun j hj => ?_, fun i hi => ?_, ?_, ?_, h.nodup, fun f hf hmem' => ?_,
    fun f hf => ?_, fun f hf => ?_⟩, hfree⟩
  · rw [hcount', htop]
  · have hle := h.count_le
    rw [hcount']
    omega
  · rw [hcount'] at hj
    rw [hstack j hj, hslot _ hj, h.backed j (by omega)]
  · rw [hcount'] at hi
    rw [hslot i hi]
    exact h.aligned i (by omega)
  · rw [hranges]
    exact h.ranges
  · rw [hout]
    refine List.perm_middle.trans ?_
    rw [← List.cons_append, ← hfree]
    exact h.partition
  · rw [htables] at hf
    refine h.tables_used f hf ?_
    rw [hfree]
    exact List.mem_cons_of_mem _ hmem'
  · rw [hout]
    exact List.mem_cons_of_mem _ (h.held_out f hf)
  · rw [htables]
    exact h.held_data f hf

end MemInv

/-! ### Ranges -/

section Ranges

variable {r : FreeMemory} {page : Nat} {ranges : List FreeMemory}

theorem pagesBetween_self (bits start : Nat) : pagesBetween bits start start = 0 := by
  rw [pagesBetween, Nat.add_sub_cancel_left, Nat.mod_self, Nat.zero_div]

theorem FreeMemory.Valid.frames_eq (h : r.Valid b) (hne : r.start ≠ r.stop) :
    r.frames b = r.start / pageSize ::
      FreeMemory.frames b { r with start := (pageSize + r.start) % 2 ^ b.physBits } := by
  obtain ⟨hstart, hstop, hlt, hlt', hle⟩ := h
  rw [pageSize] at hstart hstop
  have hpages : pagesBetween b.physBits r.start r.stop =
      pagesBetween b.physBits ((pageSize + r.start) % 2 ^ b.physBits) r.stop + 1 := by
    cases b <;> simp only [pagesBetween, pageSize, Build.physBits] at * <;> omega
  rw [FreeMemory.frames, hpages, List.range_succ_eq_map, List.map_cons, List.map_map, Nat.add_zero,
    FreeMemory.frames]
  congr 1
  refine List.map_congr_left fun i hi => ?_
  have hi := List.mem_range.mp hi
  simp only [Function.comp_apply]
  cases b <;> simp only [pagesBetween, pageSize, Build.physBits] at * <;> omega

theorem FreeMemory.Valid.advance (h : r.Valid b) (hne : r.start ≠ r.stop) :
    FreeMemory.Valid b { r with start := (pageSize + r.start) % 2 ^ b.physBits } := by
  obtain ⟨hstart, hstop, hlt, hlt', hle⟩ := h
  rw [pageSize] at hstart hstop
  refine ⟨?_, hstop, Nat.mod_lt _ (Nat.two_pow_pos _), hlt', ?_⟩ <;>
    cases b <;> simp only [pageSize, Build.physBits] at * <;> omega

theorem FreeMemory.frames_of_eq (h : r.start = r.stop) : r.frames b = [] := by
  rw [FreeMemory.frames, h, pagesBetween_self]
  rfl

/-- The loop over the ranges takes the first frame that is left. -/
theorem takeFreeMemory_some (hvalid : ∀ r ∈ ranges, r.Valid b) {left : List FreeMemory}
    (h : takeFreeMemory b ranges = some (page, left)) :
    page % pageSize = 0 ∧ (∀ r ∈ left, r.Valid b) ∧
      ranges.flatMap (FreeMemory.frames b) = page / pageSize :: left.flatMap (FreeMemory.frames b) := by
  induction ranges with
  | nil => cases h
  | cons r ranges ih =>
      have hr := hvalid r List.mem_cons_self
      rw [takeFreeMemory] at h
      by_cases hne : r.start ≠ r.stop
      · rw [if_pos hne] at h
        obtain ⟨rfl, rfl⟩ := Prod.mk.inj (Option.some.inj h)
        refine ⟨hr.start_aligned, fun r' hr' => ?_, ?_⟩
        · rcases List.mem_cons.mp hr' with rfl | hr'
          · exact hr.advance hne
          · exact hvalid r' (List.mem_cons_of_mem _ hr')
        · rw [List.flatMap_cons, hr.frames_eq hne, List.cons_append, List.flatMap_cons]
      · rw [if_neg hne] at h
        rw [List.flatMap_cons, FreeMemory.frames_of_eq (not_not.mp hne), List.nil_append]
        exact ih (fun r' hr' => hvalid r' (List.mem_cons_of_mem _ hr')) h

theorem takeFreeMemory_none (h : takeFreeMemory b ranges = none) :
    ranges.flatMap (FreeMemory.frames b) = [] := by
  induction ranges with
  | nil => rfl
  | cons r ranges ih =>
      rw [takeFreeMemory] at h
      by_cases hne : r.start ≠ r.stop
      · rw [if_pos hne] at h
        cases h
      · rw [if_neg hne] at h
        rw [List.flatMap_cons, FreeMemory.frames_of_eq (not_not.mp hne), List.nil_append]
        exact ih h

end Ranges

end Kiznix.Memory
