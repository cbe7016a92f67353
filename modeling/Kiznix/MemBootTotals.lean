import Kiznix.MemBootMap
import Mathlib.Algebra.Order.BigOperators.Group.List
import Mathlib.Data.Finset.Card
import Mathlib.Order.Interval.Finset.Nat

/-! The whole loop of `pmm_init`, and the totals it leaves. A map of at most 256 entries does not fill
`s_free_memory`; the entries are disjoint, so that the sums of their parts stay below `2 ^ 64`. -/

namespace Kiznix.Memory

variable {b : Build} {map : List MemoryMapEntry} {e e' : MemoryMapEntry} {p : PmmInit}
  {kernelEnd kernelImageEnd : Nat}

/-- No byte belongs to both entries. -/
def MemoryMapEntry.Disjoint (e e' : MemoryMapEntry) : Prop :=
  ∀ x, e.base ≤ x → x < e.base + e.length → e'.base ≤ x → e'.base + e'.length ≤ x

/-- The ends of an entry are rounded without a wrap. -/
def MemoryMapEntry.Bounded (e : MemoryMapEntry) : Prop := e.base + e.length + 4095 < 2 ^ 64

/-- `PAGE_ALIGN_UP(kernel_image_end)`. -/
def kernelEndOf (b : Build) (kernelImageEnd : Nat) : Nat := pageAlignUp b.wordBits kernelImageEnd

/-! ### The loop -/

/-- The ranges that a map gives, in its order; the array has room for 1000. -/
def bootRanges (b : Build) (kernelEnd : Nat) (map : List MemoryMapEntry) : List (Nat × Nat) :=
  (map.flatMap (entryRange b kernelEnd)).take 1000

theorem entryRange_length : (entryRange b kernelEnd e).length ≤ 1 := by
  rw [entryRange]
  split
  · exact le_refl 1
  · exact Nat.zero_le 1

def rangeSize (r : Nat × Nat) : Nat := r.2 - r.1

/-- The ranges `rs` are stored and counted. -/
structure Recorded (b : Build) (rs : List (Nat × Nat)) (p : PmmInit) : Prop where
  ranges : p.sFreeMemory = rs.map (storedRange b)
  free : p.pmmFreeMemory = (rs.map rangeSize).sum % 2 ^ 64

theorem recorded_zero : Recorded b [] PmmInit.zero := ⟨rfl, rfl⟩

theorem Recorded.entry {rs : List (Nat × Nat)} (h : Recorded b rs p) :
    Recorded b (rs ++ entryRange b kernelEnd e) (p.entry b mem1GB kernelEnd e) := by
  have hlt : p.pmmFreeMemory < 2 ^ 64 := by
    rw [h.free]
    exact Nat.mod_lt _ (Nat.two_pow_pos 64)
  refine ⟨by rw [entry_ranges, h.ranges, List.map_append], ?_⟩
  rw [entry_free hlt, h.free, List.map_append, List.sum_append, Nat.mod_add_mod]
  congr 2
  rw [entryRange]
  split
  · rw [List.map_singleton, List.sum_singleton]
    rfl
  · rename_i hnot
    exact Nat.sub_eq_zero_of_le (Nat.le_of_not_lt hnot)

theorem Recorded.loop {rs : List (Nat × Nat)} (h : Recorded b rs p) (hrs : rs.length < 1000) :
    Recorded b ((rs ++ map.flatMap (entryRange b kernelEnd)).take 1000)
      (p.loop b mem1GB kernelEnd map) := by
  induction map generalizing p rs with
  | nil =>
      rw [PmmInit.loop, List.flatMap_nil, List.append_nil, List.take_of_length_le hrs.le]
      exact h
  | cons e map ih =>
      have hround : Recorded b (rs ++ entryRange b kernelEnd e) (p.entry b mem1GB kernelEnd e) := h.entry
      have hlength : (rs ++ entryRange b kernelEnd e).length ≤ 1000 := by
        have hle : (entryRange b kernelEnd e).length ≤ 1 := entryRange_length
        rw [List.length_append]
        omega
      have hcount : (p.entry b mem1GB kernelEnd e).sFreeMemory.length =
          (rs ++ entryRange b kernelEnd e).length := by
        rw [hround.ranges, List.length_map]
      rw [PmmInit.loop, List.flatMap_cons, ← List.append_assoc]
      by_cases hfull : (p.entry b mem1GB kernelEnd e).sFreeMemory.length = 1000
      · rw [if_pos hfull, List.take_append_of_le_length, List.take_of_length_le hlength]
        · exact hround
        · exact (hcount.symm.trans hfull).ge
      · rw [if_neg hfull]
        rw [hcount] at hfull
        exact ih hround (Nat.lt_of_le_of_ne hlength hfull)

/-- A map that leaves room in `s_free_memory` is read to its end. -/
theorem loop_eq_foldl (hroom : p.sFreeMemory.length + map.length < 1000) :
    p.loop b mem1GB kernelEnd map = map.foldl (PmmInit.entry b mem1GB kernelEnd) p := by
  induction map generalizing p with
  | nil => rfl
  | cons e map ih =>
      have hle : (p.entry b mem1GB kernelEnd e).sFreeMemory.length ≤ p.sFreeMemory.length + 1 := by
        have hle : (entryRange b kernelEnd e).length ≤ 1 := entryRange_length
        rw [entry_ranges, List.length_append, List.length_map]
        omega
      rw [List.length_cons] at hroom
      rw [PmmInit.loop, if_neg (by omega), List.foldl_cons]
      exact ih (by omega)

theorem foldl_system (hp : p.pmmSystemMemory < 2 ^ 64) :
    (map.foldl (PmmInit.entry b mem1GB kernelEnd) p).pmmSystemMemory =
      (p.pmmSystemMemory + (map.map (·.length)).sum) % 2 ^ 64 := by
  induction map generalizing p with
  | nil => exact (Nat.mod_eq_of_lt hp).symm
  | cons e map ih =>
      rw [List.foldl_cons, ih, entry_system, Nat.mod_add_mod, List.map_cons, List.sum_cons, Nat.add_assoc]
      rw [entry_system]
      exact Nat.mod_lt _ (Nat.two_pow_pos 64)

theorem foldl_unavailable (hp : p.pmmUnavailableMemory < 2 ^ 64) (hmap : ∀ e ∈ map, ¬ Inverted b e) :
    (map.foldl (PmmInit.entry b mem1GB kernelEnd) p).pmmUnavailableMemory =
      (p.pmmUnavailableMemory + (map.map (unavailableSize b)).sum) % 2 ^ 64 := by
  induction map generalizing p with
  | nil => exact (Nat.mod_eq_of_lt hp).symm
  | cons e map ih =>
      have hround : (p.entry b mem1GB kernelEnd e).pmmUnavailableMemory =
          (p.pmmUnavailableMemory + unavailableSize b e) % 2 ^ 64 :=
        entry_unavailable (hmap e List.mem_cons_self) hp
      rw [List.foldl_cons, ih _ fun e' he' => hmap e' (List.mem_cons_of_mem _ he'), hround, Nat.mod_add_mod,
        List.map_cons, List.sum_cons, Nat.add_assoc]
      rw [hround]
      exact Nat.mod_lt _ (Nat.two_pow_pos 64)

theorem foldl_subtractions :
    (∀ q ∈ (map.foldl (PmmInit.entry b mem1GB kernelEnd) p).subtractions, q.2 ≤ q.1) ↔
      (∀ q ∈ p.subtractions, q.2 ≤ q.1) ∧ ∀ e ∈ map, ¬ Inverted b e := by
  induction map generalizing p with
  | nil => exact (and_iff_left fun _ he => absurd he List.not_mem_nil).symm
  | cons e map ih => rw [List.foldl_cons, ih, entry_subtractions, List.forall_mem_cons, and_assoc]

/-! ### Disjoint entries -/

/-- Disjoint entries below `n` have at most `n` bytes. -/
theorem sum_length_le {n : Nat} (hbound : ∀ e ∈ map, e.base + e.length ≤ n)
    (hdisjoint : map.Pairwise MemoryMapEntry.Disjoint) : (map.map (·.length)).sum ≤ n := by
  have hbytes : ∃ bytes : Finset Nat, bytes.card = (map.map (·.length)).sum ∧
      ∀ x ∈ bytes, ∃ e ∈ map, e.base ≤ x ∧ x < e.base + e.length := by
    clear hbound
    induction map with
    | nil => exact ⟨∅, rfl, fun x hx => absurd hx (Finset.notMem_empty x)⟩
    | cons e map ih =>
        obtain ⟨hhead, htail⟩ := List.pairwise_cons.mp hdisjoint
        obtain ⟨bytes, hcard, hmem⟩ := ih htail
        have hnew : Disjoint (Finset.Ico e.base (e.base + e.length)) bytes := by
          refine Finset.disjoint_left.mpr fun x hx hin => ?_
          obtain ⟨hlow, hhigh⟩ := Finset.mem_Ico.mp hx
          obtain ⟨e', he', hlow', hhigh'⟩ := hmem x hin
          exact absurd (hhead e' he' x hlow hhigh hlow') (Nat.not_le.mpr hhigh')
        refine ⟨Finset.Ico e.base (e.base + e.length) ∪ bytes, ?_, fun x hx => ?_⟩
        · rw [Finset.card_union_of_disjoint hnew, Nat.card_Ico, hcard, Nat.add_sub_cancel_left,
            List.map_cons, List.sum_cons]
        · rcases Finset.mem_union.mp hx with hx | hx
          · exact ⟨e, List.mem_cons_self, Finset.mem_Ico.mp hx⟩
          · obtain ⟨e', he', hin⟩ := hmem x hx
            exact ⟨e', List.mem_cons_of_mem _ he', hin⟩
  obtain ⟨bytes, hcard, hmem⟩ := hbytes
  rw [← hcard, ← Finset.card_range n]
  refine Finset.card_le_card fun x hx => ?_
  obtain ⟨e, he, -, hhigh⟩ := hmem x hx
  exact Finset.mem_range.mpr (hhigh.trans_le (hbound e he))

/-! ### One entry -/

theorem pageAlignUp_of_lt {x : Nat} (hlt : x + 4095 < 2 ^ 64) : pageAlignUp 64 x = (x + 4095) / 4096 * 4096 := by
  rw [pageAlignUp, pageAlignDown, pageSize, Nat.mod_eq_of_lt (by omega)]
  rfl

/-- The parts of an entry that are free and that cannot be used are apart. -/
theorem entry_parts (he : e.Bounded) :
    ((entryRange b kernelEnd e).map rangeSize).sum + unavailableSize b e ≤ e.length := by
  rw [MemoryMapEntry.Bounded] at he
  have hup := pageAlignUp_of_lt (x := e.base) (by omega)
  have hstop : (e.base + e.length) % 2 ^ 64 = e.base + e.length := Nat.mod_eq_of_lt (by omega)
  have hdown : pageAlignDown (e.base + e.length) ≤ e.base + e.length := Nat.div_mul_le_self _ _
  have hpart : rangeStop b e - rangeStart kernelEnd e + unavailableSize b e ≤ e.length := by
    simp only [rangeStop, rangeStart, unavailableSize, hup, hstop]
    split <;> omega
  refine le_trans (Nat.add_le_add_right ?_ _) hpart
  rw [entryRange]
  split
  · exact le_refl _
  · exact Nat.zero_le _

/-- The bytes of an entry at or above 4 GB, on the build that cannot address them. -/
def bytesAbove (b : Build) (e : MemoryMapEntry) : Nat :=
  if b = .i386 then e.base + e.length - max e.base mem4GB else 0

theorem unavailableSize_le (he : e.Bounded) : unavailableSize b e ≤ bytesAbove b e := by
  rw [MemoryMapEntry.Bounded] at he
  have hup := pageAlignUp_of_lt (x := e.base) (by omega)
  have hstop : (e.base + e.length) % 2 ^ 64 = e.base + e.length := Nat.mod_eq_of_lt (by omega)
  have hdown : pageAlignDown (e.base + e.length) ≤ e.base + e.length := Nat.div_mul_le_self _ _
  rw [unavailableSize, bytesAbove, hup, hstop]
  split
  · omega
  · exact le_refl 0

theorem parts_sum (hmap : ∀ e ∈ map, e.Bounded) :
    ((map.flatMap (entryRange b kernelEnd)).map rangeSize).sum + (map.map (unavailableSize b)).sum ≤
      (map.map (·.length)).sum := by
  induction map with
  | nil => exact le_refl 0
  | cons e map ih =>
      have hparts : ((entryRange b kernelEnd e).map rangeSize).sum + unavailableSize b e ≤ e.length :=
        entry_parts (hmap e List.mem_cons_self)
      have hrest := ih fun e' he' => hmap e' (List.mem_cons_of_mem _ he')
      rw [List.flatMap_cons, List.map_append, List.sum_append, List.map_cons, List.sum_cons, List.map_cons,
        List.sum_cons]
      omega

theorem unavailable_sum (hmap : ∀ e ∈ map, e.Bounded) :
    (map.map (unavailableSize b)).sum ≤ (map.map (bytesAbove b)).sum :=
  List.sum_le_sum fun e he => unavailableSize_le (hmap e he)

/-! ### The totals -/

def FreeMemory.size (b : Build) (r : FreeMemory) : Nat := (r.stop + 2 ^ b.physBits - r.start) % 2 ^ b.physBits

theorem mem_entryRange {r : Nat × Nat} : r ∈ entryRange b kernelEnd e ↔
    rangeStart kernelEnd e < rangeStop b e ∧ r = (rangeStart kernelEnd e, rangeStop b e) := by
  rw [entryRange]
  split
  · rename_i hlt
    rw [List.mem_singleton]
    exact (and_iff_right hlt).symm
  · rename_i hnot
    exact ⟨fun hr => absurd hr List.not_mem_nil, fun hr => absurd hr.1 hnot⟩

theorem rangeStop_le : rangeStop b e ≤ 2 ^ b.physBits := by
  have hlt : rangeStop b e < 2 ^ 64 := rangeStop_lt
  cases b with
  | i386 => exact min_le_right _ _
  | pae => exact hlt.le
  | x86_64 => exact hlt.le

theorem rangeStart_pos : 0 < rangeStart kernelEnd e :=
  Nat.lt_of_lt_of_le (by decide : 0 < mem1GB) ((le_max_right _ _).trans (le_max_left _ _))

theorem storedRange_size {r : Nat × Nat} (hr : r ∈ entryRange b kernelEnd e) :
    (storedRange b r).size b = rangeSize r := by
  obtain ⟨hlt, rfl⟩ := mem_entryRange.mp hr
  have hstop : rangeStop b e ≤ 2 ^ b.physBits := rangeStop_le
  have hpos : 0 < rangeStart kernelEnd e := rangeStart_pos
  rw [storedRange, FreeMemory.size, rangeSize]
  cases b <;> simp only [Build.physBits] at * <;> omega

theorem bootRanges_of_small (hsize : map.length ≤ 256) :
    bootRanges b kernelEnd map = map.flatMap (entryRange b kernelEnd) := by
  have hlength : (map.flatMap (entryRange b kernelEnd)).length ≤ map.length := by
    clear hsize
    induction map with
    | nil => exact le_refl 0
    | cons e map ih =>
        have hle : (entryRange b kernelEnd e).length ≤ 1 := entryRange_length
        rw [List.flatMap_cons, List.length_append, List.length_cons]
        omega
  exact List.take_of_length_le (by omega)

theorem pmmInitState_recorded :
    Recorded b (bootRanges b (kernelEndOf b kernelImageEnd) map) (pmmInitState b kernelImageEnd map) := by
  have hloop : Recorded b (bootRanges b (kernelEndOf b kernelImageEnd) map)
      (PmmInit.zero.loop b mem1GB (kernelEndOf b kernelImageEnd) map) :=
    recorded_zero.loop (Nat.zero_lt_succ _)
  exact ⟨hloop.ranges, hloop.free⟩

/-- The counters over the natural numbers. -/
structure PmmInit.Totals (b : Build) (map : List MemoryMapEntry) (p : PmmInit) : Prop where
  /-- No subtraction is of a greater number. -/
  subtractions : ∀ q ∈ p.subtractions, q.2 ≤ q.1
  system : p.pmmSystemMemory = (map.map (·.length)).sum
  parts : p.pmmFreeMemory + p.pmmUnavailableMemory + p.pmmUsedMemory = p.pmmSystemMemory
  free : p.pmmFreeMemory = (p.sFreeMemory.map (FreeMemory.size b)).sum
  unavailable : p.pmmUnavailableMemory ≤ (map.map (bytesAbove b)).sum
  used : p.pmmUsedMemory ≤ p.pmmSystemMemory

/-- The totals are right unless, on i386, an entry above 4 GB is turned upside down by rounding. -/
theorem pmmInit_totals (b : Build) (kernelImageEnd : Nat) (map : List MemoryMapEntry)
    (hsize : map.length ≤ 256) (hbounded : ∀ e ∈ map, e.Bounded)
    (hdisjoint : map.Pairwise MemoryMapEntry.Disjoint) :
    (pmmInitState b kernelImageEnd map).Totals b map ↔ ∀ e ∈ map, ¬ Inverted b e := by
  set kernelEnd := kernelEndOf b kernelImageEnd with hkernel
  set p := map.foldl (PmmInit.entry b mem1GB kernelEnd) PmmInit.zero with hp
  have hstate : pmmInitState b kernelImageEnd map = p.used := by
    have hroom : PmmInit.zero.sFreeMemory.length + map.length < 1000 :=
      (Nat.zero_add _).trans_lt (hsize.trans_lt (by decide))
    exact congrArg PmmInit.used (loop_eq_foldl hroom)
  have hrecorded : Recorded b (map.flatMap (entryRange b kernelEnd)) (pmmInitState b kernelImageEnd map) := by
    rw [← bootRanges_of_small hsize]
    exact pmmInitState_recorded
  rw [hstate] at hrecorded ⊢
  have hparts : ((map.flatMap (entryRange b kernelEnd)).map rangeSize).sum +
      (map.map (unavailableSize b)).sum ≤ (map.map (·.length)).sum := parts_sum hbounded
  have htotal : (map.map (·.length)).sum < 2 ^ 64 := by
    refine Nat.lt_of_le_of_lt (sum_length_le (n := 2 ^ 64 - 1) (fun e he => ?_) hdisjoint) (by decide)
    have he := hbounded e he
    rw [MemoryMapEntry.Bounded] at he
    omega
  have hsystem : p.pmmSystemMemory = (map.map (·.length)).sum := by
    rw [hp, foldl_system (Nat.two_pow_pos 64)]
    exact (congrArg (· % 2 ^ 64) (Nat.zero_add _)).trans (Nat.mod_eq_of_lt htotal)
  have hfree : p.pmmFreeMemory = ((map.flatMap (entryRange b kernelEnd)).map rangeSize).sum :=
    hrecorded.free.trans (Nat.mod_eq_of_lt (by omega))
  constructor
  · intro h
    have hsub : ∀ q ∈ p.subtractions, q.2 ≤ q.1 :=
      fun q hq => h.subtractions q (List.mem_cons_of_mem _ (List.mem_cons_of_mem _ hq))
    exact (foldl_subtractions.mp hsub).2
  · intro hmap
    have hunavailable : p.pmmUnavailableMemory = (map.map (unavailableSize b)).sum := by
      rw [hp, foldl_unavailable (Nat.two_pow_pos 64) hmap]
      exact (congrArg (· % 2 ^ 64) (Nat.zero_add _)).trans (Nat.mod_eq_of_lt (by omega))
    have hrest : sub64 p.pmmSystemMemory p.pmmFreeMemory = p.pmmSystemMemory - p.pmmFreeMemory :=
      sub64_of_le (by omega) (by omega)
    have hused : p.used.pmmUsedMemory = p.pmmSystemMemory - p.pmmFreeMemory - p.pmmUnavailableMemory := by
      show sub64 (sub64 _ _) _ = _
      rw [hrest, sub64_of_le (by omega) (by omega)]
    have hfree' : p.used.pmmFreeMemory = p.pmmFreeMemory := rfl
    have hsystem' : p.used.pmmSystemMemory = p.pmmSystemMemory := rfl
    have hunavailable' : p.used.pmmUnavailableMemory = p.pmmUnavailableMemory := rfl
    refine ⟨?_, hsystem, by omega, ?_, ?_, by omega⟩
    · intro q hq
      rcases List.mem_cons.mp hq with rfl | hq
      · show p.pmmUnavailableMemory ≤ sub64 _ _
        omega
      rcases List.mem_cons.mp hq with rfl | hq
      · show p.pmmFreeMemory ≤ p.pmmSystemMemory
        omega
      · exact foldl_subtractions.mpr ⟨fun q hq => absurd hq List.not_mem_nil, hmap⟩ q hq
    · rw [hfree', hfree, hrecorded.ranges, List.map_map]
      congr 1
      refine List.map_congr_left fun r hr => ?_
      obtain ⟨e, -, hr⟩ := List.mem_flatMap.mp hr
      exact (storedRange_size hr).symm
    · rw [hunavailable', hunavailable]
      exact unavailable_sum hbounded

/-- A map with four megabytes of memory and a few bytes above 4 GB. -/
def bytesAbove4GB : List MemoryMapEntry :=
  [⟨0x100000, 0x400000, mebibyte_lt, fourMebibytes_lt⟩, ⟨0x100000001, 10, by decide, by decide⟩]

theorem bytesAbove4GB_bounded : ∀ e ∈ bytesAbove4GB, e.Bounded := by
  intro e he
  rw [MemoryMapEntry.Bounded]
  rcases List.mem_pair.mp he with rfl | rfl
  · decide
  · decide

theorem bytesAbove4GB_disjoint : bytesAbove4GB.Pairwise MemoryMapEntry.Disjoint := by
  refine List.pairwise_pair.mpr fun x hlow hhigh hlow' => ?_
  dsimp only at *
  omega

/-- PAE counts the few bytes as used. -/
theorem pmmInit_totals_pae : (pmmInitState .pae 0x140000 bytesAbove4GB).Totals .pae bytesAbove4GB :=
  (pmmInit_totals .pae 0x140000 bytesAbove4GB (by decide) bytesAbove4GB_bounded
    bytesAbove4GB_disjoint).mpr fun _ _ hinverted => absurd hinverted.1 (by decide)

/-- On i386 the few bytes are rounded to an entry that ends a page before it starts. -/
theorem pmmInit_totals_wrapped : bytesAbove4GB.length ≤ 256 ∧ (∀ e ∈ bytesAbove4GB, e.Bounded) ∧
    bytesAbove4GB.Pairwise MemoryMapEntry.Disjoint ∧
    (pmmInitState .i386 0x140000 bytesAbove4GB).pmmUnavailableMemory = 2 ^ 64 - 4096 ∧
    ¬ (pmmInitState .i386 0x140000 bytesAbove4GB).Totals .i386 bytesAbove4GB := by
  refine ⟨by decide, bytesAbove4GB_bounded, bytesAbove4GB_disjoint, by decide +kernel, fun h => ?_⟩
  have hwrapped : (0x100000000, 0x100001000) ∈ (pmmInitState .i386 0x140000 bytesAbove4GB).subtractions := by
    decide +kernel
  exact absurd (h.subtractions _ hwrapped) (by decide)

end Kiznix.Memory
