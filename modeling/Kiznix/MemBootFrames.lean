import Kiznix.MemBootTotals
import Mathlib.Data.List.Nodup
import Mathlib.Data.Finset.Dedup
import Mathlib.Data.Set.Card

/-! The frames that `pmm_init` finds in the boot memory map, what `pmm_alloc_page` makes of them before
anything is freed, and whether the window of the free-page stack has room for them. -/

namespace Kiznix.Memory

variable {b : Build} {map : List MemoryMapEntry} {e e' : MemoryMapEntry} {r : Nat × Nat}
  {kernelEnd kernelImageEnd f page : Nat} {s : Machine} {resolve : Nat → M Nat}

/-! ### The frames of a range -/

def framesOf (r : Nat × Nat) : List Nat := (List.range ((r.2 - r.1) / pageSize)).map (r.1 / pageSize + ·)

theorem pageAlignDown_mod (x : Nat) : pageAlignDown x % pageSize = 0 := Nat.mul_mod_left _ _

theorem mem_framesOf (hstart : r.1 % pageSize = 0) (hstop : r.2 % pageSize = 0) :
    f ∈ framesOf r ↔ r.1 ≤ pageSize * f ∧ pageSize * f + pageSize ≤ r.2 := by
  rw [pageSize] at *
  rw [framesOf, List.mem_map, pageSize]
  constructor
  · rintro ⟨i, hi, rfl⟩
    rw [List.mem_range] at hi
    constructor <;> omega
  · rintro ⟨hlow, hhigh⟩
    exact ⟨f - r.1 / 4096, List.mem_range.mpr (by omega), by omega⟩

theorem framesOf_nodup : (framesOf r).Nodup :=
  List.nodup_range.map fun _ _ heq => Nat.add_left_cancel heq

theorem storedRange_frames (hr : r ∈ entryRange b kernelEnd e) : (storedRange b r).frames b = framesOf r := by
  have hsize := storedRange_size hr
  obtain ⟨hlt, rfl⟩ := mem_entryRange.mp hr
  have hle : rangeStop b e ≤ 2 ^ b.physBits := rangeStop_le
  have hstart : rangeStart kernelEnd e % 2 ^ b.physBits = rangeStart kernelEnd e :=
    Nat.mod_eq_of_lt (hlt.trans_le hle)
  rw [FreeMemory.size] at hsize
  rw [FreeMemory.frames, pagesBetween, hsize, framesOf, storedRange, hstart]
  rfl

section Entry

variable (hkernel : kernelEnd % pageSize = 0) (hr : r ∈ entryRange b kernelEnd e)

theorem rangeStart_mod (hkernel : kernelEnd % pageSize = 0) : rangeStart kernelEnd e % pageSize = 0 := by
  have hup := pageAlignDown_mod ((e.base + pageSize - 1) % 2 ^ 64)
  have hlow : mem1GB % pageSize = 0 := by decide
  rw [rangeStart, pageAlignUp]
  rcases max_choice (max (pageAlignDown ((e.base + pageSize - 1) % 2 ^ 64)) mem1GB) kernelEnd with h | h
  · rw [h]
    rcases max_choice (pageAlignDown ((e.base + pageSize - 1) % 2 ^ 64)) mem1GB with h | h
    · rwa [h]
    · rwa [h]
  · rwa [h]

theorem rangeStop_mod : rangeStop b e % pageSize = 0 := by
  have hdown := pageAlignDown_mod ((e.base + e.length) % 2 ^ 64)
  have hhigh : mem4GB % pageSize = 0 := by decide
  simp only [rangeStop]
  split
  · rcases min_choice (pageAlignDown ((e.base + e.length) % 2 ^ 64)) mem4GB with h | h
    · rwa [h]
    · rwa [h]
  · exact hdown

include hkernel hr

/-- The frames of an entry's range are those inside the entry that nothing else takes. -/
theorem mem_framesOf_entry : f ∈ framesOf r ↔
    rangeStart kernelEnd e ≤ pageSize * f ∧ pageSize * f + pageSize ≤ rangeStop b e := by
  obtain ⟨-, rfl⟩ := mem_entryRange.mp hr
  exact mem_framesOf (rangeStart_mod hkernel) rangeStop_mod

theorem storedRange_valid : (storedRange b r).Valid b := by
  obtain ⟨hlt, rfl⟩ := mem_entryRange.mp hr
  have hstart : rangeStart kernelEnd e % pageSize = 0 := rangeStart_mod hkernel
  have hstop : rangeStop b e % pageSize = 0 := rangeStop_mod
  have hle : rangeStop b e ≤ 2 ^ b.physBits := rangeStop_le
  rw [pageSize] at hstart hstop
  refine ⟨?_, ?_, Nat.mod_lt _ (Nat.two_pow_pos _), Nat.mod_lt _ (Nat.two_pow_pos _), ?_⟩ <;>
    cases b <;> simp only [storedRange, Build.physBits, pageSize] at * <;> omega

theorem framesOf_length : pageSize * (framesOf r).length = rangeSize r := by
  obtain ⟨hlt, rfl⟩ := mem_entryRange.mp hr
  have hstart : rangeStart kernelEnd e % pageSize = 0 := rangeStart_mod hkernel
  have hstop : rangeStop b e % pageSize = 0 := rangeStop_mod
  rw [framesOf, List.length_map, List.length_range, rangeSize]
  rw [pageSize] at *
  dsimp only
  omega

/-- A frame lies inside the entry it comes from, past the first megabyte and the kernel. -/
theorem framesOf_entry_le (hbase : e.base + 4095 < 2 ^ 64) (hf : f ∈ framesOf r) :
    e.base ≤ pageSize * f ∧ pageSize * f + pageSize ≤ e.base + e.length ∧ mem1GB ≤ pageSize * f ∧
      kernelEnd ≤ pageSize * f ∧ pageSize * f + pageSize ≤ 2 ^ b.physBits := by
  obtain ⟨hlow, hhigh⟩ := (mem_framesOf_entry hkernel hr).mp hf
  have hle : rangeStop b e ≤ 2 ^ b.physBits := rangeStop_le
  have hstop : rangeStop b e ≤ e.base + e.length := by
    have hdown : pageAlignDown ((e.base + e.length) % 2 ^ 64) ≤ e.base + e.length :=
      (Nat.div_mul_le_self _ _).trans (Nat.mod_le _ _)
    simp only [rangeStop]
    split
    · exact (min_le_left _ _).trans hdown
    · exact hdown
  have hup : e.base ≤ rangeStart kernelEnd e := by
    rw [rangeStart, pageAlignUp_of_lt hbase]
    omega
  have hlow' : mem1GB ≤ rangeStart kernelEnd e := (le_max_right _ _).trans (le_max_left _ _)
  have hkernel' : kernelEnd ≤ rangeStart kernelEnd e := le_max_right _ _
  exact ⟨hup.trans hlow, hhigh.trans hstop, hlow'.trans hlow, hkernel'.trans hlow, hhigh.trans hle⟩

end Entry

/-! ### The frames of the map -/

/-- The frames that are free after `pmm_init`, in the order in which they are taken. -/
def bootFrames (b : Build) (kernelImageEnd : Nat) (map : List MemoryMapEntry) : List Nat :=
  (bootRanges b (kernelEndOf b kernelImageEnd) map).flatMap framesOf

theorem kernelEndOf_mod : kernelEndOf b kernelImageEnd % pageSize = 0 := pageAlignDown_mod _

theorem mem_bootRanges (hr : r ∈ bootRanges b kernelEnd map) : ∃ e ∈ map, r ∈ entryRange b kernelEnd e :=
  List.mem_flatMap.mp (List.mem_of_mem_take hr)

theorem pmmInitState_valid : ∀ r ∈ (pmmInitState b kernelImageEnd map).sFreeMemory, r.Valid b := by
  intro r hr
  rw [pmmInitState_recorded.ranges] at hr
  obtain ⟨q, hq, rfl⟩ := List.mem_map.mp hr
  obtain ⟨e, -, hq⟩ := mem_bootRanges hq
  exact storedRange_valid kernelEndOf_mod hq

theorem pmmInitState_frames : (pmmInitState b kernelImageEnd map).sFreeMemory.flatMap (FreeMemory.frames b) =
    bootFrames b kernelImageEnd map := by
  rw [pmmInitState_recorded.ranges, List.flatMap_map, bootFrames]
  refine List.flatMap_congr fun r hr => ?_
  obtain ⟨e, -, hr⟩ := mem_bootRanges hr
  exact storedRange_frames hr

section Disjoint

variable (hbase : ∀ e ∈ map, e.base + 4095 < 2 ^ 64)

include hbase

theorem bootFrames_bounds (hf : f ∈ bootFrames b kernelImageEnd map) :
    mem1GB ≤ pageSize * f ∧ kernelEndOf b kernelImageEnd ≤ pageSize * f ∧
      pageSize * f + pageSize ≤ 2 ^ b.physBits := by
  obtain ⟨r, hr, hf⟩ := List.mem_flatMap.mp hf
  obtain ⟨e, he, hr⟩ := mem_bootRanges hr
  exact (framesOf_entry_le kernelEndOf_mod hr (hbase e he) hf).2.2

variable (hdisjoint : map.Pairwise MemoryMapEntry.Disjoint)

include hdisjoint

theorem bootFrames_nodup : (bootFrames b kernelImageEnd map).Nodup := by
  refine List.nodup_flatMap.mpr ⟨fun r _ => framesOf_nodup, ?_⟩
  refine List.Pairwise.sublist (List.take_sublist _ _) (List.pairwise_flatMap.mpr ⟨fun e _ => ?_, ?_⟩)
  · rw [entryRange]
    split
    · exact List.pairwise_singleton _ _
    · exact List.Pairwise.nil
  · refine hdisjoint.imp_of_mem fun {e e'} he he' hapart r hr r' hr' => ?_
    refine List.disjoint_left.mpr fun f hf hf' => ?_
    obtain ⟨hlow, hhigh, -⟩ := framesOf_entry_le kernelEndOf_mod hr (hbase e he) hf
    obtain ⟨hlow', hhigh', -⟩ := framesOf_entry_le kernelEndOf_mod hr' (hbase e' he') hf'
    have hfull := hapart (pageSize * f) hlow (by rw [pageSize] at *; omega) hlow'
    rw [pageSize] at *
    omega

theorem bootFrames_length : pageSize * (bootFrames b kernelImageEnd map).length < 2 ^ 64 := by
  have hnodup : (bootFrames b kernelImageEnd map).Nodup := bootFrames_nodup hbase hdisjoint
  have hsub : (bootFrames b kernelImageEnd map).toFinset ⊆ Finset.Ico 256 (2 ^ 52) := by
    intro f hf
    obtain ⟨hlow, -, hhigh⟩ := bootFrames_bounds hbase (List.mem_toFinset.mp hf)
    have hbits : 2 ^ b.physBits ≤ 2 ^ 64 := by cases b <;> decide
    rw [mem1GB, pageSize] at *
    exact Finset.mem_Ico.mpr ⟨by omega, by omega⟩
  have hcard := Finset.card_le_card hsub
  rw [List.toFinset_card_of_nodup hnodup, Nat.card_Ico] at hcard
  rw [pageSize]
  omega

/-- `pmm_init` counts the bytes of the frames it finds. -/
theorem pmmInitState_free : (pmmInitState b kernelImageEnd map).pmmFreeMemory =
    pageSize * (bootFrames b kernelImageEnd map).length := by
  have hsum : ∀ rs : List (Nat × Nat), (∀ r ∈ rs, ∃ e ∈ map, r ∈ entryRange b (kernelEndOf b kernelImageEnd) e) →
      (rs.map rangeSize).sum = pageSize * (rs.flatMap framesOf).length := by
    intro rs hrs
    induction rs with
    | nil => rfl
    | cons r rs ih =>
        obtain ⟨e, -, hr⟩ := hrs r List.mem_cons_self
        rw [List.map_cons, List.sum_cons, ih fun r' hr' => hrs r' (List.mem_cons_of_mem _ hr'),
          List.flatMap_cons, List.length_append, Nat.mul_add, framesOf_length kernelEndOf_mod hr]
  rw [pmmInitState_recorded.free, hsum _ fun r hr => mem_bootRanges hr]
  exact Nat.mod_eq_of_lt (bootFrames_length hbase hdisjoint)

end Disjoint

/-! ### Taking the frames -/

/-- Calls of `pmm_alloc_page`, one after the other. -/
def pmmAllocPages (b : Build) (resolve : Nat → M Nat) : Nat → M (List Nat)
  | 0 => return []
  | n + 1 => do
      let page ← pmmAllocPage b resolve
      let pages ← pmmAllocPages b resolve n
      return page :: pages

theorem pmmAllocPage_range (htop : s.pmmStackTop = b.pmmStackVma) {ranges : List FreeMemory}
    (htake : takeFreeMemory b s.sFreeMemory = some (page, ranges)) :
    pmmAllocPage b resolve s = .ok (page, ({ s with sFreeMemory := ranges } : Machine).allocated page) := by
  have hempty : ¬ s.pmmStackTop ≠ b.pmmStackVma := not_not.mpr htop
  show (if s.pmmStackTop ≠ b.pmmStackVma then _ else _ : M Nat) s = _
  rw [if_neg hempty, htake]
  rfl

theorem pmmAllocPage_none (htop : s.pmmStackTop = b.pmmStackVma)
    (htake : takeFreeMemory b s.sFreeMemory = none) :
    pmmAllocPage b resolve s = .error .outOfPhysicalMemory := by
  have hempty : ¬ s.pmmStackTop ≠ b.pmmStackVma := not_not.mpr htop
  show (if s.pmmStackTop ≠ b.pmmStackVma then _ else _ : M Nat) s = _
  rw [if_neg hempty, htake]
  rfl

/-- While nothing is freed, the frames of the ranges come one after the other, and then the kernel stops. -/
theorem pmmAllocPages_ranges {frames : List Nat} (htop : s.pmmStackTop = b.pmmStackVma)
    (hvalid : ∀ r ∈ s.sFreeMemory, r.Valid b) (hframes : s.rangeFrames b = frames) :
    ∃ s', pmmAllocPages b resolve frames.length s = .ok (frames.map (pageSize * ·), s') ∧
      pmmAllocPage b resolve s' = .error .outOfPhysicalMemory := by
  induction frames generalizing s with
  | nil =>
      refine ⟨s, rfl, ?_⟩
      cases htake : takeFreeMemory b s.sFreeMemory with
      | none => exact pmmAllocPage_none htop htake
      | some taken =>
          obtain ⟨-, -, hflat⟩ := takeFreeMemory_some hvalid htake
          rw [Machine.rangeFrames, hflat] at hframes
          cases hframes
  | cons f frames ih =>
      cases htake : takeFreeMemory b s.sFreeMemory with
      | none =>
          rw [Machine.rangeFrames, takeFreeMemory_none htake] at hframes
          cases hframes
      | some taken =>
          obtain ⟨page, ranges⟩ := taken
          obtain ⟨haligned, hvalid', hflat⟩ := takeFreeMemory_some hvalid htake
          rw [Machine.rangeFrames, hflat] at hframes
          obtain ⟨hpage, hrest⟩ := List.cons.inj hframes
          obtain ⟨s', hpages, hlast⟩ :=
            ih (s := ({ s with sFreeMemory := ranges } : Machine).allocated page) htop hvalid' hrest
          refine ⟨s', ?_, hlast⟩
          have hfirst : pageSize * f = page := by
            rw [← hpage]
            exact Nat.mul_div_cancel' (Nat.dvd_of_mod_eq_zero haligned)
          show (pmmAllocPage b resolve >>= fun page => pmmAllocPages b resolve frames.length >>= fun pages =>
            pure (page :: pages)) s = _
          rw [bind_of_ok (pmmAllocPage_range htop htake), bind_of_ok hpages, List.map_cons, hfirst]
          rfl

/-- The machine after `pmm_init`. -/
def Machine.booted (b : Build) (kernelImageEnd : Nat) (map : List MemoryMapEntry) (s : Machine) : Machine :=
  { s with
    pmmFreeMemory := (pmmInitState b kernelImageEnd map).pmmFreeMemory
    sFreeMemory := (pmmInitState b kernelImageEnd map).sFreeMemory }

/-- A page that the boot memory map leaves to the allocator. -/
structure Usable (b : Build) (kernelImageEnd : Nat) (map : List MemoryMapEntry) (page : Nat) : Prop where
  aligned : page % pageSize = 0
  inside : ∃ e ∈ map, e.base ≤ page ∧ page + pageSize ≤ e.base + e.length
  low : 0x100000 ≤ page
  /-- Apart from the kernel image, rounded to pages. -/
  kernel : page + pageSize ≤ pageAlignDown kernelPhysicalAddress ∨
    pageAlignDown (kernelImageEnd + pageSize - 1) ≤ page
  high : b = .i386 → page + pageSize ≤ 2 ^ 32

theorem mem_bootFrames (himage : kernelImageEnd + pageSize ≤ 2 ^ b.wordBits) (hsize : map.length ≤ 256)
    (hbounded : ∀ e ∈ map, e.Bounded) :
    f ∈ bootFrames b kernelImageEnd map ↔ Usable b kernelImageEnd map (pageSize * f) := by
  have hkernel : kernelEndOf b kernelImageEnd = pageAlignDown (kernelImageEnd + pageSize - 1) := by
    rw [kernelEndOf, pageAlignUp, Nat.mod_eq_of_lt]
    rw [pageSize] at *
    omega
  rw [bootFrames, bootRanges_of_small hsize, List.mem_flatMap]
  constructor
  · rintro ⟨r, hr, hf⟩
    obtain ⟨e, he, hr⟩ := List.mem_flatMap.mp hr
    have hbase : e.base + 4095 < 2 ^ 64 := by
      have hlt := hbounded e he
      rw [MemoryMapEntry.Bounded] at hlt
      omega
    obtain ⟨hlow, hhigh, hmega, himage', hbits⟩ := framesOf_entry_le kernelEndOf_mod hr hbase hf
    refine ⟨Nat.mul_mod_right _ _, ⟨e, he, hlow, hhigh⟩, hmega, Or.inr (hkernel ▸ himage'), ?_⟩
    rintro rfl
    exact hbits
  · rintro ⟨-, ⟨e, he, hlow, hhigh⟩, hmega, himage', hbits⟩
    have hlt := hbounded e he
    rw [MemoryMapEntry.Bounded] at hlt
    have hstart : rangeStart (kernelEndOf b kernelImageEnd) e ≤ pageSize * f := by
      have hfirst : pageAlignDown kernelPhysicalAddress = 0x100000 := by decide
      rw [hfirst] at himage'
      rw [rangeStart, pageAlignUp_of_lt (by omega), hkernel, mem1GB]
      rw [pageSize] at *
      omega
    have hstop : pageSize * f + pageSize ≤ rangeStop b e := by
      have hdown : pageSize * f + pageSize ≤ pageAlignDown ((e.base + e.length) % 2 ^ 64) := by
        rw [Nat.mod_eq_of_lt (by omega), pageAlignDown]
        rw [pageSize] at *
        omega
      simp only [rangeStop]
      split
      · exact le_min hdown (hbits (by assumption))
      · exact hdown
    have hpos : 0 < pageSize := by decide
    have hr := mem_entryRange.mpr ⟨(hstart.trans_lt (Nat.lt_add_of_pos_right hpos)).trans_le hstop, rfl⟩
    exact ⟨_, List.mem_flatMap.mpr ⟨e, he, hr⟩, (mem_framesOf_entry kernelEndOf_mod hr).mpr ⟨hstart, hstop⟩⟩

/-- `pmm_init`, then `pmm_alloc_page` until the kernel stops: each usable page comes once, and no other. -/
theorem pmmInit_pages (b : Build) (resolve : Nat → M Nat) (kernelImageEnd : Nat) (map : List MemoryMapEntry)
    (s : Machine) (htop : s.pmmStackTop = b.pmmStackVma)
    (himage : kernelImageEnd + pageSize ≤ 2 ^ b.wordBits) (hsize : map.length ≤ 256)
    (hbounded : ∀ e ∈ map, e.Bounded) (hdisjoint : map.Pairwise MemoryMapEntry.Disjoint) :
    ∃ pages : List Nat, pages.Nodup ∧ (∀ page, page ∈ pages ↔ Usable b kernelImageEnd map page) ∧
      (pages = [] → pmmInit b kernelImageEnd map s = .error .noMemoryAvailable) ∧
      (pages ≠ [] → ∃ s₁ s₂, pmmInit b kernelImageEnd map s = .ok (⟨⟩, s₁) ∧
        pmmAllocPages b resolve pages.length s₁ = .ok (pages, s₂) ∧
        pmmAllocPage b resolve s₂ = .error .outOfPhysicalMemory) := by
  have hbase : ∀ e ∈ map, e.base + 4095 < 2 ^ 64 := by
    intro e he
    have hlt := hbounded e he
    rw [MemoryMapEntry.Bounded] at hlt
    omega
  have hfree : (pmmInitState b kernelImageEnd map).pmmFreeMemory =
      pageSize * (bootFrames b kernelImageEnd map).length := pmmInitState_free hbase hdisjoint
  have hpos : 0 < pageSize := by decide
  refine ⟨(bootFrames b kernelImageEnd map).map (pageSize * ·), ?_, fun page => ?_, fun hnil => ?_,
    fun hne => ?_⟩
  · exact (bootFrames_nodup hbase hdisjoint).map fun _ _ heq => Nat.eq_of_mul_eq_mul_left hpos heq
  · rw [List.mem_map]
    constructor
    · rintro ⟨f, hf, rfl⟩
      exact (mem_bootFrames himage hsize hbounded).mp hf
    · intro hpage
      have hmul : pageSize * (page / pageSize) = page :=
        Nat.mul_div_cancel' (Nat.dvd_of_mod_eq_zero hpage.aligned)
      exact ⟨page / pageSize, (mem_bootFrames himage hsize hbounded).mpr (hmul.symm ▸ hpage), hmul⟩
  · rw [List.map_eq_nil_iff.mp hnil, List.length_nil, Nat.mul_zero] at hfree
    show (if (pmmInitState b kernelImageEnd map).pmmFreeMemory = 0 then _ else _ : M Unit) _ = _
    rw [if_pos hfree]
    rfl
  · have hsome : (pmmInitState b kernelImageEnd map).pmmFreeMemory ≠ 0 := by
      rw [hfree]
      refine Nat.mul_ne_zero hpos.ne' fun hlength => hne ?_
      rw [List.length_eq_zero_iff.mp hlength, List.map_nil]
    have htop' : (s.booted b kernelImageEnd map).pmmStackTop = b.pmmStackVma := htop
    obtain ⟨s₂, hpages, hlast⟩ := pmmAllocPages_ranges htop' pmmInitState_valid pmmInitState_frames
    rw [List.length_map]
    refine ⟨s.booted b kernelImageEnd map, s₂, ?_, hpages, hlast⟩
    show (if (pmmInitState b kernelImageEnd map).pmmFreeMemory = 0 then _ else _ : M Unit) _ = _
    rw [if_neg hsome]
    rfl

/-- Memory and the variables of the program before `pmm_init`. -/
def Machine.zeroed (b : Build) : Machine where
  mem _ _ := 0
  cr3 := 0
  pdpte _ := 0
  tlb := []
  bootPdpt _ := 0
  pmmStackTop := b.pmmStackVma
  pmmFreeMemory := 0
  sFreeMemory := []
  nextAlloc := b.kernelHeapBegin
  handedOut := []

/-- The two pages under 4 GB and the two above them. -/
def around4GB : List MemoryMapEntry := [⟨0xFFFFE000, 0x4000, by decide, by decide⟩]

/-- On i386 the page just below 4 GB is handed out. -/
theorem pmmInit_pages_below_4GB : ∃ pages : List Nat, 0xFFFFF000 ∈ pages ∧ 0x100000000 ∉ pages ∧
    ∃ s₁ s₂, pmmInit .i386 0x140000 around4GB (Machine.zeroed .i386) = .ok (⟨⟩, s₁) ∧
      pmmAllocPages .i386 (resolveWrite .i386 0) pages.length s₁ = .ok (pages, s₂) ∧
      pmmAllocPage .i386 (resolveWrite .i386 0) s₂ = .error .outOfPhysicalMemory := by
  have hbounded : ∀ e ∈ around4GB, e.Bounded := by
    intro e he
    rw [List.mem_singleton.mp he, MemoryMapEntry.Bounded]
    decide
  obtain ⟨pages, -, hmem, -, hpages⟩ := pmmInit_pages .i386 (resolveWrite .i386 0) 0x140000 around4GB
    (Machine.zeroed .i386) rfl (by decide) (by decide) hbounded (List.pairwise_singleton _ _)
  have hlast : 0xFFFFF000 ∈ pages := by
    refine (hmem _).mpr ⟨rfl, ⟨_, List.mem_singleton_self _, ?_, ?_⟩, ?_, Or.inr ?_, fun _ => ?_⟩ <;> decide
  refine ⟨pages, hlast, fun hhigh => ?_, hpages (List.ne_nil_of_mem hlast)⟩
  exact absurd (((hmem _).mp hhigh).high rfl) (by decide)

/-! ### The window of the free-page stack -/

/-- Bits of a physical address. -/
def Build.addressBits : Build → Nat
  | .i386 => 32
  | .pae => 36
  | .x86_64 => 48

/-- The slots of the frames that `pmm_init` has recorded have room in the window, so that the top of the stack
stays in it when all are freed. -/
structure WindowFits (b : Build) (p : PmmInit) : Prop where
  size : (p.sFreeMemory.flatMap (FreeMemory.frames b)).length * b.entrySize ≤ b.pmmStackSize
  top : ∀ k ≤ (p.sFreeMemory.flatMap (FreeMemory.frames b)).length,
    b.slotVa k ≤ b.pmmStackVma + b.pmmStackSize

theorem windowFits_iff {p : PmmInit} : WindowFits b p ↔
    (p.sFreeMemory.flatMap (FreeMemory.frames b)).length * b.entrySize ≤ b.pmmStackSize := by
  refine ⟨fun h => h.size, fun h => ⟨h, fun k hk => ?_⟩⟩
  rw [Build.slotVa, Nat.mul_comm]
  exact Nat.add_le_add_left ((Nat.mul_le_mul_right _ hk).trans h) _

theorem bootFrames_card (himage : kernelImageEnd + pageSize ≤ 2 ^ b.wordBits) (hsize : map.length ≤ 256)
    (hbounded : ∀ e ∈ map, e.Bounded) (hdisjoint : map.Pairwise MemoryMapEntry.Disjoint) :
    (bootFrames b kernelImageEnd map).length = {page | Usable b kernelImageEnd map page}.ncard := by
  have hbase : ∀ e ∈ map, e.base + 4095 < 2 ^ 64 := by
    intro e he
    have hlt := hbounded e he
    rw [MemoryMapEntry.Bounded] at hlt
    omega
  have hpos : 0 < pageSize := by decide
  have hpages : {page | Usable b kernelImageEnd map page} =
      ((bootFrames b kernelImageEnd map).toFinset.image (pageSize * ·) : Finset Nat) := by
    ext page
    rw [Set.mem_ofPred_eq, Finset.mem_coe, Finset.mem_image]
    constructor
    · intro hpage
      have hmul : pageSize * (page / pageSize) = page :=
        Nat.mul_div_cancel' (Nat.dvd_of_mod_eq_zero hpage.aligned)
      exact ⟨page / pageSize, List.mem_toFinset.mpr
        ((mem_bootFrames himage hsize hbounded).mpr (hmul.symm ▸ hpage)), hmul⟩
    · rintro ⟨f, hf, rfl⟩
      exact (mem_bootFrames himage hsize hbounded).mp (List.mem_toFinset.mp hf)
  rw [hpages, Set.ncard_coe_finset,
    Finset.card_image_of_injective _ fun _ _ heq => Nat.eq_of_mul_eq_mul_left hpos heq,
    List.toFinset_card_of_nodup (bootFrames_nodup hbase hdisjoint)]

theorem bootFrames_inside (hinside : ∀ e ∈ map, e.base + e.length ≤ 2 ^ b.addressBits)
    (hdisjoint : map.Pairwise MemoryMapEntry.Disjoint) :
    (bootFrames b kernelImageEnd map).length ≤ 2 ^ b.addressBits / pageSize := by
  have hbits : 2 ^ b.addressBits + 4095 < 2 ^ 64 := by cases b <;> decide
  have hbase : ∀ e ∈ map, e.base + 4095 < 2 ^ 64 := fun e he => by
    have hle := hinside e he
    omega
  have hnodup : (bootFrames b kernelImageEnd map).Nodup := bootFrames_nodup hbase hdisjoint
  have hsub : (bootFrames b kernelImageEnd map).toFinset ⊆ Finset.range (2 ^ b.addressBits / pageSize) := by
    intro f hf
    obtain ⟨r, hr, hf⟩ := List.mem_flatMap.mp (List.mem_toFinset.mp hf)
    obtain ⟨e, he, hr⟩ := mem_bootRanges hr
    obtain ⟨-, hhigh, -⟩ := framesOf_entry_le kernelEndOf_mod hr (hbase e he) hf
    have hle := hinside e he
    rw [Finset.mem_range, Nat.lt_div_iff_mul_lt (by decide)]
    rw [pageSize] at *
    omega
  have hcard := Finset.card_le_card hsub
  rwa [List.toFinset_card_of_nodup hnodup, Finset.card_range] at hcard

/-- The window has room for every map of the address space, on PAE for two gigabytes of usable pages. -/
theorem stack_window_fits (b : Build) (kernelImageEnd : Nat) (map : List MemoryMapEntry)
    (himage : kernelImageEnd + pageSize ≤ 2 ^ b.wordBits) (hsize : map.length ≤ 256)
    (hinside : ∀ e ∈ map, e.base + e.length ≤ 2 ^ b.addressBits)
    (hdisjoint : map.Pairwise MemoryMapEntry.Disjoint) :
    WindowFits b (pmmInitState b kernelImageEnd map) ↔
      (b = .pae → {page | Usable b kernelImageEnd map page}.ncard ≤ 0x80000) := by
  have hbounded : ∀ e ∈ map, e.Bounded := by
    intro e he
    have hbits : 2 ^ b.addressBits + 4095 < 2 ^ 64 := by cases b <;> decide
    have hle := hinside e he
    rw [MemoryMapEntry.Bounded]
    omega
  have hcard := bootFrames_card himage hsize hbounded hdisjoint
  have hlength : (bootFrames b kernelImageEnd map).length ≤ 2 ^ b.addressBits / pageSize :=
    bootFrames_inside hinside hdisjoint
  rw [windowFits_iff, pmmInitState_frames, ← hcard]
  cases b with
  | i386 =>
      simp only [Build.addressBits, Build.entrySize, Build.pmmStackSize, pageSize] at hlength ⊢
      refine iff_of_true (by omega) fun hpae => ?_
      cases hpae
  | pae =>
      rw [forall_prop_of_true rfl]
      simp only [Build.entrySize, Build.pmmStackSize]
      omega
  | x86_64 =>
      simp only [Build.addressBits, Build.entrySize, Build.pmmStackSize, pageSize] at hlength ⊢
      refine iff_of_true (by omega) fun hpae => ?_
      cases hpae

/-- Memory up to the end of the address space of x86_64. -/
def fullMap : List MemoryMapEntry := [⟨0, 0x1000000000000, by decide, by decide⟩]

theorem stack_window_fits_full : WindowFits .x86_64 (pmmInitState .x86_64 0x140000 fullMap) := by
  refine (stack_window_fits .x86_64 0x140000 fullMap (by decide) (by decide) (fun e he => ?_)
    (List.pairwise_singleton _ _)).mpr nofun
  rw [List.mem_singleton.mp he]
  decide

/-- One page more than the window has room for on PAE. -/
def beyondWindow : List MemoryMapEntry := [⟨0x400000, 0x80001000, fourMebibytes_lt, by decide⟩]

theorem stack_window_exceeded : (∀ e ∈ beyondWindow, e.base + e.length ≤ 2 ^ Build.pae.addressBits) ∧
    beyondWindow.Pairwise MemoryMapEntry.Disjoint ∧
    ¬ WindowFits .pae (pmmInitState .pae 0x140000 beyondWindow) := by
  refine ⟨fun e he => ?_, List.pairwise_singleton _ _, fun h => ?_⟩
  · rw [List.mem_singleton.mp he]
    decide
  · have hranges : bootRanges .pae (kernelEndOf .pae 0x140000) beyondWindow = [(0x400000, 0x80401000)] := by decide
    have hsize := h.size
    rw [pmmInitState_frames, bootFrames, hranges, List.flatMap_singleton, framesOf, List.length_map,
      List.length_range] at hsize
    exact absurd hsize (by decide)

end Kiznix.Memory
