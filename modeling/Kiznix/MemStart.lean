import Kiznix.MemBootTables
import Kiznix.MemFree

/-! The state in which `kernel_early` leaves the allocator and the page tables. -/

namespace Kiznix.Memory

open RadixTree

variable {b : Build} {image : KernelImage b} {map : List MemoryMapEntry} {s s₀ s₁ : Machine} {n va f j : Nat}

/-- The machine after `pmm_init` and `vmm_init`. Writes may fault to a depth below `n + 2`. -/
def Started (b : Build) (image : KernelImage b) (map : List MemoryMapEntry) (n : Nat) (s : Machine) : Prop :=
  ∃ s₀, AtKernelEarly b image s₀ ∧ kernelEarly (resolveWrite b (n + 2)) b image map s₀ = .ok (⟨⟩, s)

/-- The frames that are free at the start. -/
def KernelImage.pool {b : Build} (image : KernelImage b) (map : List MemoryMapEntry) : List Nat :=
  bootFrames b image.imageEnd map

/-- No entry starts in the last page of the 64-bit addresses. -/
def LowMap (map : List MemoryMapEntry) : Prop := ∀ e ∈ map, e.base + 4095 < 2 ^ 64

/-- The map's entries are pairwise disjoint. -/
def DisjointMap (map : List MemoryMapEntry) : Prop := map.Pairwise MemoryMapEntry.Disjoint

theorem AtKernelEarly.pmmInit (h : AtKernelEarly b image s) (map : List MemoryMapEntry) :
    AtKernelEarly b image (s.booted b image.imageEnd map) :=
  ⟨h.words, h.cr3, h.bootPdpt, h.pdpte, h.pmmStackTop, h.nextAlloc, h.handedOut⟩

theorem pmmInit_eq (image : KernelImage b) (map : List MemoryMapEntry) (s : Machine) :
    pmmInit b image.imageEnd map s =
    if (pmmInitState b image.imageEnd map).pmmFreeMemory = 0 then .error .noMemoryAvailable
    else .ok (⟨⟩, s.booted b image.imageEnd map) := by
  show (if _ then throw Fatal.noMemoryAvailable else pure ⟨⟩ : M PUnit) (s.booted b image.imageEnd map) = _
  split <;> rfl

/-- What `kernel_early` establishes. -/
structure StartState (b : Build) (image : KernelImage b) (map : List MemoryMapEntry) (s : Machine) : Prop where
  inv : MemInv b (image.pool map) [] s
  free : s.freeFrames b = image.pool map
  accounted : Accounted b s
  coherent : Coherent b s
  stackCount : s.stackCount b = 0
  nextAlloc : s.nextAlloc = b.kernelHeapBegin
  handedOut : s.handedOut = []
  isTable : ∀ f, s.IsTable b f ↔ image.tables ≤ f ∧ f < image.tables + b.bootTables
  last : ∀ va, b.InTree va → ¬ b.InWindow va → s.lastEntry b va =
    if b.InKernel va then
      some (if image.tables ≤ b.kernelFrame va ∧ b.kernelFrame va < image.tables + b.bootTables then 0
        else bootEntry (b.kernelFrame va))
    else none
  tables : ∀ j, j < b.bootTables → follow s.next (s.root b) (tablePath b j) = some (image.tables + j)
  internal : ∀ e ∈ s.tlb, b.Internal (pageSize * e.1)

/-- The variables of the allocator at the start. -/
theorem started_frames (hstack : s.pmmStackTop = b.pmmStackVma)
    (hranges : s.sFreeMemory = (pmmInitState b image.imageEnd map).sFreeMemory) :
    s.stackCount b = 0 ∧ s.freeFrames b = image.pool map := by
  have hcount : s.stackCount b = 0 := Build.stackCount_slotVa (by rw [hstack, Build.slotVa_zero])
  refine ⟨hcount, ?_⟩
  rw [Machine.freeFrames, Machine.stackFrames, hcount, Machine.rangeFrames, hranges, pmmInitState_frames]
  rfl

section Start

variable (hbase : LowMap map) (hdisjoint : DisjointMap map)

include hbase

theorem pool_above (hf : f ∈ image.pool map) : 256 ≤ f ∧ image.tables + b.bootTables ≤ f := by
  obtain ⟨hlow, hkernel, -⟩ := bootFrames_bounds hbase hf
  have hinside := image.inside
  have hmapped := image.mapped
  have hend : image.imageEnd ≤ kernelEndOf b image.imageEnd := by
    rw [kernelEndOf, pageAlignUp, pageAlignDown, pageSize]
    cases b <;> simp only [Build.wordBits] <;> omega
  rw [mem1GB, pageSize] at *
  omega

include hdisjoint

theorem started_state (h : Started b image map n s) : StartState b image map s := by
  obtain ⟨s₀, h₀, hrun⟩ := h
  have hfree : (pmmInitState b image.imageEnd map).pmmFreeMemory = pageSize * (image.pool map).length :=
    pmmInitState_free hbase hdisjoint
  have hsmall : pageSize * (image.pool map).length < 2 ^ 64 := bootFrames_length hbase hdisjoint
  have hinit := pmmInit_eq image map s₀
  rw [kernelEarly] at hrun
  split at hinit
  · rw [bind_of_error hinit] at hrun
    cases hrun
  rw [bind_of_ok hinit] at hrun
  obtain ⟨s', hvmm, ⟨gone, htables, hgone⟩, hsame⟩ := vmmInit_ok (h₀.pmmInit map) (resolveWrite_resolves (n + 1))
  obtain rfl : s' = s := (Prod.mk.inj (Except.ok.inj (hvmm.symm.trans hrun))).2
  have hstack : s'.pmmStackTop = b.pmmStackVma := by
    rw [hsame]
    exact h₀.pmmStackTop
  have hranges : s'.sFreeMemory = (pmmInitState b image.imageEnd map).sFreeMemory := by rw [hsame]; rfl
  have hout : s'.handedOut = [] := by
    rw [hsame]
    exact h₀.handedOut
  obtain ⟨hcount, hframes⟩ := started_frames hstack hranges
  have hmemory : s'.pmmFreeMemory = pageSize * (image.pool map).length := by
    rw [hsame]
    exact hfree
  refine ⟨⟨htables.tree, ?_, ?_, fun j hj => ?_, fun k hk => ?_, ?_, ?_, bootFrames_nodup hbase hdisjoint,
    fun f hf hmem => ?_, nofun, nofun⟩, hframes, ⟨?_, ?_⟩, htables.coherent, hcount, ?_, hout, htables.isTable,
    fun va hva hwindow => ?_, htables.table, htables.internal⟩
  · rw [hcount, hstack, Build.slotVa_zero]
  · rw [hcount]
    exact Nat.zero_le _
  · rw [hcount] at hj
    cases hj
  · rw [hcount] at hk
    cases hk
  · rw [hranges]
    exact pmmInitState_valid
  · rw [hframes, hout, List.append_nil]
  · rw [hframes] at hmem
    have hlt := ((htables.isTable f).mp hf).2
    have hge := (pool_above hbase hmem).2
    omega
  · rw [hmemory, hframes]
  · rw [hmemory]
    exact hsmall
  · rw [hsame]
    exact h₀.nextAlloc
  · rw [htables.last va hva hwindow]
    simp only [hgone]

end Start

/-- `kernel_early` returns unless `pmm_init` finds no memory. -/
theorem exists_started_of_free (h₀ : AtKernelEarly b image s₀)
    (hfree : (pmmInitState b image.imageEnd map).pmmFreeMemory ≠ 0) (n : Nat) : ∃ s, Started b image map n s ∧
      s.pmmStackTop = b.pmmStackVma ∧ s.sFreeMemory = (pmmInitState b image.imageEnd map).sFreeMemory ∧
      s.pmmFreeMemory = (pmmInitState b image.imageEnd map).pmmFreeMemory := by
  have hinit := pmmInit_eq image map s₀
  rw [if_neg hfree] at hinit
  obtain ⟨s', hvmm, -, hsame⟩ := vmmInit_ok (h₀.pmmInit map) (resolveWrite_resolves (n + 1))
  refine ⟨s', ⟨s₀, h₀, ?_⟩, ?_, ?_, ?_⟩
  · rw [kernelEarly, bind_of_ok hinit, hvmm]
  · rw [hsame]
    exact h₀.pmmStackTop
  · rw [hsame]
    rfl
  · rw [hsame]
    rfl

theorem exists_started (hbase : LowMap map) (hdisjoint : DisjointMap map) (h₀ : AtKernelEarly b image s₀)
    (hpool : image.pool map ≠ []) (n : Nat) : ∃ s, Started b image map n s := by
  refine (exists_started_of_free h₀ ?_ n).imp fun _ h => h.1
  have hfree : (pmmInitState b image.imageEnd map).pmmFreeMemory = pageSize * (image.pool map).length :=
    pmmInitState_free hbase hdisjoint
  rw [hfree]
  intro hzero
  have hlength := (Nat.mul_eq_zero.mp hzero).resolve_left (by decide)
  exact hpool (List.length_eq_zero_iff.mp hlength)

/-- A machine as the boot code leaves it, with nothing in the rest of memory. -/
def bootMachine (b : Build) (image : KernelImage b) : Machine where
  mem f i :=
    if image.tables ≤ f ∧ f < image.tables + b.bootTables then bootWord b image.tables (f - image.tables) i else 0
  cr3 := pageSize * image.tables
  pdpte i := if i = 0 ∨ i = 3 then pageSize * image.tables ||| pagePresent else 0
  tlb := []
  bootPdpt i := if i = 0 ∨ i = 3 then pageSize * image.tables ||| pagePresent else 0
  pmmStackTop := b.pmmStackVma
  pmmFreeMemory := 0
  sFreeMemory := []
  nextAlloc := b.kernelHeapBegin
  handedOut := []

theorem bootMachine_atKernelEarly : AtKernelEarly b image (bootMachine b image) where
  words j i hj := by
    show (if _ then _ else _) = _
    rw [if_pos ⟨Nat.le_add_right _ _, Nat.add_lt_add_left hj _⟩, Nat.add_sub_cancel_left]
  cr3 _ := rfl
  bootPdpt _ _ := rfl
  pdpte _ := rfl
  pmmStackTop := rfl
  nextAlloc := rfl
  handedOut := rfl

theorem StartState.translate_none (h : StartState b image map s)
    (hva : b.InTree va) (hwindow : ¬ b.InWindow va) (hkernel : ¬ b.InKernel va) : s.translate b va = none := by
  have hlast := h.last va hva hwindow
  rw [if_neg hkernel] at hlast
  rw [translate_eq_leafEntry, Machine.leafEntry, hlast]
  rfl

end Kiznix.Memory
