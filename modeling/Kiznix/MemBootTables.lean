import Kiznix.MemRegion
import Kiznix.MemBootFrames

/-! The page tables that `_start_kernel` builds in `.bss`, and `vmm_init`, which adds the recursive mapping,
removes the identity mapping and unmaps the tables from where they were. -/

namespace Kiznix.Memory

open RadixTree

/-- The page tables of the boot code: on i386 `_BootPageDirectory` and `_BootPageTable`, on PAE
`_BootPageDirectory` and the two pages of `_BootPageTables`, on x86_64 `_BootPML4`, `_BootPDPT`,
`_BootPageDirectory` and the two pages of `_BootPageTables`. -/
def Build.bootTables : Build → Nat
  | .i386 => 2
  | .pae => 3
  | .x86_64 => 5

/-- Where the linker put the boot code's page tables, and `kernel_image_end`. The image starts at
`KERNEL_PHYSICAL_ADDRESS`, and the boot code maps the first 4 MB. -/
structure KernelImage (b : Build) where
  tables : Nat
  imageEnd : Nat
  start_le : kernelPhysicalAddress ≤ pageSize * tables
  inside : pageSize * (tables + b.bootTables) ≤ imageEnd
  mapped : imageEnd ≤ 0x400000

/-- An entry of the boot code for the frame `f`. -/
def bootEntry (f : Nat) : Nat := pageSize * f ||| pageWrite ||| pagePresent

/-- Word `i` of a boot page table that maps the frames from `first` on. -/
def bootPage (b : Build) (first i : Nat) : Nat := if i < b.entries then bootEntry (first + i) else 0

/-- Word `i` of the boot code's table `j`, the first of which is in frame `f`. -/
def bootWord : Build → Nat → Nat → Nat → Nat
  | .i386, f, 0, i => if i = 0 ∨ i = 768 then bootEntry (f + 1) else 0
  | .i386, _, _, i => bootPage .i386 0 i
  | .pae, f, 0, i => if i = 0 then bootEntry (f + 1) else if i = 1 then bootEntry (f + 2) else 0
  | .pae, _, 1, i => bootPage .pae 0 i
  | .pae, _, _, i => bootPage .pae 512 i
  | .x86_64, f, 0, i => if i = 0 ∨ i = 511 then bootEntry (f + 1) else 0
  | .x86_64, f, 1, i => if i = 0 ∨ i = 511 then bootEntry (f + 2) else 0
  | .x86_64, f, 2, i => if i = 0 then bootEntry (f + 3) else if i = 1 then bootEntry (f + 4) else 0
  | .x86_64, _, 3, i => bootPage .x86_64 0 i
  | .x86_64, _, _, i => bootPage .x86_64 512 i

/-- The machine when `_start_kernel` calls `kernel_early`. -/
structure AtKernelEarly (b : Build) (image : KernelImage b) (s : Machine) : Prop where
  words : ∀ j i, j < b.bootTables → s.mem (image.tables + j) i = bootWord b image.tables j i
  cr3 : b ≠ .pae → s.cr3 = pageSize * image.tables
  bootPdpt : b = .pae → ∀ i, s.bootPdpt i = if i = 0 ∨ i = 3 then pageSize * image.tables ||| pagePresent else 0
  pdpte : b = .pae → s.pdpte = s.bootPdpt
  pmmStackTop : s.pmmStackTop = b.pmmStackVma
  nextAlloc : s.nextAlloc = b.kernelHeapBegin
  handedOut : s.handedOut = []

/-- The virtual address of the boot code's table `j`. -/
def KernelImage.tableAddress {b : Build} (image : KernelImage b) (j : Nat) : Nat :=
  b.kernelVirtualBase + pageSize * (image.tables + j)

section VmmInit

variable (resolve : Nat → M Nat)

def vmmInitI386 (image : KernelImage .i386) : M Unit := do
  let addrRootPageTable := (← get).cr3
  let pm2 := image.tableAddress 0
  store .i386 resolve (pm2 + Build.i386.entrySize * 1023) (addrRootPageTable ||| pageWrite ||| pagePresent)
  store .i386 resolve pm2 0
  modify fun s => s.setCr3 .i386 addrRootPageTable
  vmmUnmapPage .i386 resolve (image.tableAddress 0)
  vmmUnmapPage .i386 resolve (image.tableAddress 1)

def vmmInitPae (image : KernelImage .pae) : M Unit := do
  let addrRootPageTable := (← get).cr3
  let addrPageDirectory := image.tableAddress 0 - Build.pae.kernelVirtualBase
  let pm2 := image.tableAddress 0
  store .pae resolve (pm2 + Build.pae.entrySize * 511) (addrPageDirectory ||| pageWrite ||| pagePresent)
  modify fun s => { s with bootPdpt := Function.update s.bootPdpt 0 0 }
  modify fun s => s.setCr3 .pae addrRootPageTable
  vmmUnmapPage .pae resolve (image.tableAddress 1)
  vmmUnmapPage .pae resolve (image.tableAddress 0)
  vmmUnmapPage .pae resolve (image.tableAddress 2)

def vmmInitX86_64 (image : KernelImage .x86_64) : M Unit := do
  let addrRootPageTable := (← get).cr3
  let pm4 := image.tableAddress 0
  let pm3 := image.tableAddress 1
  store .x86_64 resolve (pm4 + Build.x86_64.entrySize * 510) (addrRootPageTable ||| pageWrite ||| pagePresent)
  store .x86_64 resolve pm3 0
  store .x86_64 resolve pm4 0
  modify fun s => s.setCr3 .x86_64 addrRootPageTable
  vmmUnmapPage .x86_64 resolve (image.tableAddress 0)
  vmmUnmapPage .x86_64 resolve (image.tableAddress 1)
  vmmUnmapPage .x86_64 resolve (image.tableAddress 2)
  vmmUnmapPage .x86_64 resolve (image.tableAddress 3)
  vmmUnmapPage .x86_64 resolve (image.tableAddress 4)

def vmmInit : (b : Build) → KernelImage b → M Unit
  | .i386, image => vmmInitI386 resolve image
  | .pae, image => vmmInitPae resolve image
  | .x86_64, image => vmmInitX86_64 resolve image

/-- The part of `kernel_early` that sets up memory. -/
def kernelEarly (b : Build) (image : KernelImage b) (map : List MemoryMapEntry) : M Unit := do
  pmmInit b image.imageEnd map
  vmmInit resolve b image

end VmmInit

/-! ### The tables in memory -/

variable {b : Build} {image : KernelImage b} {s s' : Machine} {resolve : Nat → M Nat}
  {word : Nat → Nat → Nat} {va f g i j k w page : Nat} {p q gone : List Nat}

theorem bootEntry_eq : bootEntry f = pageSize * f + 3 := entry_eq (Nat.mul_mod_right _ _)

theorem entryFrame_bootEntry : entryFrame (bootEntry f) = some f := by
  rw [bootEntry_eq, entryFrame_add (Nat.mul_mod_right _ _) (by decide) rfl, Nat.mul_div_cancel_left _ (by decide)]

theorem entryFrame_zero : entryFrame 0 = none := rfl

/-- The words of the boot code's tables. -/
def Words (b : Build) (f : Nat) (word : Nat → Nat → Nat) (s : Machine) : Prop :=
  ∀ j i, j < b.bootTables → s.mem (f + j) i = word j i

theorem Words.write (h : Words b f word s) :
    Words b f (fun j' i' => if j' = j ∧ i' = i then w else word j' i') (s.write (f + j) i w) := by
  intro j' i' hj'
  have hiff : f + j' = f + j ∧ i' = i ↔ j' = j ∧ i' = i := by omega
  simp only [Machine.write, hiff]
  rw [h j' i' hj']

/-- The words after `vmm_init`. -/
def kernelWord : Build → Nat → Nat → Nat → Nat
  | .i386, f, 0, i => if i = 768 then bootEntry (f + 1) else if i = 1023 then bootEntry f else 0
  | .pae, f, 0, i =>
      if i = 0 then bootEntry (f + 1) else if i = 1 then bootEntry (f + 2)
      else if i = 511 then bootEntry f else 0
  | .x86_64, f, 0, i => if i = 511 then bootEntry (f + 1) else if i = 510 then bootEntry f else 0
  | .x86_64, f, 1, i => if i = 511 then bootEntry (f + 2) else 0
  | b, f, j, i => bootWord b f j i

/-- The path to table `j`. -/
def tablePath : Build → Nat → List Nat
  | .i386, 1 => [768]
  | .pae, 1 => [0]
  | .pae, 2 => [1]
  | .x86_64, 1 => [511]
  | .x86_64, 2 => [511, 511]
  | .x86_64, 3 => [511, 511, 0]
  | .x86_64, 4 => [511, 511, 1]
  | _, _ => []

theorem tablePath_lt (b : Build) (j : Nat) : (tablePath b j).length < b.levels := by
  unfold tablePath
  split <;> first | decide | exact b.levels_pos

theorem entryFrame_ite {c : Prop} [Decidable c] : entryFrame (if c then bootEntry f else w) = some g ↔
    c ∧ f = g ∨ ¬ c ∧ entryFrame w = some g := by
  split <;> simp [*, entryFrame_bootEntry]

/-- The tables that a table refers to. -/
theorem kernelWord_table (hj : j < b.bootTables) (hlength : (tablePath b j).length + 1 < b.levels)
    (hown : tablePath b j = [] → i ≠ b.recursiveIndex) (hg : entryFrame (kernelWord b f j i) = some g) :
    ∃ k < b.bootTables, tablePath b j ++ [i] = tablePath b k ∧ g = f + k := by
  cases b <;> simp only [Build.bootTables] at hj <;> interval_cases j <;>
    simp only [tablePath, Build.levels, Build.recursiveIndex, List.length_cons, List.length_nil,
      forall_const, reduceCtorEq, false_implies] at hlength hown <;>
    simp only [kernelWord, bootWord, entryFrame_ite, entryFrame_zero, reduceCtorEq, and_false, or_false] at hg
  case i386.«0» =>
    obtain ⟨rfl, rfl⟩ | ⟨-, heq, -⟩ := hg
    · exact ⟨1, by decide, rfl, rfl⟩
    · exact absurd heq hown
  case pae.«0» =>
    obtain ⟨rfl, rfl⟩ | ⟨-, ⟨rfl, rfl⟩ | ⟨-, heq, -⟩⟩ := hg
    · exact ⟨1, by decide, rfl, rfl⟩
    · exact ⟨2, by decide, rfl, rfl⟩
    · exact absurd heq hown
  case x86_64.«0» =>
    obtain ⟨rfl, rfl⟩ | ⟨-, heq, -⟩ := hg
    · exact ⟨1, by decide, rfl, rfl⟩
    · exact absurd heq hown
  case x86_64.«1» =>
    obtain ⟨rfl, rfl⟩ := hg
    exact ⟨2, by decide, rfl, rfl⟩
  case x86_64.«2» =>
    obtain ⟨rfl, rfl⟩ | ⟨-, rfl, rfl⟩ := hg
    · exact ⟨3, by decide, rfl, rfl⟩
    · exact ⟨4, by decide, rfl, rfl⟩
  all_goals omega

theorem Build.bootTables_pos : 0 < b.bootTables := by
  cases b <;> decide

/-- The words that lead to the tables. -/
def Upper : Build → Nat → (Nat → Nat → Nat) → Prop
  | .i386, f, word => word 0 768 = bootEntry (f + 1)
  | .pae, f, word => word 0 0 = bootEntry (f + 1) ∧ word 0 1 = bootEntry (f + 2)
  | .x86_64, f, word => word 0 511 = bootEntry (f + 1) ∧ word 1 511 = bootEntry (f + 2) ∧
      word 2 0 = bootEntry (f + 3) ∧ word 2 1 = bootEntry (f + 4)

theorem upper_bootWord : Upper b f (bootWord b f) := by
  cases b <;> simp [Upper, bootWord]

theorem upper_kernelWord : Upper b f (kernelWord b f) := by
  cases b <;> simp [Upper, kernelWord, bootWord]

theorem Words.follow_table (h : Words b f word s) (hupper : Upper b f word) (hj : j < b.bootTables) :
    follow s.next f (tablePath b j) = some (f + j) := by
  have hword : ∀ {j i g : Nat}, j < b.bootTables → word j i = bootEntry g → s.next (f + j) i = some g := by
    intro j i g hj heq
    rw [Machine.next, h j i hj, heq, entryFrame_bootEntry]
  cases b with
  | i386 =>
      have hone : s.next f 768 = some (f + 1) := hword (j := 0) (by decide) hupper
      simp only [Build.bootTables] at hj
      interval_cases j <;> simp [tablePath, follow, hone]
  | pae =>
      have hone : s.next f 0 = some (f + 1) := hword (j := 0) (by decide) hupper.1
      have htwo : s.next f 1 = some (f + 2) := hword (j := 0) (by decide) hupper.2
      simp only [Build.bootTables] at hj
      interval_cases j <;> simp [tablePath, follow, hone, htwo]
  | x86_64 =>
      have hone : s.next f 511 = some (f + 1) := hword (j := 0) (by decide) hupper.1
      have htwo := hword (j := 1) (by decide) hupper.2.1
      have hthree := hword (j := 2) (by decide) hupper.2.2.1
      have hfour := hword (j := 2) (by decide) hupper.2.2.2
      simp only [Build.bootTables] at hj
      interval_cases j <;> simp [tablePath, follow, hone, htwo, hthree, hfour]

section Words

variable (h : Words b f (kernelWord b f) s)

include h

theorem Words.next (hj : j < b.bootTables) (i : Nat) : s.next (f + j) i = entryFrame (kernelWord b f j i) := by
  rw [Machine.next, h j i hj]

theorem Words.next_root (i : Nat) : s.next f i = entryFrame (kernelWord b f 0 i) :=
  h.next Build.bootTables_pos i

/-- There are no other tables. -/
theorem Words.of_follow (hp : p.length < b.levels) (hown : p.head? ≠ some b.recursiveIndex)
    (hg : follow s.next f p = some g) : ∃ j < b.bootTables, p = tablePath b j ∧ g = f + j := by
  induction p using List.reverseRecOn generalizing g with
  | nil =>
      refine ⟨0, by cases b <;> decide, by cases b <;> rfl, ?_⟩
      exact (Option.some.inj hg).symm
  | append_singleton p i ih =>
      rw [follow_concat] at hg
      obtain ⟨t, ht, hg⟩ := Option.bind_eq_some_iff.mp hg
      rw [List.length_append, List.length_singleton] at hp
      obtain ⟨j, hj, rfl, rfl⟩ := ih (by omega) (fun hhead => hown (by rw [List.head?_append, hhead]; rfl)) ht
      rw [h.next hj] at hg
      refine kernelWord_table hj hp (fun hnil => ?_) hg
      rintro rfl
      rw [hnil] at hown
      exact hown rfl

theorem Words.recursiveTree : RecursiveTree s.next f b.recursiveIndex b.levels := by
  refine ⟨?_, fun p q g hp hq hpown hqown hpg hqg => ?_⟩
  · rw [h.next_root]
    cases b <;> simp [kernelWord, Build.recursiveIndex, entryFrame_bootEntry]
  · obtain ⟨j, hj, rfl, rfl⟩ := h.of_follow hp hpown hpg
    obtain ⟨k, hk, rfl, heq⟩ := h.of_follow hq hqown hqg
    rw [Nat.add_left_cancel heq]

theorem Words.isTable_iff : RadixTree.IsTable s.next f b.levels g ↔ f ≤ g ∧ g < f + b.bootTables := by
  rw [h.recursiveTree.isTable_iff]
  constructor
  · rintro ⟨p, hp, hown, hg⟩
    obtain ⟨j, hj, -, rfl⟩ := h.of_follow hp hown hg
    omega
  · rintro ⟨hle, hlt⟩
    have hj : g - f < b.bootTables := by omega
    refine ⟨tablePath b (g - f), tablePath_lt b _, ?_, ?_⟩
    · cases b <;> simp only [Build.bootTables] at hj <;> interval_cases g - f <;> decide
    · rw [h.follow_table upper_kernelWord hj, Nat.add_sub_cancel' hle]

end Words

/-! ### The kernel's first 4 MB -/

namespace Build

/-- The addresses at which the boot code maps the first 4 MB for the kernel. -/
def InKernel (b : Build) (va : Nat) : Prop := b.kernelVirtualBase ≤ va ∧ va < b.kernelVirtualBase + 0x400000

instance : Decidable (b.InKernel va) := inferInstanceAs (Decidable (_ ∧ _))

/-- The frame that such an address is mapped to. -/
def kernelFrame (b : Build) (va : Nat) : Nat := (va - b.kernelVirtualBase) / pageSize

/-- The boot page table that maps a frame. -/
def kernelTable (b : Build) (f : Nat) : Nat := b.bootTables - 1024 / b.entries + f / b.entries

theorem InKernel.frame_lt (h : b.InKernel va) : b.kernelFrame va < 1024 := by
  obtain ⟨hlow, hhigh⟩ := h
  rw [kernelFrame, pageSize]
  omega

theorem kernelTable_lt (hf : f < 1024) : b.kernelTable f < b.bootTables := by
  cases b <;> simp only [kernelTable, bootTables, entries] <;> omega

theorem kernelTable_i386 (hf : f < 1024) : kernelTable .i386 f = 1 := by
  simp only [kernelTable, bootTables, entries]
  omega

theorem kernelTable_pae (hf : f < 1024) :
    f < 512 ∧ kernelTable .pae f = 1 ∨ 512 ≤ f ∧ kernelTable .pae f = 2 := by
  simp only [kernelTable, bootTables, entries]
  omega

theorem kernelTable_x86_64 (hf : f < 1024) :
    f < 512 ∧ kernelTable .x86_64 f = 3 ∨ 512 ≤ f ∧ kernelTable .x86_64 f = 4 := by
  simp only [kernelTable, bootTables, entries]
  omega

theorem InKernel.inTree (h : b.InKernel va) : b.InTree va := by
  obtain ⟨hlow, hhigh⟩ := h
  cases b <;> simp only [kernelVirtualBase, InTree] at * <;> omega

theorem InKernel.path_take (h : b.InKernel va) :
    (b.path va).take (b.levels - 1) = tablePath b (b.kernelTable (b.kernelFrame va)) := by
  have hframe := h.frame_lt
  obtain ⟨hlow, hhigh⟩ := h
  cases b with
  | i386 =>
      rw [kernelTable_i386 hframe]
      simp only [kernelFrame, kernelVirtualBase, pageSize] at *
      simp only [path, levels, List.take_succ_cons, List.take_zero, tablePath, List.cons.injEq, and_true]
      omega
  | pae =>
      rcases kernelTable_pae hframe with ⟨hf, htable⟩ | ⟨hf, htable⟩
      all_goals
        rw [htable]
        simp only [kernelFrame, kernelVirtualBase, pageSize] at *
        simp only [path, levels, List.take_succ_cons, List.take_zero, tablePath, List.cons.injEq, and_true]
        omega
  | x86_64 =>
      rcases kernelTable_x86_64 hframe with ⟨hf, htable⟩ | ⟨hf, htable⟩
      all_goals
        rw [htable]
        simp only [kernelFrame, kernelVirtualBase, pageSize] at *
        simp only [path, levels, List.take_succ_cons, List.take_zero, tablePath, List.cons.injEq, and_true]
        omega

theorem InKernel.path_last (h : b.InKernel va) : (b.path va).getLastD 0 = b.kernelFrame va % b.entries := by
  obtain ⟨hlow, hhigh⟩ := h
  cases b <;> simp only [kernelVirtualBase] at hlow hhigh <;>
    simp only [path, kernelFrame, kernelVirtualBase, pageSize, entries, List.getLastD_cons, List.getLastD_nil] <;> omega

theorem inKernel_of_path (h : b.InTree va) (hj : j < b.bootTables)
    (hpath : (b.path va).take (b.levels - 1) = tablePath b j) : b.InKernel va := by
  cases b <;> simp only [bootTables] at hj <;> interval_cases j <;>
    simp [path, levels, tablePath, InTree, InKernel, kernelVirtualBase] at * <;> omega

theorem InKernel.not_inWindow (h : b.InKernel va) : ¬ b.InWindow va := by
  obtain ⟨hlow, hhigh⟩ := h
  cases b <;> simp [InWindow, path, recursiveIndex, kernelVirtualBase] at * <;> omega

theorem InKernel.not_internal (h : b.InKernel va) : ¬ b.Internal va := by
  have hwindow := h.not_inWindow
  obtain ⟨hlow, hhigh⟩ := h
  rintro (hmem | ⟨hlow', hhigh'⟩)
  · exact hwindow hmem
  · cases b <;> simp only [pmmStackVma, pmmStackSize, kernelVirtualBase] at * <;> omega

theorem InKernel.page_iff (h : b.InKernel va) {va' : Nat} :
    va' / pageSize = va / pageSize ↔ b.InKernel va' ∧ b.kernelFrame va' = b.kernelFrame va := by
  obtain ⟨hlow, hhigh⟩ := h
  cases b <;> simp only [InKernel, kernelFrame, kernelVirtualBase, pageSize] at * <;> omega

end Build

theorem bootPage_eq (hi : i < b.entries) : bootPage b f i = bootEntry (f + i) := if_pos hi

theorem kernelWord_kernelTable (hg : g < 1024) :
    kernelWord b f (b.kernelTable g) (g % b.entries) = bootEntry g := by
  have hmod : g % b.entries < b.entries := Nat.mod_lt _ (by cases b <;> decide)
  cases b with
  | i386 =>
      rw [Build.kernelTable_i386 hg]
      refine (bootPage_eq hmod).trans (congrArg bootEntry ?_)
      simp only [Build.entries]
      omega
  | pae =>
      rcases Build.kernelTable_pae hg with ⟨hlt, htable⟩ | ⟨hge, htable⟩
      all_goals
        rw [htable]
        refine (bootPage_eq hmod).trans (congrArg bootEntry ?_)
        simp only [Build.entries]
        omega
  | x86_64 =>
      rcases Build.kernelTable_x86_64 hg with ⟨hlt, htable⟩ | ⟨hge, htable⟩
      all_goals
        rw [htable]
        refine (bootPage_eq hmod).trans (congrArg bootEntry ?_)
        simp only [Build.entries]
        omega

/-- The kernel's page tables while the boot code's tables are unmapped from their old addresses: `gone` are
the frames that have been unmapped. -/
structure KernelTables (b : Build) (image : KernelImage b) (gone : List Nat) (s : Machine) : Prop where
  tree : s.Tree b
  isTable : ∀ f, s.IsTable b f ↔ image.tables ≤ f ∧ f < image.tables + b.bootTables
  table : ∀ j, j < b.bootTables → follow s.next (s.root b) (tablePath b j) = some (image.tables + j)
  last : ∀ va, b.InTree va → ¬ b.InWindow va → s.lastEntry b va =
    if b.InKernel va then some (if b.kernelFrame va ∈ gone then 0 else bootEntry (b.kernelFrame va)) else none
  internal : ∀ e ∈ s.tlb, b.Internal (pageSize * e.1)
  coherent : Coherent b s

theorem Words.kernelTables (h : Words b image.tables (kernelWord b image.tables) s) (hroot : s.root b = image.tables)
    (hdirectory : s.KernelDirectory b) (htlb : s.tlb = []) : KernelTables b image [] s := by
  have htree : s.Tree b := ⟨hdirectory, by rw [hroot]; exact h.recursiveTree⟩
  refine ⟨htree, fun f => ?_, fun j hj => ?_, fun va hva hwindow => ?_, fun e he => ?_, fun e he => ?_⟩
  · rw [Machine.IsTable, hroot]
    exact h.isTable_iff
  · rw [hroot]
    exact h.follow_table upper_kernelWord hj
  · rw [lastEntry_eq htree hva, Machine.tableAt, hroot]
    split
    · rename_i hkernel
      have htable := Build.kernelTable_lt (b := b) hkernel.frame_lt
      rw [hkernel.path_take, h.follow_table upper_kernelWord htable, Option.map_some, h _ _ htable, hkernel.path_last,
        kernelWord_kernelTable hkernel.frame_lt]
      simp
    · rename_i hkernel
      rw [Option.map_eq_none_iff, Option.eq_none_iff_forall_ne_some]
      intro t ht
      have hlength : ((b.path va).take (b.levels - 1)).length < b.levels := by
        rw [length_take_path levels_sub_lt.le]
        exact levels_sub_lt
      have ht' : s.tableAt b va (b.levels - 1) = some t := by rw [Machine.tableAt, hroot, ht]
      obtain ⟨j, hj, hpath, -⟩ := h.of_follow hlength (entry_of_tableAt levels_sub_lt hwindow ht').head ht
      exact hkernel (Build.inKernel_of_path hva hj hpath)
  · rw [htlb] at he
    cases he
  · rw [htlb] at he
    cases he

/-! ### `vmm_init` -/

theorem KernelImage.tables_lt (image : KernelImage b) : image.tables + b.bootTables ≤ 1024 := by
  have hle := image.inside.trans image.mapped
  rw [pageSize] at hle
  omega

theorem KernelImage.inKernel (image : KernelImage b) (hj : j < b.bootTables) :
    b.InKernel (image.tableAddress j) ∧ b.kernelFrame (image.tableAddress j) = image.tables + j := by
  have hlt := image.tables_lt
  rw [Build.InKernel, Build.kernelFrame, KernelImage.tableAddress, pageSize]
  omega

theorem KernelTables.tableAt (h : KernelTables b image gone s) (hva : b.InKernel va) :
    s.tableAt b va (b.levels - 1) = some (image.tables + b.kernelTable (b.kernelFrame va)) := by
  rw [Machine.tableAt, hva.path_take, h.table _ (Build.kernelTable_lt hva.frame_lt)]

theorem KernelTables.unmap (h : KernelTables b image gone s) (hres : Resolves b resolve) (hj : j < b.bootTables) :
    ∃ s', vmmUnmapPage b resolve (image.tableAddress j) s = .ok (⟨⟩, s') ∧
      KernelTables b image ((image.tables + j) :: gone) s' ∧ s' = { s with mem := s'.mem, tlb := s'.tlb } := by
  obtain ⟨hkernel, hframe⟩ := image.inKernel hj
  have hva := hkernel.inTree
  have hwindow := hkernel.not_inWindow
  have ht := h.tableAt hkernel
  have htree := h.tree.write_leaf hwindow ht (w := 0)
  refine ⟨_, vmmUnmapPage_ok h.tree hres hva ht, ⟨⟨htree.directory, htree.tree⟩, fun f => ?_, fun k hk => ?_,
    fun va' hva' hwindow' => ?_, fun e he => ?_, ?_⟩, rfl⟩
  · exact (isTable_write_leaf h.tree hwindow ht).trans (h.isTable f)
  · rw [← h.table k hk]
    show follow (s.write _ _ 0).next (s.root b) _ = _
    rw [Machine.next_write]
    exact (leaf_entry hwindow ht).setEntry_follow_leaf h.tree.tree leaf_length (tablePath_lt b k)
  · show (s.write _ _ 0).lastEntry b va' = _
    by_cases hpage : va' / pageSize = image.tableAddress j / pageSize
    · obtain ⟨hkernel', hframe'⟩ := hkernel.page_iff.mp hpage
      rw [lastEntry_write_leaf h.tree hwindow ht hpage hva', if_pos hkernel', hframe', hframe]
      simp
    · rw [lastEntry_write_leaf_of_ne h.tree hwindow ht hva hpage hwindow', h.last va' hva' hwindow']
      by_cases hkernel' : b.InKernel va'
      · have hne : b.kernelFrame va' ≠ image.tables + j := fun heq =>
          hpage (hkernel.page_iff.mpr ⟨hkernel', heq.trans hframe.symm⟩)
        rw [if_pos hkernel', if_pos hkernel']
        simp [hne]
      · rw [if_neg hkernel', if_neg hkernel']
  · exact (unmapped_tlb hva e he).elim (h.internal e) id
  · refine h.coherent.unmapped h.tree hva hwindow ht (Or.inr fun e he heq => ?_)
    have hinternal := h.internal e he
    rw [heq, Build.internal_page] at hinternal
    exact hkernel.not_internal hinternal

/-- The words of the tables that map the kernel. -/
def Leaves (b : Build) (word : Nat → Nat → Nat) : Prop :=
  ∀ g, g < 1024 → word (b.kernelTable g) (g % b.entries) = bootEntry g

/-- Before `vmm_init` is through, the tables are reached at their old addresses. -/
structure OldTables (b : Build) (image : KernelImage b) (word : Nat → Nat → Nat) (s : Machine) : Prop where
  words : Words b image.tables word s
  upper : Upper b image.tables word
  leaves : Leaves b word
  top : ∀ va, b.InKernel va → s.top b va = some image.tables

theorem OldTables.translate (h : OldTables b image word s) (hva : b.InKernel va) :
    s.translate b va = some (b.kernelFrame va) := by
  have htable := Build.kernelTable_lt (b := b) hva.frame_lt
  rw [Machine.translate, h.top va hva, Option.bind_some, ← take_append_last, follow_concat, hva.path_take,
    h.words.follow_table h.upper htable, Option.bind_some, Machine.next, h.words _ _ htable, hva.path_last,
    h.leaves _ hva.frame_lt, entryFrame_bootEntry]

/-- The write of word `i` of table `j` at its old address. -/
theorem OldTables.store (h : OldTables b image word s) (hres : Resolves b resolve) (hj : j < b.bootTables)
    (hi : i < b.entries) (w : Nat) : ∃ s', store b resolve (image.tableAddress j + b.entrySize * i) w s = .ok (⟨⟩, s') ∧
      Words b image.tables (fun j' i' => if j' = j ∧ i' = i then w else word j' i') s' ∧
      s' = { s with mem := s'.mem, tlb := s'.tlb } := by
  have hlt := image.tables_lt
  have hword : b.entrySize * i < pageSize := by
    rw [← Build.entrySize_mul_entries]
    exact Nat.mul_lt_mul_of_pos_left hi Build.entrySize_pos
  have hkernel : b.InKernel (image.tableAddress j + b.entrySize * i) ∧
      b.kernelFrame (image.tableAddress j + b.entrySize * i) = image.tables + j := by
    rw [Build.InKernel, Build.kernelFrame, KernelImage.tableAddress]
    rw [pageSize] at *
    omega
  have hindex : b.wordIndex (image.tableAddress j + b.entrySize * i) = i := by
    have hbase : image.tableAddress j % pageSize = 0 := by
      rw [KernelImage.tableAddress]
      cases b <;> simp only [Build.kernelVirtualBase, pageSize] <;> omega
    rw [Build.wordIndex, Nat.add_mod, hbase, Nat.zero_add, Nat.mod_mod, Nat.mod_eq_of_lt hword,
      Nat.mul_div_cancel_left _ Build.entrySize_pos]
  have htranslate := h.translate hkernel.1
  rw [hkernel.2] at htranslate
  refine ⟨_, store_ok hres htranslate, ?_, rfl⟩
  rw [hindex]
  exact h.words.write

/-- Entry 0 of table `j` is cleared. -/
theorem OldTables.clear (h : OldTables b image word s) (hres : Resolves b resolve) (hj : j < b.bootTables) :
    ∃ s', Memory.store b resolve (image.tableAddress j) 0 s = .ok (⟨⟩, s') ∧
      Words b image.tables (fun j' i' => if j' = j ∧ i' = 0 then 0 else word j' i') s' ∧
      s' = { s with mem := s'.mem, tlb := s'.tlb } := by
  have hstore := h.store hres hj Build.entries_pos 0
  rwa [Nat.mul_zero, Nat.add_zero] at hstore

/-- The tables above those that map pages. -/
def Build.upperTables (b : Build) : Nat := b.bootTables - 1024 / b.entries

theorem bootWord_leaf (hj : b.upperTables ≤ j) : bootWord b f j i = kernelWord b f j i := by
  cases b with
  | i386 =>
      obtain ⟨k, rfl⟩ := Nat.exists_eq_add_of_le' (show 1 ≤ j from hj)
      rfl
  | pae =>
      obtain ⟨k, rfl⟩ := Nat.exists_eq_add_of_le' (show 1 ≤ j from hj)
      rfl
  | x86_64 =>
      obtain ⟨k, rfl⟩ := Nat.exists_eq_add_of_le' (show 3 ≤ j from hj)
      rfl

theorem leaves_bootWord : Leaves b (bootWord b f) := fun g hg => by
  have hleaf : b.upperTables ≤ b.kernelTable g := Nat.le_add_right _ _
  rw [bootWord_leaf hleaf, kernelWord_kernelTable hg]

theorem Leaves.write (h : Leaves b word) (hj : j < b.upperTables) :
    Leaves b fun j' i' => if j' = j ∧ i' = i then w else word j' i' := by
  intro g hg
  have hne : b.kernelTable g ≠ j := (hj.trans_le (Nat.le_add_right _ _)).ne'
  dsimp only
  rw [if_neg fun heq => hne heq.1, h g hg]

/-- `vmm_init` changes no variable of the allocator. -/
def SameAllocator (s s' : Machine) : Prop :=
  s' = { s with mem := s'.mem, tlb := s'.tlb, cr3 := s'.cr3, pdpte := s'.pdpte, bootPdpt := s'.bootPdpt }

theorem SameAllocator.trans {s₁ : Machine} (h : SameAllocator s s₁) (h' : SameAllocator s₁ s') :
    SameAllocator s s' := by
  unfold SameAllocator at *
  rw [h', h]

/-- The tables are unmapped, one after the other. -/
def vmmUnmapTables (b : Build) (resolve : Nat → M Nat) (image : KernelImage b) : List Nat → M Unit
  | [] => pure ()
  | j :: js => do
      vmmUnmapPage b resolve (image.tableAddress j)
      vmmUnmapTables b resolve image js

theorem KernelTables.unmapTables (h : KernelTables b image gone s) (hres : Resolves b resolve) {js : List Nat}
    (hjs : ∀ j ∈ js, j < b.bootTables) : ∃ s', vmmUnmapTables b resolve image js s = .ok (⟨⟩, s') ∧
      KernelTables b image ((js.map (image.tables + ·)).reverse ++ gone) s' ∧ SameAllocator s s' := by
  induction js generalizing s gone with
  | nil => exact ⟨s, rfl, h, rfl⟩
  | cons j js ih =>
      obtain ⟨s₁, hunmap, h₁, hsame₁⟩ := h.unmap hres (hjs j List.mem_cons_self)
      obtain ⟨s', hrest, h', hsame⟩ := ih h₁ fun k hk => hjs k (List.mem_cons_of_mem _ hk)
      refine ⟨s', ?_, ?_, SameAllocator.trans ?_ hsame⟩
      · rw [vmmUnmapTables, bind_of_ok hunmap, hrest]
      · simpa using h'
      · rw [SameAllocator, hsame₁]

theorem entryFrame_pdpte : entryFrame (pageSize * f ||| pagePresent) = some f := by
  rw [lor_flags (Nat.mul_mod_right _ _) (by decide), entryFrame_add (Nat.mul_mod_right _ _) (by decide) rfl,
    Nat.mul_div_cancel_left _ (by decide)]

theorem AtKernelEarly.oldTables (h : AtKernelEarly b image s) : OldTables b image (bootWord b image.tables) s := by
  refine ⟨h.words, upper_bootWord, leaves_bootWord, fun va hva => ?_⟩
  have htree := hva.inTree
  cases b with
  | i386 =>
      refine (if_pos htree).trans (congrArg some ?_)
      rw [h.cr3 (by decide), Nat.mul_div_cancel_left _ (by decide)]
  | pae =>
      have hindex : va / 2 ^ 30 = 3 := by
        rw [Build.InTree.eq_def] at htree
        dsimp only at htree
        omega
      rw [Machine.top, if_pos htree.2, hindex, h.pdpte rfl, h.bootPdpt rfl, if_pos (Or.inr rfl), entryFrame_pdpte]
  | x86_64 =>
      refine (if_pos htree).trans (congrArg some ?_)
      rw [h.cr3 (by decide), Nat.mul_div_cancel_left _ (by decide)]

/-- What `vmm_init` leaves. -/
structure VmmInitialised (b : Build) (image : KernelImage b) (s s' : Machine) : Prop where
  tables : ∃ gone, KernelTables b image gone s' ∧
    ∀ f, f ∈ gone ↔ image.tables ≤ f ∧ f < image.tables + b.bootTables
  same : SameAllocator s s'

/-- After the load of `cr3` the tables are seen through the recursive mapping. -/
theorem vmmInit_tail (hwords : Words b image.tables word s) (heq : ∀ j i, j < b.bootTables →
      word j i = kernelWord b image.tables j i) (hroot : s.root b = image.tables)
    (hdirectory : s.KernelDirectory b) (htlb : s.tlb = []) (hres : Resolves b resolve) (js : List Nat)
    (hjs : ∀ j, j ∈ js ↔ j < b.bootTables) : ∃ s', vmmUnmapTables b resolve image js s = .ok (⟨⟩, s') ∧
      VmmInitialised b image s s' := by
  have hkernel : Words b image.tables (kernelWord b image.tables) s := fun j i hj => by
    rw [hwords j i hj, heq j i hj]
  obtain ⟨s', hrun, htables, hsame⟩ :=
    (hkernel.kernelTables hroot hdirectory htlb).unmapTables hres fun j hj => (hjs j).mp hj
  refine ⟨s', hrun, ⟨_, htables, fun f => ?_⟩, hsame⟩
  rw [List.append_nil, List.mem_reverse, List.mem_map]
  constructor
  · rintro ⟨j, hj, rfl⟩
    have hlt := (hjs j).mp hj
    omega
  · rintro ⟨hle, hlt⟩
    exact ⟨f - image.tables, (hjs _).mpr (by omega), by omega⟩

theorem vmmUnmapTables_cons (j : Nat) (js : List Nat) : vmmUnmapTables b resolve image (j :: js) =
    (vmmUnmapPage b resolve (image.tableAddress j) >>= fun _ => vmmUnmapTables b resolve image js) := rfl

theorem vmmUnmapTables_singleton (j : Nat) : vmmUnmapTables b resolve image [j] =
    vmmUnmapPage b resolve (image.tableAddress j) := bind_pure _

theorem bootEntry_of_cr3 (h : w = pageSize * f) : w ||| pageWrite ||| pagePresent = bootEntry f := by
  rw [h, bootEntry]

theorem vmmInitI386_ok {image : KernelImage .i386} (h : AtKernelEarly .i386 image s)
    (hres : Resolves .i386 resolve) : ∃ s', vmmInitI386 resolve image s = .ok (⟨⟩, s') ∧
      VmmInitialised .i386 image s s' := by
  have hold := h.oldTables
  have hcr3 := h.cr3 (by decide)
  obtain ⟨s₁, hstore₁, hwords₁, hsame₁⟩ := hold.store hres (j := 0) (i := 1023) (by decide) (by decide)
    (s.cr3 ||| pageWrite ||| pagePresent)
  have hold₁ : OldTables .i386 image _ s₁ := ⟨hwords₁, by simp [Upper, bootWord],
    hold.leaves.write (by decide), fun va hva => by rw [hsame₁]; exact hold.top va hva⟩
  obtain ⟨s₂, hstore₂, hwords₂, hsame₂⟩ := hold₁.clear hres (j := 0) (by decide)
  have hroot : (s₂.setCr3 .i386 s.cr3).root .i386 = image.tables := by
    show s.cr3 / pageSize = image.tables
    rw [hcr3, Nat.mul_div_cancel_left _ (by decide)]
  have hwords : ∀ j i, j < Build.i386.bootTables →
      (if j = 0 ∧ i = 0 then 0 else if j = 0 ∧ i = 1023 then s.cr3 ||| pageWrite ||| pagePresent
        else bootWord .i386 image.tables j i) = kernelWord .i386 image.tables j i := by
    intro j i hj
    simp only [Build.bootTables] at hj
    interval_cases j
    · rw [bootEntry_of_cr3 hcr3]
      simp only [kernelWord, bootWord, true_and]
      split_ifs <;> first | rfl | omega
    · simp [kernelWord]
  obtain ⟨s', hrun, hinit⟩ := vmmInit_tail (s := s₂.setCr3 .i386 s.cr3) hwords₂ hwords hroot
    (fun heq => nomatch heq) rfl hres [0, 1] (by simp [Build.bootTables]; omega)
  rw [vmmUnmapTables_cons, vmmUnmapTables_singleton] at hrun
  refine ⟨s', ?_, hinit.tables, SameAllocator.trans ?_ hinit.same⟩
  · show ((get : M Machine) >>= fun s => _) s = _
    rw [bind_of_ok rfl, bind_of_ok hstore₁, bind_of_ok hstore₂, bind_of_ok rfl]
    exact hrun
  · rw [SameAllocator, hsame₂, hsame₁]
    rfl

theorem vmmInitPae_ok {image : KernelImage .pae} (h : AtKernelEarly .pae image s) (hres : Resolves .pae resolve) :
    ∃ s', vmmInitPae resolve image s = .ok (⟨⟩, s') ∧ VmmInitialised .pae image s s' := by
  have hold := h.oldTables
  have haddress : image.tableAddress 0 - Build.pae.kernelVirtualBase = pageSize * image.tables :=
    Nat.add_sub_cancel_left _ _
  obtain ⟨s₁, hstore₁, hwords₁, hsame₁⟩ := hold.store hres (j := 0) (i := 511) (by decide) (by decide)
    (image.tableAddress 0 - Build.pae.kernelVirtualBase ||| pageWrite ||| pagePresent)
  have hpdpt : ∀ i, Function.update s₁.bootPdpt 0 0 i = if i = 3 then pageSize * image.tables ||| pagePresent else 0 := by
    intro i
    rw [hsame₁, Function.update_apply, h.bootPdpt rfl]
    split_ifs <;> first | rfl | omega
  generalize hs₂ : ({ s₁ with bootPdpt := Function.update s₁.bootPdpt 0 0 } : Machine).setCr3 .pae s.cr3 = s₂
  have hentries : s₂.pdpte = Function.update s₁.bootPdpt 0 0 ∧ s₂.bootPdpt = Function.update s₁.bootPdpt 0 0 := by
    rw [← hs₂]
    exact ⟨rfl, rfl⟩
  have hroot : s₂.root .pae = image.tables := by
    show s₂.pdpte 3 / pageSize = image.tables
    rw [hentries.1, hpdpt, if_pos rfl, lor_flags (Nat.mul_mod_right _ _) (by decide), pageSize, pagePresent,
      Nat.mul_add_div (by decide), Nat.add_zero]
  have hdirectory : s₂.KernelDirectory .pae := by
    have hpresent : Present (pageSize * image.tables ||| pagePresent) := by
      rw [present_iff, lor_flags (Nat.mul_mod_right _ _) (by decide), pageSize, pagePresent]
      omega
    intro _
    refine ⟨?_, fun i hi => ?_, ?_⟩
    · rw [hentries.1, hpdpt, if_pos rfl]
      exact hpresent
    · rw [hentries.1, hpdpt, if_neg hi.ne]
      exact not_present_zero
    · rw [hentries.2, hpdpt, if_pos rfl]
      exact hpresent
  have hwords₂ : Words .pae image.tables (fun j i => if j = 0 ∧ i = 511 then image.tableAddress 0 -
      Build.pae.kernelVirtualBase ||| pageWrite ||| pagePresent else bootWord .pae image.tables j i) s₂ := by
    rw [← hs₂]
    exact hwords₁
  have hwords : ∀ j i, j < Build.pae.bootTables →
      (if j = 0 ∧ i = 511 then image.tableAddress 0 - Build.pae.kernelVirtualBase ||| pageWrite ||| pagePresent
        else bootWord .pae image.tables j i) = kernelWord .pae image.tables j i := by
    intro j i hj
    simp only [Build.bootTables] at hj
    interval_cases j
    · rw [bootEntry_of_cr3 haddress]
      simp only [kernelWord, bootWord, true_and]
      split_ifs <;> first | rfl | omega
    · simp [kernelWord]
    · simp [kernelWord]
  have htlb : s₂.tlb = [] := by
    rw [← hs₂]
    rfl
  obtain ⟨s', hrun, hinit⟩ := vmmInit_tail hwords₂ hwords hroot hdirectory htlb hres [1, 0, 2]
    (by simp [Build.bootTables]; omega)
  rw [vmmUnmapTables_cons, vmmUnmapTables_cons, vmmUnmapTables_singleton] at hrun
  refine ⟨s', ?_, hinit.tables, SameAllocator.trans ?_ hinit.same⟩
  · show ((get : M Machine) >>= fun s => _) s = _
    rw [bind_of_ok rfl, bind_of_ok hstore₁, bind_of_ok rfl, bind_of_ok rfl]
    rw [← hs₂] at hrun
    exact hrun
  · rw [← hs₂, SameAllocator, hsame₁]
    rfl

theorem vmmInitX86_64_ok {image : KernelImage .x86_64} (h : AtKernelEarly .x86_64 image s)
    (hres : Resolves .x86_64 resolve) : ∃ s', vmmInitX86_64 resolve image s = .ok (⟨⟩, s') ∧
      VmmInitialised .x86_64 image s s' := by
  have hold := h.oldTables
  have hcr3 := h.cr3 (by decide)
  obtain ⟨s₁, hstore₁, hwords₁, hsame₁⟩ := hold.store hres (j := 0) (i := 510) (by decide) (by decide)
    (s.cr3 ||| pageWrite ||| pagePresent)
  have hold₁ : OldTables .x86_64 image _ s₁ := ⟨hwords₁, by simp [Upper, bootWord],
    hold.leaves.write (by decide), fun va hva => by rw [hsame₁]; exact hold.top va hva⟩
  obtain ⟨s₂, hstore₂, hwords₂, hsame₂⟩ := hold₁.clear hres (j := 1) (by decide)
  have hold₂ : OldTables .x86_64 image _ s₂ := ⟨hwords₂, by simp [Upper, bootWord],
    hold₁.leaves.write (by decide), fun va hva => by rw [hsame₂]; exact hold₁.top va hva⟩
  obtain ⟨s₃, hstore₃, hwords₃, hsame₃⟩ := hold₂.clear hres (j := 0) (by decide)
  have hroot : (s₃.setCr3 .x86_64 s.cr3).root .x86_64 = image.tables := by
    show s.cr3 / pageSize = image.tables
    rw [hcr3, Nat.mul_div_cancel_left _ (by decide)]
  have hwords : ∀ j i, j < Build.x86_64.bootTables →
      (if j = 0 ∧ i = 0 then 0 else if j = 1 ∧ i = 0 then 0
        else if j = 0 ∧ i = 510 then s.cr3 ||| pageWrite ||| pagePresent
        else bootWord .x86_64 image.tables j i) = kernelWord .x86_64 image.tables j i := by
    intro j i hj
    simp only [Build.bootTables] at hj
    interval_cases j
    · rw [bootEntry_of_cr3 hcr3]
      simp only [kernelWord, bootWord, true_and, zero_ne_one, false_and, if_false]
      split_ifs <;> first | rfl | omega
    · simp only [kernelWord, bootWord, true_and, one_ne_zero, false_and, if_false]
      split_ifs <;> first | rfl | omega
    · simp [kernelWord]
    · simp [kernelWord]
    · simp [kernelWord]
  obtain ⟨s', hrun, hinit⟩ := vmmInit_tail (s := s₃.setCr3 .x86_64 s.cr3) hwords₃ hwords hroot
    (fun heq => nomatch heq) rfl hres [0, 1, 2, 3, 4] (by simp [Build.bootTables]; omega)
  rw [vmmUnmapTables_cons, vmmUnmapTables_cons, vmmUnmapTables_cons, vmmUnmapTables_cons,
    vmmUnmapTables_singleton] at hrun
  refine ⟨s', ?_, hinit.tables, SameAllocator.trans ?_ hinit.same⟩
  · show ((get : M Machine) >>= fun s => _) s = _
    rw [bind_of_ok rfl, bind_of_ok hstore₁, bind_of_ok hstore₂, bind_of_ok hstore₃, bind_of_ok rfl]
    exact hrun
  · rw [SameAllocator, hsame₃, hsame₂, hsame₁]
    rfl

theorem vmmInit_ok (h : AtKernelEarly b image s) (hres : Resolves b resolve) :
    ∃ s', vmmInit resolve b image s = .ok (⟨⟩, s') ∧ VmmInitialised b image s s' := by
  cases b with
  | i386 => exact vmmInitI386_ok h hres
  | pae => exact vmmInitPae_ok h hres
  | x86_64 => exact vmmInitX86_64_ok h hres

end Kiznix.Memory
