import Kiznix.MemRun

/-! The address space that the kernel starts in: the loops of `_start_kernel` fill the boot tables, and
after `vmm_init` nothing but the kernel's 4 MB and the windows is mapped. -/

namespace Kiznix.Memory

open RadixTree

variable {b : Build} {image : KernelImage b} {s s' : Machine} {word : Nat → Nat → Nat}
  {va f i j k n e first : Nat}

/-! ### `_start_kernel` -/

/-- What `mov [address], eax` leaves in an entry that was `old`: half of it where entries have eight
bytes. -/
def Build.putDword (b : Build) (address old eax : Nat) : Nat :=
  if b.entrySize = 4 then eax
  else if address % b.entrySize < 4 then old / 2 ^ 32 * 2 ^ 32 + eax
  else eax * 2 ^ 32 + old % 2 ^ 32

/-- `mov [address], eax` while paging is off. -/
def Machine.mov (b : Build) (s : Machine) (address eax : Nat) : Machine :=
  s.write (address / pageSize) (b.wordIndex address)
    (b.putDword address (s.mem (address / pageSize) (b.wordIndex address)) eax)

/-- `.fill_page_table`, from a value of `ecx` on. -/
@[irreducible] def fillPageTable (b : Build) : Nat → Nat → Nat → Machine → Machine
  | 0, _, _, s => s
  | ecx + 1, edi, eax, s =>
      fillPageTable b ecx ((edi + b.entrySize) % 2 ^ 32) ((eax + 0x1000) % 2 ^ 32) (s.mov b edi eax)

/-- `mov [edi + 8 * i], eax` with `edi` at `_BootPDPT`. -/
def Machine.movPdpt (s : Machine) (i eax : Nat) : Machine :=
  { s with bootPdpt := Function.update s.bootPdpt i (Build.pae.putDword 0 (s.bootPdpt i) eax) }

/-- The physical address of the boot code's table `j`. -/
def KernelImage.tablePhysical {b : Build} (image : KernelImage b) (j : Nat) : Nat :=
  image.tableAddress j - b.kernelVirtualBase

def startKernelI386 (image : KernelImage .i386) (s : Machine) : Machine :=
  let edi := image.tablePhysical 0
  let eax := image.tablePhysical 1 + pageWrite + pagePresent
  let s := s.mov .i386 edi eax
  let s := s.mov .i386 (edi + (Build.i386.kernelVirtualBase >>> 22) * 4) eax
  let s := fillPageTable .i386 1024 (image.tablePhysical 1) (0 ||| pageWrite ||| pagePresent) s
  s.setCr3 .i386 (image.tablePhysical 0)

/-- On PAE `cr3` takes the address of the variable `_BootPDPT`. -/
def startKernelPae (image : KernelImage .pae) (bootPdptAddress : Nat) (s : Machine) : Machine :=
  let eax := image.tablePhysical 0 + pagePresent
  let s := s.movPdpt 0 eax
  let s := s.movPdpt 3 eax
  let edi := image.tablePhysical 0
  let eax := image.tablePhysical 1 + pageWrite + pagePresent
  let s := s.mov .pae edi eax
  let eax := (eax + 0x1000) % 2 ^ 32
  let s := s.mov .pae (edi + 8) eax
  let s := fillPageTable .pae 1024 (image.tablePhysical 1) (0 ||| pageWrite ||| pagePresent) s
  s.setCr3 .pae bootPdptAddress

def startKernelX86_64 (image : KernelImage .x86_64) (s : Machine) : Machine :=
  let edi := image.tablePhysical 0
  let eax := image.tablePhysical 1 + pageWrite + pagePresent
  let s := s.mov .x86_64 edi eax
  let s := s.mov .x86_64 (edi + 511 * 8) eax
  let edi := image.tablePhysical 1
  let eax := image.tablePhysical 2 + pageWrite + pagePresent
  let s := s.mov .x86_64 edi eax
  let s := s.mov .x86_64 (edi + 511 * 8) eax
  let edi := image.tablePhysical 2
  let eax := image.tablePhysical 3 + pageWrite + pagePresent
  let s := s.mov .x86_64 edi eax
  let eax := (eax + 0x1000) % 2 ^ 32
  let s := s.mov .x86_64 (edi + 8) eax
  let s := fillPageTable .x86_64 1024 (image.tablePhysical 3) (0 ||| pageWrite ||| pagePresent) s
  s.setCr3 .x86_64 (image.tablePhysical 0)

def startKernel : (b : Build) → KernelImage b → Nat → Machine → Machine
  | .i386, image, _, s => startKernelI386 image s
  | .pae, image, bootPdptAddress, s => startKernelPae image bootPdptAddress s
  | .x86_64, image, _, s => startKernelX86_64 image s

/-- The machine before `_start_kernel`: `.bss` is zeroed and `.data` holds its initial values. -/
structure AtBoot (b : Build) (image : KernelImage b) (s : Machine) : Prop where
  tables : Words b image.tables (fun _ _ => 0) s
  bootPdpt : b = .pae → ∀ i, s.bootPdpt i = 0
  pmmStackTop : s.pmmStackTop = b.pmmStackVma
  nextAlloc : s.nextAlloc = b.kernelHeapBegin
  handedOut : s.handedOut = []

/-! ### The filled tables -/

theorem KernelImage.tablePhysical_eq (image : KernelImage b) (j : Nat) :
    image.tablePhysical j = pageSize * (image.tables + j) := Nat.add_sub_cancel_left _ _

theorem putDword_zero {address : Nat} (haddress : address % b.entrySize = 0) : b.putDword address 0 e = e := by
  rw [Build.putDword, haddress]
  split
  · rfl
  · rw [if_pos (by decide), Nat.zero_div, Nat.zero_mul, Nat.zero_add]

/-- Entry `i` of table `j`, by its address. -/
theorem entry_address (f : Nat) (hi : i < b.entries) :
    (pageSize * f + b.entrySize * i) / pageSize = f ∧ b.wordIndex (pageSize * f + b.entrySize * i) = i ∧
      (pageSize * f + b.entrySize * i) % b.entrySize = 0 := by
  cases b <;> simp only [Build.wordIndex, Build.entries, Build.entrySize, pageSize] at * <;> omega

theorem Words.mov (h : Words b f word s) (hj : j < b.bootTables) (hi : i < b.entries)
    (hzero : word j i = 0) :
    Words b f (fun j' i' => if j' = j ∧ i' = i then e else word j' i')
      (s.mov b (pageSize * (f + j) + b.entrySize * i) e) := by
  obtain ⟨hframe, hindex, haligned⟩ := entry_address (b := b) (f + j) hi
  rw [Machine.mov, hframe, hindex, h j i hj, hzero, putDword_zero haligned]
  exact h.write

/-- The words once the entries of the page tables from `k` up to `k + n` are filled. -/
def filledWord (b : Build) (k n : Nat) (word : Nat → Nat → Nat) (j i : Nat) : Nat :=
  if b.upperTables ≤ j ∧ i < b.entries ∧ k ≤ (j - b.upperTables) * b.entries + i ∧
    (j - b.upperTables) * b.entries + i < k + n then bootEntry ((j - b.upperTables) * b.entries + i)
  else word j i

theorem filledWord_succ (k n : Nat) (word : Nat → Nat → Nat) :
    filledWord b (k + 1) n (fun j i => if j = b.upperTables + k / b.entries ∧ i = k % b.entries then bootEntry k
      else word j i) = filledWord b k (n + 1) word := by
  funext j i
  simp only [filledWord]
  by_cases hlast : j = b.upperTables + k / b.entries ∧ i = k % b.entries
  · have hindex : (j - b.upperTables) * b.entries + i = k := by
      rw [hlast.1, hlast.2, Nat.add_sub_cancel_left, Nat.mul_comm, Nat.div_add_mod]
    have hi : i < b.entries := by
      rw [hlast.2]
      exact Nat.mod_lt _ b.entries_pos
    have hj : b.upperTables ≤ j := by
      rw [hlast.1]
      exact Nat.le_add_right _ _
    rw [if_neg (by omega), if_pos hlast, if_pos (by omega), hindex]
  · have hindex : b.upperTables ≤ j → i < b.entries → (j - b.upperTables) * b.entries + i ≠ k := by
      rintro hj hi rfl
      refine hlast ⟨?_, ?_⟩
      · rw [Nat.mul_comm, Nat.mul_add_div b.entries_pos, Nat.div_eq_of_lt hi]
        omega
      · rw [Nat.mul_comm, Nat.mul_add_mod, Nat.mod_eq_of_lt hi]
    rw [if_neg hlast]
    refine if_congr (and_congr_right fun hj => and_congr_right fun hi => ?_) rfl rfl
    have hne := hindex hj hi
    omega

theorem Words.fill (n k : Nat) (h : Words b image.tables word s) (hk : k + n ≤ 1024)
    (hzero : ∀ m, k ≤ m → m < 1024 → word (b.upperTables + m / b.entries) (m % b.entries) = 0) :
    Words b image.tables (filledWord b k n word)
      (fillPageTable b n (image.tablePhysical b.upperTables + b.entrySize * k) (pageSize * k + 3) s) := by
  induction n generalizing k word s with
  | zero =>
      intro j i hj
      rw [fillPageTable, h j i hj, filledWord, if_neg (by omega)]
  | succ n ih =>
      have hentries := b.entries_pos
      have hupper : b.upperTables + k / b.entries < b.bootTables := Build.kernelTable_lt (b := b) (by omega)
      have haddress : image.tablePhysical b.upperTables + b.entrySize * k =
          pageSize * (image.tables + (b.upperTables + k / b.entries)) + b.entrySize * (k % b.entries) := by
        have hsplit : b.entrySize * (b.entries * (k / b.entries) + k % b.entries) = b.entrySize * k := by
          rw [Nat.div_add_mod]
        rw [Nat.mul_add, ← Nat.mul_assoc, Build.entrySize_mul_entries] at hsplit
        rw [image.tablePhysical_eq, ← hsplit]
        simp only [Nat.mul_add, Nat.add_assoc]
      have hmov := h.mov (e := bootEntry k) hupper (Nat.mod_lt k hentries) (hzero k le_rfl (by omega))
      rw [← haddress] at hmov
      have hlt := image.tables_lt
      have hsize : b.entrySize * k < pageSize * 1024 := by
        cases b <;> simp only [Build.entrySize, pageSize] <;> omega
      have hedi : (image.tablePhysical b.upperTables + b.entrySize * k + b.entrySize) % 2 ^ 32 =
          image.tablePhysical b.upperTables + b.entrySize * (k + 1) := by
        rw [Nat.mod_eq_of_lt, Nat.mul_succ, Nat.add_assoc]
        rw [image.tablePhysical_eq]
        cases b <;> simp only [Build.upperTables, Build.bootTables, Build.entries, Build.entrySize, pageSize] at * <;>
          omega
      have heax : (pageSize * k + 3 + 0x1000) % 2 ^ 32 = pageSize * (k + 1) + 3 := by
        rw [pageSize]
        omega
      rw [← filledWord_succ, fillPageTable, hedi, heax, ← bootEntry_eq (f := k)]
      refine ih (k + 1) hmov (by omega) fun m hkm hm => ?_
      rw [if_neg, hzero m (by omega) hm]
      rintro ⟨hdiv, hmod⟩
      have hm := Nat.div_add_mod m b.entries
      rw [hmod, Nat.add_left_cancel hdiv, Nat.div_add_mod] at hm
      omega

/-- The fill loop makes the words of the boot page tables. -/
theorem filledWord_all (hj : b.upperTables ≤ j) (hj' : j < b.bootTables) (hzero : word j i = 0) :
    filledWord b 0 1024 word j i = bootWord b f j i := by
  by_cases hi : i < b.entries
  · have hindex : (j - b.upperTables) * b.entries + i < 0 + 1024 := by
      cases b <;> simp only [Build.upperTables, Build.bootTables, Build.entries] at * <;> omega
    rw [filledWord, if_pos ⟨hj, hi, Nat.zero_le _, hindex⟩]
    cases b <;> simp only [Build.upperTables, Build.bootTables, Build.entries] at hj hj' hi ⊢ <;>
      interval_cases j <;> simp [bootWord, bootPage, Build.entries, hi]
  · rw [filledWord, if_neg fun hcond => hi hcond.2.1, hzero]
    cases b <;> simp only [Build.upperTables, Build.bootTables, Build.entries] at hj hj' hi <;>
      interval_cases j <;> simp [bootWord, bootPage, Build.entries, hi]

theorem Words.boot (h : Words b image.tables word s)
    (hupper : ∀ j i, j < b.upperTables → word j i = bootWord b image.tables j i)
    (hzero : ∀ j i, b.upperTables ≤ j → word j i = 0) :
    Words b image.tables (bootWord b image.tables)
      (fillPageTable b 1024 (image.tablePhysical b.upperTables) (0 ||| pageWrite ||| pagePresent) s) := by
  have hfill := h.fill 1024 0 le_rfl fun m _ _ => hzero _ _ (Nat.le_add_right _ _)
  have heax : pageSize * 0 + 3 = 0 ||| pageWrite ||| pagePresent := rfl
  rw [heax, Nat.mul_zero, Nat.add_zero] at hfill
  intro j i hj
  rw [hfill j i hj]
  by_cases hj' : b.upperTables ≤ j
  · exact filledWord_all hj' hj (hzero j i hj')
  · rw [filledWord, if_neg fun hcond => hj' hcond.1, hupper j i (Nat.lt_of_not_le hj')]

/-- The value that the boot code puts in an entry for table `j`. -/
theorem KernelImage.entry_eq (image : KernelImage b) (j : Nat) :
    image.tablePhysical j + pageWrite + pagePresent = bootEntry (image.tables + j) := by
  rw [image.tablePhysical_eq, bootEntry_eq]
  rfl

theorem Words.mov_table (h : Words b image.tables word s) (hj : j < b.bootTables) (hi : i < b.entries)
    (hzero : word j i = 0) :
    Words b image.tables (fun j' i' => if j' = j ∧ i' = i then e else word j' i')
      (s.mov b (image.tablePhysical j + b.entrySize * i) e) := by
  rw [image.tablePhysical_eq]
  exact h.mov hj hi hzero

theorem Words.setCr3 {physicalAddress : Nat} (h : Words b f word s) : Words b f word (s.setCr3 b physicalAddress) := h

theorem startKernelI386_words {image : KernelImage .i386} (h : AtBoot .i386 image s) :
    Words .i386 image.tables (bootWord .i386 image.tables) (startKernelI386 image s) := by
  have h₁ := h.tables.mov_table (j := 0) (i := 0) (e := image.tablePhysical 1 + pageWrite + pagePresent)
    (by decide) (by decide) rfl
  have h₂ := h₁.mov_table (j := 0) (i := 768) (e := image.tablePhysical 1 + pageWrite + pagePresent)
    (by decide) (by decide) rfl
  have hboot := h₂.boot (fun j i hj => ?_) fun j i hj => ?_
  · have hhigh : Build.i386.entrySize * 768 = (Build.i386.kernelVirtualBase >>> 22) * 4 := by decide
    rw [Nat.mul_zero, Nat.add_zero, hhigh] at hboot
    exact hboot.setCr3
  · obtain rfl : j = 0 := Nat.lt_one_iff.mp hj
    simp only [image.entry_eq, bootWord, true_and]
    split_ifs <;> first | rfl | omega
  · have hne : j ≠ 0 := Nat.pos_iff_ne_zero.mp hj
    simp [hne]

theorem Words.movPdpt (h : Words b f word s) : Words b f word (s.movPdpt i e) := h

/-- The entry for the second page table of the boot code. -/
theorem KernelImage.entry_succ (image : KernelImage b) (hj : j < b.bootTables) :
    (bootEntry (image.tables + j) + 0x1000) % 2 ^ 32 = bootEntry (image.tables + (j + 1)) := by
  have hlt := image.tables_lt
  rw [bootEntry_eq, bootEntry_eq, pageSize]
  omega

theorem startKernelPae_words {image : KernelImage .pae} (bootPdptAddress : Nat) (h : AtBoot .pae image s) :
    Words .pae image.tables (bootWord .pae image.tables) (startKernelPae image bootPdptAddress s) := by
  have h₀ : Words .pae image.tables (fun _ _ => 0) ((s.movPdpt 0 (image.tablePhysical 0 + pagePresent)).movPdpt 3
      (image.tablePhysical 0 + pagePresent)) := h.tables.movPdpt.movPdpt
  have h₁ := h₀.mov_table (j := 0) (i := 0) (e := image.tablePhysical 1 + pageWrite + pagePresent)
    (by decide) (by decide) rfl
  have h₂ := h₁.mov_table (j := 0) (i := 1)
    (e := (image.tablePhysical 1 + pageWrite + pagePresent + 0x1000) % 2 ^ 32) (by decide) (by decide) rfl
  have hboot := h₂.boot (fun j i hj => ?_) fun j i hj => ?_
  · have hsecond : Build.pae.entrySize * 1 = 8 := rfl
    rw [Nat.mul_zero, Nat.add_zero, hsecond] at hboot
    exact hboot.setCr3
  · obtain rfl : j = 0 := Nat.lt_one_iff.mp hj
    simp only [image.entry_eq, image.entry_succ (j := 1) (by decide), bootWord, true_and]
    split_ifs <;> first | rfl | omega
  · have hne : j ≠ 0 := Nat.pos_iff_ne_zero.mp hj
    simp [hne]

theorem startKernelX86_64_words {image : KernelImage .x86_64} (h : AtBoot .x86_64 image s) :
    Words .x86_64 image.tables (bootWord .x86_64 image.tables) (startKernelX86_64 image s) := by
  have h₁ := h.tables.mov_table (j := 0) (i := 0) (e := image.tablePhysical 1 + pageWrite + pagePresent)
    (by decide) (by decide) rfl
  have h₂ := h₁.mov_table (j := 0) (i := 511) (e := image.tablePhysical 1 + pageWrite + pagePresent)
    (by decide) (by decide) rfl
  have h₃ := h₂.mov_table (j := 1) (i := 0) (e := image.tablePhysical 2 + pageWrite + pagePresent)
    (by decide) (by decide) rfl
  have h₄ := h₃.mov_table (j := 1) (i := 511) (e := image.tablePhysical 2 + pageWrite + pagePresent)
    (by decide) (by decide) rfl
  have h₅ := h₄.mov_table (j := 2) (i := 0) (e := image.tablePhysical 3 + pageWrite + pagePresent)
    (by decide) (by decide) rfl
  have h₆ := h₅.mov_table (j := 2) (i := 1)
    (e := (image.tablePhysical 3 + pageWrite + pagePresent + 0x1000) % 2 ^ 32) (by decide) (by decide) rfl
  have hboot := h₆.boot (fun j i hj => ?_) fun j i hj => ?_
  · have hsecond : Build.x86_64.entrySize * 1 = 8 := rfl
    have hlast : Build.x86_64.entrySize * 511 = 511 * 8 := by decide
    rw [Nat.mul_zero, Nat.add_zero, Nat.add_zero, Nat.add_zero, hsecond, hlast] at hboot
    exact hboot.setCr3
  · have hj : j < 3 := hj
    simp only [image.entry_eq, image.entry_succ (j := 3) (by decide)]
    interval_cases j <;> norm_num [bootWord] <;> split_ifs <;> omega
  · have hj : 3 ≤ j := hj
    have hzero : j ≠ 0 := by omega
    have hone : j ≠ 1 := by omega
    have htwo : j ≠ 2 := by omega
    simp [hzero, hone, htwo]

theorem fillPageTable_same (n edi eax : Nat) (s : Machine) :
    fillPageTable b n edi eax s = { s with mem := (fillPageTable b n edi eax s).mem } := by
  induction n generalizing edi eax s with
  | zero => rw [fillPageTable]
  | succ n ih =>
      rw [fillPageTable, ih]
      rfl

theorem startKernelI386_same (image : KernelImage .i386) (s : Machine) : ∃ mem, startKernelI386 image s =
    { s with mem := mem, cr3 := image.tablePhysical 0, tlb := [] } := by
  refine ⟨(startKernelI386 image s).mem, ?_⟩
  rw [startKernelI386, fillPageTable_same]
  rfl

theorem startKernelX86_64_same (image : KernelImage .x86_64) (s : Machine) : ∃ mem, startKernelX86_64 image s =
    { s with mem := mem, cr3 := image.tablePhysical 0, tlb := [] } := by
  refine ⟨(startKernelX86_64 image s).mem, ?_⟩
  rw [startKernelX86_64, fillPageTable_same]
  rfl

theorem startKernelPae_same (image : KernelImage .pae) (bootPdptAddress : Nat) (s : Machine) :
    let bootPdpt := ((s.movPdpt 0 (image.tablePhysical 0 + pagePresent)).movPdpt 3
      (image.tablePhysical 0 + pagePresent)).bootPdpt
    ∃ mem, startKernelPae image bootPdptAddress s =
      { s with mem := mem, cr3 := bootPdptAddress, tlb := [], bootPdpt := bootPdpt, pdpte := bootPdpt } := by
  refine ⟨(startKernelPae image bootPdptAddress s).mem, ?_⟩
  rw [startKernelPae, fillPageTable_same]
  rfl

theorem movPdpt_bootPdpt (hzero : ∀ i, s.bootPdpt i = 0) :
    ((s.movPdpt 0 e).movPdpt 3 e).bootPdpt i = if i = 0 ∨ i = 3 then e else 0 := by
  have hput : Build.pae.putDword 0 0 e = e := putDword_zero (by decide)
  by_cases hthree : i = 3
  · subst hthree
    simp [Machine.movPdpt, hzero, hput]
  · by_cases hfirst : i = 0
    · subst hfirst
      simp [Machine.movPdpt, hzero, hput]
    · simp [Machine.movPdpt, hzero, hthree, hfirst]

/-- `_start_kernel` leaves the tables that `vmm_init` expects. -/
theorem startKernel_atKernelEarly (h : AtBoot b image s) (bootPdptAddress : Nat) :
    AtKernelEarly b image (startKernel b image bootPdptAddress s) := by
  cases b with
  | i386 =>
      obtain ⟨mem, hsame⟩ := startKernelI386_same image s
      have hwords := startKernelI386_words h
      rw [startKernel]
      rw [hsame] at hwords ⊢
      exact ⟨hwords, fun _ => image.tablePhysical_eq 0, nofun, nofun, h.pmmStackTop, h.nextAlloc, h.handedOut⟩
  | pae =>
      obtain ⟨mem, hsame⟩ := startKernelPae_same image bootPdptAddress s
      have hwords := startKernelPae_words bootPdptAddress h
      rw [startKernel]
      rw [hsame] at hwords ⊢
      refine ⟨hwords, nofun, fun _ i => ?_, fun _ => rfl, h.pmmStackTop, h.nextAlloc, h.handedOut⟩
      show ((s.movPdpt 0 _).movPdpt 3 _).bootPdpt i = _
      rw [movPdpt_bootPdpt (h.bootPdpt rfl), image.tablePhysical_eq, lor_flags (Nat.mul_mod_right _ _) (by decide)]
      rfl
  | x86_64 =>
      obtain ⟨mem, hsame⟩ := startKernelX86_64_same image s
      have hwords := startKernelX86_64_words h
      rw [startKernel]
      rw [hsame] at hwords ⊢
      exact ⟨hwords, fun _ => image.tablePhysical_eq 0, nofun, nofun, h.pmmStackTop, h.nextAlloc, h.handedOut⟩

/-! ### The address space -/

/-- The addresses that the hardware accepts. -/
def Build.Canonical : Build → Nat → Prop
  | .i386, va | .pae, va => va < 2 ^ 32
  | .x86_64, va => Build.x86_64.InTree va

/-- The table that the hardware walk of an address passes at depth `d`. -/
def Machine.walkTable (b : Build) (s : Machine) (va d : Nat) : Option Nat :=
  (s.top b va).bind fun top => follow s.next top ((b.path va).take d)

/-- The pages of the boot code's tables. -/
def KernelImage.InTables {b : Build} (image : KernelImage b) (va : Nat) : Prop :=
  ∃ j < b.bootTables, va / pageSize = image.tableAddress j / pageSize

/-- The kernel's 4 MB less the boot tables are mapped, and nothing else but the windows, which show the
entries of every walk. -/
structure KernelSpace (b : Build) (image : KernelImage b) (s : Machine) : Prop where
  kernel : ∀ va, b.InKernel va → ¬ image.InTables va →
    ∃ f, s.translate b va = some f ∧ pageSize * f + va % pageSize = va - b.kernelVirtualBase
  other : ∀ va, ¬ (b.pageTableStart ≤ va ∧ va ≤ b.pageTableEnd) → ¬ (b.InKernel va ∧ ¬ image.InTables va) →
    s.translate b va = none
  window : ∀ va d, b.Canonical va → d < b.levels →
    s.translate b (b.entryVa (b.levels - d) va) = s.walkTable b va d ∧
      b.wordIndex (b.entryVa (b.levels - d) va) = (b.path va).getD d 0

theorem Build.inWindow_bounds (hva : b.InTree va) (hwindow : b.InWindow va) :
    b.pageTableStart ≤ va ∧ va ≤ b.pageTableEnd := by
  cases b <;> simp [InTree, InWindow, path, recursiveIndex, pageTableStart, pageTableEnd] at * <;> omega

theorem KernelImage.inTables_iff (image : KernelImage b) (hva : b.InKernel va) :
    image.InTables va ↔ image.tables ≤ b.kernelFrame va ∧ b.kernelFrame va < image.tables + b.bootTables := by
  constructor
  · rintro ⟨j, hj, hpage⟩
    obtain ⟨hkernel, hframe⟩ := image.inKernel hj
    obtain ⟨-, heq⟩ := hkernel.page_iff.mp hpage
    omega
  · rintro ⟨hle, hlt⟩
    obtain ⟨hkernel, hframe⟩ := image.inKernel (j := b.kernelFrame va - image.tables) (by omega)
    exact ⟨_, by omega, hkernel.page_iff.mpr ⟨hva, by omega⟩⟩

theorem tablePath_head (hj : j < b.bootTables) : (tablePath b j).head? ≠ some b.recursiveIndex := by
  cases b <;> simp only [Build.bootTables] at hj <;> interval_cases j <;> decide

section Tables

variable {gone : List Nat} (h : KernelTables b image gone s)

include h

/-- Every table below the top is one of the boot code's. -/
theorem KernelTables.path_of_follow {p : List Nat} (hp : p.length < b.levels)
    (hown : p.head? ≠ some b.recursiveIndex) (hf : follow s.next (s.root b) p = some f) :
    ∃ j < b.bootTables, p = tablePath b j := by
  obtain ⟨hle, hlt⟩ := (h.isTable f).mp ⟨p, hp, hf⟩
  have hj : f - image.tables < b.bootTables := by omega
  have htable := h.table _ hj
  rw [Nat.add_sub_cancel' hle] at htable
  exact ⟨_, hj, h.tree.tree.unique p _ f hp (tablePath_lt b _) hown (tablePath_head hj) hf htable⟩

theorem KernelTables.translate_last (hva : b.InTree va) (hwindow : ¬ b.InWindow va) :
    s.translate b va =
      if b.InKernel va ∧ b.kernelFrame va ∉ gone then some (b.kernelFrame va) else none := by
  have hlast := h.last va hva hwindow
  by_cases hkernel : b.InKernel va
  · rw [if_pos hkernel] at hlast
    rw [translate_of_last hlast]
    by_cases hgone : b.kernelFrame va ∈ gone
    · rw [if_pos hgone, if_neg fun hcond => hcond.2 hgone]
      rfl
    · rw [if_neg hgone, if_pos ⟨hkernel, hgone⟩, entryFrame_bootEntry]
  · rw [if_neg hkernel] at hlast
    rw [if_neg fun hcond => hkernel hcond.1, translate_eq_leafEntry, Machine.leafEntry, hlast]
    rfl

omit h in
/-- On PAE the directories below kernel space are not there, nor are their windows. -/
theorem KernelTables.window_low {image : KernelImage .pae} {s : Machine} (h : KernelTables .pae image gone s)
    (hva : va < 0xC0000000) {d : Nat} (hd : d < 2) :
    s.translate .pae (Build.pae.entryVa (2 - d) va) = none := by
  -- The slot of the directory in the directory of kernel space is empty.
  have hslot : s.next (s.root .pae) (508 + va / 2 ^ 30) = none := by
    cases hnext : s.next (s.root .pae) (508 + va / 2 ^ 30) with
    | none => rfl
    | some f =>
        have hfollow : follow s.next (s.root .pae) [508 + va / 2 ^ 30] = some f := by
          rw [follow, hnext]
          rfl
        have hown : ([508 + va / 2 ^ 30] : List Nat).head? ≠ some Build.pae.recursiveIndex := by
          rw [List.head?_cons]
          intro heq
          have hindex : 508 + va / 2 ^ 30 = 511 := Option.some.inj heq
          omega
        obtain ⟨j, hj, hpath⟩ := h.path_of_follow (p := [508 + va / 2 ^ 30]) Nat.one_lt_two hown hfollow
        simp only [Build.bootTables] at hj
        interval_cases j <;> simp only [tablePath, List.cons.injEq, and_true, reduceCtorEq] at hpath <;> omega
  have htree : Build.pae.InTree (Build.pae.entryVa (2 - d) va) := by
    interval_cases d <;> simp only [Build.InTree, Build.entryVa, Build.entryAddress, Build.index_eq,
      Build.vmmPageMappings, Build.entrySize] <;> omega
  rw [h.tree.translate_eq htree]
  interval_cases d
  · have hpath : Build.pae.path (Build.pae.entryVa (2 - 0) va) = [511, 508 + va / 2 ^ 30] := by
      simp [Build.entryVa, Build.entryAddress, Build.index_eq, Build.path, Build.vmmPageMappings,
        Build.entrySize]
      omega
    have hown : s.next (s.root .pae) 511 = some (s.root .pae) := h.tree.tree.recursive
    rw [hpath, follow, hown, Option.bind_some, follow, hslot]
    rfl
  · have hpath : Build.pae.path (Build.pae.entryVa (2 - 1) va) = [508 + va / 2 ^ 30, va / 2 ^ 21 % 512] := by
      simp [Build.entryVa, Build.entryAddress, Build.index_eq, Build.path, Build.vmmPageMappings,
        Build.entrySize]
      omega
    rw [hpath, follow, hslot]
    rfl

theorem KernelTables.window (hva : b.Canonical va) {d : Nat} (hd : d < b.levels) :
    s.translate b (b.entryVa (b.levels - d) va) = s.walkTable b va d ∧
      b.wordIndex (b.entryVa (b.levels - d) va) = (b.path va).getD d 0 := by
  by_cases htree : b.InTree va
  · refine ⟨?_, Build.wordIndex_entryVa hd htree⟩
    rw [h.tree.translate_entryVa hd htree, Machine.walkTable, h.tree.directory.top, if_pos htree]
    rfl
  · cases b with
    | i386 => exact absurd hva htree
    | x86_64 => exact absurd hva htree
    | pae =>
        have hlow : va < 0xC0000000 := by
          rw [Build.InTree.eq_def] at htree
          rw [Build.Canonical.eq_def] at hva
          dsimp only at htree hva
          omega
        refine ⟨?_, ?_⟩
        · rw [Machine.walkTable, h.tree.directory.top, if_neg htree]
          exact h.window_low hlow hd
        · have hd : d < 2 := hd
          interval_cases d <;> simp [Build.wordIndex, Build.levels, pageSize, Build.entryVa, Build.entryAddress,
            Build.index_eq, Build.path, Build.vmmPageMappings, Build.entrySize] <;> omega

theorem KernelTables.kernelSpace (hgone : ∀ f, f ∈ gone ↔ image.tables ≤ f ∧ f < image.tables + b.bootTables) :
    KernelSpace b image s := by
  refine ⟨fun va hkernel hout => ?_, fun va houtside hnot => ?_, fun va d hva hd => h.window hva hd⟩
  · have hmem : b.kernelFrame va ∉ gone := by rwa [hgone, ← image.inTables_iff hkernel]
    rw [h.translate_last hkernel.inTree hkernel.not_inWindow, if_pos ⟨hkernel, hmem⟩]
    refine ⟨_, rfl, ?_⟩
    obtain ⟨hle, -⟩ := hkernel
    cases b <;> simp only [Build.kernelFrame, Build.kernelVirtualBase, pageSize] at * <;> omega
  · by_cases hva : b.InTree va
    · rw [h.translate_last hva fun hwindow => houtside (Build.inWindow_bounds hva hwindow), if_neg]
      rintro ⟨hkernel, hmem⟩
      rw [hgone, ← image.inTables_iff hkernel] at hmem
      exact hnot ⟨hkernel, hmem⟩
    · exact h.tree.translate_of_not hva

end Tables

theorem kernelSpace_exact (h : AtBoot b image s) (bootPdptAddress : Nat) (map : List MemoryMapEntry) (n : Nat) :
    wp (kernelEarly (resolveWrite b (n + 2)) b image map) (startKernel b image bootPdptAddress s)
      (fun _ s' => KernelSpace b image s')
      (fun e => e = .noMemoryAvailable ∧ (pmmInitState b image.imageEnd map).pmmFreeMemory = 0) := by
  have h₀ := startKernel_atKernelEarly h bootPdptAddress
  rw [kernelEarly, wp_bind]
  have hinit := pmmInit_eq image map (startKernel b image bootPdptAddress s)
  split at hinit
  · rename_i hfree
    unfold wp
    rw [hinit]
    exact ⟨rfl, hfree⟩
  · rw [wp_of_ok hinit]
    obtain ⟨s', hvmm, ⟨gone, htables, hgone⟩, -⟩ := vmmInit_ok (h₀.pmmInit map) (resolveWrite_resolves (n + 1))
    rw [wp_of_ok hvmm]
    exact htables.kernelSpace hgone

/-- A machine as it is when `_start_kernel` begins. -/
def zeroedMachine (b : Build) : Machine where
  mem _ _ := 0
  cr3 := 0
  pdpte _ := 0
  tlb := []
  bootPdpt _ := 0
  pmmStackTop := b.pmmStackVma
  pmmFreeMemory := 0
  sFreeMemory := []
  nextAlloc := b.kernelHeapBegin
  handedOut := []

theorem zeroedMachine_atBoot : AtBoot b image (zeroedMachine b) :=
  ⟨fun _ _ _ => rfl, fun _ _ => rfl, rfl, rfl, rfl⟩

theorem kernelSpace_exact_small : ∃ s', kernelEarly (resolveWrite .pae 2) .pae (smallImage .pae) smallMap
    (startKernel .pae (smallImage .pae) 0x113000 (zeroedMachine .pae)) = .ok (⟨⟩, s') ∧
      KernelSpace .pae (smallImage .pae) s' := by
  have hboot : AtBoot .pae (smallImage .pae) (zeroedMachine .pae) := zeroedMachine_atBoot
  have hspec := kernelSpace_exact hboot 0x113000 smallMap 0
  have hfree : ∀ image : KernelImage .pae, (pmmInitState .pae image.imageEnd smallMap).pmmFreeMemory =
      pageSize * (image.pool smallMap).length := fun _ => pmmInitState_free smallMap_low smallMap_disjoint
  have hpos : 0 < ((smallImage .pae).pool smallMap).length := List.length_pos_of_mem smallMap_pool
  obtain ⟨⟨⟩, s', hrun, hspace⟩ := (hspec.mono (fun _ _ hspace => hspace) fun e he => by
    have hzero := he.2
    rw [hfree, pageSize] at hzero
    omega).returns
  exact ⟨s', hrun, hspace⟩

end Kiznix.Memory
