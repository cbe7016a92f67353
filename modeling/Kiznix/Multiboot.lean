import Kiznix.X86Blocks
import Mathlib.Tactic.MkIffOfInductiveProp

/-! The memory map that `_start` in `boot.asm` copies from the boot loader, instruction by instruction. -/

namespace Kiznix.Multiboot

open ByteMemory X86

def maxMemoryMapEntries : BitVec 32 := 256

/-- `MULTIBOOT_BOOTLOADER_MAGIC`. -/
def multibootBootloaderMagic : BitVec 32 := 0x2BADB002

def multibootInfoMemMap : BitVec 32 := 0x40

def multibootMemoryAvailable : BitVec 32 := 1

/-- Offsets in `multiboot_info`. -/
def Info.flags : BitVec 32 := 0
def Info.mmapLength : BitVec 32 := 44
def Info.mmapAddr : BitVec 32 := 48

/-- Offsets in `multiboot_mmap_entry`. -/
def MmapEntry.size : BitVec 32 := 0
def MmapEntry.addr : BitVec 32 := 4
def MmapEntry.len : BitVec 32 := 12
def MmapEntry.type : BitVec 32 := 20

inductive Label where
  | start
  | memoryMapLoop
  | nextEntry
  | memoryMapDone
  | startKernel
  | noMultiboot
  | noMemoryMap

open X86.Instr Operand in
/-- `_start` without the stack pointer and the FPU; `_BootMemoryMapSize` is at `bss`, and `_BootMemoryMap` comes
right after it. -/
def code (bss : BitVec 32) : Label → Option (Block Label)
  | .start => some {
      body := [
        cmp (reg .eax) (imm multibootBootloaderMagic),
        jcc .notEqual .noMultiboot,
        test (mem .ebx Info.flags) (imm multibootInfoMemMap),
        jcc .equal .noMemoryMap,
        mov .edx (mem .ebx Info.mmapLength),
        mov .esi (mem .ebx Info.mmapAddr),
        add .edx (reg .esi),
        mov .edi (imm (bss + 4)),
        xor .ecx (reg .ecx)]
      next := .memoryMapLoop }
  | .memoryMapLoop => some {
      body := [
        cmp (reg .ecx) (imm maxMemoryMapEntries),
        jcc .equal .memoryMapDone,
        cmp (reg .esi) (reg .edx),
        jcc .aboveEqual .memoryMapDone,
        mov .eax (mem .esi MmapEntry.type),
        cmp (reg .eax) (imm multibootMemoryAvailable),
        jcc .notEqual .nextEntry,
        mov .eax (mem .esi MmapEntry.addr),
        mov .ebx (mem .esi (MmapEntry.addr + 4)),
        store .edi 0 .eax,
        store .edi 4 .ebx,
        mov .eax (mem .esi MmapEntry.len),
        mov .ebx (mem .esi (MmapEntry.len + 4)),
        store .edi 8 .eax,
        store .edi 12 .ebx,
        lea .edi .edi 16,
        inc .ecx]
      next := .nextEntry }
  | .nextEntry => some {
      body := [
        add .esi (mem .esi MmapEntry.size),
        add .esi (imm 4),
        jmp .memoryMapLoop]
      next := .memoryMapDone }
  | .memoryMapDone => some {
      body := [storeAt bss .ecx]
      next := .startKernel }
  | .startKernel | .noMultiboot | .noMemoryMap => none

/-! ### The memory map -/

/-- An entry of the memory map. -/
structure Entry where
  size : Nat
  addr : Nat
  len : Nat
  type : Nat

/-- The buffer at `p` holds the entries one after the other. -/
def Holds (m : Memory) : Nat → List Entry → Prop
  | _, [] => True
  | p, e :: entries => load m p 4 = e.size ∧ load m (p + 4) 8 = e.addr ∧ load m (p + 12) 8 = e.len ∧
      load m (p + 20) 4 = e.type ∧ 20 ≤ e.size ∧ Holds m (p + (e.size + 4)) entries

/-- The bytes of the buffer. -/
def total (entries : List Entry) : Nat := (entries.map fun e => e.size + 4).sum

/-- The entries that go into the kernel's map. -/
def available (entries : List Entry) : List Entry := entries.filter (·.type = 1)

/-- Entries in the kernel's map: `base` and `length`. -/
def fields (entries : List Entry) : List Field := entries.flatMap fun e => [(8, e.addr), (8, e.len)]

/-! ### Blocks -/

variable {bss : BitVec 32} {m : Machine} {p stop dst k : Nat}

/-- The registers between the entries: the next entry, the end of the buffer, the next place and the number of
entries in the kernel's map. -/
structure At (m : Machine) (p stop dst k : Nat) : Prop where
  esi : (m.reg .esi).toNat = p
  edx : (m.reg .edx).toNat = stop
  edi : (m.reg .edi).toNat = dst
  ecx : (m.reg .ecx).toNat = k

theorem toNat_add {v i : BitVec 32} {a : Nat} (hv : v.toNat = a) (n : Nat) (hi : i.toNat = n) (hlt : a + n < 2 ^ 32) :
    (v + i).toNat = a + n := by
  rw [BitVec.toNat_add, hv, hi, Nat.mod_eq_of_lt hlt]

theorem value_mem {r : Reg} {i : BitVec 32} {a : Nat} (ha : (m.reg r + i).toNat = a) :
    m.value (.mem r i) = BitVec.ofNat 32 (load m.mem a 4) := by
  rw [Machine.value, ha]

theorem ofNat_load {mem : Memory} : (BitVec.ofNat 32 (load mem p 4)).toNat = load mem p 4 :=
  (BitVec.toNat_ofNat _ _).trans (Nat.mod_eq_of_lt load_lt)

section At

variable (bss) (h : At m p stop dst k)

include h

theorem At.full_iff : m.value (.reg .ecx) = m.value (.imm maxMemoryMapEntries) ↔ k = 256 := by
  rw [← h.ecx]
  exact ⟨fun heq => congrArg BitVec.toNat heq, fun heq => BitVec.eq_of_toNat_eq heq⟩

theorem At.before_iff : (m.value (.reg .esi)).toNat < (m.value (.reg .edx)).toNat ↔ p < stop := by
  rw [← h.esi, ← h.edx]
  rfl

theorem At.compare (a b : Operand) : At (m.compare a b) p stop dst k := ⟨h.esi, h.edx, h.edi, h.ecx⟩

/-- The loop ends when the kernel's map is full or there is no entry left. -/
theorem At.reaches_done (hdone : k = 256 ∨ stop ≤ p) :
    ∃ m', Reaches (code bss) .memoryMapLoop m .memoryMapDone m' ∧ At m' p stop dst k ∧ m'.mem = m.mem := by
  by_cases hk : k = 256
  · exact ⟨_, .of_exec rfl (exec_cmp_je.trans (if_pos (h.full_iff.mpr hk))), h.compare _ _, rfl⟩
  · have hroom := h.full_iff.not.mpr hk
    have hcompare := h.compare (.reg .ecx) (.imm maxMemoryMapEntries)
    have hend := hcompare.before_iff.not.mpr (Nat.not_lt.mpr (hdone.resolve_left hk))
    exact ⟨_, .of_exec rfl ((exec_cmp_je.trans (if_neg hroom)).trans (exec_cmp_jae.trans (if_neg hend))),
      hcompare.compare _ _, rfl⟩

theorem At.exec_entry (hk : k ≠ 256) (hlt : p < stop) (next : Label) (body : List (X86.Instr Label)) :
    X86.exec next (.cmp (.reg .ecx) (.imm maxMemoryMapEntries) :: .jcc .equal .memoryMapDone ::
      .cmp (.reg .esi) (.reg .edx) :: .jcc .aboveEqual .memoryMapDone :: body) m =
    X86.exec next body ((m.compare (.reg .ecx) (.imm maxMemoryMapEntries)).compare (.reg .esi) (.reg .edx)) := by
  have hroom := h.full_iff.not.mpr hk
  have hcompare := h.compare (.reg .ecx) (.imm maxMemoryMapEntries)
  have hbefore := hcompare.before_iff.mpr hlt
  rw [exec_cmp_je, if_neg hroom, exec_cmp_jae, if_pos hbefore]

/-- The type of an entry is read and compared. -/
theorem At.exec_type (hfit : p + 20 < 2 ^ 32) (next : Label) (body : List (X86.Instr Label)) :
    ∃ m', At m' p stop dst k ∧ m'.mem = m.mem ∧
      X86.exec next (.mov .eax (.mem .esi MmapEntry.type) :: .cmp (.reg .eax) (.imm multibootMemoryAvailable) ::
        .jcc .notEqual .nextEntry :: body) m =
      if load m.mem (p + 20) 4 = 1 then X86.exec next body m' else (.nextEntry, m') := by
  have hvalue := value_mem (m := m) (toNat_add (i := MmapEntry.type) h.esi 20 rfl hfit)
  have hafter : At (m.setReg .eax (m.value (.mem .esi MmapEntry.type))) p stop dst k := ⟨h.esi, h.edx, h.edi, h.ecx⟩
  refine ⟨_, hafter.compare (.reg .eax) (.imm multibootMemoryAvailable), rfl, ?_⟩
  have hiff : (m.setReg .eax (m.value (.mem .esi MmapEntry.type))).value (.reg .eax) =
      (m.setReg .eax (m.value (.mem .esi MmapEntry.type))).value (.imm multibootMemoryAvailable) ↔
        load m.mem (p + 20) 4 = 1 := by
    show m.value (.mem .esi MmapEntry.type) = multibootMemoryAvailable ↔ _
    rw [hvalue, ← BitVec.toNat_inj, ofNat_load]
    rfl
  show X86.exec next (_ :: _ :: body) (m.setReg .eax (m.value (.mem .esi MmapEntry.type))) = _
  rw [exec_cmp_jne]
  simp only [hiff]

/-- Eight bytes go from the entry to the kernel's map. -/
theorem At.exec_qword (a b : Nat) (i i' j j' : BitVec 32) (hi : i.toNat = a) (hi' : i'.toNat = a + 4) (hj : j.toNat = b)
    (hj' : j'.toNat = b + 4) (hp : p + (a + 4) < 2 ^ 32) (hdst : dst + (b + 4) < 2 ^ 32) (next : Label)
    (body : List (X86.Instr Label)) : ∃ m', At m' p stop dst k ∧
      m'.mem = store m.mem (dst + b) 8 (load m.mem (p + a) 8) ∧
      X86.exec next (.mov .eax (.mem .esi i) :: .mov .ebx (.mem .esi i') :: .store .edi j .eax :: .store .edi j' .ebx ::
        body) m = X86.exec next body m' := by
  refine ⟨_, ?_, ?_, exec_copy_qword .eax .ebx .esi .edi (by decide) (by decide) (by decide) (by decide)
    (toNat_add h.esi a hi (by omega)) (toNat_add h.esi (a + 4) hi' hp) (toNat_add h.edi b hj (by omega))
    (toNat_add h.edi (b + 4) hj' hdst)⟩
  · exact ⟨h.esi, h.edx, h.edi, h.ecx⟩
  · rfl

/-- An entry that is not available is passed over. -/
theorem At.reaches_skip (hk : k ≠ 256) (hlt : p < stop) (hfit : p + 20 < 2 ^ 32) (htype : load m.mem (p + 20) 4 ≠ 1) :
    ∃ m', Reaches (code bss) .memoryMapLoop m .nextEntry m' ∧ At m' p stop dst k ∧ m'.mem = m.mem := by
  have hcompare := (h.compare (.reg .ecx) (.imm maxMemoryMapEntries)).compare (.reg .esi) (.reg .edx)
  obtain ⟨m', hat, hmem, hexec⟩ := hcompare.exec_type hfit .nextEntry _
  exact ⟨m', .of_exec rfl ((h.exec_entry hk hlt _ _).trans (hexec.trans (if_neg htype))), hat, hmem⟩

/-- An available entry is copied. -/
theorem At.reaches_copy (hk : k < 256) (hlt : p < stop) (hfit : p + 24 < 2 ^ 32) (htype : load m.mem (p + 20) 4 = 1)
    (hdst : dst + 16 < 2 ^ 32) (hapart : p + 24 ≤ dst ∨ dst + 16 ≤ p) :
    ∃ m', Reaches (code bss) .memoryMapLoop m .nextEntry m' ∧ At m' p stop (dst + 16) (k + 1) ∧
      m'.mem = store (store m.mem dst 8 (load m.mem (p + 4) 8)) (dst + 8) 8 (load m.mem (p + 12) 8) := by
  have hcompare := (h.compare (.reg .ecx) (.imm maxMemoryMapEntries)).compare (.reg .esi) (.reg .edx)
  obtain ⟨m₁, hat, hmem, hexec⟩ := hcompare.exec_type (by omega) .nextEntry _
  obtain ⟨m₂, hat₂, hmem₂, hexec₂⟩ := hat.exec_qword 4 0 MmapEntry.addr (MmapEntry.addr + 4) 0 4 rfl rfl rfl rfl
    (by omega) (by omega) .nextEntry _
  obtain ⟨m₃, hat₃, hmem₃, hexec₃⟩ := hat₂.exec_qword 12 8 MmapEntry.len (MmapEntry.len + 4) 8 12 rfl rfl rfl
    rfl (by omega) (by omega) .nextEntry _
  have hlen : load m₂.mem (p + 12) 8 = load m.mem (p + 12) 8 := by
    rw [hmem₂, load_store_outside (by omega), hmem]
    rfl
  refine ⟨_, .of_exec rfl ((h.exec_entry (by omega) hlt _ _).trans (hexec.trans ((if_pos htype).trans
    (hexec₂.trans (hexec₃.trans rfl))))), ⟨hat₃.esi, hat₃.edx, ?_, ?_⟩, ?_⟩
  · exact toNat_add hat₃.edi 16 rfl hdst
  · exact toNat_add hat₃.ecx 1 rfl (by omega)
  · show m₃.mem = _
    rw [hmem₃, hlen, hmem₂, hmem]
    rfl

/-- On to the next entry. -/
theorem At.reaches_next (hfit : p + load m.mem p 4 + 4 < 2 ^ 32) :
    ∃ m', Reaches (code bss) .nextEntry m .memoryMapLoop m' ∧ At m' (p + (load m.mem p 4 + 4)) stop dst k ∧
      m'.mem = m.mem := by
  have hvalue : (m.value (.mem .esi MmapEntry.size)).toNat = load m.mem p 4 := by
    rw [value_mem (toNat_add h.esi 0 rfl (by omega)), ofNat_load, Nat.add_zero]
  refine ⟨_, .of_exec rfl rfl, ⟨?_, h.edx, h.edi, h.ecx⟩, rfl⟩
  show (m.reg .esi + m.value (.mem .esi MmapEntry.size) + 4).toNat = _
  rw [← Nat.add_assoc]
  exact toNat_add (toNat_add h.esi _ hvalue (by omega)) 4 rfl hfit

end At

/-! ### The whole loop -/

variable {mem mem' : Memory} {entries : List Entry} {e : Entry}

theorem total_cons : total (e :: entries) = e.size + 4 + total entries := by
  rw [total, List.map_cons, List.sum_cons]
  rfl

theorem Holds.congr (h : Holds mem p entries) (hmem : ∀ x, p ≤ x → x < p + total entries → mem' x = mem x) :
    Holds mem' p entries := by
  induction entries generalizing p with
  | nil => trivial
  | cons e entries ih =>
      obtain ⟨hsize, haddr, hlen, htype, hmin, hrest⟩ := h
      rw [total_cons] at hmem
      refine ⟨?_, ?_, ?_, ?_, hmin, ih hrest fun x hlow hhigh => hmem x (by omega) (by omega)⟩
      · rw [load_congr fun x hlow hhigh => hmem x (by omega) (by omega), hsize]
      · rw [load_congr fun x hlow hhigh => hmem x (by omega) (by omega), haddr]
      · rw [load_congr fun x hlow hhigh => hmem x (by omega) (by omega), hlen]
      · rw [load_congr fun x hlow hhigh => hmem x (by omega) (by omega), htype]

/-- From the loop's head to its end: `entries` are appended to the kernel's map, and nothing else is written. -/
def LoopCopies (bss : BitVec 32) (m : Machine) (dst k : Nat) (entries : List Entry) : Prop :=
  ∃ m', Reaches (code bss) .memoryMapLoop m .memoryMapDone m' ∧ (m'.reg .ecx).toNat = k + entries.length ∧
    Laid m'.mem dst (fields entries) ∧ ∀ x, x < dst ∨ dst + 16 * entries.length ≤ x → m'.mem x = m.mem x

theorem At.copies_nil (bss : BitVec 32) (h : At m p stop dst k) (hdone : k = 256 ∨ stop ≤ p) :
    LoopCopies bss m dst k [] := by
  obtain ⟨m', hreaches, hat, hmem⟩ := h.reaches_done bss hdone
  exact ⟨m', hreaches, hat.ecx, trivial, fun x _ => by rw [hmem]⟩

theorem LoopCopies.skip {m₂ : Machine} (h : LoopCopies bss m₂ dst k entries)
    (hreaches : Reaches (code bss) .memoryMapLoop m .memoryMapLoop m₂) (hmem : m₂.mem = m.mem) :
    LoopCopies bss m dst k entries := by
  obtain ⟨m', hloop, hcount, hlaid, hframe⟩ := h
  refine ⟨m', hreaches.trans hloop, hcount, hlaid, fun x hx => ?_⟩
  rw [hframe x hx, hmem]

/-- One more entry before the others. -/
theorem LoopCopies.cons {m₂ : Machine} (h : LoopCopies bss m₂ (dst + 16) (k + 1) entries)
    (hreaches : Reaches (code bss) .memoryMapLoop m .memoryMapLoop m₂)
    (hmem : m₂.mem = store (store m.mem dst 8 e.addr) (dst + 8) 8 e.len) (haddr : e.addr < 256 ^ 8)
    (hlen : e.len < 256 ^ 8) : LoopCopies bss m dst k (e :: entries) := by
  obtain ⟨m', hloop, hcount, hlaid, hframe⟩ := h
  have hkept : ∀ x, x < dst + 16 → m'.mem x = m₂.mem x := fun x hx => hframe x (Or.inl hx)
  refine ⟨m', hreaches.trans hloop, ?_, ⟨?_, ?_, hlaid⟩, fun x hx => ?_⟩
  · rw [hcount, List.length_cons]
    omega
  · rw [load_congr fun x _ hhigh => hkept x (by omega), hmem, load_store_outside (by omega), load_store_of_lt haddr]
  · rw [load_congr fun x _ hhigh => hkept x (by omega), hmem, load_store_of_lt hlen]
  · rw [List.length_cons] at hx
    rw [hframe x (by omega), hmem, store_outside (by omega), store_outside (by omega)]

theorem available_of_eq (h : e.type = 1) : available (e :: entries) = e :: available entries :=
  List.filter_cons_of_pos (by simpa using h)

theorem available_of_ne (h : e.type ≠ 1) : available (e :: entries) = available entries :=
  List.filter_cons_of_neg (by simpa using h)

/-- As many available entries as there is room for are copied. -/
theorem At.reaches_loop (bss : BitVec 32) (h : At m p stop dst k) (hk : k ≤ 256) (hholds : Holds m.mem p entries)
    (hstop : stop = p + total entries) (hlt : stop < 2 ^ 32) (hdst : dst + 16 * (256 - k) < 2 ^ 32)
    (hapart : stop ≤ dst ∨ dst + 16 * (256 - k) ≤ p) :
    LoopCopies bss m dst k ((available entries).take (256 - k)) := by
  induction entries generalizing m p dst k with
  | nil =>
      rw [available, List.filter_nil, List.take_nil]
      exact h.copies_nil bss (Or.inr (Nat.le_of_eq hstop))
  | cons e entries ih =>
      by_cases hfull : k = 256
      · have hnone : 256 - k = 0 := by omega
        rw [hnone, List.take_zero]
        exact h.copies_nil bss (Or.inl hfull)
      obtain ⟨hsize, haddr, hlen, htype, hmin, hrest⟩ := hholds
      rw [total_cons] at hstop
      by_cases havailable : e.type = 1
      · -- One place fewer is left.
        have hroom : 256 - k = 256 - (k + 1) + 1 := by omega
        obtain ⟨m₁, hcopy, hat₁, hmem₁⟩ := h.reaches_copy bss (by omega) (by omega) (by omega)
          (htype.trans havailable) (by omega) (by omega)
        rw [haddr, hlen] at hmem₁
        have hframe₁ : ∀ x, x < dst ∨ dst + 16 ≤ x → m₁.mem x = m.mem x := by
          intro x hx
          rw [hmem₁, store_outside (by omega), store_outside (by omega)]
        have hnext : load m₁.mem p 4 = e.size := by
          rw [load_congr fun x hlow hhigh => hframe₁ x (by omega), hsize]
        obtain ⟨m₂, hstep, hat₂, hmem₂⟩ := hat₁.reaches_next bss (by omega)
        rw [hnext] at hat₂
        have hholds₂ : Holds m₂.mem (p + (e.size + 4)) entries := by
          rw [hmem₂]
          exact hrest.congr fun x hlow hhigh => hframe₁ x (by omega)
        have hloop := ih hat₂ (by omega) hholds₂ (by omega) (by omega) (by omega)
        rw [available_of_eq havailable, hroom, List.take_succ_cons]
        exact hloop.cons (hcopy.trans hstep) (hmem₂.trans hmem₁) (haddr ▸ load_lt) (hlen ▸ load_lt)
      · obtain ⟨m₁, hskip, hat₁, hmem₁⟩ := h.reaches_skip bss hfull (by omega) (by omega) (by rwa [htype])
        have hnext : load m₁.mem p 4 = e.size := by rw [hmem₁, hsize]
        obtain ⟨m₂, hstep, hat₂, hmem₂⟩ := hat₁.reaches_next bss (by omega)
        rw [hnext] at hat₂
        have hmem : m₂.mem = m.mem := hmem₂.trans hmem₁
        have hloop := ih hat₂ hk (by rwa [hmem]) (by omega) hdst (by omega)
        rw [available_of_ne havailable]
        exact hloop.skip (hskip.trans hstep) hmem

/-! ### The start of the kernel -/

/-- What the boot loader hands over in memory: a memory map at `p`, which ends at 4 GiB at the latest. -/
@[mk_iff]
structure Handover (m : Machine) (p : Nat) (entries : List Entry) : Prop where
  magic : m.reg .eax = multibootBootloaderMagic
  flags : m.value (.mem .ebx Info.flags) &&& multibootInfoMemMap ≠ 0
  addr : (m.value (.mem .ebx Info.mmapAddr)).toNat = p
  length : (m.value (.mem .ebx Info.mmapLength)).toNat = total entries
  holds : Holds m.mem p entries
  fits : p + total entries ≤ 2 ^ 32

/-- `_start` comes to its end with the first 256 available entries in the kernel's map; nothing else has changed. -/
def Copied (bss : BitVec 32) (m : Machine) (entries : List Entry) : Prop :=
  ∃ n m', (∀ fuel, n ≤ fuel → X86.run (code bss) fuel .start m = some (.startKernel, m')) ∧
    load m'.mem bss.toNat 4 = min 256 (available entries).length ∧
    Laid m'.mem (bss.toNat + 4) (fields ((available entries).take 256)) ∧
    ∀ x, x < bss.toNat ∨ bss.toNat + 4 + 16 * min 256 (available entries).length ≤ x → m'.mem x = m.mem x

theorem Handover.reaches_loop (h : Handover m p entries) (hend : p + total entries < 2 ^ 32)
    (hbss : bss.toNat + 4 < 2 ^ 32) : ∃ m', Reaches (code bss) .start m .memoryMapLoop m' ∧
      At m' p (p + total entries) (bss.toNat + 4) 0 ∧ m'.mem = m.mem := by
  have hmagic : m.value (.reg .eax) = m.value (.imm multibootBootloaderMagic) := h.magic
  have hflags : ¬ (m.compare (.reg .eax) (.imm multibootBootloaderMagic)).value (.mem .ebx Info.flags) &&&
      (m.compare (.reg .eax) (.imm multibootBootloaderMagic)).value (.imm multibootInfoMemMap) = 0 := h.flags
  refine ⟨_, .of_exec rfl ((exec_cmp_jne.trans (if_pos hmagic)).trans ((exec_test_jz.trans (if_neg hflags)).trans rfl)),
    ?_, ?_⟩
  · refine ⟨h.addr, ?_, toNat_add rfl 4 rfl hbss, ?_⟩
    · show (m.value (.mem .ebx Info.mmapLength) + m.value (.mem .ebx Info.mmapAddr)).toNat = _
      rw [toNat_add h.length p h.addr (by omega), Nat.add_comm]
    · show (m.reg .ecx ^^^ m.reg .ecx).toNat = 0
      rw [BitVec.xor_self, BitVec.toNat_zero]
  · rfl

/-- The loop ends with the available entries in the kernel's map when the memory map ends below 4 GiB and is not in
its place. -/
theorem memory_map_copied (h : Handover m p entries) (hend : p + total entries < 2 ^ 32)
    (hbss : bss.toNat + 4100 < 2 ^ 32) (hapart : p + total entries ≤ bss.toNat + 4 ∨ bss.toNat + 4100 ≤ p) :
    Copied bss m entries := by
  obtain ⟨m₁, hstart, hat, hmem₁⟩ := h.reaches_loop hend (show bss.toNat + 4 < 2 ^ 32 by omega)
  have hholds : Holds m₁.mem p entries := by
    rw [hmem₁]
    exact h.holds
  obtain ⟨m₂, hloop, hcount, hlaid, hframe⟩ := hat.reaches_loop bss (by omega) hholds rfl hend (by omega)
    (by omega)
  have hdone : Reaches (code bss) .memoryMapDone m₂ .startKernel (m₂.setDword bss (m₂.reg .ecx)) := .of_exec rfl rfl
  obtain ⟨n, hrun⟩ := (hstart.trans (hloop.trans hdone)).ends rfl
  have hlength : ((available entries).take (256 - 0)).length = min 256 (available entries).length := List.length_take
  rw [hlength] at hcount hframe
  refine ⟨n, _, hrun, ?_, ?_, fun x hx => ?_⟩
  · show load (store m₂.mem bss.toNat 4 (m₂.reg .ecx).toNat) bss.toNat 4 = _
    rw [load_store_of_lt (m₂.reg .ecx).isLt, hcount, Nat.zero_add]
  · exact hlaid.congr fun x hlow _ => store_outside (Or.inr hlow)
  · show store m₂.mem bss.toNat 4 (m₂.reg .ecx).toNat x = _
    rw [store_outside (by omega), hframe x (by omega), hmem₁]

theorem not_copied (fuel : Nat) {v : Nat}
    (hrun : (X86.run (code bss) fuel .start m).map (fun r => load r.2.mem bss.toNat 4) = some v)
    (hv : v ≠ min 256 (available entries).length) : ¬ Copied bss m entries := by
  rintro ⟨n, m', hcopied, hsize, -⟩
  obtain ⟨r, hr, hload⟩ := Option.map_eq_some_iff.mp hrun
  have hsame := run_mono hr (Nat.le_max_left fuel n)
  rw [hcopied _ (Nat.le_max_right fuel n)] at hsame
  obtain rfl := Option.some.inj hsame
  exact hv (hload.symm.trans hsize)

/-! ### Memory maps of a few entries -/

instance Holds.decidable (m : Memory) : ∀ p entries, Decidable (Holds m p entries)
  | _, [] => isTrue trivial
  | p, e :: entries =>
      have := Holds.decidable m (p + (e.size + 4)) entries
      inferInstanceAs (Decidable (_ ∧ _ ∧ _ ∧ _ ∧ _ ∧ _))

instance Handover.decidable : Decidable (Handover m p entries) := decidable_of_iff' _ (handover_iff m p entries)

/-- The registers and the flags as the boot loader leaves them, with `multiboot_info` at 0x1000. -/
def booted (mem : Memory) : Machine where
  reg
    | .eax => multibootBootloaderMagic
    | .ebx => 0x1000
    | _ => 0
  mem := mem
  zf := false
  cf := false

/-- A memory map at `p`, and what `multiboot_info` says about it; zeros follow what the kernel knows of an entry. -/
def mapMemory (p : Nat) (entries : List Entry) : Memory :=
  let buffer := entries.flatMap fun e => [(4, e.size), (8, e.addr), (8, e.len), (4, e.type), (e.size - 20, 0)]
  store (store (store (lay (fun _ => 0) p buffer) 0x1000 4 0x40) (0x1000 + 44) 4 (total entries)) (0x1000 + 48) 4 p

/-- Low memory, a reserved entry, and an entry that is longer than the kernel knows. -/
def pcMap : List Entry := [⟨20, 0, 0x9F000, 1⟩, ⟨20, 0x9F000, 0x61000, 2⟩, ⟨24, 0x100000, 0x100000, 1⟩]

theorem memory_map_copied_pc : Handover (booted (mapMemory 0x2000 pcMap)) 0x2000 pcMap ∧ (available pcMap).length = 2 ∧
    Copied 0x200000 (booted (mapMemory 0x2000 pcMap)) pcMap := by
  have h : Handover (booted (mapMemory 0x2000 pcMap)) 0x2000 pcMap := by decide +kernel
  exact ⟨h, by decide, memory_map_copied h (by decide) (by decide) (Or.inl (by decide))⟩

/-- One mebibyte of memory at 1 MiB. -/
def oneMebibyte : Entry := ⟨20, 0x100000, 0x100000, 1⟩

/-- A map that ends at 4 GiB counts as empty, and one in the place of the kernel's map is overwritten while it is
read. -/
theorem memory_map_lost :
    (Handover (booted (mapMemory 0xFFFFFFE8 [oneMebibyte])) 0xFFFFFFE8 [oneMebibyte] ∧
      ¬ Copied 0x200000 (booted (mapMemory 0xFFFFFFE8 [oneMebibyte])) [oneMebibyte]) ∧
    Handover (booted (mapMemory 0x200004 [oneMebibyte, oneMebibyte])) 0x200004 [oneMebibyte, oneMebibyte] ∧
      ¬ Copied 0x200000 (booted (mapMemory 0x200004 [oneMebibyte, oneMebibyte])) [oneMebibyte, oneMebibyte] := by
  refine ⟨⟨by decide +kernel, ?_⟩, by decide +kernel, ?_⟩
  · exact not_copied 3 (v := 0) (by decide +kernel) (by decide)
  · exact not_copied 5 (v := 1) (by decide +kernel) (by decide)

end Kiznix.Multiboot
