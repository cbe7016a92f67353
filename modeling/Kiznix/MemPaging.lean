import Kiznix.RadixTree
import Kiznix.Wp

/-! Physical memory, page tables and the translation of virtual addresses on the three builds. A frame is
a physical page by its number; its contents are words of the size of a page-table entry. Flags of an entry
stand in its low twelve bits and the frame above them. -/

namespace Kiznix.Memory

open RadixTree

/-- The three configurations of `vmm.c`: i386, i386 with `KIZNIX_PAE`, x86_64. -/
inductive Build where
  | i386
  | pae
  | x86_64
  deriving DecidableEq, Repr

def pageSize : Nat := 0x1000
def pagePresent : Nat := 0x001
def pageWrite : Nat := 0x002
def pageGlobal : Nat := 0x100
def pageAllocated : Nat := 0x200

def pageAlignDown (addr : Nat) : Nat := addr / pageSize * pageSize

/-- `PAGE_ALIGN_UP` of an unsigned type of `bits` bits. -/
def pageAlignUp (bits addr : Nat) : Nat := pageAlignDown ((addr + pageSize - 1) % 2 ^ bits)

namespace Build

/-- Bits of `uintptr_t` and `size_t`. -/
def wordBits : Build → Nat
  | .i386 | .pae => 32
  | .x86_64 => 64

/-- Bits of `physaddr_t`. -/
def physBits : Build → Nat
  | .i386 => 32
  | .pae | .x86_64 => 64

/-- `sizeof(physaddr_t)`. -/
def entrySize : Build → Nat
  | .i386 => 4
  | .pae | .x86_64 => 8

/-- Entries of a page table. -/
def entries : Build → Nat
  | .i386 => 1024
  | .pae | .x86_64 => 512

/-- Levels of tables under the top table of the recursive mapping: the page directory of kernel space on
PAE, where the mapping is made at level 2, and the root elsewhere. -/
def levels : Build → Nat
  | .i386 | .pae => 2
  | .x86_64 => 4

/-- The entry of the top table that refers to the top table itself. -/
def recursiveIndex : Build → Nat
  | .i386 => 1023
  | .pae => 511
  | .x86_64 => 510

def pmmStackVma : Build → Nat
  | .i386 | .pae => 0xFF000000
  | .x86_64 => 0xFFFFF00000000000

def pmmStackSize : Build → Nat
  | .i386 | .pae => 0x400000
  | .x86_64 => 0x8000000000

def kernelHeapBegin : Build → Nat
  | .i386 | .pae => 0xE0000000
  | .x86_64 => 0xFFFFFFFFE0000000

def kernelHeapEnd : Build → Nat
  | .i386 | .pae => 0xF0000000
  | .x86_64 => 0xFFFFFFFFF0000000

def kernelVirtualBase : Build → Nat
  | .i386 | .pae => 0xC0000000
  | .x86_64 => 0xFFFFFFFFC0000000

def kernelSpace : Build → Nat
  | .i386 | .pae => 0xC0000000
  | .x86_64 => 0x8000000000000000

def pageTableStart : Build → Nat
  | .i386 => 0xFFC00000
  | .pae => 0xFF800000
  | .x86_64 => 0xFFFFFF0000000000

def pageTableEnd : Build → Nat
  | .i386 | .pae => 0xFFFFFFFF
  | .x86_64 => 0xFFFFFF7FFFFFFFFF

/-- The array `vmm_page_mappings_k`. On PAE `vmm_page_mappings_3` is the variable `_BootPDPT`. -/
def vmmPageMappings : Build → Nat → Nat
  | .i386, 1 => 0xFFC00000
  | .i386, _ => 0xFFFFF000
  | .pae, 1 => 0xFF800000
  | .pae, _ => 0xFFFFC000
  | .x86_64, 1 => 0xFFFFFF0000000000
  | .x86_64, 2 => 0xFFFFFF7F80000000
  | .x86_64, 3 => 0xFFFFFF7FBFC00000
  | .x86_64, _ => 0xFFFFFF7FBFDFE000

/-- The mask of `i1`, the index into `vmm_page_mappings_1`. -/
def pageMask : Build → Nat
  | .i386 | .pae => 0xFFFFF
  | .x86_64 => 0xFFFFFFFFF

/-- `&vmm_page_mappings_k[i]`. -/
def entryAddress (b : Build) (k i : Nat) : Nat := b.vmmPageMappings k + b.entrySize * i

/-- The indices that the hardware takes from a virtual address, below the top table. -/
def path : Build → Nat → List Nat
  | .i386, va => [va / 2 ^ 22 % 1024, va / 2 ^ 12 % 1024]
  | .pae, va => [va / 2 ^ 21 % 512, va / 2 ^ 12 % 512]
  | .x86_64, va =>
      [va / 2 ^ 39 % 512, va / 2 ^ 30 % 512, va / 2 ^ 21 % 512, va / 2 ^ 12 % 512]

/-- The word of its page that an address denotes. -/
def wordIndex (b : Build) (va : Nat) : Nat := va % pageSize / b.entrySize

end Build

/-- A range of free physical memory; `stop` is the source's `end`. -/
structure FreeMemory where
  start : Nat
  stop : Nat
  deriving DecidableEq, Repr

structure Machine where
  /-- Physical memory by frame and word. -/
  mem : Nat → Nat → Nat
  cr3 : Nat
  /-- PAE: the page-directory-pointer registers, which only a load of `cr3` refreshes. -/
  pdpte : Nat → Nat
  /-- Every translation, page to frame, that the processor may have cached. -/
  tlb : List (Nat × Nat)
  /-- PAE: the variable `_BootPDPT`. -/
  bootPdpt : Nat → Nat
  pmmStackTop : Nat
  pmmFreeMemory : Nat
  /-- `s_free_memory` from `s_free_memory_current` on. -/
  sFreeMemory : List FreeMemory
  nextAlloc : Nat
  /-- Frames that `pmm_alloc_page` has returned and `pmm_free_page` has not taken back: no variable of the
  program, a record of the calls. -/
  handedOut : List Nat

/-- The entry refers to a frame. -/
def Present (entry : Nat) : Prop := entry &&& pagePresent ≠ 0

instance (entry : Nat) : Decidable (Present entry) := inferInstanceAs (Decidable (_ ≠ _))

def entryFrame (entry : Nat) : Option Nat := if Present entry then some (entry / pageSize) else none

namespace Machine

variable (b : Build) (s : Machine)

def next (f i : Nat) : Option Nat := entryFrame (s.mem f i)

/-- The top table for an address; on x86_64 the address must be canonical. -/
def top (va : Nat) : Option Nat :=
  match b with
  | .i386 => if va < 2 ^ 32 then some (s.cr3 / pageSize) else none
  | .pae => if va < 2 ^ 32 then entryFrame (s.pdpte (va / 2 ^ 30)) else none
  | .x86_64 =>
      if va < 2 ^ 47 ∨ 2 ^ 64 - 2 ^ 47 ≤ va ∧ va < 2 ^ 64 then some (s.cr3 / pageSize) else none

/-- The hardware walk. -/
def translate (va : Nat) : Option Nat :=
  (s.top b va).bind fun top => follow s.next top (b.path va)

/-- The entry of the last level that the hardware walk of an address ends at, if its table is there. -/
def lastEntry (va : Nat) : Option Nat :=
  (s.top b va).bind fun top => (follow s.next top (b.path va).dropLast).map fun table =>
    s.mem table ((b.path va).getLastD 0)

/-- This entry, if it is present: the frame and the flags of a translation. -/
def leafEntry (va : Nat) : Option Nat := (s.lastEntry b va).filter (Present ·)

def cache (va f : Nat) : Machine := { s with tlb := (va / pageSize, f) :: s.tlb }

def invlpg (va : Nat) : Machine := { s with tlb := s.tlb.filter fun e => e.1 ≠ va / pageSize }

def write (f i w : Nat) : Machine :=
  { s with mem := fun g j => if g = f ∧ j = i then w else s.mem g j }

def zero (f : Nat) : Machine := { s with mem := fun g j => if g = f then 0 else s.mem g j }

/-- A load of `cr3`. -/
def setCr3 (physicalAddress : Nat) : Machine :=
  { s with
    cr3 := physicalAddress
    tlb := []
    pdpte := match b with
      | .pae => s.bootPdpt
      | _ => s.pdpte }

end Machine

end Kiznix.Memory
