import Kiznix.MemFree

/-! `pmm_init`: the entries of the boot memory map become the ranges of free memory. -/

namespace Kiznix.Memory

/-- An available entry of the boot memory map; both fields are `uint64_t`. -/
structure MemoryMapEntry where
  base : Nat
  length : Nat
  base_lt : base < 2 ^ 64
  length_lt : length < 2 ^ 64
  deriving DecidableEq

theorem mebibyte_lt : 0x100000 < 2 ^ 64 := by decide

theorem fourMebibytes_lt : 0x400000 < 2 ^ 64 := by decide

/-- `MEM_1_GB`, which is one megabyte. -/
def mem1GB : Nat := 0x100000

def mem4GB : Nat := 0x100000000

/-- `KERNEL_PHYSICAL_ADDRESS`, where the linker scripts put `kernel_image_start`. -/
def kernelPhysicalAddress : Nat := 0x100000

/-- The variables of `pmm_init`. -/
structure PmmInit where
  pmmSystemMemory : Nat
  pmmFreeMemory : Nat
  pmmUsedMemory : Nat
  pmmUnavailableMemory : Nat
  /-- `s_free_memory` up to `s_free_memory_count`. -/
  sFreeMemory : List FreeMemory
  /-- Minuend and subtrahend of every subtraction made so far: no variable of the program. -/
  subtractions : List (Nat × Nat)
  deriving DecidableEq, Repr

namespace PmmInit

def zero : PmmInit := ⟨0, 0, 0, 0, [], []⟩

variable (b : Build) (kernelStart kernelEnd : Nat)

def addUnavailable (p : PmmInit) (x y : Nat) : PmmInit :=
  { p with
    pmmUnavailableMemory := add64 p.pmmUnavailableMemory (sub64 x y)
    subtractions := (x, y) :: p.subtractions }

def addFree (p : PmmInit) (start stop : Nat) : PmmInit :=
  { p with
    sFreeMemory := p.sFreeMemory ++ [⟨start % 2 ^ b.physBits, stop % 2 ^ b.physBits⟩]
    pmmFreeMemory := add64 p.pmmFreeMemory (sub64 stop start)
    subtractions := (stop, start) :: p.subtractions }

/-- The start of an entry after the first megabyte and the kernel are skipped. -/
def clipStart (start : Nat) : Nat :=
  let start := if start < mem1GB then mem1GB else start
  if kernelStart ≤ start ∧ start < kernelEnd then kernelEnd else start

/-- The end of an entry after the kernel is skipped. -/
def clipStop (stop : Nat) : Nat := if kernelStart ≤ stop ∧ stop < kernelEnd then kernelStart else stop

/-- The rest of a round of the loop, once an entry is below 4 GB on i386. -/
def addRange (p : PmmInit) (start stop : Nat) : PmmInit :=
  if clipStart kernelStart kernelEnd start ≥ clipStop kernelStart kernelEnd stop then p
  else p.addFree b (clipStart kernelStart kernelEnd start) (clipStop kernelStart kernelEnd stop)

/-- A round of the loop of `pmm_init`. -/
def entry (p : PmmInit) (entry : MemoryMapEntry) : PmmInit :=
  let p := { p with pmmSystemMemory := add64 p.pmmSystemMemory entry.length }
  let start := pageAlignUp 64 entry.base
  let stop := pageAlignDown ((entry.base + entry.length) % 2 ^ 64)
  if b = .i386 then
    if start ≥ mem4GB then p.addUnavailable stop start
    else if stop > mem4GB then
      (p.addUnavailable stop mem4GB).addRange b kernelStart kernelEnd start mem4GB
    else p.addRange b kernelStart kernelEnd start stop
  else p.addRange b kernelStart kernelEnd start stop

/-- The loop, which ends when the array `s_free_memory` is full. -/
def loop : List MemoryMapEntry → PmmInit → PmmInit
  | [], p => p
  | e :: map, p =>
      let p := p.entry b kernelStart kernelEnd e
      if p.sFreeMemory.length = 1000 then p else loop map p

/-- `pmm_used_memory = pmm_system_memory - pmm_free_memory - pmm_unavailable_memory`. -/
def used (p : PmmInit) : PmmInit :=
  let rest := sub64 p.pmmSystemMemory p.pmmFreeMemory
  { p with
    pmmUsedMemory := sub64 rest p.pmmUnavailableMemory
    subtractions :=
      (rest, p.pmmUnavailableMemory) :: (p.pmmSystemMemory, p.pmmFreeMemory) :: p.subtractions }

end PmmInit

/-- The variables after `pmm_init`; the map has `_BootMemoryMapSize` entries. -/
def pmmInitState (b : Build) (kernelImageEnd : Nat) (map : List MemoryMapEntry) : PmmInit :=
  (PmmInit.zero.loop b (pageAlignDown kernelPhysicalAddress) (pageAlignUp b.wordBits kernelImageEnd)
    map).used

def pmmInit (b : Build) (kernelImageEnd : Nat) (map : List MemoryMapEntry) : M Unit := do
  let p := pmmInitState b kernelImageEnd map
  modify fun s => { s with pmmFreeMemory := p.pmmFreeMemory, sFreeMemory := p.sFreeMemory }
  if p.pmmFreeMemory = 0 then throw .noMemoryAvailable

end Kiznix.Memory
