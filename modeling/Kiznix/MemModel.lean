import Kiznix.MemPaging

/-! The functions of `pmm.c` and `vmm.c` after initialisation. An access to memory goes through the
translation; a write to a page that is not mapped runs the page fault handler and is tried again. The
functions take as `resolve` what such a write does to find its frame, so that the handler, the allocator
and the page tables may call each other through page faults. -/

namespace Kiznix.Memory

/-- How the kernel stops. -/
inductive Fatal where
  /-- "Out of physical memory" -/
  | outOfPhysicalMemory
  /-- "Failed to map page" -/
  | failedToMapPage
  /-- "vmm_map_page() - there is already something there!" -/
  | alreadyMapped
  /-- "vmm_map() - out of virtual space" -/
  | outOfVirtualSpace
  /-- "UNHANDLED PAGE FAULT" -/
  | unhandledPageFault (address : Nat)
  /-- "No memory available" -/
  | noMemoryAvailable
  /-- Page faults inside page faults, without an end. -/
  | nestedPageFaults
  /-- A loop that never meets its end. -/
  | endlessLoop
  deriving DecidableEq, Repr

abbrev M := StateT Machine (Except Fatal)

variable (b : Build) (resolve : Nat → M Nat)

/-! ### Memory accesses -/

/-- A read. A read of a page that is not mapped raises a fault whose error code is not
`PAGE_FAULT_WRITE`: the handler stops at once. -/
def load (va : Nat) : M Nat := do
  let s ← get
  match s.translate b va with
  | none => throw (.unhandledPageFault (pageAlignDown va))
  | some f =>
      set (s.cache va f)
      return s.mem f (b.wordIndex va)

def store (va w : Nat) : M Unit := do
  let f ← resolve va
  modify fun s => s.write f (b.wordIndex va) w

/-- `memset(p, 0, PAGE_SIZE)`. -/
def clearPage (p : Nat) : M Unit := do
  let f ← resolve p
  modify fun s => s.zero f

/-- `vmm_invalidate`. -/
def vmmInvalidate (virtualAddress : Nat) : M Unit := modify fun s => s.invlpg virtualAddress

/-! ### Frames -/

def vmmUnmapPageI386 (virtualAddress : Nat) : M Unit := do
  let i1 := (virtualAddress >>> 12) &&& 0xFFFFF
  store .i386 resolve (Build.i386.entryAddress 1 i1) 0
  vmmInvalidate virtualAddress

def vmmUnmapPagePae (virtualAddress : Nat) : M Unit :=
  store .pae resolve (Build.pae.entryAddress 1 ((virtualAddress >>> 12) &&& 0xFFFFF)) 0

def vmmUnmapPageX86_64 (virtualAddress : Nat) : M Unit :=
  store .x86_64 resolve (Build.x86_64.entryAddress 1 ((virtualAddress >>> 12) &&& 0xFFFFFFFFF)) 0

def vmmUnmapPage (virtualAddress : Nat) : M Unit :=
  match b with
  | .i386 => vmmUnmapPageI386 resolve virtualAddress
  | .pae => vmmUnmapPagePae resolve virtualAddress
  | .x86_64 => vmmUnmapPageX86_64 resolve virtualAddress

/-- The loop of `pmm_alloc_page` over the ranges: a page, and the ranges that are left. -/
def takeFreeMemory : List FreeMemory → Option (Nat × List FreeMemory)
  | [] => none
  | entry :: rest =>
      if entry.start ≠ entry.stop then
        some (entry.start,
          { entry with start := (pageSize + entry.start) % 2 ^ b.physBits } :: rest)
      else takeFreeMemory rest

/-- Addition and subtraction of `uint64_t`. -/
@[irreducible] def add64 (x y : Nat) : Nat := (y + x) % 2 ^ 64

@[irreducible] def sub64 (x y : Nat) : Nat := (2 ^ 64 - y + x) % 2 ^ 64

/-- The counter of `pmm_alloc_page`, and the record that the page is out. -/
def Machine.allocated (s : Machine) (page : Nat) : Machine :=
  { s with
    pmmFreeMemory := sub64 s.pmmFreeMemory pageSize
    handedOut := page / pageSize :: s.handedOut }

/-- The counter of `pmm_free_page`, and the record that the page is back. -/
def Machine.freed (s : Machine) (page : Nat) : Machine :=
  { s with
    pmmFreeMemory := add64 s.pmmFreeMemory pageSize
    handedOut := s.handedOut.erase (page / pageSize) }

def pmmAllocPage : M Nat := do
  let s ← get
  if s.pmmStackTop ≠ b.pmmStackVma then
    let top := s.pmmStackTop - b.entrySize
    set { s with pmmStackTop := top }
    let page ← load b top
    if top % pageSize = 0 then vmmUnmapPage b resolve top
    modify fun s => s.allocated page
    return page
  else
    match takeFreeMemory b s.sFreeMemory with
    | none => throw .outOfPhysicalMemory
    | some (page, ranges) =>
        set ({ s with sFreeMemory := ranges }.allocated page)
        return page

/-! ### Mappings -/

/-- The block of `vmm_map_page` for the table behind entry `i` of `vmm_page_mappings_k`. -/
def ensureTable (k i : Nat) : M Unit := do
  let entry ← load b (b.entryAddress k i)
  if ¬ Present entry then
    let page ← pmmAllocPage b resolve
    store b resolve (b.entryAddress k i) (page ||| pageWrite ||| pagePresent)
    let p := b.vmmPageMappings (k - 1) + (i <<< 12)
    vmmInvalidate p
    clearPage resolve p

/-- The end of `vmm_map_page`. -/
def setPage (i1 physicalAddress virtualAddress : Nat) : M Nat := do
  let entry ← load b (b.entryAddress 1 i1)
  if Present entry then throw .alreadyMapped
  store b resolve (b.entryAddress 1 i1) (physicalAddress ||| pageWrite ||| pagePresent)
  vmmInvalidate virtualAddress
  return 0

def vmmMapPageI386 (physicalAddress virtualAddress : Nat) : M Nat := do
  let i2 := (virtualAddress >>> 22) &&& 0x3FF
  let i1 := (virtualAddress >>> 12) &&& 0xFFFFF
  ensureTable .i386 resolve 2 i2
  setPage .i386 resolve i1 physicalAddress virtualAddress

def vmmMapPagePae (physicalAddress virtualAddress : Nat) : M Nat := do
  let i3 := (virtualAddress >>> 30) &&& 0x3
  let i2 := (virtualAddress >>> 21) &&& 0x7FF
  let i1 := (virtualAddress >>> 12) &&& 0xFFFFF
  let s ← get
  if ¬ Present (s.bootPdpt i3) then
    let page ← pmmAllocPage .pae resolve
    modify fun s => { s with bootPdpt := Function.update s.bootPdpt i3 (page ||| pagePresent) }
    let p := Build.pae.vmmPageMappings 2 + (i3 <<< 12)
    vmmInvalidate p
    clearPage resolve p
  ensureTable .pae resolve 2 i2
  setPage .pae resolve i1 physicalAddress virtualAddress

def vmmMapPageX86_64 (physicalAddress virtualAddress : Nat) : M Nat := do
  let i4 := (virtualAddress >>> 39) &&& 0x1FF
  let i3 := (virtualAddress >>> 30) &&& 0x3FFFF
  let i2 := (virtualAddress >>> 21) &&& 0x7FFFFFF
  let i1 := (virtualAddress >>> 12) &&& 0xFFFFFFFFF
  ensureTable .x86_64 resolve 4 i4
  ensureTable .x86_64 resolve 3 i3
  ensureTable .x86_64 resolve 2 i2
  setPage .x86_64 resolve i1 physicalAddress virtualAddress

def vmmMapPage (physicalAddress virtualAddress : Nat) : M Nat :=
  match b with
  | .i386 => vmmMapPageI386 resolve physicalAddress virtualAddress
  | .pae => vmmMapPagePae resolve physicalAddress virtualAddress
  | .x86_64 => vmmMapPageX86_64 resolve physicalAddress virtualAddress

def pmmFreePage (page : Nat) : M Unit := do
  let s ← get
  if s.pmmStackTop % pageSize = 0 then
    let result ← vmmMapPage b resolve page s.pmmStackTop
    if result ≠ 0 then throw .failedToMapPage
  let s ← get
  store b resolve s.pmmStackTop page
  modify fun s => { s with pmmStackTop := s.pmmStackTop + b.entrySize }.freed page

/-! ### Page faults -/

def pageFaultWrite : Nat := 2

def vmmPageFaultHandler (cr2 error : Nat) : M Nat := do
  let address := pageAlignDown cr2
  let index := (address >>> 12) &&& b.pageMask
  let pPageEntry := b.entryAddress 1 index
  if error = pageFaultWrite then
    let entry ← load b pPageEntry
    if entry &&& pageAllocated ≠ 0 ∨ b.pageTableStart ≤ address ∧ address ≤ b.pageTableEnd then
      let page ← pmmAllocPage b resolve
      let entry := page ||| pageWrite ||| pagePresent
      store b resolve pPageEntry (if b.kernelSpace ≤ address then entry ||| pageGlobal else entry)
      vmmInvalidate address
      clearPage resolve address
      return 1
    else throw (.unhandledPageFault address)
  else throw (.unhandledPageFault address)

/-- How a write finds its frame when page faults may nest to a depth below `n`. -/
def resolveWrite (b : Build) : Nat → Nat → M Nat
  | 0, _ => throw .nestedPageFaults
  | n + 1, va => do
      let s ← get
      match s.translate b va with
      | some f =>
          set (s.cache va f)
          return f
      | none =>
          let _ ← vmmPageFaultHandler b (resolveWrite b n) va pageFaultWrite
          resolveWrite b n va

/-! ### Regions -/

def vmmAllocPages : Nat → M Unit
  | 0 => pure ()
  | n + 1 => do
      let s ← get
      store b resolve (b.entryAddress 1 ((s.nextAlloc >>> 12) &&& b.pageMask)) pageAllocated
      modify fun s => s.invlpg s.nextAlloc
      modify fun s => { s with nextAlloc := (pageSize + s.nextAlloc) % 2 ^ b.wordBits }
      vmmAllocPages n

/-- The pages from `start` up to `stop`, addresses of `bits` bits. -/
def pagesBetween (bits start stop : Nat) : Nat := (stop + 2 ^ bits - start) % 2 ^ bits / pageSize

def vmmAlloc (length : Nat) : M Nat := do
  if length = 0 then return 0
  let s ← get
  let start := s.nextAlloc
  let stop := (start + pageAlignUp b.wordBits length) % 2 ^ b.wordBits
  vmmAllocPages b resolve (pagesBetween b.wordBits start stop)
  return start

/-- The loop of `vmm_map`. `page` is a `uintptr_t`, `start` and `stop` are `physaddr_t`. -/
def vmmMapPages (start stop virtualAddress : Nat) : Nat → Nat → M Unit
  | 0, _ => throw .endlessLoop
  | n + 1, page => do
      if page ≠ stop then
        let offset := (page + 2 ^ b.physBits - start) % 2 ^ b.physBits
        let _ ← vmmMapPage b resolve page ((virtualAddress + offset) % 2 ^ b.wordBits)
        vmmMapPages start stop virtualAddress n ((page + pageSize) % 2 ^ b.wordBits)

def vmmMap (physicalAddress length : Nat) : M Nat := do
  let start := pageAlignDown physicalAddress
  let stop := pageAlignUp b.physBits ((physicalAddress + length) % 2 ^ b.physBits)
  let size := (stop + 2 ^ b.physBits - start) % 2 ^ b.physBits
  let virtualAddress ← vmmAlloc b resolve (size % 2 ^ b.wordBits)
  if (virtualAddress + size) % 2 ^ b.physBits > b.kernelHeapEnd then throw .outOfVirtualSpace
  -- The loop ends after so many pages or never.
  vmmMapPages b resolve start stop virtualAddress (pagesBetween b.physBits start stop + 1)
    (start % 2 ^ b.wordBits)
  return virtualAddress + (physicalAddress - start)

def vmmUnmapPages : Nat → Nat → M Unit
  | 0, _ => pure ()
  | n + 1, p => do
      vmmUnmapPage b resolve p
      vmmUnmapPages n ((p + pageSize) % 2 ^ b.wordBits)

def vmmUnmap (address length : Nat) : M Nat := do
  let start := pageAlignDown address
  let stop := pageAlignUp b.wordBits ((address + length) % 2 ^ b.wordBits)
  vmmUnmapPages b resolve (pagesBetween b.wordBits start stop) start
  return 0

end Kiznix.Memory
