import Kiznix.SwitchModel
import Kiznix.CString

/-! `malloc`, `free` and `calloc` of `dlmalloc.inc`, over memory that `mmap` hands out. The chunks, the bins of `_gm_`
and the records of segments are in memory with all their links; `none` is `abort()`, an access through `NULL` or a
loop that does not end. -/

namespace Kiznix.Malloc

open ByteMemory
open Switch (Arch)

variable (a : Arch)

/-! ### Sizes -/

/-- `size_t` addition. -/
def sizeAdd (x y : Nat) : Nat := (x + y) % 2 ^ a.bits

/-- `size_t` subtraction. -/
def sizeSub (x y : Nat) : Nat := (x + (2 ^ a.bits - y)) % 2 ^ a.bits

def maxSizeT : Nat := 2 ^ a.bits - 1

/-- `(x + (unit - 1)) & ~(unit - 1)`. -/
def alignSize (unit x : Nat) : Nat := sizeAdd a x (unit - 1) / unit * unit

def mallocAlignment : Nat := 2 * a.word

/-- `align_offset(x)`. -/
def alignOffset (x : Nat) : Nat := (mallocAlignment a - x % mallocAlignment a) % mallocAlignment a

def chunkOverhead : Nat := a.word

def minChunkSize : Nat := 4 * a.word

def maxRequest : Nat := sizeSub a 0 (minChunkSize a) * 4 % 2 ^ a.bits

def minRequest : Nat := minChunkSize a - chunkOverhead a - 1

def padRequest (req : Nat) : Nat := alignSize a (mallocAlignment a) (sizeAdd a req (chunkOverhead a))

/-- `pad_request(sizeof(struct malloc_segment))`. -/
def segmentChunkSize : Nat := padRequest a (4 * a.word)

def topFootSize : Nat := alignOffset a (2 * a.word) + segmentChunkSize a + minChunkSize a

def sysAllocPadding : Nat := topFootSize a + mallocAlignment a

def mmapFootPad : Nat := 4 * a.word

/-- 256 bytes, the size from which chunks go to the trees. -/
def minLargeSize : Nat := 256

def maxSmallRequest : Nat := minLargeSize - 1 - (mallocAlignment a - 1) - chunkOverhead a

def pageSize : Nat := 4096
def granularity : Nat := 64 * 1024
def mmapThreshold : Nat := 256 * 1024
def trimThreshold : Nat := 2 * 1024 * 1024
def maxReleaseCheckRate : Nat := 4095

/-! ### The state -/

/-- `malloc_state`, and the memory. What chunks and segments point to is in memory, at `gm`. -/
structure State where
  mem : Memory
  gm : Nat
  smallmap : BitVec 32
  treemap : BitVec 32
  dvsize : Nat
  topsize : Nat
  leastAddr : Nat
  dv : Nat
  top : Nat
  trimCheck : Nat
  releaseChecks : Nat

/-- `_gm_` before the first call. -/
def State.initial (mem : Memory) (gm : Nat) : State where
  mem := mem
  gm := gm
  smallmap := 0
  treemap := 0
  dvsize := 0
  topsize := 0
  leastAddr := 0
  dv := 0
  top := 0
  trimCheck := 0
  releaseChecks := 0

/-- The offsets of arrays and records in `malloc_state`, and its size. -/
def smallbinsOffset : Nat := 8 + 8 * a.word
def treebinsOffset : Nat := smallbinsOffset a + 66 * a.word
def segOffset : Nat := treebinsOffset a + 35 * a.word + 8
def gmSize : Nat := segOffset a + 6 * a.word

variable (m : State)

/-- `smallbin_at`: two pointers of the array that are the `fd` and the `bk` of a chunk. -/
def State.smallbinAt (i : Nat) : Nat := m.gm + smallbinsOffset a + 2 * i * a.word

def State.treebinAt (i : Nat) : Nat := m.gm + treebinsOffset a + i * a.word

/-- `&m->seg`. -/
def State.seg : Nat := m.gm + segOffset a

/-! ### Words of a chunk -/

def pinuseBit : Nat := 1
def cinuseBit : Nat := 2

/-- The bits of a `head` below the size. -/
def pinuse (head : Nat) : Bool := head % 2 = 1
def cinuse (head : Nat) : Bool := head / 2 % 2 = 1
def isInuse (head : Nat) : Bool := head % 4 ≠ pinuseBit
def isMmapped (head : Nat) : Bool := head % 4 = 0

/-- `head & ~FLAG_BITS`. -/
def chunksize (head : Nat) : Nat := head / 8 * 8

def fencepostHead : Nat := pinuseBit ||| cinuseBit ||| a.word

/-- `chunk2mem` and `mem2chunk`. -/
def chunk2mem (p : Nat) : Nat := p + 2 * a.word
def mem2chunk (mem : Nat) : Nat := mem - 2 * a.word

def State.head (p : Nat) : Nat := load m.mem (p + a.word) a.word
def State.prevFoot (p : Nat) : Nat := load m.mem p a.word

def State.setHead (p head : Nat) : State := { m with mem := store m.mem (p + a.word) a.word head }

def State.setPrevFoot (p s : Nat) : State := { m with mem := store m.mem p a.word s }

def State.setFoot (p s : Nat) : State := m.setPrevFoot a (p + s) s

/-- `p->head |= PINUSE_BIT`. -/
def State.markPinuse (p : Nat) : State := m.setHead a p (m.head a p ||| pinuseBit)

/-- `p->head &= ~PINUSE_BIT`. -/
def State.clearPinuse (p : Nat) : State := m.setHead a p (m.head a p / 2 * 2)

def State.setSizeAndPinuseOfFreeChunk (p s : Nat) : State := (m.setHead a p (s ||| pinuseBit)).setFoot a p s

def State.setFreeWithPinuse (p s n : Nat) : State := (m.clearPinuse a n).setSizeAndPinuseOfFreeChunk a p s

def State.setSizeAndPinuseOfInuseChunk (p s : Nat) : State := m.setHead a p (s ||| pinuseBit ||| cinuseBit)

def State.setInuseAndPinuse (p s : Nat) : State := (m.setSizeAndPinuseOfInuseChunk a p s).markPinuse a (p + s)

/-- The fields of a free chunk behind its `head`. `root` is the pointer of a tree bin. -/
inductive Field where
  | fd
  | bk
  | child (right : Bool)
  | parent
  | index
  | root
  deriving DecidableEq

def Field.offset : Field → Nat
  | .root => 0
  | .fd => 2 * a.word
  | .bk => 3 * a.word
  | .child false => 4 * a.word
  | .child true => 5 * a.word
  | .parent => 6 * a.word
  | .index => 7 * a.word

def Field.size : Field → Nat
  | .root | .fd | .bk | .child _ | .parent => a.word
  | .index => 4

/-- `p->f`. -/
def State.get (p : Nat) (f : Field) : Nat := load m.mem (p + f.offset a) (f.size a)

/-- `p->f = v`. -/
def State.put (p : Nat) (f : Field) (v : Nat) : State :=
  { m with mem := store m.mem (p + f.offset a) (f.size a) v }

def State.okAddress (p : Nat) : Bool := m.leastAddr ≤ p

/-! ### Indices of bins -/

def smallIndex (s : Nat) : Nat := s / 8

def smallIndex2size (i : Nat) : Nat := i * 8

def isSmall (s : Nat) : Bool := s / 8 < 32

/-- `compute_tree_index`, where `X` is an `unsigned int`. -/
def treeIndex (s : Nat) : Nat :=
  let x := s / 256 % 2 ^ 32
  if x = 0 then 0
  else if x > 0xFFFF then 31
  else x.log2 * 2 + s / 2 ^ (x.log2 + 7) % 2

def leftshiftForTreeIndex (i : Nat) : Nat := if i = 31 then 0 else a.bits - 1 - (i / 2 + 8 - 2)

def treeKey (s : Nat) : BitVec a.bits := BitVec.ofNat a.bits s <<< leftshiftForTreeIndex a (treeIndex s)

def idx2bit (i : Nat) : BitVec 32 := 1#32 <<< i

def leastBit (x : BitVec 32) : BitVec 32 := x &&& -x

def leftBits (x : BitVec 32) : BitVec 32 := x <<< 1 ||| -(x <<< 1)

/-- `compute_bit2idx`. -/
def bit2idx (x : BitVec 32) : Nat := x.ctz.toNat

/-! ### Operations on small bins -/

/-- The links of `p` between `b` and `f`. -/
def State.linkBetween (b p f : Nat) : State :=
  (((m.put a b .fd p).put a f .bk p).put a p .fd f).put a p .bk b

def insertSmallChunk (p s : Nat) : Option State :=
  let i := smallIndex s
  let b := m.smallbinAt a i
  if ¬ m.smallmap.getLsbD i then
    some (({ m with smallmap := m.smallmap ||| idx2bit i } : State).linkBetween a b p b)
  else if m.okAddress (m.get a b .fd) then some (m.linkBetween a b p (m.get a b .fd))
  else none

/-- `clear_smallmap`. -/
def State.clearSmallmap (i : Nat) : State := { m with smallmap := m.smallmap &&& ~~~idx2bit i }

def unlinkSmallChunk (p s : Nat) : Option State :=
  let f := m.get a p .fd
  let b := m.get a p .bk
  let i := smallIndex s
  if f = m.smallbinAt a i ∨ m.okAddress f ∧ m.get a f .bk = p then
    if b = f then some (m.clearSmallmap i)
    else if b = m.smallbinAt a i ∨ m.okAddress b ∧ m.get a b .fd = p then
      some ((m.put a f .bk b).put a b .fd f)
    else none
  else none

def unlinkFirstSmallChunk (b p i : Nat) : Option State :=
  let f := m.get a p .fd
  if b = f then some (m.clearSmallmap i)
  else if m.okAddress f ∧ m.get a f .bk = p then some ((m.put a f .bk b).put a b .fd f)
  else none

/-- `replace_dv`. -/
def replaceDv (p s : Nat) : Option State := do
  let m ← if m.dvsize ≠ 0 then insertSmallChunk a m m.dv m.dvsize else some m
  some { m with dvsize := s, dv := p }

/-! ### Operations on trees -/

/-- The loop that looks for the place of `x` in a tree from `t` on; the bits of its size are taken from the top. -/
def insertLoop (x s : Nat) : Nat → BitVec a.bits → Nat → Option State
  | 0, _, _ => none
  | fuel + 1, k, t =>
      if chunksize (m.head a t) ≠ s then
        let c := Field.child k.msb
        if m.get a t c ≠ 0 then insertLoop x s fuel (k <<< 1) (m.get a t c)
        else if m.okAddress (t + c.offset a) then
          some ((((m.put a t c x).put a x .parent t).put a x .bk x).put a x .fd x)
        else none
      else
        let f := m.get a t .fd
        if m.okAddress t ∧ m.okAddress f then
          some (((((m.put a f .bk x).put a t .fd x).put a x .fd f).put a x .bk t).put a x .parent 0)
        else none

def insertLargeChunk (x s : Nat) : Option State :=
  let i := treeIndex s
  let h := m.treebinAt a i
  let m := ((m.put a x .index i).put a x (.child true) 0).put a x (.child false) 0
  if ¬ m.treemap.getLsbD i then
    let m := { m with treemap := m.treemap ||| idx2bit i }
    some ((((m.put a h .root x).put a x .parent h).put a x .bk x).put a x .fd x)
  else insertLoop a m x s (2 ^ a.bits) (treeKey a s) (m.get a h .root)

/-- The loop that goes down from the child `r` of `p` to a leaf: the chunk and the side from which the leaf hangs, and
the leaf. -/
def leafLoop : Nat → Nat → Bool → Nat → Option (Nat × Bool × Nat)
  | 0, _, _, _ => none
  | fuel + 1, p, right, r =>
      if m.get a r (.child true) ≠ 0 then leafLoop fuel r true (m.get a r (.child true))
      else if m.get a r (.child false) ≠ 0 then leafLoop fuel r false (m.get a r (.child false))
      else some (p, right, r)

/-- The leaf below the child `r` of `x` leaves its parent. -/
def takeLeaf (x : Nat) (right : Bool) (r : Nat) : Option (State × Nat) := do
  let (p, right, r) ← leafLoop a m (2 ^ a.bits) x right r
  if m.okAddress (p + (Field.child right).offset a) then some (m.put a p (.child right) 0, r) else none

/-- The chunk that takes the place of `x`, taken out of its own place: the last of the ring of `x`, or else a leaf. -/
def takeHeir (x : Nat) : Option (State × Nat) :=
  if m.get a x .bk ≠ x then
    let f := m.get a x .fd
    let r := m.get a x .bk
    if m.okAddress f ∧ m.get a f .bk = x ∧ m.get a r .fd = x then some ((m.put a f .bk r).put a r .fd f, r)
    else none
  else if m.get a x (.child true) ≠ 0 then takeLeaf a m x true (m.get a x (.child true))
  else if m.get a x (.child false) ≠ 0 then takeLeaf a m x false (m.get a x (.child false))
  else some (m, 0)

/-- What led to `x` leads to `r`. -/
def relinkParent (x xp r : Nat) : Option State :=
  let i := m.get a x .index
  let h := m.treebinAt a i
  if x = m.get a h .root then
    let m := m.put a h .root r
    some (if r = 0 then { m with treemap := m.treemap &&& ~~~idx2bit i } else m)
  else if m.okAddress xp then
    some (if m.get a xp (.child false) = x then m.put a xp (.child false) r else m.put a xp (.child true) r)
  else none

/-- `r` takes over a child of `x`. -/
def relinkChild (x r : Nat) (right : Bool) : Option State :=
  let c := m.get a x (.child right)
  if c ≠ 0 then
    if m.okAddress c then some ((m.put a r (.child right) c).put a c .parent r) else none
  else some m

def unlinkLargeChunk (x : Nat) : Option State := do
  let xp := m.get a x .parent
  let (m, r) ← takeHeir a m x
  if xp ≠ 0 then
    let m ← relinkParent a m x xp r
    if r ≠ 0 then
      if m.okAddress r then
        let m ← relinkChild a (m.put a r .parent xp) x r false
        relinkChild a m x r true
      else none
    else some m
  else some m

def insertChunk (p s : Nat) : Option State :=
  if isSmall s then insertSmallChunk a m p s else insertLargeChunk a m p s

def unlinkChunk (p s : Nat) : Option State := if isSmall s then unlinkSmallChunk a m p s else unlinkLargeChunk a m p

/-! ### Segments and the top chunk -/

/-- A record `malloc_segment`. -/
structure Segment where
  base : Nat
  size : Nat
  next : Nat
  sflags : Nat
  deriving DecidableEq

def useMmapBit : Nat := 1
def externBit : Nat := 8

/-- `*sp`. -/
def State.segment (sp : Nat) : Segment where
  base := load m.mem sp a.word
  size := load m.mem (sp + a.word) a.word
  next := load m.mem (sp + 2 * a.word) a.word
  sflags := load m.mem (sp + 3 * a.word) 4

/-- `*sp = s`. -/
def State.setSegment (sp : Nat) (s : Segment) : State :=
  let mem := store (store m.mem sp a.word s.base) (sp + a.word) a.word s.size
  { m with mem := store (store mem (sp + 2 * a.word) a.word s.next) (sp + 3 * a.word) 4 s.sflags }

def Segment.holds (s : Segment) (addr : Nat) : Bool := s.base ≤ addr ∧ addr < s.base + s.size

/-- Memory of `mmap`, which may grow. -/
def Segment.isOwn (s : Segment) : Bool := s.sflags &&& externBit = 0 ∧ s.sflags &&& useMmapBit = useMmapBit

/-- A loop over the segments from `sp` on that ends with the first that it looks for, or with `NULL`. -/
def findSegment (found : Nat → Segment → Bool) : Nat → Nat → Option Nat
  | 0, _ => none
  | fuel + 1, sp =>
      if sp = 0 then some 0
      else if found sp (m.segment a sp) then some sp
      else findSegment found fuel (m.segment a sp).next

def segmentHolding (addr : Nat) : Option Nat := findSegment a m (fun _ s => s.holds addr) (2 ^ a.bits) (m.seg a)

/-- `has_segment_link`: the record of a segment is in the memory of `s`. -/
def hasSegmentLink (s : Segment) : Option Bool :=
  (findSegment a m (fun sp _ => s.holds sp) (2 ^ a.bits) (m.seg a)).map (· ≠ 0)

def initTop (p psize : Nat) : State :=
  let offset := alignOffset a (chunk2mem a p)
  let p := p + offset
  let psize := psize - offset
  let m := { m with top := p, topsize := psize }
  { (m.setHead a p (psize ||| pinuseBit)).setHead a (p + psize) (topFootSize a) with trimCheck := trimThreshold }

/-- `init_bins`, for the first `n` bins. -/
def initBins : Nat → State → State
  | 0, m => m
  | i + 1, m =>
      let m := initBins i m
      (m.put a (m.smallbinAt a i) .bk (m.smallbinAt a i)).put a (m.smallbinAt a i) .fd (m.smallbinAt a i)

/-- `mmap`: the address of new memory of a length, or `none` for `MAP_FAILED`. -/
abbrev Mmap := Nat → Option Nat

def mmapSize (nb : Nat) : Nat := alignSize a pageSize (sizeAdd a nb (6 * a.word + (mallocAlignment a - 1)))

def mmapAlloc (mmap : Mmap) (nb : Nat) : State × Nat :=
  if nb < mmapSize a nb then
    match mmap (mmapSize a nb) with
    | none => (m, 0)
    | some mm =>
        let offset := alignOffset a (chunk2mem a mm)
        let psize := mmapSize a nb - offset - mmapFootPad a
        let p := mm + offset
        let m := (m.setPrevFoot a p offset).setHead a p psize
        let m := (m.setHead a (p + psize) (fencepostHead a)).setHead a (p + psize + a.word) 0
        let m := { m with leastAddr := if m.leastAddr = 0 ∨ mm < m.leastAddr then mm else m.leastAddr }
        (m, chunk2mem a p)
  else (m, 0)

/-- `align_as_chunk(x)`. -/
def alignAsChunk (x : Nat) : Nat := x + alignOffset a (chunk2mem a x)

def prependAlloc (newbase oldbase nb : Nat) : Option (State × Nat) := do
  let p := alignAsChunk a newbase
  let oldfirst := alignAsChunk a oldbase
  let q := p + nb
  let qsize := oldfirst - p - nb
  let m := m.setSizeAndPinuseOfInuseChunk a p nb
  let m ←
    if oldfirst = m.top then
      some (({ m with topsize := m.topsize + qsize, top := q } : State).setHead a q (m.topsize + qsize ||| pinuseBit))
    else if oldfirst = m.dv then
      some (({ m with dvsize := m.dvsize + qsize, dv := q } : State).setSizeAndPinuseOfFreeChunk a q (m.dvsize + qsize))
    else if ¬ isInuse (m.head a oldfirst) then do
      let nsize := chunksize (m.head a oldfirst)
      let m ← unlinkChunk a m oldfirst nsize
      insertChunk a (m.setFreeWithPinuse a q (qsize + nsize) (oldfirst + nsize)) q (qsize + nsize)
    else insertChunk a (m.setFreeWithPinuse a q qsize oldfirst) q qsize
  some (m, chunk2mem a p)

/-- The loop that writes fenceposts from `p` to the end of a segment. -/
def fenceposts (oldEnd p : Nat) (m : State) : State :=
  let m := m.setHead a p (fencepostHead a)
  if p + a.word + a.word < oldEnd then fenceposts oldEnd (p + a.word) m else m
termination_by oldEnd - p
decreasing_by
  have hword : 0 < a.word := by cases a <;> decide
  omega

def addSegment (tbase tsize : Nat) : Option State := do
  let oldTop := m.top
  let oldsp ← segmentHolding a m oldTop
  if oldsp = 0 then none
  else
    let oldEnd := (m.segment a oldsp).base + (m.segment a oldsp).size
    let ssize := segmentChunkSize a
    let rawsp := oldEnd - (ssize + 4 * a.word + (mallocAlignment a - 1))
    let asp := rawsp + alignOffset a (chunk2mem a rawsp)
    let csp := if asp < oldTop + minChunkSize a then oldTop else asp
    let ss := chunk2mem a csp
    let m := initTop a m tbase (tsize - topFootSize a)
    let m := m.setSizeAndPinuseOfInuseChunk a csp ssize
    let m := m.setSegment a ss (m.segment a (m.seg a))
    let m := m.setSegment a (m.seg a) { base := tbase, size := tsize, next := ss, sflags := useMmapBit }
    let m := fenceposts a oldEnd (csp + ssize) m
    if csp ≠ oldTop then
      let psize := csp - oldTop
      insertChunk a (m.setFreeWithPinuse a oldTop psize csp) oldTop psize
    else some m

/-- `nb` bytes from the start of the top chunk. -/
def splitTop (nb : Nat) : State × Nat :=
  let p := m.top
  let rsize := m.topsize - nb
  let m := { m with topsize := rsize, top := p + nb }
  ((m.setHead a (p + nb) (rsize ||| pinuseBit)).setSizeAndPinuseOfInuseChunk a p nb, chunk2mem a p)

def allocSize (nb : Nat) : Nat := alignSize a granularity (sizeAdd a nb (sysAllocPadding a))

/-- New memory of size `tsize` at `tbase`: the first segment, more of an old one, or one of its own. The address is
that of the chunk when memory before a segment has served the request. -/
def useMemory (tbase tsize nb : Nat) : Option (State × Nat) :=
  if m.top = 0 then
    let m := { m with leastAddr := if m.leastAddr = 0 ∨ tbase < m.leastAddr then tbase else m.leastAddr }
    let s := { m.segment a (m.seg a) with base := tbase, size := tsize, sflags := useMmapBit }
    let m := { m.setSegment a (m.seg a) s with releaseChecks := maxReleaseCheckRate }
    some (initTop a (initBins a 32 m) tbase (tsize - topFootSize a), 0)
  else do
    let sp ← findSegment a m (fun _ s => tbase = s.base + s.size) (2 ^ a.bits) (m.seg a)
    let s := m.segment a sp
    if sp ≠ 0 ∧ s.isOwn ∧ s.holds m.top then
      some (initTop a (m.setSegment a sp { s with size := s.size + tsize }) m.top (m.topsize + tsize), 0)
    else
      let m := { m with leastAddr := if tbase < m.leastAddr then tbase else m.leastAddr }
      let sp ← findSegment a m (fun _ s => s.base = tbase + tsize) (2 ^ a.bits) (m.seg a)
      let s := m.segment a sp
      if sp ≠ 0 ∧ s.isOwn then
        prependAlloc a (m.setSegment a sp { s with base := tbase, size := s.size + tsize }) tbase s.base nb
      else (addSegment a m tbase tsize).map (·, 0)

/-- The address 0 is `NULL`. -/
def sysAlloc (mmap mmap' : Mmap) (nb : Nat) : Option (State × Nat) :=
  let direct := if mmapThreshold ≤ nb ∧ m.topsize ≠ 0 then mmapAlloc a m mmap nb else (m, 0)
  if direct.2 ≠ 0 then some direct
  else if allocSize a nb ≤ nb then some (m, 0)
  else
    match mmap' (allocSize a nb) with
    | none => some (m, 0)
    | some tbase => do
        let (m, mem) ← useMemory a m tbase (allocSize a nb) nb
        if mem ≠ 0 then some (m, mem)
        else if nb < m.topsize then some (splitTop a m nb)
        else some (m, 0)

/-- `munmap` fails, and the chunk goes back to a bin. -/
def releaseSegment (s : Segment) : Option State :=
  let p := alignAsChunk a s.base
  let psize := chunksize (m.head a p)
  if s.isOwn ∧ ¬ isInuse (m.head a p) ∧ s.base + s.size - topFootSize a ≤ p + psize then do
    let m ← if p = m.dv then some { m with dv := 0, dvsize := 0 } else unlinkLargeChunk a m p
    insertLargeChunk a m p psize
  else some m

/-- The loop over the segments from `sp` on, which counts them. -/
def releaseLoop : Nat → Nat → Nat → State → Option (State × Nat)
  | 0, _, _, _ => none
  | fuel + 1, sp, nsegs, m =>
      if sp = 0 then some (m, nsegs)
      else do
        let s := m.segment a sp
        let m ← releaseSegment a m s
        releaseLoop fuel s.next (nsegs + 1) m

def releaseUnusedSegments : Option State := do
  let (m, nsegs) ← releaseLoop a (2 ^ a.bits) (m.segment a (m.seg a)).next 0 m
  some { m with releaseChecks := if maxReleaseCheckRate < nsegs then nsegs else maxReleaseCheckRate }

/-- The top chunk does not shrink, since `mremap` and `munmap` fail. -/
def shrinkTop (pad : Nat) : Option State :=
  if pad < m.topsize then do
    let extra := ((m.topsize - pad + (granularity - 1)) / granularity - 1) * granularity
    let sp ← segmentHolding a m m.top
    if sp = 0 then none
    else if (m.segment a sp).isOwn ∧ extra ≤ (m.segment a sp).size then
      (hasSegmentLink a m (m.segment a sp)).map fun _ => m
    else some m
  else some m

def sysTrim (pad : Nat) : Option State :=
  if pad < maxRequest a ∧ m.top ≠ 0 then do
    let m ← shrinkTop a m (sizeAdd a pad (topFootSize a))
    let m ← releaseUnusedSegments a m
    some (if m.trimCheck < m.topsize then { m with trimCheck := maxSizeT a } else m)
  else some m

/-! ### Requests from a tree -/

def leftmostChild (t : Nat) : Nat :=
  if m.get a t (.child false) ≠ 0 then m.get a t (.child false) else m.get a t (.child true)

/-- The smallest chunk so far, or `NULL`, and what it leaves over. -/
abbrev Best := Nat × Nat

def Best.improve (best : Best) (t trem : Nat) : Best := if trem < best.2 then (t, trem) else best

/-- The loop that finds the smallest chunk of a tree or subtree. -/
def smallestLoop (nb : Nat) : Nat → Nat → Best → Option Best
  | 0, _, _ => none
  | fuel + 1, t, best =>
      if t = 0 then some best
      else smallestLoop nb fuel (leftmostChild a m t) (best.improve t (sizeSub a (chunksize (m.head a t)) nb))

/-- The loop that looks for a chunk of size `nb`, with the subtree from which the search goes on. -/
def exactLoop (nb : Nat) : Nat → BitVec a.bits → Nat → Nat → Best → Option (Nat × Best)
  | 0, _, _, _, _ => none
  | fuel + 1, sizebits, t, rst, best =>
      let trem := sizeSub a (chunksize (m.head a t)) nb
      if trem < best.2 ∧ trem = 0 then some (t, best.improve t trem)
      else
        let rt := m.get a t (.child true)
        let next := m.get a t (.child sizebits.msb)
        let rst := if rt ≠ 0 ∧ rt ≠ next then rt else rst
        if next = 0 then some (rst, best.improve t trem)
        else exactLoop nb fuel (sizebits <<< 1) next rst (best.improve t trem)

/-- The chunk `v` leaves its tree; `keep` takes what it has too much. -/
def splitTreeChunk (keep : State → Nat → Nat → Option State) (v rsize nb : Nat) : Option (State × Nat) :=
  let r := v + nb
  if m.okAddress v ∧ v < r then do
    let m ← unlinkLargeChunk a m v
    if rsize < minChunkSize a then some (m.setInuseAndPinuse a v (rsize + nb), chunk2mem a v)
    else
      let m ← keep ((m.setSizeAndPinuseOfInuseChunk a v nb).setSizeAndPinuseOfFreeChunk a r rsize) r rsize
      some (m, chunk2mem a v)
  else none

/-- The subtree where the search for a chunk of at least `nb` bytes goes on, and the best chunk so far. -/
def exactSearch (nb : Nat) : Option (Nat × Best) :=
  let t := m.get a (m.treebinAt a (treeIndex nb)) .root
  if t ≠ 0 then exactLoop a m nb (2 ^ a.bits) (treeKey a nb) t 0 (0, sizeSub a 0 nb)
  else some (0, 0, sizeSub a 0 nb)

def tmallocLarge (nb : Nat) : Option (State × Nat) := do
  let (t, best) ← exactSearch a m nb
  let leftbits := leftBits (idx2bit (treeIndex nb)) &&& m.treemap
  let t :=
    if t = 0 ∧ best.1 = 0 ∧ leftbits ≠ 0 then m.get a (m.treebinAt a (bit2idx (leastBit leftbits))) .root else t
  let (v, rsize) ← smallestLoop a m nb (2 ^ a.bits) t best
  if v ≠ 0 ∧ rsize < sizeSub a m.dvsize nb then splitTreeChunk a m (insertChunk a) v rsize nb else some (m, 0)

def tmallocSmall (nb : Nat) : Option (State × Nat) := do
  let t := m.get a (m.treebinAt a (bit2idx (leastBit m.treemap))) .root
  let (v, rsize) ← smallestLoop a m nb (2 ^ a.bits) (leftmostChild a m t) (t, sizeSub a (chunksize (m.head a t)) nb)
  splitTreeChunk a m (replaceDv a) v rsize nb

/-! ### The functions of the library -/

/-- The rest of `dlmalloc`, for a request that no bin has served. -/
def mallocRest (mmap mmap' : Mmap) (nb : Nat) : Option (State × Nat) :=
  if nb ≤ m.dvsize then
    let rsize := m.dvsize - nb
    let p := m.dv
    if minChunkSize a ≤ rsize then
      let r := p + nb
      let m := { m with dv := r, dvsize := rsize }
      some ((m.setSizeAndPinuseOfFreeChunk a r rsize).setSizeAndPinuseOfInuseChunk a p nb, chunk2mem a p)
    else
      let dvs := m.dvsize
      some (({ m with dvsize := 0, dv := 0 } : State).setInuseAndPinuse a p dvs, chunk2mem a p)
  else if nb < m.topsize then some (splitTop a m nb)
  else sysAlloc a m mmap mmap' nb

/-- A request that a tree may serve. -/
def orRest (mmap mmap' : Mmap) (nb : Nat) : Option (State × Nat) → Option (State × Nat)
  | none => none
  | some (m', mem) => if mem ≠ 0 then some (m', mem) else mallocRest a m mmap mmap' nb

def mallocSmall (mmap mmap' : Mmap) (nb : Nat) : Option (State × Nat) :=
  let idx := smallIndex nb
  let smallbits := m.smallmap >>> idx
  if smallbits &&& 3 ≠ 0 then do
    let idx := idx + (~~~smallbits &&& 1).toNat
    let b := m.smallbinAt a idx
    let p := m.get a b .fd
    let m ← unlinkFirstSmallChunk a m b p idx
    some (m.setInuseAndPinuse a p (smallIndex2size idx), chunk2mem a p)
  else if m.dvsize < nb then
    if smallbits ≠ 0 then do
      let i := bit2idx (leastBit (smallbits <<< idx &&& leftBits (idx2bit idx)))
      let b := m.smallbinAt a i
      let p := m.get a b .fd
      let m ← unlinkFirstSmallChunk a m b p i
      let rsize := smallIndex2size i - nb
      if a.word ≠ 4 ∧ rsize < minChunkSize a then
        some (m.setInuseAndPinuse a p (smallIndex2size i), chunk2mem a p)
      else
        let r := p + nb
        let m ← replaceDv a ((m.setSizeAndPinuseOfInuseChunk a p nb).setSizeAndPinuseOfFreeChunk a r rsize) r rsize
        some (m, chunk2mem a p)
    else if m.treemap ≠ 0 then orRest a m mmap mmap' nb (tmallocSmall a m nb)
    else mallocRest a m mmap mmap' nb
  else mallocRest a m mmap mmap' nb

/-- `mmap` and `mmap'` answer the calls that `sys_alloc` makes, the direct one first. -/
def dlmalloc (mmap mmap' : Mmap) (bytes : Nat) : Option (State × Nat) :=
  if bytes ≤ maxSmallRequest a then
    mallocSmall a m mmap mmap' (if bytes < minRequest a then minChunkSize a else padRequest a bytes)
  else if maxRequest a ≤ bytes then mallocRest a m mmap mmap' (maxSizeT a)
  else if m.treemap ≠ 0 then orRest a m mmap mmap' (padRequest a bytes) (tmallocLarge a m (padRequest a bytes))
  else mallocRest a m mmap mmap' (padRequest a bytes)

/-- A chunk that has been freed goes to its bin. -/
def binFreed (p psize : Nat) : Option State :=
  if isSmall psize then insertSmallChunk a m p psize
  else do
    let m ← insertLargeChunk a m p psize
    let m := { m with releaseChecks := sizeSub a m.releaseChecks 1 }
    if m.releaseChecks = 0 then releaseUnusedSegments a m else some m

/-- `dlfree` once the chunk before has been taken in. -/
def freeForward (p psize next : Nat) : Option State :=
  if p < next ∧ pinuse (m.head a next) then
    if ¬ cinuse (m.head a next) then
      if next = m.top then
        let tsize := m.topsize + psize
        let m := ({ m with topsize := tsize, top := p } : State).setHead a p (tsize ||| pinuseBit)
        let m := if p = m.dv then { m with dv := 0, dvsize := 0 } else m
        if m.trimCheck < tsize then sysTrim a m 0 else some m
      else if next = m.dv then
        let dsize := m.dvsize + psize
        some (({ m with dvsize := dsize, dv := p } : State).setSizeAndPinuseOfFreeChunk a p dsize)
      else do
        let nsize := chunksize (m.head a next)
        let psize := psize + nsize
        let m ← unlinkChunk a m next nsize
        let m := m.setSizeAndPinuseOfFreeChunk a p psize
        if p = m.dv then some { m with dvsize := psize } else binFreed a m p psize
    else binFreed a (m.setFreeWithPinuse a p psize next) p psize
  else none

def dlfree (mem : Nat) : Option State :=
  if mem = 0 then some m
  else
    let p := mem2chunk a mem
    if m.okAddress p ∧ isInuse (m.head a p) then
      let psize := chunksize (m.head a p)
      let next := p + psize
      if ¬ pinuse (m.head a p) then
        -- `munmap` fails, and the memory is lost.
        if isMmapped (m.head a p) then some m
        else
          let prevsize := m.prevFoot a p
          let prev := p - prevsize
          let psize := psize + prevsize
          if m.okAddress prev then
            if prev ≠ m.dv then do
              let m ← unlinkChunk a m prev prevsize
              freeForward a m prev psize next
            else if cinuse (m.head a next) ∧ pinuse (m.head a next) then
              some (({ m with dvsize := psize } : State).setFreeWithPinuse a prev psize next)
            else freeForward a m prev psize next
          else none
      else freeForward a m p psize next
    else none

/-- `memset(mem, value, n)`. -/
def memset (mem : Nat) (value : BitVec 32) (n : Nat) : State :=
  let bytes : CString.Memory a.bits := fun x => m.mem x.toNat
  let cleared := (CString.memset (BitVec.ofNat a.bits mem) value (BitVec.ofNat a.bits n) bytes).2
  { m with mem := fun x => if x < 2 ^ a.bits then cleared (BitVec.ofNat a.bits x) else m.mem x }

def dlcalloc (mmap mmap' : Mmap) (nElements elemSize : Nat) : Option (State × Nat) := do
  let req := if nElements = 0 then 0 else nElements * elemSize % 2 ^ a.bits
  let req :=
    if nElements ≠ 0 ∧ (0xFFFF < nElements ∨ 0xFFFF < elemSize) ∧ req / nElements ≠ elemSize then maxSizeT a else req
  let (m, mem) ← dlmalloc a m mmap mmap' req
  if mem ≠ 0 then some (memset a m mem 0 req, mem) else some (m, mem)

end Kiznix.Malloc
