import Kiznix.MallocCoalesced
import Kiznix.MallocRequest

/-! The heap as its clients see it: blocks that are their own until they free them. Over whole runs the allocator
keeps what they have written. -/

namespace Kiznix.Malloc

open ByteMemory BlockRow LinkedTrie
open Switch (Arch)

variable {a : Arch} {m m' : State} {row row' : List (Block Kind)} {p q n t bytes mem stop : Nat} {mmap mmap' : Mmap}

/-! ### Clients -/

/-- A block that a client has. -/
structure Allocation where
  mem : Nat
  bytes : Nat
  deriving DecidableEq

def Allocation.Has (b : Allocation) (x : Nat) : Prop := b.mem ≤ x ∧ x < b.mem + b.bytes

/-- What the clients know: their blocks, the bytes that they have written or had cleared, and an address from which
`mmap` has handed out nothing. -/
structure Heap where
  blocks : List Allocation
  known : Nat → Option (BitVec 8)
  next : Nat

/-- A call with the answers of `mmap` to it, which are below `stop`, or a write of a client. -/
inductive Call where
  | malloc (mmap mmap' : Mmap) (stop bytes : Nat)
  | calloc (mmap mmap' : Mmap) (stop nElements elemSize : Nat)
  | free (mem : Nat)
  | write (x : Nat) (value : BitVec 8)

def Call.exec (a : Arch) (m : State) : Call → Option (State × Nat)
  | .malloc mmap mmap' _ bytes => dlmalloc a m mmap mmap' bytes
  | .calloc mmap mmap' _ nElements elemSize => dlcalloc a m mmap mmap' nElements elemSize
  | .free mem => (dlfree a m mem).map (·, 0)
  | .write x value => some ({ m with mem := Function.update m.mem x value }, 0)

/-- `mmap` answers with whole pages from `next` on, and they end at `stop` at most. -/
def Hands (next stop : Nat) (mmap : Mmap) : Prop :=
  ∀ len base, mmap len = some base → base % pageSize = 0 ∧ next ≤ base ∧ base + len ≤ stop

/-- The new memory of a call is in the address space. -/
structure Heap.Room (a : Arch) (h : Heap) (mmap mmap' : Mmap) (stop : Nat) : Prop where
  direct : Hands h.next stop mmap
  second : Hands h.next stop mmap'
  next : h.next ≤ stop
  bound : stop < 2 ^ a.bits

/-- Clients free what is theirs, or `NULL`, and write into their blocks. -/
def Call.Legal (a : Arch) (h : Heap) : Call → Prop
  | .malloc mmap mmap' stop bytes => h.Room a mmap mmap' stop ∧ bytes < 2 ^ a.bits
  | .calloc mmap mmap' stop nElements elemSize =>
      h.Room a mmap mmap' stop ∧ nElements < 2 ^ a.bits ∧ elemSize < 2 ^ a.bits
  | .free mem => mem = 0 ∨ ∃ b ∈ h.blocks, b.mem = mem
  | .write x _ => ∃ b ∈ h.blocks, b.Has x

/-- The clients get a block whose bytes are all `fill`, or are not known. -/
def Heap.grant (h : Heap) (stop mem bytes : Nat) (fill : Option (BitVec 8)) : Heap :=
  if mem = 0 then { h with next := stop }
  else {
    blocks := ⟨mem, bytes⟩ :: h.blocks
    known := fun x => if mem ≤ x ∧ x < mem + bytes then fill else h.known x
    next := stop }

def Heap.after (h : Heap) : Call → Nat → Heap
  | .malloc _ _ stop bytes, mem => h.grant stop mem bytes none
  | .calloc _ _ stop nElements elemSize, mem => h.grant stop mem (nElements * elemSize) (some 0)
  | .free mem, _ => { h with blocks := h.blocks.filter fun b => b.mem ≠ mem }
  | .write x value, _ => { h with known := Function.update h.known x (some value) }

/-- A new block is aligned, in the address space and apart from the others. -/
structure Granted (a : Arch) (h : Heap) (mem bytes : Nat) : Prop where
  nonnull : mem ≠ 0
  aligned : mem % mallocAlignment a = 0
  fits : mem + bytes ≤ 2 ^ a.bits
  distinct : ∀ b ∈ h.blocks, b.mem ≠ mem
  apart : ∀ b ∈ h.blocks, mem + bytes ≤ b.mem ∨ b.mem + b.bytes ≤ mem

/-- What a call may return, and whether it leaves everything as it was. -/
def Call.Answered (a : Arch) (h : Heap) (same : Prop) : Call → Nat → Prop
  | .malloc _ mmap' _ bytes, mem => Granted a h mem bytes ∨ (mem = 0 ∧ same ∧ Refused a mmap' bytes)
  | .calloc _ mmap' _ nElements elemSize, mem =>
      Granted a h mem (nElements * elemSize) ∨ (mem = 0 ∧ same ∧ Refused a mmap' (nElements * elemSize))
  | .free _, _ | .write _ _, _ => True

/-- The blocks of the clients are chunks of the row, and hold what is known of them. -/
structure Keeps (a : Arch) (m : State) (h : Heap) (row : List (Block Kind)) : Prop where
  inv : Inv a m row
  pos : 0 < h.next
  next : total row ≤ h.next
  owned : ∀ b ∈ h.blocks, ∃ p n, b.mem = chunk2mem a p ∧ Live a row p n ∧ b.bytes + a.word ≤ n
  distinct : h.blocks.Pairwise fun b b' => b.mem ≠ b'.mem
  contents : ∀ b ∈ h.blocks, ∀ x, b.Has x → ∀ v, h.known x = some v → m.mem x = v

/-- Two chunks of clients have nothing in common. -/
theorem live_apart {p' n' : Nat} (hp : Live a row p n) (hp' : Live a row p' n') (hne : p ≠ p') :
    p + a.word + n ≤ p' + 2 * a.word ∨ p' + a.word + n' ≤ p + 2 * a.word := by
  have hapart : ∀ b b' : Block Kind, n ≤ b.size → n' ≤ b'.size → At row p b → At row p' b' →
      p + a.word + n ≤ p' + 2 * a.word ∨ p' + a.word + n' ≤ p + 2 * a.word := by
    rintro b b' hn hn' ⟨k, hk⟩ ⟨k', hk'⟩
    obtain ⟨-, heq, -⟩ | hlow | hhigh := hk.apart hk'
    · exact absurd heq hne
    · exact Or.inl (by omega)
    · exact Or.inr (by omega)
  obtain hp | hp := hp <;> obtain hp' | hp' := hp' <;> refine hapart _ _ ?_ ?_ hp hp' <;> dsimp only <;> omega

theorem Row.live_range {M : Memory} (h : Row a M row) (hp : Live a row p n) :
    0 < p ∧ p % mallocAlignment a = 0 ∧ p + a.word + n ≤ total row := by
  obtain ⟨k, hk⟩ | ⟨k, hk⟩ := hp
  · obtain ⟨hpos, haligned⟩ := (h.tagged hk).place nofun
    have hroom : p + n + a.word ≤ total row := h.room hk (Or.inl rfl)
    exact ⟨hpos, haligned, by omega⟩
  · obtain ⟨hpos, haligned⟩ := (h.tagged hk).place nofun
    have hbounds : 0 ≤ p ∧ p + (n + a.word) ≤ 0 + total row := hk.bounds
    exact ⟨hpos, haligned, by omega⟩

variable {h : Heap} {c : Call} {r : Nat}

theorem Keeps.answers (k : Keeps a m h row) (hroom : h.Room a mmap mmap' stop) :
    Answers a row stop mmap ∧ Answers a row stop mmap' := by
  have hfresh : ∀ mmap, Hands h.next stop mmap → Answers a row stop mmap := fun mmap hhands => ⟨fun len base heq => by
    obtain ⟨haligned, hnext, hstop⟩ := hhands len base heq
    exact ⟨haligned, k.pos.trans_le hnext, k.next.trans hnext, hstop, hroom.bound⟩⟩
  exact ⟨hfresh _ hroom.direct, hfresh _ hroom.second⟩

theorem Keeps.skip (k : Keeps a m h row) (hstop : h.next ≤ stop) : Keeps a m { h with next := stop } row :=
  ⟨k.inv, k.pos.trans_le hstop, k.next.trans hstop, k.owned, k.distinct, k.contents⟩

/-- A new chunk is a new block. -/
theorem Keeps.granted (k : Keeps a m h row) (hstop : h.next ≤ stop)
    (hgives : Gives a m row stop (bytes + a.word) m' mem row' p n) :
    Granted a h mem bytes ∧ Keeps a m' (h.grant stop mem bytes none) row' := by
  have hword := word_cases a
  have hmem := hgives.mem
  have henough := hgives.enough
  have hlive : Live a row' p n := (hgives.live p n).mpr (Or.inr ⟨rfl, rfl⟩)
  obtain ⟨hpos, haligned, hrange⟩ := hgives.inv.laid.live_range hlive
  rw [chunk2mem] at hmem
  have hapart : ∀ b ∈ h.blocks, b.mem ≠ mem ∧ (mem + bytes ≤ b.mem ∨ b.mem + b.bytes ≤ mem) := by
    intro b hb
    obtain ⟨p', n', hbmem, hlive', hroom⟩ := k.owned b hb
    rw [chunk2mem] at hbmem
    have hne : p ≠ p' := by
      rintro rfl
      exact hgives.fresh n' hlive'
    have hcase := live_apart hlive ((hgives.live p' n').mpr (Or.inl hlive')) hne
    omega
  have hnonnull : mem ≠ 0 := by omega
  refine ⟨⟨hnonnull, ?_, ?_, fun b hb => (hapart b hb).1, fun b hb => (hapart b hb).2⟩, ?_⟩
  · rw [hmem, ← alignment_eq, Nat.add_mod_right]
    exact haligned
  · have hbound := hgives.inv.laid.bound
    omega
  · rw [Heap.grant, if_neg hnonnull]
    refine ⟨hgives.inv, k.pos.trans_le hstop, hgives.within.trans (max_le (k.next.trans hstop) le_rfl), fun b hb => ?_,
      List.pairwise_cons.mpr ⟨fun b hb => (hapart b hb).1.symm, k.distinct⟩, fun b hb x hx v hv => ?_⟩
    · obtain rfl | hb := List.mem_cons.mp hb
      · exact ⟨p, n, hmem, hlive, henough⟩
      · obtain ⟨p', n', hbmem, hlive', hroom⟩ := k.owned b hb
        exact ⟨p', n', hbmem, (hgives.live p' n').mpr (Or.inl hlive'), hroom⟩
    · dsimp only at hv
      split at hv
      · cases hv
      · next hout =>
          obtain rfl | hb := List.mem_cons.mp hb
          · exact absurd hx hout
          · obtain ⟨p', n', hbmem, hlive', hroom⟩ := k.owned b hb
            rw [chunk2mem] at hbmem
            obtain ⟨hlow, hhigh⟩ := hx
            rw [← k.contents b hb x ⟨hlow, hhigh⟩ v hv]
            exact hgives.moves.kept p' n' hlive' ((hgives.live p' n').mpr (Or.inl hlive')) x (by omega) (by omega)

theorem Keeps.malloc (k : Keeps a m h row) (hlegal : (Call.malloc mmap mmap' stop bytes).Legal a h) :
    ∃ m' mem row', dlmalloc a m mmap mmap' bytes = some (m', mem) ∧
      (Granted a h mem bytes ∨ (mem = 0 ∧ m' = m ∧ Refused a mmap' bytes)) ∧
      Keeps a m' (h.grant stop mem bytes none) row' := by
  obtain ⟨hroom, hbytes⟩ := hlegal
  obtain ⟨hanswers, hanswers'⟩ := k.answers hroom
  obtain ⟨m', mem, heq, ⟨row', p, n, hgives⟩ | ⟨rfl, rfl, hfails⟩⟩ := k.inv.dlmalloc hanswers hanswers' hbytes
  · obtain ⟨hgranted, hkeeps⟩ := k.granted hroom.next hgives
    exact ⟨m', mem, row', heq, Or.inl hgranted, hkeeps⟩
  · exact ⟨_, 0, row, heq, Or.inr ⟨rfl, rfl, hfails⟩, k.skip hroom.next⟩

/-- Writes into blocks: what is known of them afterwards is what has been written. -/
theorem Keeps.fill (k : Keeps a m h row) {M : Memory} {known : Nat → Option (BitVec 8)} {b : Allocation}
    (hb : b ∈ h.blocks) (hM : ∀ x, ¬ b.Has x → M x = m.mem x)
    (hknown : ∀ x v, known x = some v → M x = v ∨ (h.known x = some v ∧ M x = m.mem x)) :
    Keeps a { m with mem := M } { h with known := known } row := by
  obtain ⟨p, n, hmem, hlive, hroom⟩ := k.owned b hb
  rw [chunk2mem] at hmem
  have hout : ∀ x, ¬ (p + 2 * a.word ≤ x ∧ x < p + a.word + n) → M x = m.mem x := by
    refine fun x hx => hM x ?_
    rintro ⟨hlow, hhigh⟩
    exact hx ⟨by omega, by omega⟩
  refine ⟨k.inv.fill hlive hout, k.pos, k.next, k.owned, k.distinct, fun b' hb' x hx v hv => ?_⟩
  obtain hsame | ⟨hold, hsame⟩ := hknown x v hv
  · exact hsame
  · exact hsame.trans (k.contents b' hb' x hx v hold)

theorem Keeps.calloc {nElements elemSize : Nat} (k : Keeps a m h row)
    (hlegal : (Call.calloc mmap mmap' stop nElements elemSize).Legal a h) :
    ∃ m' mem row', dlcalloc a m mmap mmap' nElements elemSize = some (m', mem) ∧
      (Granted a h mem (nElements * elemSize) ∨ (mem = 0 ∧ m' = m ∧ Refused a mmap' (nElements * elemSize))) ∧
      Keeps a m' (h.grant stop mem (nElements * elemSize) (some 0)) row' := by
  obtain ⟨hroom, hx, hy⟩ := hlegal
  rw [dlcalloc]
  dsimp only
  rw [callocRequest_eq hx hy]
  by_cases hfits : nElements * elemSize < 2 ^ a.bits
  · rw [if_pos hfits]
    have hlegal : (Call.malloc mmap mmap' stop (nElements * elemSize)).Legal a h := ⟨hroom, hfits⟩
    obtain ⟨m', mem, row', heq, hgranted, hkeeps⟩ := k.malloc hlegal
    rw [heq]
    by_cases hnull : mem = 0
    · refine ⟨m', mem, row', by simp [hnull], hgranted, ?_⟩
      rw [Heap.grant, if_pos hnull] at hkeeps ⊢
      exact hkeeps
    · have hgrant := hgranted.resolve_right fun hfails => hnull hfails.1
      refine ⟨memset a m' mem 0 (nElements * elemSize), mem, row', by simp [hnull], Or.inl hgrant, ?_⟩
      rw [Heap.grant, if_neg hnull] at hkeeps ⊢
      have hmem : ∀ x, (memset a m' mem 0 (nElements * elemSize)).mem x =
          if mem ≤ x ∧ x < mem + nElements * elemSize then 0 else m'.mem x := fun x => memset_mem hfits hgrant.fits
      refine hkeeps.fill (b := ⟨mem, nElements * elemSize⟩) (M := (memset a m' mem 0 (nElements * elemSize)).mem)
        List.mem_cons_self (fun x hout => ?_) fun x v hv => ?_
      · rw [hmem]
        exact if_neg hout
      · rw [hmem]
        split at hv
        · next hin =>
            rw [if_pos hin]
            exact Or.inl (Option.some.inj hv)
        · next hout =>
            rw [if_neg hout]
            exact Or.inr ⟨(if_neg hout).trans hv, rfl⟩
  · rw [if_neg hfits, k.inv.dlmalloc_max]
    have hmax := maxRequest_eq a
    refine ⟨m, 0, row, by simp, Or.inr ⟨rfl, rfl, Or.inl (by omega)⟩, ?_⟩
    rw [Heap.grant, if_pos rfl]
    exact k.skip hroom.next

theorem Keeps.free (k : Keeps a m h row) (hlegal : (Call.free mem).Legal a h) :
    ∃ m' row', dlfree a m mem = some m' ∧
      Keeps a m' { h with blocks := h.blocks.filter fun b => b.mem ≠ mem } row' := by
  obtain rfl | ⟨b, hb, rfl⟩ := hlegal
  · exact ⟨m, row, rfl, k.inv, k.pos, k.next, fun b hb => k.owned b (List.mem_of_mem_filter hb),
      k.distinct.sublist List.filter_sublist, fun b hb => k.contents b (List.mem_of_mem_filter hb)⟩
  · obtain ⟨p, n, hmem, hlive, hroom⟩ := k.owned b hb
    obtain ⟨m', row', heq, hfrees⟩ := k.inv.dlfree hlive
    have hkept : ∀ b' ∈ h.blocks.filter (fun b' => decide (b'.mem ≠ b.mem)), ∃ p' n', b'.mem = chunk2mem a p' ∧
        Live a row p' n' ∧ Live a row' p' n' ∧ b'.bytes + a.word ≤ n' := by
      intro b' hb'
      obtain ⟨hb', hne⟩ := List.mem_filter.mp hb'
      obtain ⟨p', n', hmem', hlive', hroom'⟩ := k.owned b' hb'
      refine ⟨p', n', hmem', hlive', (hfrees.live p' n').mpr ⟨hlive', ?_⟩, hroom'⟩
      rintro rfl
      exact of_decide_eq_true hne (hmem'.trans hmem.symm)
    refine ⟨m', row', hmem ▸ heq, hfrees.inv, k.pos, hfrees.size ▸ k.next, fun b' hb' => ?_,
      k.distinct.sublist List.filter_sublist, fun b' hb' x hx v hv => ?_⟩
    · obtain ⟨p', n', hmem', -, hlive', hroom'⟩ := hkept b' hb'
      exact ⟨p', n', hmem', hlive', hroom'⟩
    · obtain ⟨p', n', hmem', hlive', hlive'', hroom'⟩ := hkept b' hb'
      rw [chunk2mem] at hmem'
      obtain ⟨hlow, hhigh⟩ := hx
      rw [← k.contents b' (List.mem_of_mem_filter hb') x ⟨hlow, hhigh⟩ v hv]
      exact hfrees.moves.kept p' n' hlive' hlive'' x (by omega) (by omega)

theorem Keeps.write {x : Nat} {value : BitVec 8} (k : Keeps a m h row) (hlegal : (Call.write x value).Legal a h) :
    Keeps a { m with mem := Function.update m.mem x value }
      { h with known := Function.update h.known x (some value) } row := by
  obtain ⟨b, hb, hx⟩ := hlegal
  refine k.fill hb (fun y hy => Function.update_of_ne ?_ _ _) fun y v hv => ?_
  · rintro rfl
    exact hy hx
  · by_cases heq : y = x
    · subst heq
      rw [Function.update_self] at hv ⊢
      exact Or.inl (Option.some.inj hv)
    · rw [Function.update_of_ne heq] at hv ⊢
      exact Or.inr ⟨hv, rfl⟩

/-- A call of a client is answered, and what the clients have is kept. -/
theorem Keeps.step (k : Keeps a m h row) (hlegal : c.Legal a h) :
    ∃ m' r row', c.exec a m = some (m', r) ∧ c.Answered a h (m' = m) r ∧ Keeps a m' (h.after c r) row' := by
  cases c with
  | malloc mmap mmap' stop bytes => exact k.malloc hlegal
  | calloc mmap mmap' stop nElements elemSize => exact k.calloc hlegal
  | free mem =>
      obtain ⟨m', row', heq, hkeeps⟩ := k.free hlegal
      exact ⟨m', 0, row', by rw [Call.exec, heq]; rfl, trivial, hkeeps⟩
  | write x value => exact ⟨_, 0, row, rfl, trivial, k.write hlegal⟩

/-! ### Runs -/

/-- `_gm_` is zeroed, and is before the memory that `mmap` hands out. -/
structure Bss (a : Arch) (mem : Memory) (gm start : Nat) : Prop where
  zero : ∀ x, gm ≤ x → x < gm + gmSize a → mem x = 0
  low : gm + gmSize a ≤ start
  bound : start < 2 ^ a.bits

/-- The states of runs, from a heap for which `mmap` has handed out nothing from `start` on. -/
inductive Reached (a : Arch) (start : Nat) : State → Heap → Prop
  | initial {mem : Memory} {gm : Nat} : Bss a mem gm start →
      Reached a start (State.initial mem gm) ⟨[], fun _ => none, start⟩
  | call {m m' : State} {h : Heap} {c : Call} {r : Nat} : Reached a start m h → c.Legal a h →
      c.exec a m = some (m', r) → Reached a start m' (h.after c r)

variable {start gm : Nat} {M : Memory}

theorem load_zero {x len : Nat} (h : ∀ y, x ≤ y → y < x + len → M y = 0) : load M x len = 0 := by
  induction len generalizing x with
  | zero => rfl
  | succ len ih =>
      rw [load, h x le_rfl (by omega), ih fun y hlow hhigh => h y (by omega) (by omega)]
      rfl

/-- The row of a heap without memory. -/
theorem at_bare {b : Block Kind} (hb : At [⟨.gap, start⟩] q b) : b = ⟨.gap, start⟩ := by
  obtain ⟨k, ⟨-, -, heq⟩ | hnil⟩ := hb
  · exact heq
  · exact hnil.elim

theorem Bss.inv (h : Bss a M gm start) : Inv a (State.initial M gm) [⟨.gap, start⟩] where
  laid := ⟨⟨tagged_gap rfl, trivial⟩, rfl, by simpa using h.bound.le⟩
  top _ _ := ⟨fun hat => (by cases at_bare hat), fun hinit => absurd rfl hinit.1⟩
  bare _ := ⟨rfl, fun _ _ hat => (by rw [at_bare hat])⟩
  least _ _ hat hgap := absurd (by rw [at_bare hat]) hgap
  outside _ _ hat hgap := absurd (by rw [at_bare hat]) hgap
  room := by simpa [State.initial] using h.low
  started hinit := absurd rfl hinit
  segments := by
    have hword := word_cases a
    obtain ⟨-, hseg, hend⟩ := State.seg_bounds (a := a) (s := State.initial M gm)
    have hgm : (State.initial M gm).gm = gm := rfl
    have hnext : ((State.initial M gm).segment a ((State.initial M gm).seg a)).next = 0 :=
      load_zero fun y hlow hhigh => h.zero y (by omega) (by omega)
    refine ⟨[], ?_, by simp, by simp, by simp, .nil, fun hinit => absurd rfl hinit, fun hinit => absurd rfl hinit⟩
    have hbare : (State.initial M gm).top = 0 := rfl
    rw [Recorded, if_pos hbare]
    exact ⟨rfl, hnext⟩
  stored := by
    refine ⟨Bins.empty, ⟨Bins.ok_empty, fun _ _ => ?_, fun hne => absurd rfl hne, fun _ => rfl, fun _ _ hat => ?_,
      fun _ _ _ hat => ?_⟩, rfl, rfl, fun i hi => absurd rfl hi, fun i hi => ?_, fun _ _ hx => ?_⟩
    · exact ⟨fun hheld => absurd hheld Bins.not_holds_empty, fun hat => (by cases at_bare hat.1)⟩
    · cases at_bare hat
    · cases at_bare hat
    · have hword := word_cases a
      have hgm : (State.initial M gm).gm = gm := rfl
      have hmul : i * a.word + a.word ≤ 32 * a.word := by
        rw [← Nat.succ_mul]
        exact Nat.mul_le_mul_right _ hi
      refine load_zero fun y hlow hhigh => ?_
      rw [Field.offset] at hlow
      rw [Field.offset, Field.size] at hhigh
      refine h.zero y (by omega) ?_
      rw [gmSize, segOffset]
      omega
    · cases hx

theorem Reached.keeps (hreached : Reached a start m h) : ∃ row, Keeps a m h row := by
  induction hreached with
  | initial hbss =>
      have hpos : 0 < gmSize a := by cases a <;> decide
      have hlow := hbss.low
      exact ⟨_, hbss.inv, by dsimp only; omega, by simp, nofun, .nil, nofun⟩
  | call _ hlegal hexec ih =>
      obtain ⟨row, hkeeps⟩ := ih
      obtain ⟨m', r, row', heq, -, hkeeps'⟩ := hkeeps.step hlegal
      cases hexec.symm.trans heq
      exact ⟨row', hkeeps'⟩

variable {s : State × Heap}

/-- The state after a call. -/
def Call.next (a : Arch) (c : Call) (s : State × Heap) : State × Heap :=
  match c.exec a s.1 with
  | none => s
  | some (m, r) => (m, s.2.after c r)

theorem Reached.next (hreached : Reached a start s.1 s.2) (hlegal : c.Legal a s.2) :
    Reached a start (c.next a s).1 (c.next a s).2 := by
  rw [Call.next]
  split
  · exact hreached
  · next heq => exact hreached.call hlegal heq

/-- Memory at `base`, for requests up to 1 MiB. -/
def pagesAt (base : Nat) : Mmap := fun len => if len ≤ 2 ^ 20 then some base else none

theorem hands_pagesAt {base : Nat} (hbase : base % pageSize = 0) : Hands base (base + 2 ^ 20) (pagesAt base) := by
  intro len b hb
  obtain ⟨hlen, heq⟩ := Option.ite_none_right_eq_some.mp hb
  cases heq
  exact ⟨hbase, le_rfl, by omega⟩

/-- A request when `mmap` has no more memory. -/
def starved (bytes : Nat) : Call := .malloc (fun _ => none) (fun _ => none) (8192 + 2 ^ 20) bytes

theorem starved_legal (hnext : h.next = 8192 + 2 ^ 20) (hbytes : bytes < 2 ^ Arch.i386.bits) :
    (starved bytes).Legal .i386 h := by
  refine ⟨⟨?_, ?_, hnext.le, by decide⟩, hbytes⟩
  · exact fun _ _ heq => by cases heq
  · exact fun _ _ heq => by cases heq

/-- Blocks of 100, 1000 and 100 bytes, one behind the other. -/
def threeBlocks : State × Heap :=
  let s := (State.initial (fun _ => 0) 4096, ⟨[], fun _ => none, 8192⟩)
  let s := (Call.malloc (pagesAt 8192) (pagesAt 8192) (8192 + 2 ^ 20) 100).next .i386 s
  (starved 100).next .i386 ((starved 1000).next .i386 s)

theorem reached_threeBlocks : Reached .i386 8192 threeBlocks.1 threeBlocks.2 := by
  have hbss : Bss .i386 (fun _ => 0) 4096 8192 := ⟨fun _ _ _ => rfl, by decide, by decide⟩
  have hpages : Hands 8192 (8192 + 2 ^ 20) (pagesAt 8192) := hands_pagesAt (by decide)
  refine Reached.next (Reached.next (Reached.next (.initial hbss) ?_) ?_) ?_
  · exact ⟨⟨hpages, hpages, by decide, by decide⟩, by decide⟩
  · exact starved_legal rfl (by decide)
  · exact starved_legal rfl (by decide)

/-- The second of the three blocks has been freed. -/
def freedBlock : State × Heap := (Call.free 8304).next .i386 threeBlocks

theorem reached_freedBlock : Reached .i386 8192 freedBlock.1 freedBlock.2 :=
  reached_threeBlocks.next (Or.inr ⟨⟨8304, 1000⟩, by decide, rfl⟩)

/-- Whatever the clients do, no call aborts: a request gets a block of its own, or `NULL`, with everything as it was,
when it is too large or the memory that is asked for is refused. -/
theorem heap_answers (hreached : Reached a start m h) (hlegal : c.Legal a h) :
    ∃ m' r, c.exec a m = some (m', r) ∧ c.Answered a h (m' = m) r := by
  obtain ⟨row, hkeeps⟩ := hreached.keeps
  obtain ⟨m', r, -, hexec, hanswered, -⟩ := hkeeps.step hlegal
  exact ⟨m', r, hexec, hanswered⟩

/-- Part of the freed chunk goes to a new block. -/
theorem heap_answers_freed : ∃ m' r, (starved 500).exec .i386 freedBlock.1 = some (m', r) ∧
    (starved 500).Answered .i386 freedBlock.2 (m' = freedBlock.1) r :=
  heap_answers reached_freedBlock (starved_legal rfl (by decide))

/-- In every state of a run the clients' blocks are apart and aligned, and hold what has been written into them. -/
theorem heap_contents (hreached : Reached a start m h) :
    (h.blocks.Pairwise fun b b' => b.mem + b.bytes ≤ b'.mem ∨ b'.mem + b'.bytes ≤ b.mem) ∧
      (∀ b ∈ h.blocks, b.mem ≠ 0 ∧ b.mem % mallocAlignment a = 0 ∧ b.mem + b.bytes ≤ 2 ^ a.bits) ∧
      ∀ b ∈ h.blocks, ∀ x, b.Has x → ∀ v, h.known x = some v → m.mem x = v := by
  obtain ⟨row, k⟩ := hreached.keeps
  refine ⟨k.distinct.imp_of_mem fun {b b'} hb hb' hne => ?_, fun b hb => ?_, k.contents⟩
  · obtain ⟨p, n, hmem, hlive, hroom⟩ := k.owned b hb
    obtain ⟨p', n', hmem', hlive', hroom'⟩ := k.owned b' hb'
    have hplace : p ≠ p' := by
      rintro rfl
      exact hne (hmem.trans hmem'.symm)
    have hcase := live_apart hlive hlive' hplace
    rw [chunk2mem] at hmem hmem'
    omega
  · obtain ⟨p, n, hmem, hlive, hroom⟩ := k.owned b hb
    obtain ⟨hpos, haligned, hrange⟩ := k.inv.laid.live_range hlive
    have hbound := k.inv.laid.bound
    rw [chunk2mem] at hmem
    refine ⟨by omega, ?_, by omega⟩
    rw [hmem, ← alignment_eq, Nat.add_mod_right]
    exact haligned

/-- A byte at the end of the first block is written, and then the block behind it is freed and used again. -/
def writtenBlock : State × Heap :=
  (starved 500).next .i386 ((Call.free 8304).next .i386 ((Call.write 8299 7).next .i386 threeBlocks))

theorem heap_contents_written : writtenBlock.1.mem 8299 = 7 := by
  have hwritten := reached_threeBlocks.next (c := .write 8299 7) ⟨⟨8200, 100⟩, by decide, by decide, by decide⟩
  have hfreed := hwritten.next (c := .free 8304) (Or.inr ⟨⟨8304, 1000⟩, by decide, rfl⟩)
  have hreached : Reached .i386 8192 writtenBlock.1 writtenBlock.2 := hfreed.next (starved_legal rfl (by decide))
  exact (heap_contents hreached).2.2 ⟨8200, 100⟩ (by decide +kernel) 8299 ⟨by decide, by decide⟩ 7 (by decide +kernel)

/-- In every state of a run the free chunks that the links lead to carry their size at both ends, a chunk in use is
between any two of them, and none has a byte in common with a client's block. -/
theorem heap_coalesced (hreached : Reached a start m h) (hfree : m.Free a q n) :
    m.Bordered a q n ∧ (∀ q' n', m.Free a q' n' → q' = q ∨ q' + n' < q ∨ q + n < q') ∧
      ∀ b ∈ h.blocks, b.mem + b.bytes ≤ q + a.word ∨ q + n + a.word ≤ b.mem := by
  obtain ⟨row, k⟩ := hreached.keeps
  have hrow := k.inv.free_iff.mp hfree
  refine ⟨k.inv.bordered hrow, fun q' n' hfree' => k.inv.free_apart hrow (k.inv.free_iff.mp hfree'), fun b hb => ?_⟩
  obtain ⟨p, t, hmem, hlive, hroom⟩ := k.owned b hb
  rw [chunk2mem] at hmem
  obtain ⟨k₁, hk₁⟩ := hrow
  obtain ⟨k₂, hk₂⟩ | ⟨k₂, hk₂⟩ := hlive
  · obtain ⟨-, -, heq⟩ | hlow | hhigh := hk₁.apart hk₂
    · cases heq
    · exact Or.inr (by dsimp only at hlow; omega)
    · exact Or.inl (by dsimp only at hhigh; omega)
  · obtain ⟨-, -, heq⟩ | hlow | hhigh := hk₁.apart hk₂
    · cases heq
    · exact Or.inr (by dsimp only at hlow; omega)
    · exact Or.inl (by dsimp only at hhigh; omega)

theorem reaches_of_eq {α : Type} {H : Pointers α} {null p x : α} (hp : p = x) (hne : x ≠ null) :
    Reaches H null p x := by
  subst hp
  exact .root hne

/-- The freed block is in a tree. -/
theorem heap_coalesced_freed : freedBlock.1.Bordered .i386 8296 1008 ∧
    (∀ q' n', freedBlock.1.Free .i386 q' n' → q' = 8296 ∨ q' + n' < 8296 ∨ 8296 + 1008 < q') ∧
      ∀ b ∈ freedBlock.2.blocks,
        b.mem + b.bytes ≤ 8296 + Arch.i386.word ∨ 8296 + 1008 + Arch.i386.word ≤ b.mem :=
  heap_coalesced reached_freedBlock (Or.inl ⟨rfl, 3, Or.inr ⟨rfl, reaches_of_eq rfl (by decide)⟩⟩)

end Kiznix.Malloc
