import Kiznix.SwitchFrames

/-! The tables that `cpu_init` and `interrupt_init` load, and what the processor finds in them. -/

namespace Kiznix.Switch

open ByteMemory

/-! ### `cpu.c` and `interrupt.c` -/

structure GdtDescriptor where
  limit : Nat
  base : Nat
  flags1 : Nat
  flags2 : Nat

def GdtDescriptor.fields (d : GdtDescriptor) : List Field := [(2, d.limit), (2, d.base), (2, d.flags1), (2, d.flags2)]

/-- `GDT`. -/
def gdt : Arch → List GdtDescriptor
  | .i386 => [⟨0, 0, 0, 0⟩, ⟨0xFFFF, 0x0000, 0x9A00, 0x00CF⟩, ⟨0xFFFF, 0x0000, 0x9200, 0x00CF⟩]
  | .x86_64 => [⟨0, 0, 0, 0⟩, ⟨0x0000, 0x0000, 0x9A00, 0x0020⟩, ⟨0x0000, 0x0000, 0x9200, 0x0000⟩]

def gdtFields (a : Arch) : List Field := (gdt a).flatMap GdtDescriptor.fields

structure IdtDescriptor where
  offsetLow : BitVec 16
  selector : BitVec 16
  flags : BitVec 16
  offsetMid : BitVec 16
  /-- Only on x86_64, as `reserved`. -/
  offsetHigh : BitVec 32
  reserved : BitVec 32

namespace IdtDescriptor

def size : Arch → Nat
  | .i386 => 8
  | .x86_64 => 16

def fields (d : IdtDescriptor) : Arch → List Field
  | .i386 => [(2, d.offsetLow.toNat), (2, d.selector.toNat), (2, d.flags.toNat), (2, d.offsetMid.toNat)]
  | .x86_64 => [(2, d.offsetLow.toNat), (2, d.selector.toNat), (2, d.flags.toNat), (2, d.offsetMid.toNat),
      (4, d.offsetHigh.toNat), (4, d.reserved.toNat)]

/-- `idt_set_null`. -/
def idtSetNull : IdtDescriptor := ⟨0, 0, 0, 0, 0, 0⟩

def idtSetInterruptGate {a : Arch} (address : BitVec a.bits) : IdtDescriptor where
  offsetLow := (address &&& 0xFFFF).setWidth 16
  selector := 0x08
  flags := 0x8E00
  offsetMid := ((address >>> 16) &&& 0xFFFF).setWidth 16
  offsetHigh := ((address >>> 32) &&& 0xFFFFFFFF).setWidth 32
  reserved := 0

end IdtDescriptor

section Init

variable {a : Arch} (entry : Nat → BitVec a.bits)

/-- `interrupt_init_table`, where `interrupt_entry_i` is at `entry i`. -/
def interruptInitTable (i : Nat) : BitVec a.bits := if InterruptNull i then 0 else entry i

/-- What the loop of `interrupt_init` puts at `IDT + i`. -/
def idtDescriptor (i : Nat) : IdtDescriptor :=
  if interruptInitTable entry i = 0 then .idtSetNull else .idtSetInterruptGate (interruptInitTable entry i)

/-- The loop of `interrupt_init`. -/
def interruptInit (idt : Nat) (m : Memory) : Memory :=
  (List.range 256).foldl (fun m i => lay m (idt + i * IdtDescriptor.size a) ((idtDescriptor entry i).fields a)) m

end Init

/-! ### The processor -/

/-- A table register. -/
structure TableRegister where
  base : Nat
  limit : Nat

/-- A gate of the IDT. -/
@[ext]
structure Gate (a : Arch) where
  offset : BitVec a.bits
  selector : BitVec 16
  /-- P, DPL, S and the type. -/
  attributes : BitVec 8
  stackTable : BitVec 3

/-- The gate in the eight or sixteen bytes of a descriptor. -/
def decodeGate : (a : Arch) → Memory → Nat → Gate a
  | .i386, m, p =>
      let w := BitVec.ofNat 64 (load m p 8)
      ⟨w.extractLsb' 48 16 ++ w.extractLsb' 0 16, w.extractLsb' 16 16, w.extractLsb' 40 8, 0⟩
  | .x86_64, m, p =>
      let w := BitVec.ofNat 128 (load m p 16)
      ⟨w.extractLsb' 64 32 ++ (w.extractLsb' 48 16 ++ w.extractLsb' 0 16), w.extractLsb' 16 16, w.extractLsb' 40 8,
        w.extractLsb' 32 3⟩

/-- A code segment. -/
structure Segment where
  base : BitVec 32
  limit : BitVec 20
  attributes : BitVec 8
  /-- G, D, L and AVL. -/
  flags : BitVec 4
  deriving DecidableEq

def decodeSegment (m : Memory) (p : Nat) : Segment :=
  let w := BitVec.ofNat 64 (load m p 8)
  ⟨w.extractLsb' 56 8 ++ w.extractLsb' 16 24, w.extractLsb' 48 4 ++ w.extractLsb' 0 16, w.extractLsb' 40 8,
    w.extractLsb' 52 4⟩

/-- A flat code segment of privilege 0 for the mode of the kernel. -/
def Segment.Kernel : Arch → Segment → Prop
  | .i386, s => s.base = 0 ∧ s.limit = 0xFFFFF ∧ s.attributes = 0x9A ∧ s.flags = 0xC
  | .x86_64, s => s.attributes = 0x9A ∧ s.flags.getLsbD 1 = true ∧ s.flags.getLsbD 2 = false

instance (a : Arch) (s : Segment) : Decidable (Segment.Kernel a s) := by
  cases a <;> unfold Segment.Kernel <;> infer_instance

/-- Addresses that the processor takes. -/
def Canonical : {a : Arch} → BitVec a.bits → Prop
  | .i386, _ => True
  | .x86_64, v => v.extractLsb' 47 17 = 0 ∨ v.extractLsb' 47 17 = BitVec.allOnes 17

instance {a : Arch} (v : BitVec a.bits) : Decidable (Canonical v) := by
  cases a <;> unfold Canonical <;> infer_instance

/-- Where an interrupt goes that stays in the kernel: a present interrupt gate without a stack of its own, whose
selector is that of the kernel's code. -/
def interruptTarget (a : Arch) (idtr gdtr : TableRegister) (m : Memory) (i : Nat) : Option (BitVec a.bits) :=
  if idtr.limit < (i + 1) * IdtDescriptor.size a - 1 then none
  else
    let gate := decodeGate a m (idtr.base + i * IdtDescriptor.size a)
    let index := (gate.selector >>> 3).toNat
    if gate.attributes.extractLsb' 0 5 ≠ 0xE ∨ gate.attributes.getLsbD 7 = false ∨ gate.stackTable ≠ 0 then none
    else if index = 0 ∨ gate.selector.getLsbD 2 = true ∨ gdtr.limit < index * 8 + 7 then none
    else if ¬ (decodeSegment m (gdtr.base + index * 8)).Kernel a then none
    else if ¬ Canonical gate.offset then none
    else some gate.offset

/-! ### What the tables hold -/

variable {a : Arch} {m m' : Memory} {p idt i : Nat}

theorem size_idtFields (d : IdtDescriptor) : size (d.fields a) = IdtDescriptor.size a := by
  cases a <;> rfl

theorem fits_idtFields (d : IdtDescriptor) : Fits (d.fields a) := by
  have h16 : ∀ v : BitVec 16, v.toNat < 256 ^ 2 := fun v => v.isLt
  have h32 : ∀ v : BitVec 32, v.toNat < 256 ^ 4 := fun v => v.isLt
  cases a
  · exact fits_cons (h16 _) (fits_cons (h16 _) (fits_cons (h16 _) (fits_cons (h16 _) fits_nil)))
  · exact fits_cons (h16 _) (fits_cons (h16 _) (fits_cons (h16 _) (fits_cons (h16 _)
      (fits_cons (h32 _) (fits_cons (h32 _) fits_nil)))))

/-- After `n` turns of the loop the first `n` descriptors are in place and nothing behind them has changed. -/
theorem idt_loop (entry : Nat → BitVec a.bits) (n : Nat) :
    let m' := (List.range n).foldl
      (fun m i => lay m (idt + i * IdtDescriptor.size a) ((idtDescriptor entry i).fields a)) m
    (∀ i < n, Laid m' (idt + i * IdtDescriptor.size a) ((idtDescriptor entry i).fields a)) ∧
      ∀ x, x < idt ∨ idt + n * IdtDescriptor.size a ≤ x → m' x = m x := by
  induction n with
  | zero => exact ⟨fun i hi => absurd hi (Nat.not_lt_zero i), fun _ _ => rfl⟩
  | succ n ih =>
    simp only [List.range_succ, List.foldl_append, List.foldl_cons, List.foldl_nil]
    obtain ⟨hlaid, hframe⟩ := ih
    generalize (List.range n).foldl _ m = m₁ at hlaid hframe
    have hnew := size_idtFields (a := a) (idtDescriptor entry n)
    refine ⟨fun i hi => ?_, fun x hx => ?_⟩
    · by_cases hlast : i = n
      · subst hlast
        exact laid_lay (fits_idtFields _)
      · have hbefore : (i + 1) * IdtDescriptor.size a ≤ n * IdtDescriptor.size a := Nat.mul_le_mul_right _ (by omega)
        rw [Nat.add_mul, Nat.one_mul] at hbefore
        refine (hlaid i (by omega)).congr fun x _ hhigh => lay_outside (Or.inl ?_)
        rw [size_idtFields] at hhigh
        omega
    · rw [Nat.add_mul, Nat.one_mul] at hx
      rw [lay_outside (by omega), hframe x (by omega)]

theorem load_eight {v₀ v₁ v₂ v₃ : Nat} (h : Laid m p [(2, v₀), (2, v₁), (2, v₂), (2, v₃)]) :
    load m p 8 = v₀ + 65536 * (v₁ + 65536 * (v₂ + 65536 * v₃)) := by
  obtain ⟨h₀, h₁, h₂, h₃, -⟩ := h
  rw [show (8 : Nat) = 2 + (2 + (2 + 2)) from rfl, load_add, load_add, load_add, h₀, h₁, h₂, h₃]
  rfl

theorem toNat_append {k n : Nat} (high : BitVec n) (low : BitVec k) :
    (high ++ low).toNat = low.toNat + 2 ^ k * high.toNat := by
  rw [BitVec.toNat_append, ← Nat.shiftLeft_add_eq_or_of_lt low.isLt, Nat.shiftLeft_eq, Nat.mul_comm, Nat.add_comm]

/-- The words of eight bytes, one behind the other. -/
theorem words_eight (v₀ v₁ v₂ v₃ : BitVec 16)
    (h : Laid m p [(2, v₀.toNat), (2, v₁.toNat), (2, v₂.toNat), (2, v₃.toNat)]) :
    BitVec.ofNat 64 (load m p 8) = v₃ ++ (v₂ ++ (v₁ ++ v₀)) := by
  have hlt : load m p 8 < 2 ^ 64 := load_lt
  apply BitVec.eq_of_toNat_eq
  rw [BitVec.toNat_ofNat, Nat.mod_eq_of_lt hlt, load_eight h, toNat_append, toNat_append, toNat_append]
  omega

/-- And of sixteen bytes. -/
theorem words_sixteen (v₀ v₁ v₂ v₃ : BitVec 16) (v₄ v₅ : BitVec 32)
    (h : Laid m p [(2, v₀.toNat), (2, v₁.toNat), (2, v₂.toNat), (2, v₃.toNat), (4, v₄.toNat), (4, v₅.toNat)]) :
    BitVec.ofNat 128 (load m p 16) = v₅ ++ (v₄ ++ (v₃ ++ (v₂ ++ (v₁ ++ v₀)))) := by
  obtain ⟨h₀, h₁, h₂, h₃, h₄, h₅, -⟩ := h
  have hlow := load_eight (m := m) (p := p) ⟨h₀, h₁, h₂, h₃, trivial⟩
  have hhigh : load m (p + 8) 8 = v₄.toNat + 4294967296 * v₅.toNat := by
    rw [show (8 : Nat) = 4 + 4 from rfl, load_add, show p + (4 + 4) = p + 2 + 2 + 2 + 2 from rfl, h₄, h₅]
    rfl
  have hlt : load m p 16 < 2 ^ 128 := load_lt
  have hload : load m p 16 = load m p 8 + 18446744073709551616 * load m (p + 8) 8 := load_add (n := 8) (k := 8)
  apply BitVec.eq_of_toNat_eq
  rw [BitVec.toNat_ofNat, Nat.mod_eq_of_lt hlt, hload, hlow, hhigh, toNat_append, toNat_append, toNat_append,
    toNat_append, toNat_append]
  omega

theorem toNat_extract {w : Nat} (v : BitVec w) (k n : Nat) : (v.extractLsb' k n).toNat = v.toNat / 2 ^ k % 2 ^ n := by
  rw [BitVec.extractLsb'_toNat, Nat.shiftRight_eq_div_pow]

/-- Sixteen bits of an address. -/
theorem toNat_word (address : BitVec a.bits) (k : Nat) :
    ((address >>> k &&& 0xFFFF).setWidth 16).toNat = address.toNat / 2 ^ k % 65536 := by
  have hmask : (0xFFFF : BitVec a.bits).toNat = 2 ^ 16 - 1 := by cases a <;> rfl
  rw [BitVec.toNat_setWidth, BitVec.toNat_and, BitVec.toNat_ushiftRight, hmask, Nat.and_two_pow_sub_one_eq_mod,
    Nat.shiftRight_eq_div_pow, Nat.mod_mod]

/-- The gate that `idt_set_interrupt_gate` writes is the one that the processor reads. -/
theorem decodeGate_interruptGate (address : BitVec a.bits)
    (h : Laid m p ((IdtDescriptor.idtSetInterruptGate address).fields a)) :
    decodeGate a m p = ⟨address, 0x08, 0x8E, 0⟩ := by
  have hlow : (IdtDescriptor.idtSetInterruptGate address).offsetLow.toNat = address.toNat % 65536 :=
    (toNat_word address 0).trans (by rw [Nat.pow_zero, Nat.div_one])
  have hmid : (IdtDescriptor.idtSetInterruptGate address).offsetMid.toNat = address.toNat / 65536 % 65536 :=
    toNat_word address 16
  cases a with
  | i386 =>
    have hwords := congrArg BitVec.toNat (words_eight _ _ _ _ h)
    have haddress : address.toNat < 2 ^ 32 := address.isLt
    rw [toNat_append, toNat_append, toNat_append, hlow, hmid] at hwords
    have hselector : (IdtDescriptor.idtSetInterruptGate address).selector.toNat = 8 := rfl
    have hflags : (IdtDescriptor.idtSetInterruptGate address).flags.toNat = 0x8E00 := rfl
    rw [hselector, hflags] at hwords
    refine Gate.ext (BitVec.eq_of_toNat_eq ?_) (BitVec.eq_of_toNat_eq ?_) (BitVec.eq_of_toNat_eq ?_) rfl
    · refine (toNat_append (n := 16) (k := 16) _ _).trans ?_
      rw [toNat_extract, toNat_extract, hwords]
      show _ = address.toNat
      omega
    · simp only [decodeGate]
      rw [toNat_extract, hwords]
      show _ = 8
      omega
    · simp only [decodeGate]
      rw [toNat_extract, hwords]
      show _ = 0x8E
      omega
  | x86_64 =>
    have hwords := congrArg BitVec.toNat (words_sixteen _ _ _ _ _ _ h)
    have haddress : address.toNat < 2 ^ 64 := address.isLt
    have hhigh : (IdtDescriptor.idtSetInterruptGate address).offsetHigh.toNat = address.toNat / 4294967296 := by
      have hmask : (0xFFFFFFFF : BitVec Arch.x86_64.bits).toNat = 2 ^ 32 - 1 := rfl
      show ((address >>> 32 &&& 0xFFFFFFFF).setWidth 32).toNat = _
      rw [BitVec.toNat_setWidth, BitVec.toNat_and, BitVec.toNat_ushiftRight, hmask, Nat.and_two_pow_sub_one_eq_mod,
        Nat.shiftRight_eq_div_pow, Nat.mod_mod, Nat.mod_eq_of_lt (by omega)]
    rw [toNat_append, toNat_append, toNat_append, toNat_append, toNat_append, hlow, hmid, hhigh] at hwords
    have hselector : (IdtDescriptor.idtSetInterruptGate address).selector.toNat = 8 := rfl
    have hflags : (IdtDescriptor.idtSetInterruptGate address).flags.toNat = 0x8E00 := rfl
    have hreserved : (IdtDescriptor.idtSetInterruptGate address).reserved.toNat = 0 := rfl
    rw [hselector, hflags, hreserved] at hwords
    refine Gate.ext (BitVec.eq_of_toNat_eq ?_) (BitVec.eq_of_toNat_eq ?_) (BitVec.eq_of_toNat_eq ?_)
      (BitVec.eq_of_toNat_eq ?_)
    · refine (toNat_append (n := 32) (k := 32) _ _).trans ?_
      rw [toNat_append, toNat_extract, toNat_extract, toNat_extract, Nat.pow_zero, Nat.div_one]
      generalize (BitVec.ofNat 128 (load m p 16)).toNat = word at hwords
      have hdiv : address.toNat / 4294967296 = address.toNat / 65536 / 65536 := by rw [Nat.div_div_eq_div_mul]
      have hlowWord : word % 2 ^ 16 = address.toNat % 65536 := by omega
      have hmidWord : word / 2 ^ 48 % 2 ^ 16 = address.toNat / 65536 % 65536 := by omega
      have hhighWord : word / 2 ^ 64 % 2 ^ 32 = address.toNat / 65536 / 65536 := by
        have hlt : address.toNat / 65536 / 65536 < 2 ^ 32 := by omega
        rw [hdiv] at hwords
        have hword : word = address.toNat / 65536 / 65536 * 2 ^ 64 + word % 2 ^ 64 := by omega
        rw [show word / 2 ^ 64 = address.toNat / 65536 / 65536 by omega, Nat.mod_eq_of_lt hlt]
      show _ = address.toNat
      rw [hlowWord, hmidWord, hhighWord]
      omega
    · simp only [decodeGate]
      rw [toNat_extract, hwords]
      show _ = 8
      omega
    · simp only [decodeGate]
      rw [toNat_extract, hwords]
      show _ = 0x8E
      omega
    · simp only [decodeGate]
      rw [toNat_extract, hwords]
      show _ = 0
      omega

/-- A null descriptor is no interrupt gate. -/
theorem decodeGate_null (h : Laid m p (IdtDescriptor.idtSetNull.fields a)) : (decodeGate a m p).attributes = 0 := by
  cases a with
  | i386 =>
    have hwords : BitVec.ofNat 64 (load m p 8) = 0 := words_eight 0 0 0 0 h
    show BitVec.extractLsb' 40 8 (BitVec.ofNat 64 (load m p 8)) = 0
    rw [hwords]
    rfl
  | x86_64 =>
    have hwords : BitVec.ofNat 128 (load m p 16) = 0 := words_sixteen 0 0 0 0 0 0 h
    show BitVec.extractLsb' 40 8 (BitVec.ofNat 128 (load m p 16)) = 0
    rw [hwords]
    rfl

/-- The second descriptor of `GDT` is the kernel's code segment. -/
theorem decodeSegment_gdt (h : Laid m p (gdtFields a)) : (decodeSegment m (p + 8)).Kernel a := by
  cases a with
  | i386 =>
    have hwords : BitVec.ofNat 64 (load m (p + 8) 8) = 0x00CF#16 ++ (0x9A00#16 ++ (0x0000#16 ++ 0xFFFF#16)) :=
      words_eight 0xFFFF#16 0x0000#16 0x9A00#16 0x00CF#16 (by
        obtain ⟨-, -, -, -, h₀, h₁, h₂, h₃, -⟩ := h
        exact ⟨h₀, h₁, h₂, h₃, trivial⟩)
    rw [decodeSegment, hwords]
    decide
  | x86_64 =>
    have hwords : BitVec.ofNat 64 (load m (p + 8) 8) = 0x0020#16 ++ (0x9A00#16 ++ (0x0000#16 ++ 0x0000#16)) :=
      words_eight 0x0000#16 0x0000#16 0x9A00#16 0x0020#16 (by
        obtain ⟨-, -, -, -, h₀, h₁, h₂, h₃, -⟩ := h
        exact ⟨h₀, h₁, h₂, h₃, trivial⟩)
    rw [decodeSegment, hwords]
    decide

/-- The tables as `cpu_init` and `interrupt_init` leave them: `GDT` and `IDT` in memory, and their registers. -/
structure TablesLoaded (entry : Nat → BitVec a.bits) (idtr gdtr : TableRegister) (m : Memory) : Prop where
  idt : ∀ i < 256, Laid m (idtr.base + i * IdtDescriptor.size a) ((idtDescriptor entry i).fields a)
  idtLimit : idtr.limit = 256 * IdtDescriptor.size a - 1
  gdt : Laid m gdtr.base (gdtFields a)
  gdtLimit : gdtr.limit = 23

/-- `interrupt_init` keeps the `GDT` and loads the `IDT`. -/
theorem tablesLoaded_interruptInit (entry : Nat → BitVec a.bits) {gdtBase : Nat} (hgdt : Laid m gdtBase (gdtFields a))
    (hapart : gdtBase + 24 ≤ idt ∨ idt + 256 * IdtDescriptor.size a ≤ gdtBase) :
    TablesLoaded entry ⟨idt, 256 * IdtDescriptor.size a - 1⟩ ⟨gdtBase, 23⟩ (interruptInit entry idt m) := by
  obtain ⟨hlaid, hframe⟩ := @idt_loop a m idt entry 256
  refine ⟨hlaid, rfl, hgdt.congr fun x hlow hhigh => hframe x ?_, rfl⟩
  have hsize : size (gdtFields a) = 24 := by cases a <;> rfl
  omega

/-- The processor finds the entry of each vector that has one, and nothing for the others. -/
theorem interruptTarget_eq {entry : Nat → BitVec a.bits} {idtr gdtr : TableRegister}
    (h : TablesLoaded entry idtr gdtr m) (hentry : ∀ i < 256, entry i ≠ 0 ∧ Canonical (entry i)) (hi : i < 256) :
    interruptTarget a idtr gdtr m i = if InterruptNull i then none else some (entry i) := by
  have hlimit : ¬ idtr.limit < (i + 1) * IdtDescriptor.size a - 1 := by
    have hle : (i + 1) * IdtDescriptor.size a ≤ 256 * IdtDescriptor.size a := Nat.mul_le_mul_right _ (by omega)
    rw [h.idtLimit]
    omega
  have hlaid := h.idt i hi
  rw [interruptTarget, if_neg hlimit]
  by_cases hnull : InterruptNull i
  · rw [idtDescriptor, interruptInitTable, if_pos hnull, if_pos rfl] at hlaid
    have hattributes := decodeGate_null hlaid
    rw [if_pos hnull, if_pos (Or.inl (by rw [hattributes]; decide))]
  · rw [idtDescriptor, interruptInitTable, if_neg hnull, if_neg (hentry i hi).1] at hlaid
    have hgate := decodeGate_interruptGate (entry i) hlaid
    have hsegment := decodeSegment_gdt h.gdt
    rw [if_neg hnull, hgate, if_neg (by dsimp only; decide), h.gdtLimit, if_neg (by dsimp only; decide)]
    dsimp only
    rw [show ((0x08 : BitVec 16) >>> 3).toNat * 8 = 8 from rfl, if_neg (not_not.mpr hsegment),
      if_neg (not_not.mpr (hentry i hi).2)]

/-- `interrupt_context_t` at the first instruction of `interrupt_dispatch`. -/
def DispatchSees (code : Code a) (x : Ambient a) (error : BitVec a.bits) (c : Cpu a) (m : Memory) (i : Nat) : Prop :=
  let start := deliver i error c m
  let final := Instr.run x (interruptStub a i ++ interruptEntry code) start.1 start.2
  final.1.sp = entryBase c ∧
    final.2 = lay m (entryBase c) (entryCallFields code c ++
      contextFields c x.cr2.toNat i (if pushesErrorCode i then error.toNat else 0))

/-- After `interrupt_init`, on both architectures and for every vector: the processor refuses those that are
`INTERRUPT_NULL`; any other enters its own `interrupt_entry`, and `interrupt_dispatch` gets a frame with its
number, and with the error code where the processor has one. -/
theorem interrupt_dispatched (code : Code a) {entry : Nat → BitVec a.bits} {gdtBase : Nat}
    (hentry : ∀ i < 256, entry i ≠ 0 ∧ Canonical (entry i)) (hgdt : Laid m gdtBase (gdtFields a))
    (hapart : gdtBase + 24 ≤ idt ∨ idt + 256 * IdtDescriptor.size a ≤ gdtBase) :
    let m' := interruptInit entry idt m
    let target := interruptTarget a ⟨idt, 256 * IdtDescriptor.size a - 1⟩ ⟨gdtBase, 23⟩ m'
    (∀ i < 256, target i = if InterruptNull i then none else some (entry i)) ∧
      (∀ x, x < idt ∨ idt + 256 * IdtDescriptor.size a ≤ x → m' x = m x) ∧
      ∀ i < 256, ¬ InterruptNull i → ∀ (x : Ambient a) (error : BitVec a.bits) (c : Cpu a), 256 ≤ c.sp →
        DispatchSees code x error c m' i := by
  intro m' target
  refine ⟨fun i hi => interruptTarget_eq (tablesLoaded_interruptInit entry hgdt hapart) hentry hi,
    (idt_loop entry 256).2, fun i hi hnull x error c hroom => ?_⟩
  cases a with
  | i386 => exact entry_i386 x code hnull error hroom
  | x86_64 =>
    obtain ⟨hsp, -, hmem⟩ := entry_x86_64 (m := m') x code hnull error hroom
    exact ⟨hsp, hmem⟩

theorem interrupt_dispatched_timer :
    interruptTarget .i386 ⟨0x2000, 2047⟩ ⟨0x1000, 23⟩
      (interruptInit (a := .i386) (fun i => BitVec.ofNat 32 (0x100000 + 16 * i)) 0x2000
        (lay (fun _ => 0) 0x1000 (gdtFields .i386))) 32 = some 0x100200#32 :=
  (@interrupt_dispatched .i386 (lay (fun _ => 0) 0x1000 (gdtFields .i386)) 0x2000
    ⟨0, 0, 0, 0, fun k => BitVec.ofNat 32 k, fun k k' hk hk' h => by
      have hnat : k % 2 ^ 32 = k' % 2 ^ 32 := congrArg BitVec.toNat h
      omega⟩ _ _
    (fun i hi => ⟨fun h => by
      have hnat : (0x100000 + 16 * i) % 2 ^ 32 = 0 := congrArg BitVec.toNat h
      omega, trivial⟩)
    (laid_lay (by unfold Fits; decide)) (Or.inl (by decide))).1 32 (by decide)

end Kiznix.Switch
