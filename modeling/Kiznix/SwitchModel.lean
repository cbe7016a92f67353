import Kiznix.ByteMemory
import Mathlib.Logic.Function.Basic

/-! The assembly of `interrupt_32.asm`, `interrupt_64.asm`, `thread_32.asm` and `thread_64.asm`, and the
system of threads around it. Assembly runs instruction by instruction; C code between them may do what the
calling convention allows. -/

namespace Kiznix.Switch

open ByteMemory

inductive Arch where
  | i386
  | x86_64
  deriving DecidableEq, Repr

namespace Arch

/-- Bytes of a register. -/
def word : Arch → Nat
  | .i386 => 4
  | .x86_64 => 8

def bits : Arch → Nat
  | .i386 => 32
  | .x86_64 => 64

end Arch

/-- The general-purpose registers but for the stack pointer. -/
inductive Reg : Arch → Type where
  | ax {a : Arch} : Reg a
  | bx {a : Arch} : Reg a
  | cx {a : Arch} : Reg a
  | dx {a : Arch} : Reg a
  | si {a : Arch} : Reg a
  | di {a : Arch} : Reg a
  | bp {a : Arch} : Reg a
  | r8 : Reg .x86_64
  | r9 : Reg .x86_64
  | r10 : Reg .x86_64
  | r11 : Reg .x86_64
  | r12 : Reg .x86_64
  | r13 : Reg .x86_64
  | r14 : Reg .x86_64
  | r15 : Reg .x86_64
  deriving DecidableEq

inductive Seg where
  | ds
  | es
  | fs
  | gs
  deriving DecidableEq

structure Cpu (a : Arch) where
  reg : Reg a → BitVec a.bits
  sp : Nat
  seg : Seg → BitVec 16
  flags : BitVec a.bits
  ip : BitVec a.bits

/-- `X86_EFLAGS_IF`. -/
def interruptFlag : Nat := 0x200

/-- The flags that an arithmetic instruction sets: CF, PF, AF, ZF, SF, OF. -/
def statusFlags : Nat := 0x8D5

/-- The flags that an interrupt gate clears: TF, IF, NT, RF, VM. -/
def gateFlags : Nat := 0x34300

def directionFlag : Nat := 0x400

namespace Cpu

variable {a : Arch} (c : Cpu a)

/-- Interrupts are enabled. -/
def Interruptible : Prop := c.flags &&& BitVec.ofNat a.bits interruptFlag ≠ 0

def setReg (r : Reg a) (v : BitVec a.bits) : Cpu a := { c with reg := Function.update c.reg r v }

def setSeg (s : Seg) (v : BitVec 16) : Cpu a := { c with seg := Function.update c.seg s v }

/-- Some of the flags are cleared. -/
def clear (mask : Nat) : Cpu a := { c with flags := c.flags &&& ~~~ BitVec.ofNat a.bits mask }

/-- The status flags become those of `v`. -/
def status (v : BitVec a.bits) : Cpu a :=
  { c with flags := (c.flags &&& ~~~ BitVec.ofNat a.bits statusFlags) |||
      (v &&& BitVec.ofNat a.bits statusFlags) }

end Cpu

/-! ### Instructions -/

inductive Instr (a : Arch) where
  | push (r : Reg a)
  | pushSp
  | pushWord (v : Nat)
  /-- `o16 push`. -/
  | pushSeg (s : Seg)
  | pop (r : Reg a)
  /-- `o16 pop`. -/
  | popSeg (s : Seg)
  /-- `mov word [sp + offset], s`. -/
  | storeSeg (offset : Nat) (s : Seg)
  /-- `mov s, word [sp + offset]`. -/
  | loadSeg (s : Seg) (offset : Nat)
  | addSp (n : Nat)
  | subSp (n : Nat)
  /-- `and sp, ~15`. -/
  | alignSp
  /-- `mov r, sp`. -/
  | movFromSp (r : Reg a)
  /-- `mov sp, r`. -/
  | movToSp (r : Reg a)
  /-- `mov r, cr2`. -/
  | movCr2 (r : Reg a)
  /-- `mov r, [sp + offset]`. -/
  | loadArg (r : Reg a) (offset : Nat)
  /-- `mov [r], sp`. -/
  | storeSp (r : Reg a)
  | cld
  /-- `call` of a function at `target`; the next instruction is at `back`. -/
  | call (target back : BitVec a.bits)
  | ret
  | iret

/-- What an instruction finds besides the registers: the status flags it leaves, the register CR2 and
the address of the next instruction. -/
structure Ambient (a : Arch) where
  status : BitVec a.bits
  cr2 : BitVec a.bits
  next : BitVec a.bits

namespace Instr

variable {a : Arch} (x : Ambient a)

/-- The bytes that `iret` takes from the stack when it stays in the kernel. -/
def iretSize : Arch → Nat
  | .i386 => 12
  | .x86_64 => 40

/-- The registers after an instruction. -/
def cpu (c : Cpu a) (m : Memory) : Instr a → Cpu a
  | .push _ | .pushSp | .pushWord _ => { c with sp := c.sp - a.word, ip := x.next }
  | .pushSeg _ => { c with sp := c.sp - 2, ip := x.next }
  | .pop r => { c.setReg r (BitVec.ofNat a.bits (load m c.sp a.word)) with sp := c.sp + a.word, ip := x.next }
  | .popSeg s => { c.setSeg s (BitVec.ofNat 16 (load m c.sp 2)) with sp := c.sp + 2, ip := x.next }
  | .storeSeg _ _ | .storeSp _ => { c with ip := x.next }
  | .loadSeg s offset => { c.setSeg s (BitVec.ofNat 16 (load m (c.sp + offset) 2)) with ip := x.next }
  | .addSp n => { c.status x.status with sp := c.sp + n, ip := x.next }
  | .subSp n => { c.status x.status with sp := c.sp - n, ip := x.next }
  | .alignSp => { c.status x.status with sp := c.sp / 16 * 16, ip := x.next }
  | .movFromSp r => { c.setReg r (BitVec.ofNat a.bits c.sp) with ip := x.next }
  | .movToSp r => { c with sp := (c.reg r).toNat, ip := x.next }
  | .movCr2 r => { c.setReg r x.cr2 with ip := x.next }
  | .loadArg r offset =>
      { c.setReg r (BitVec.ofNat a.bits (load m (c.sp + offset) a.word)) with ip := x.next }
  | .cld => { c.clear directionFlag with ip := x.next }
  | .call target _ => { c with sp := c.sp - a.word, ip := target }
  | .ret => { c with sp := c.sp + a.word, ip := BitVec.ofNat a.bits (load m c.sp a.word) }
  | .iret =>
      { c with
        sp := match a with
          | .i386 => c.sp + 12
          | .x86_64 => load m (c.sp + 24) 8
        flags := BitVec.ofNat a.bits (load m (c.sp + 2 * a.word) a.word)
        ip := BitVec.ofNat a.bits (load m c.sp a.word) }

/-- The memory after an instruction. -/
def mem (c : Cpu a) (m : Memory) : Instr a → Memory
  | .push r => store m (c.sp - a.word) a.word (c.reg r).toNat
  | .pushSp => store m (c.sp - a.word) a.word c.sp
  | .pushWord v => store m (c.sp - a.word) a.word v
  | .pushSeg s => store m (c.sp - 2) 2 (c.seg s).toNat
  | .storeSeg offset s => store m (c.sp + offset) 2 (c.seg s).toNat
  | .storeSp r => store m (c.reg r).toNat a.word c.sp
  | .call _ back => store m (c.sp - a.word) a.word back.toNat
  | _ => m

/-- Instructions one after the other. -/
def run (x : Ambient a) : List (Instr a) → Cpu a → Memory → Cpu a × Memory
  | [], c, m => (c, m)
  | i :: rest, c, m => run x rest (i.cpu x c m) (i.mem c m)

end Instr

/-! ### The routines -/

/-- Where the linker puts the code. -/
structure Code (a : Arch) where
  interruptDispatch : BitVec a.bits
  threadSwitch : BitVec a.bits
  threadEntry : BitVec a.bits
  threadExit : BitVec a.bits
  /-- The addresses of the instructions after `call interrupt_dispatch`, from the first one on. -/
  afterDispatch : Nat → BitVec a.bits
  afterDispatch_injective : ∀ k k', k < 32 → k' < 32 → afterDispatch k = afterDispatch k' → k = k'

namespace Code

variable {a : Arch} (code : Code a)

/-- `interrupt_exit` is the label of the second of these instructions. -/
def interruptExit : BitVec a.bits := code.afterDispatch 1

end Code

/-- The interrupts for which the processor pushes an error code. -/
def pushesErrorCode (interrupt : Nat) : Prop :=
  interrupt = 8 ∨ (10 ≤ interrupt ∧ interrupt ≤ 14) ∨ interrupt = 17 ∨ interrupt = 21 ∨ interrupt = 29 ∨ interrupt = 30

instance (interrupt : Nat) : Decidable (pushesErrorCode interrupt) := inferInstanceAs (Decidable (_ ∨ _))

/-- Those for which `interrupt_entry_n` expects one. -/
def hasErrorCode (interrupt : Nat) : Prop :=
  interrupt = 8 ∨ (10 ≤ interrupt ∧ interrupt ≤ 14) ∨ interrupt = 17 ∨ interrupt = 30

instance (interrupt : Nat) : Decidable (hasErrorCode interrupt) := inferInstanceAs (Decidable (_ ∨ _))

/-- The vectors that are `INTERRUPT_NULL` in `INTERRUPT_TABLE`. -/
def InterruptNull (i : Nat) : Prop := i = 9 ∨ i = 15 ∨ (21 ≤ i ∧ i ≤ 29) ∨ i = 31

instance (i : Nat) : Decidable (InterruptNull i) := inferInstanceAs (Decidable (_ ∨ _))

/-- Vectors 21 and 29 have no gate, and their stubs no code. -/
theorem pushesErrorCode_iff {interrupt : Nat} (hnull : ¬ InterruptNull interrupt) :
    pushesErrorCode interrupt ↔ hasErrorCode interrupt := by
  unfold pushesErrorCode hasErrorCode
  unfold InterruptNull at hnull
  omega

/-- `GDT_KERNEL_CODE`. -/
def kernelCode : Nat := 0x08

/-- `GDT_KERNEL_DATA`. -/
def kernelData : Nat := 0x10

/-- What the processor does before the first instruction of `interrupt_entry_n`. -/
def deliver (interrupt : Nat) : {a : Arch} → BitVec a.bits → Cpu a → Memory → Cpu a × Memory
  | .i386, error, c, m =>
      let m := store m (c.sp - 4) 4 c.flags.toNat
      let m := store m (c.sp - 8) 4 kernelCode
      let m := store m (c.sp - 12) 4 c.ip.toNat
      let c := { c.clear gateFlags with sp := c.sp - 12 }
      if pushesErrorCode interrupt then ({ c with sp := c.sp - 4 }, store m (c.sp - 4) 4 error.toNat) else (c, m)
  | .x86_64, error, c, m =>
      let sp := c.sp / 16 * 16
      let m := store m (sp - 8) 8 kernelData
      let m := store m (sp - 16) 8 c.sp
      let m := store m (sp - 24) 8 c.flags.toNat
      let m := store m (sp - 32) 8 kernelCode
      let m := store m (sp - 40) 8 c.ip.toNat
      let c := { c.clear gateFlags with sp := sp - 40 }
      if pushesErrorCode interrupt then ({ c with sp := c.sp - 8 }, store m (c.sp - 8) 8 error.toNat) else (c, m)

/-- `interrupt_entry_n`, up to its jump. -/
def interruptStub (a : Arch) (interrupt : Nat) : List (Instr a) :=
  if hasErrorCode interrupt then [.pushWord interrupt] else [.pushWord 0, .pushWord interrupt]

def interruptEntry : {a : Arch} → Code a → List (Instr a)
  | .i386, code =>
      [.push .bp, .push .di, .push .si, .push .dx, .push .cx, .push .bx, .push .ax,
        .pushSeg .gs, .pushSeg .fs, .pushSeg .es, .pushSeg .ds,
        .movCr2 .ax, .push .ax,
        .cld,
        .pushSp, .call code.interruptDispatch (code.afterDispatch 0)]
  | .x86_64, code =>
      [.push .r15, .push .r14, .push .r13, .push .r12, .push .r11, .push .r10, .push .r9, .push .r8,
        .push .bp, .push .di, .push .si, .push .dx, .push .cx, .push .bx, .push .ax,
        .pushSeg .gs, .pushSeg .fs, .subSp 4, .storeSeg 2 .es, .storeSeg 0 .ds,
        .movCr2 .ax, .push .ax,
        .cld,
        .movFromSp .bx, .movFromSp .di, .alignSp, .call code.interruptDispatch (code.afterDispatch 0)]

/-- The instructions after `call interrupt_dispatch`; from the second one on they are `interrupt_exit`. -/
def interruptExit : (a : Arch) → List (Instr a)
  | .i386 =>
      [.addSp 4,
        .addSp 4,
        .popSeg .ds, .popSeg .es, .popSeg .fs, .popSeg .gs,
        .pop .ax, .pop .bx, .pop .cx, .pop .dx, .pop .si, .pop .di, .pop .bp,
        .addSp 8,
        .iret]
  | .x86_64 =>
      [.movToSp .bx,
        .addSp 8,
        .loadSeg .ds 0, .loadSeg .es 2, .addSp 4, .popSeg .fs, .popSeg .gs,
        .pop .ax, .pop .bx, .pop .cx, .pop .dx, .pop .si, .pop .di, .pop .bp,
        .pop .r8, .pop .r9, .pop .r10, .pop .r11, .pop .r12, .pop .r13, .pop .r14, .pop .r15,
        .addSp 16,
        .iret]

/-- The registers that a C function leaves as it found them, in the order of `thread_registers_t`. -/
def calleeSaved : (a : Arch) → List (Reg a)
  | .i386 => [.bx, .si, .di, .bp]
  | .x86_64 => [.bx, .bp, .r12, .r13, .r14, .r15]

def threadSwitch : (a : Arch) → List (Instr a)
  | .i386 =>
      [.loadArg .ax 4, .loadArg .dx 8,
        .push .bp, .push .di, .push .si, .push .bx,
        .storeSp .ax, .movToSp .dx,
        .pop .bx, .pop .si, .pop .di, .pop .bp,
        .ret]
  | .x86_64 =>
      [.push .r15, .push .r14, .push .r13, .push .r12, .push .bp, .push .bx,
        .storeSp .di, .movToSp .si,
        .pop .bx, .pop .bp, .pop .r12, .pop .r13, .pop .r14, .pop .r15,
        .ret]

/-- The arguments of `thread_switch` before it is called: `old` and `new`. -/
def Passed : {a : Arch} → Cpu a → Memory → Nat → Nat → Prop
  | .i386, c, m, old, new => load m c.sp 4 = old ∧ load m (c.sp + 4) 4 = new
  | .x86_64, c, _, old, new => (c.reg .di).toNat = old ∧ (c.reg .si).toNat = new

end Kiznix.Switch
