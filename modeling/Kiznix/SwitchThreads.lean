import Kiznix.SwitchFrames

/-! Threads on disjoint stacks. A thread runs C code, or the assembly that ends an interrupt; interrupts
come wherever they are enabled, and C code calls `thread_switch` with interrupts disabled. Of C code only the
calling convention is known: it leaves the frames of others alone, keeps its stack pointer below the frames
of its own thread, and returns with the callee-saved registers and the stack pointer it was called with. -/

namespace Kiznix.Switch

open ByteMemory

variable {a : Arch} {T : Type}

/-- Where the stacks and the fields `context` of the threads are in memory. -/
structure Stacks (a : Arch) (T : Type) where
  low : T → Nat
  high : T → Nat
  context : T → Nat
  high_lt : ∀ t, high t < 256 ^ a.word
  disjoint : ∀ t t', t ≠ t' → high t ≤ low t' ∨ high t' ≤ low t
  context_outside : ∀ t t', context t + a.word ≤ low t' ∨ high t' ≤ context t
  context_disjoint : ∀ t t', t ≠ t' → context t + a.word ≤ context t' ∨ context t' + a.word ≤ context t

/-- What a thread has begun and not ended. -/
inductive Activity (a : Arch) where
  /-- It has called `thread_switch`, from which it will return to `c`. -/
  | switched (c : Cpu a)
  /-- It was interrupted at `ctx`; `interrupt_dispatch` runs, over the frame at `p`, and will return to
  `c`. -/
  | handling (ctx : Cpu a) (p : Nat) (c : Cpu a)
  /-- It was interrupted at `ctx` and goes through `interrupt_exit`; the frame ends at `stop`. -/
  | exiting (ctx : Cpu a) (stop : Nat)

/-- What happens to threads, with the registers at that point. -/
inductive Event (a : Arch) (T : Type) where
  | interrupted (t : T) (c : Cpu a)
  | resumed (t : T) (c : Cpu a)
  /-- A call of `thread_switch`; `c` is the registers at the call but for `ip`, the address to return to. -/
  | called (t : T) (c : Cpu a)
  | returned (t : T) (c : Cpu a)

structure State (a : Arch) (T : Type) where
  cpu : Cpu a
  mem : Memory
  /-- The thread on whose stack the processor runs. -/
  current : T
  /-- The last one first: no variable of the program, a record of what happened. -/
  pending : T → List (Activity a)

/-- The bytes that activities keep on the stack; `c` is the registers of the thread. -/
def Zone : Cpu a → List (Activity a) → Nat → Prop
  | _, [], _ => False
  | _, .switched c :: rest, x => c.sp - registerSize a ≤ x ∧ x < c.sp ∨ Zone c rest x
  | _, .handling ctx p _ :: rest, x => p ≤ x ∧ x < p + contextSize a ∨ Zone ctx rest x
  | c, .exiting ctx stop :: rest, x => c.sp ≤ x ∧ x < stop ∨ Zone ctx rest x

/-- The end of the stack that C code may use: the last frame, or the whole stack. There is none in
`interrupt_exit`, which is no C code. -/
def roof (high : Nat) : List (Activity a) → Option Nat
  | [] => some high
  | .handling _ p _ :: _ => some p
  | _ => none

namespace State

variable (st : Stacks a T) (s : State a T)

/-- Saved frames and saved stack pointers. -/
def Protected (x : Nat) : Prop :=
  (∃ t, Zone s.cpu (s.pending t) x) ∨
    ∃ t, t ≠ s.current ∧ s.pending t ≠ [] ∧ st.context t ≤ x ∧ x < st.context t + a.word

/-- Room on the stack for the frames of an interrupt or of `thread_switch`. -/
def Room : Prop := st.low s.current + 256 ≤ s.cpu.sp

end State

/-! ### `thread_create` -/

/-- `interrupt_frame` of a new thread. -/
def createdFrame : (a : Arch) → (high : Nat) → Nat
  | .i386, high => high - 72
  | .x86_64, high => high - 200

/-- The memory after `thread_create` has built the frames on the stack of a thread that is to run the
function at `user`. -/
def threadCreate : {a : Arch} → Code a → Stacks a T → T → BitVec a.bits → Memory → Memory
  | .i386, code, st, t, user, m =>
      let m := store m (st.high t - 4) 4 code.threadExit.toNat
      let frame := createdFrame .i386 (st.high t)
      let m := store m frame 4 0
      let m := store m (frame + 52) 4 kernelCode
      let m := store m (frame + 64) 4 kernelData
      let m := store m (frame + 4) 2 kernelData
      let m := store m (frame + 6) 2 kernelData
      let m := store m (frame + 8) 2 kernelData
      let m := store m (frame + 10) 2 kernelData
      let m := store m (frame + 56) 4 interruptFlag
      let m := store m (frame + 48) 4 user.toNat
      let m := store m (frame + 60) 4 (frame + 68)
      let m := store m (frame - 4) 4 code.interruptExit.toNat
      let m := store m (frame - 4 - 20 + 16) 4 code.threadEntry.toNat
      store m (st.context t) 4 (frame - 4 - 20)
  | .x86_64, code, st, t, user, m =>
      let m := store m (st.high t - 8) 8 code.threadExit.toNat
      let frame := createdFrame .x86_64 (st.high t)
      let m := store m frame 8 0
      let m := store m (frame + 160) 8 kernelCode
      let m := store m (frame + 184) 8 kernelData
      let m := store m (frame + 8) 2 kernelData
      let m := store m (frame + 10) 2 kernelData
      let m := store m (frame + 12) 2 kernelData
      let m := store m (frame + 14) 2 kernelData
      let m := store m (frame + 168) 8 interruptFlag
      let m := store m (frame + 152) 8 user.toNat
      let m := store m (frame + 176) 8 (frame + 192)
      let m := store m (frame - 8) 8 code.interruptExit.toNat
      let m := store m (frame - 8 - 56 + 48) 8 code.threadEntry.toNat
      store m (st.context t) 8 (frame - 8 - 56)

/-- The registers that stand one after the other from `p` on. -/
def loadRegs (m : Memory) (p : Nat) (regs : List (Reg a)) (r : Reg a) : BitVec a.bits :=
  BitVec.ofNat a.bits (load m (p + a.word * regs.idxOf r) a.word)

/-- Where a new thread will be when it leaves the frame of an interrupt that it never had. The registers
are what was on its stack. On i386 `iret` stays in the kernel and leaves `esp` and `ss` on the stack. -/
def createdContext (st : Stacks a T) (t : T) (user : BitVec a.bits) (m : Memory) : Cpu a :=
  let frame := createdFrame a (st.high t)
  { reg := loadRegs m (frame + a.word + 8) (contextRegs a)
    sp := frame + contextSize a
    seg := fun _ => BitVec.ofNat 16 kernelData
    flags := BitVec.ofNat a.bits interruptFlag
    ip := user }

/-- Where a new thread will be when `thread_switch` first gets to it. -/
def createdStart (code : Code a) (st : Stacks a T) (t : T) (m : Memory) : Cpu a :=
  let frame := createdFrame a (st.high t)
  { reg := loadRegs m (frame - a.word - registerSize a) (calleeSaved a)
    sp := frame - a.word
    seg := fun _ => 0
    flags := 0
    ip := code.threadEntry }

/-- `thread_entry` returns to `interrupt_exit`. -/
def createdActivities (code : Code a) (st : Stacks a T) (t : T) (user : BitVec a.bits) (m : Memory) :
    List (Activity a) :=
  let start := createdStart code st t m
  let frame := createdFrame a (st.high t)
  [.switched start,
    .handling (createdContext st t user m) frame { start with sp := frame, ip := code.interruptExit }]

/-! ### Steps -/

/-- Where the C code that a call of assembly starts will return to. -/
def dispatchReturn (code : Code a) (c : Cpu a) : Cpu a :=
  { c with sp := c.sp + a.word, ip := code.afterDispatch 0 }

variable [DecidableEq T]

inductive Step (code : Code a) (st : Stacks a T) (s : State a T) : List (Event a T) → State a T → Prop where
  /-- C code goes on. -/
  | code (c : Cpu a) (m : Memory) (high : Nat) (hroof : roof (st.high s.current) (s.pending s.current) = some high)
      (hlow : st.low s.current ≤ c.sp) (hhigh : c.sp ≤ high)
      (hmem : ∀ x, s.Protected st x → m x = s.mem x) : Step code st s [] { s with cpu := c, mem := m }
  /-- The processor takes an interrupt and runs `interrupt_entry`, up to `interrupt_dispatch`. -/
  | interrupt (interrupt : Nat) (error : BitVec a.bits) (x : Ambient a) (hinterrupt : interrupt < 256)
      (hnull : ¬ InterruptNull interrupt) (hflag : s.cpu.Interruptible) (hroom : s.Room st) (final : Cpu a × Memory)
      (hfinal : final = Instr.run x (interruptStub a interrupt ++ interruptEntry code)
        (deliver interrupt error s.cpu s.mem).1 (deliver interrupt error s.cpu s.mem).2) :
      Step code st s [.interrupted s.current s.cpu]
        { s with
          cpu := final.1
          mem := final.2
          pending := Function.update s.pending s.current
            (.handling s.cpu (entryBase s.cpu + 8) (dispatchReturn code final.1) :: s.pending s.current) }
  /-- C code returns to `interrupt_entry`, or `thread_entry` to `interrupt_exit`. -/
  | back (c ctx ret : Cpu a) (p : Nat) (rest : List (Activity a))
      (hpending : s.pending s.current = .handling ctx p ret :: rest) (hsp : c.sp = ret.sp) (hip : c.ip = ret.ip)
      (hsaved : ∀ r ∈ calleeSaved a, c.reg r = ret.reg r) :
      Step code st s []
        { s with
          cpu := c
          pending := Function.update s.pending s.current (.exiting ctx (p + contextSize a) :: rest) }
  /-- An instruction after the call of `interrupt_dispatch`. -/
  | exit (ctx : Cpu a) (stop k : Nat) (i : Instr a) (x : Ambient a) (rest : List (Activity a))
      (hpending : s.pending s.current = .exiting ctx stop :: rest) (hip : s.cpu.ip = code.afterDispatch k)
      (hk : k < 32) (hi : (interruptExit a)[k]? = some i) (hne : i ≠ .iret)
      (hnext : x.next = code.afterDispatch (k + 1)) :
      Step code st s [] { s with cpu := i.cpu x s.cpu s.mem, mem := i.mem s.cpu s.mem }
  /-- The last one of them. -/
  | iret (ctx : Cpu a) (stop k : Nat) (x : Ambient a) (rest : List (Activity a))
      (hpending : s.pending s.current = .exiting ctx stop :: rest) (hip : s.cpu.ip = code.afterDispatch k)
      (hk : k < 32) (hi : (interruptExit a)[k]? = some .iret) :
      Step code st s [.resumed s.current (Instr.iret.cpu x s.cpu s.mem)]
        { s with
          cpu := Instr.iret.cpu x s.cpu s.mem
          pending := Function.update s.pending s.current rest }
  /-- `thread_schedule` calls `thread_switch(&old_thread->context, new_thread->context)`, with interrupts
  disabled, for another thread that has been switched from or created. -/
  | switch (t : T) (c : Cpu a) (rest : List (Activity a)) (back : BitVec a.bits) (x : Ambient a) (high : Nat)
      (hroof : roof (st.high s.current) (s.pending s.current) = some high) (hroom : s.Room st)
      (hflag : ¬ s.cpu.Interruptible) (hne : t ≠ s.current) (hpending : s.pending t = .switched c :: rest)
      (hpassed : Passed s.cpu s.mem (st.context s.current) (load s.mem (st.context t) a.word))
      (final : Cpu a × Memory)
      (hfinal : final = Instr.run x (.call code.threadSwitch back :: threadSwitch a) s.cpu s.mem) :
      Step code st s [.called s.current { s.cpu with ip := back }, .returned t final.1]
        { cpu := final.1
          mem := final.2
          current := t
          pending := Function.update (Function.update s.pending t rest) s.current
            (.switched { s.cpu with ip := back } :: s.pending s.current) }
  /-- `thread_create`, for a stack that no thread has. The new thread looks as if it had been interrupted and
  had called `thread_switch`. -/
  | create (t : T) (user : BitVec a.bits) (m : Memory) (high : Nat)
      (hroof : roof (st.high s.current) (s.pending s.current) = some high) (hne : t ≠ s.current)
      (hpending : s.pending t = []) (hroom : st.low t + 512 ≤ st.high t)
      (hm : m = threadCreate code st t user s.mem) :
      Step code st s [.interrupted t (createdContext st t user m), .called t (createdStart code st t m)]
        { s with
          mem := m
          pending := Function.update s.pending t (createdActivities code st t user m) }

/-- A run from `s₀` to `s` and its events, the last one first. -/
inductive Run (code : Code a) (st : Stacks a T) (s₀ : State a T) : List (Event a T) → State a T → Prop where
  | start : Run code st s₀ [] s₀
  | step {events new : List (Event a T)} {s s' : State a T} (h : Run code st s₀ events s)
      (hstep : Step code st s new s') : Run code st s₀ (new.reverse ++ events) s'

/-- Only one thread is there, and it runs C code on its stack. -/
structure Initial (st : Stacks a T) (s : State a T) : Prop where
  alone : ∀ t, s.pending t = []
  low : st.low s.current ≤ s.cpu.sp
  high : s.cpu.sp ≤ st.high s.current

/-- What thread `t` has been interrupted at or called and not come back from, the last one first. -/
def outstanding (t : T) : List (Event a T) → List (Event a T)
  | [] => []
  | .interrupted t' c :: events =>
      if t' = t then .interrupted t c :: outstanding t events else outstanding t events
  | .called t' c :: events => if t' = t then .called t c :: outstanding t events else outstanding t events
  | .resumed t' _ :: events | .returned t' _ :: events =>
      if t' = t then (outstanding t events).tail else outstanding t events

/-- A thread comes back as it left. -/
def Transparent (before : List (Event a T)) : Event a T → Prop
  | .resumed t c => ∃ rest, outstanding t before = .interrupted t c :: rest
  | .returned t c => ∃ c₀ rest, outstanding t before = .called t c₀ :: rest ∧ c.sp = c₀.sp ∧ c.ip = c₀.ip ∧
      ∀ r ∈ calleeSaved a, c.reg r = c₀.reg r
  | _ => True

end Kiznix.Switch
