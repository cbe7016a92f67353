import Kiznix.PortIo
import Mathlib.Logic.Function.Basic

/-! `pic.c`, `interrupt_dispatch` and the two cascaded 8259s. The threads of the system take interrupts at
any access to a port at which the processor lets them in. -/

namespace Kiznix.Pic

inductive Chip where
  | master
  | slave
  deriving DecidableEq

/-- `PIC_MASTER_COMMAND`, `PIC_MASTER_DATA`, `PIC_SLAVE_COMMAND` and `PIC_SLAVE_DATA`. -/
inductive Port where
  | command (c : Chip)
  | data (c : Chip)
  deriving DecidableEq

abbrev Byte := BitVec 8

/-- An 8259. -/
structure Registers where
  irr : Byte
  isr : Byte
  imr : Byte
  /-- The command port reads the ISR, not the IRR. -/
  readIsr : Bool
  /-- Initialization words that are still to come. -/
  icw : Nat
  offset : Byte

abbrev Pics := Chip → Registers

namespace Command

/-- `PIC_INIT`. -/
def init : Byte := 0x11

/-- `PIC_READ_IRR`. -/
def readIrr : Byte := 0x0A

/-- `PIC_READ_ISR`. -/
def readIsr : Byte := 0x0B

/-- `PIC_EOI`. -/
def eoi : Byte := 0x20

end Command

namespace Registers

/-- A non-specific EOI clears the in-service bit of the highest priority, the lowest one. -/
def eoi (r : Registers) : Registers := { r with isr := r.isr &&& (r.isr - 1) }

def writeCommand (v : Byte) (r : Registers) : Registers :=
  if v.getLsbD 4 then { r with irr := 0, isr := 0, imr := 0, readIsr := false, icw := 3 }
  else if v = Command.readIrr then { r with readIsr := false }
  else if v = Command.readIsr then { r with readIsr := true }
  else if v = Command.eoi then r.eoi
  else r

/-- Of the initialization words only the first is of interest, the offset. -/
def writeData (v : Byte) (r : Registers) : Registers :=
  match r.icw with
  | 0 => { r with imr := v }
  | 3 => { r with offset := v &&& 0xF8, icw := 2 }
  | n + 1 => { r with icw := n }

end Registers

def device : PortIo.Device Port Byte Pics where
  write
    | .command c, v, s => Function.update s c ((s c).writeCommand v)
    | .data c, v, s => Function.update s c ((s c).writeData v)
  read
    | .command c, s => if (s c).readIsr then (s c).isr else (s c).irr
    | .data c, s => (s c).imr

abbrev Io := PortIo Port Byte

open PortIo (write read)

/-! ### The driver -/

def picInit (irqOffset : Nat) : Io Unit := do
  write (.command .master) Command.init
  write (.command .slave) Command.init
  write (.data .master) (BitVec.ofNat 8 irqOffset)
  write (.data .slave) (BitVec.ofNat 8 (irqOffset + 8))
  write (.data .master) (1 <<< 2)
  write (.data .slave) 2
  write (.data .master) 1
  write (.data .slave) 1
  write (.data .master) 0xfb
  write (.data .slave) 0xff

def picIrqReal (irq : Int) : Io Bool :=
  if irq ≠ 7 ∧ irq ≠ 15 then pure true
  else
    let mask : BitVec 32 := 1 <<< irq.toNat
    if irq < 8 then do
      write (.command .master) Command.readIsr
      let isr ← read (.command .master)
      write (.command .master) Command.readIrr
      pure (decide (isr.setWidth 32 &&& mask ≠ 0))
    else do
      write (.command .slave) Command.readIsr
      let isr ← read (.command .slave)
      write (.command .slave) Command.readIrr
      if isr.setWidth 32 &&& (mask >>> 8) ≠ 0 then pure true
      else do
        write (.command .master) Command.eoi
        pure false

def picEoi (irq : Int) : Io Unit :=
  if irq ≥ 8 then do
    write (.command .slave) Command.eoi
    write (.command .master) Command.eoi
  else write (.command .master) Command.eoi

def picDisableIrq (irq : Int) : Io Unit :=
  if irq ≥ 0 ∧ irq ≤ 7 then do
    let mask ← read (.data .master)
    write (.data .master) (mask ||| 1#8 <<< irq.toNat)
  else if irq ≥ 8 ∧ irq ≤ 15 then do
    let mask ← read (.data .slave)
    write (.data .slave) (mask ||| 1#8 <<< (irq - 8).toNat)
  else pure ()

def picEnableIrq (irq : Int) : Io Unit :=
  if irq ≥ 0 ∧ irq ≤ 7 then do
    let mask ← read (.data .master)
    write (.data .master) (mask &&& ~~~(1#8 <<< irq.toNat))
  else if irq ≥ 8 ∧ irq ≤ 15 then do
    let mask ← read (.data .slave)
    write (.data .slave) (mask &&& ~~~(1#8 <<< (irq - 8).toNat))
  else pure ()

/-- `PIC_IRQ_OFFSET`. -/
def picIrqOffset : Nat := 32

/-- `handler(context)`, or the `fatal` of an interrupt without a handler. -/
def callHandler (registered : Nat → Bool) (interrupt : Nat) (next : Io Unit) : Io Unit :=
  if registered interrupt then .call next else .fail

def interruptDispatch (registered : Nat → Bool) (interrupt : Nat) : Io Unit :=
  let irq : Int := interrupt - picIrqOffset
  if irq ≥ 0 ∧ irq ≤ 15 then do
    let real ← picIrqReal irq
    if real then do
      picDisableIrq irq
      picEoi irq
      callHandler registered interrupt (picEnableIrq irq)
    else pure ()
  else callHandler registered interrupt (pure ())

/-! ### Interrupt requests -/

def chipOf (irq : Nat) : Chip := if irq < 8 then .master else .slave

/-- What IRQ `irq` sets in the ISR of a chip. Those of the slave come to the master as IRQ 2. -/
def lineBit (irq : Nat) : Chip → Byte
  | .master => if irq < 8 then 1#8 <<< irq else 1#8 <<< 2
  | .slave => if irq < 8 then 0 else 1#8 <<< (irq - 8)

def Masked (s : Pics) (irq : Nat) : Prop := (s (chipOf irq)).imr.getLsbD (irq % 8) = true

def Requested (s : Pics) (irq : Nat) : Prop := (s (chipOf irq)).irr.getLsbD (irq % 8) = true

/-- An IRQ that the chips may deliver. Which one of several comes first is a matter of priorities; here it
may be any. A spurious one has lost its request. -/
def Deliverable (s : Pics) (irq : Nat) : (spurious : Bool) → Prop
  | false => irq < 16 ∧ irq ≠ 2 ∧ Requested s irq ∧ ¬ Masked s irq ∧ (8 ≤ irq → ¬ Masked s 2)
  | true => irq = 7 ∨ irq = 15

/-- The chips deliver an IRQ. -/
def deliver (irq : Nat) (spurious : Bool) (s : Pics) : Pics := fun c =>
  { s c with
    irr := if spurious = false ∧ c = chipOf irq then (s c).irr &&& ~~~lineBit irq c else (s c).irr
    isr := if spurious ∧ c = chipOf irq then (s c).isr else (s c).isr ||| lineBit irq c }

/-- The interrupt that the processor gets. -/
def vector (s : Pics) (irq : Nat) : Nat := (s (chipOf irq)).offset.toNat + irq % 8

/-- Lines are raised and dropped. -/
def Requests (s s' : Pics) : Prop := ∀ c, ∃ irr, s' c = { s c with irr := irr }

/-! ### The system -/

/-- A run of `interrupt_dispatch`. -/
structure Dispatch where
  interrupt : Nat
  spurious : Bool
  /-- The handler has unmasked its own line: no variable of the program, a record of what happened. -/
  unmasked : Bool
  /-- Interrupts were enabled where it came. -/
  flag : Bool
  /-- What is left of it. -/
  rest : Io Unit

inductive Activation where
  | dispatch (d : Dispatch)
  /-- A call of `pic_enable_irq` or `pic_disable_irq` by a thread or a handler. -/
  | call (rest : Io Unit)

namespace Activation

def rest : Activation → Io Unit
  | .dispatch d => d.rest
  | .call p => p

def resume (p : Io Unit) : Activation → Activation
  | .dispatch d => .dispatch { d with rest := p }
  | .call _ => .call p

end Activation

structure State (T : Type) where
  pics : Pics
  /-- Interrupts are enabled. -/
  flag : Bool
  current : T
  /-- The innermost one first. -/
  stack : T → List Activation
  /-- The lines that have been unmasked since the thread was switched from: a record, too. -/
  unmaskedSince : T → Nat → Prop

/-- C code runs: a thread, or a handler that `interrupt_dispatch` has called. -/
def InCode : List Activation → Prop
  | [] => True
  | .dispatch d :: _ => ∃ next, d.rest = .call next
  | .call _ :: _ => False

/-- The handler of line `irq` is running, or has been interrupted, and has not unmasked the line. -/
def Dispatch.Handling (d : Dispatch) (irq : Nat) : Prop :=
  d.interrupt = picIrqOffset + irq ∧ irq < 16 ∧ d.unmasked = false ∧ ∃ next, d.rest = .call next

def Unfinished (stack : List Activation) (irq : Nat) : Prop :=
  ∃ d, .dispatch d ∈ stack ∧ d.Handling irq

/-- A handler unmasks its own line. -/
def markUnmasked (irq : Int) : List Activation → List Activation
  | .dispatch d :: rest =>
      if (d.interrupt : Int) = picIrqOffset + irq then .dispatch { d with unmasked := true } :: rest
      else .dispatch d :: rest
  | stack => stack

inductive Action (T : Type) where
  | access
  | leave
  | request
  | interrupt (irq : Nat) (spurious : Bool)
  | exception (interrupt : Nat)
  | setFlag (flag : Bool)
  | enable (irq : Int)
  | disable (irq : Int)
  | switch (t : T)

variable {T : Type} [DecidableEq T]

inductive Step (registered : Nat → Bool) (s : State T) : Action T → State T → Prop where
  | write (a : Activation) (rest : List Activation) (port : Port) (v : Byte) (next : Io Unit)
      (hstack : s.stack s.current = a :: rest) (ha : a.rest = .out port v next) :
      Step registered s .access
        { s with
          pics := device.write port v s.pics
          stack := Function.update s.stack s.current (a.resume next :: rest)
          unmaskedSince := fun t irq => s.unmaskedSince t irq ∨
            Masked s.pics irq ∧ ¬ Masked (device.write port v s.pics) irq }
  | read (a : Activation) (rest : List Activation) (port : Port) (next : Byte → Io Unit)
      (hstack : s.stack s.current = a :: rest) (ha : a.rest = .inp port next) :
      Step registered s .access
        { s with
          stack := Function.update s.stack s.current (a.resume (next (device.read port s.pics)) :: rest) }
  /-- `pic_enable_irq` or `pic_disable_irq` returns. -/
  | done (rest : List Activation) (hstack : s.stack s.current = .call (.ret ()) :: rest) :
      Step registered s .leave { s with stack := Function.update s.stack s.current rest }
  /-- A handler returns. -/
  | handled (d : Dispatch) (rest : List Activation) (next : Io Unit)
      (hstack : s.stack s.current = .dispatch d :: rest) (hd : d.rest = .call next) :
      Step registered s .leave
        { s with stack := Function.update s.stack s.current (.dispatch { d with rest := next } :: rest) }
  /-- `interrupt_dispatch` returns, and `iret` follows. -/
  | iret (d : Dispatch) (rest : List Activation)
      (hstack : s.stack s.current = .dispatch d :: rest) (hd : d.rest = .ret ()) :
      Step registered s .leave { s with flag := d.flag, stack := Function.update s.stack s.current rest }
  | request (pics : Pics) (h : Requests s.pics pics) : Step registered s .request { s with pics := pics }
  | interrupt (irq : Nat) (spurious : Bool) (hflag : s.flag = true) (hirq : Deliverable s.pics irq spurious) :
      Step registered s (.interrupt irq spurious)
        { s with
          pics := deliver irq spurious s.pics
          flag := false
          stack := Function.update s.stack s.current (.dispatch
            { interrupt := vector s.pics irq
              spurious := spurious
              unmasked := false
              flag := s.flag
              rest := interruptDispatch registered (vector s.pics irq) } :: s.stack s.current) }
  /-- Exceptions come from C code only. -/
  | exception (interrupt : Nat) (hcode : InCode (s.stack s.current))
      (hinterrupt : interrupt < picIrqOffset ∨ picIrqOffset + 16 ≤ interrupt) :
      Step registered s (.exception interrupt)
        { s with
          flag := false
          stack := Function.update s.stack s.current (.dispatch
            { interrupt := interrupt
              spurious := false
              unmasked := false
              flag := s.flag
              rest := interruptDispatch registered interrupt } :: s.stack s.current) }
  | setFlag (flag : Bool) (hcode : InCode (s.stack s.current)) :
      Step registered s (.setFlag flag) { s with flag := flag }
  | enable (irq : Int) (hcode : InCode (s.stack s.current)) :
      Step registered s (.enable irq)
        { s with
          stack := Function.update s.stack s.current
            (.call (picEnableIrq irq) :: markUnmasked irq (s.stack s.current)) }
  | disable (irq : Int) (hcode : InCode (s.stack s.current)) :
      Step registered s (.disable irq)
        { s with
          stack := Function.update s.stack s.current (.call (picDisableIrq irq) :: s.stack s.current) }
  /-- `thread_switch`, to another thread that has been switched from or has not begun. -/
  | switch (t : T) (hcode : InCode (s.stack s.current)) (hne : t ≠ s.current) :
      Step registered s (.switch t)
        { s with
          current := t
          unmaskedSince := Function.update s.unmaskedSince s.current fun _ => False }

/-- No line is unmasked behind the back of its handler: a thread in a handler is switched to only when the
line has not been unmasked in the meantime, or the thread before it is in a handler of that line as well; and
code that has interrupted a handler does not unmask its line. -/
def Clean (s : State T) : Action T → Prop
  | .switch t => ∀ irq, Unfinished (s.stack t) irq → s.unmaskedSince t irq →
      Unfinished (s.stack s.current) irq
  | .enable irq => ∀ line : Nat, (line : Int) = irq → ¬ Unfinished (s.stack s.current).tail line
  | _ => True

/-- A run from `s₀`; where `clean` is true, all its steps are clean. -/
inductive Run (registered : Nat → Bool) (clean : Prop) (s₀ : State T) : State T → Prop where
  | start : Run registered clean s₀ s₀
  | step {s s' : State T} {a : Action T} (h : Run registered clean s₀ s) (hstep : Step registered s a s')
      (hclean : clean → Clean s a) : Run registered clean s₀ s'

/-! ### What is promised -/

/-- Nothing is in service. -/
def Idle (s : Pics) : Prop := ∀ c, (s c).isr = 0

/-- The chips have been initialized. -/
structure Ready (s : Pics) : Prop where
  icw : ∀ c, (s c).icw = 0
  master : (s .master).offset = 32
  slave : (s .slave).offset = 40

structure Initial (s : State T) : Prop where
  ready : Ready s.pics
  idle : Idle s.pics
  stack : ∀ t, s.stack t = []

/-- The access that comes next. -/
def Next (s : State T) (a : Activation) (port : Port) (v : Byte) : Prop :=
  ∃ rest next, s.stack s.current = a :: rest ∧ a.rest = .out port v next

structure Acknowledged (s : State T) : Prop where
  /-- An interrupt finds nothing in service, nor does a handler. -/
  interrupts : s.flag = true → Idle s.pics
  code : InCode (s.stack s.current) → Idle s.pics
  /-- An EOI is written while the interrupt that is dispatched, and it alone, is in service. -/
  eoi : ∀ a c, Next s a (.command c) Command.eoi → ∃ irq d, a = .dispatch d ∧
    d.interrupt = picIrqOffset + irq ∧ (s.pics c).isr = lineBit irq c ∧ lineBit irq c ≠ 0 ∧
    (device.write (.command c) Command.eoi s.pics c).isr = 0
  /-- A spurious interrupt has no handler and leaves the masks. -/
  spurious : ∀ t d, .dispatch d ∈ s.stack t → d.spurious = true → ∀ next, d.rest ≠ .call next
  masks : ∀ d port v, Next s (.dispatch d) port v → d.spurious = true →
    ∀ c, (device.write port v s.pics c).imr = (s.pics c).imr

/-- The line of a handler on the stack that runs is masked, unless the handler has unmasked it. -/
def HandlersMasked (s : State T) : Prop := ∀ irq, Unfinished (s.stack s.current) irq → Masked s.pics irq

end Kiznix.Pic
