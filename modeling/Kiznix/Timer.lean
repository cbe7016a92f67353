import Kiznix.PicProtocol
import Mathlib.Tactic.IntervalCases

/-! `timer_init` on the programmable interval timer and the interrupt controllers. -/

namespace Kiznix.Timer

open Pic (Byte Pics Chip Requests)
open PortIo (write)

inductive Port where
  | channel0
  | command
  | pic (p : Pic.Port)
  deriving DecidableEq

/-- Channel 0 of the timer. -/
structure Pit where
  access : BitVec 2
  mode : BitVec 3
  bcd : Bool
  /-- The low byte of a counter that is written in two parts. -/
  low : Option Byte
  /-- The counter, once it is written. -/
  reload : Option (BitVec 16)
  deriving DecidableEq

namespace Pit

/-- The control word; a counter that is only latched goes on. -/
def writeCommand (v : Byte) (p : Pit) : Pit :=
  if v.extractLsb' 6 2 = 0 ∧ v.extractLsb' 4 2 ≠ 0 then
    ⟨v.extractLsb' 4 2, v.extractLsb' 1 3, v.getLsbD 0, none, none⟩
  else p

def writeCounter (v : Byte) (p : Pit) : Pit :=
  if p.access = 1 then { p with reload := some (v.setWidth 16) }
  else if p.access = 2 then { p with reload := some (v.setWidth 16 <<< 8) }
  else if p.access = 3 then
    match p.low with
    | none => { p with low := some v }
    | some low => { p with low := none, reload := some (v.setWidth 16 <<< 8 ||| low.setWidth 16) }
  else p

/-- The clocks from one tick to the next; 0 stands for 65536. A count of 1 is given its clock, although the 8254 does
not allow it in mode 3: `timer_init` asks for it at every frequency above 596591. -/
def period (p : Pit) : Option Nat := p.reload.map fun r => if r = 0 then 65536 else r.toNat

end Pit

structure Machine where
  pit : Pit
  pics : Pics

def device : PortIo.Device Port Byte Machine where
  write
    | .channel0, v, s => { s with pit := s.pit.writeCounter v }
    | .command, v, s => { s with pit := s.pit.writeCommand v }
    | .pic p, v, s => { s with pics := Pic.device.write p v s.pics }
  read
    | .pic p, s => Pic.device.read p s.pics
    | _, _ => 0xFF

abbrev Io := PortIo Port Byte

def onPics {α : Type} (p : Pic.Io α) : Io α := p.embed .pic

/-! ### `timer.c` -/

/-- `PIT_INIT_TIMER`. -/
def pitInitTimer : Byte := 0x36

def pitFrequency : BitVec 32 := 1193182

/-- `interrupt_register`, with what it returns. -/
def interruptRegister {H : Type} (interrupt : Nat) (handler : H) (handlers : Nat → Option H) : Bool × (Nat → Option H) :=
  if (handlers interrupt).isSome then (false, handlers) else (true, Function.update handlers interrupt (some handler))

def divisor (frequency : BitVec 32) : BitVec 32 :=
  let divisor := if frequency.toInt > 0 then pitFrequency.sdiv frequency else 0xFFFF
  if divisor > 0xFFFF then 0 else if divisor < 1 then 1 else divisor

/-- `timer_init` after `interrupt_register`. -/
def timerInit (frequency : BitVec 32) : Io Unit := do
  write .command pitInitTimer
  write .channel0 ((divisor frequency &&& 0xFF).setWidth 8)
  write .channel0 ((divisor frequency >>> 8 &&& 0xFF).setWidth 8)
  onPics (Pic.picEnableIrq 0)

/-! ### The counter -/

/-- The number of clocks that the divisor stands for. -/
def clocks (frequency : Int) : Nat :=
  if frequency ≤ 0 then 65535 else if frequency < 19 then 65536 else max 1 (1193182 / frequency).toNat

variable {frequency : BitVec 32}

theorem sdiv_toNat (hpos : 0 < frequency.toInt) :
    (pitFrequency.sdiv frequency).toNat = 1193182 / frequency.toNat ∧ (frequency.toNat : Int) = frequency.toInt := by
  have hmsb : frequency.msb = false := by
    rw [BitVec.msb_eq_toInt]
    simpa using Int.le_of_lt hpos
  refine ⟨?_, (BitVec.toInt_eq_toNat_of_msb hmsb).symm⟩
  rw [BitVec.sdiv_eq, show pitFrequency.msb = false from rfl, hmsb]
  exact BitVec.toNat_udiv

theorem divisor_toNat (frequency : BitVec 32) :
    (divisor frequency).toNat < 65536 ∧
      (if (divisor frequency).toNat = 0 then 65536 else (divisor frequency).toNat) = clocks frequency.toInt := by
  unfold divisor clocks
  by_cases hpos : 0 < frequency.toInt
  · obtain ⟨hdiv, hint⟩ := sdiv_toNat hpos
    have hgt : pitFrequency.sdiv frequency > 0xFFFF ↔ frequency.toNat < 19 := by
      rw [gt_iff_lt, BitVec.lt_def, hdiv]
      show 65535 < _ ↔ _
      constructor
      · intro hlarge
        by_contra hle
        have hmono : 1193182 / frequency.toNat ≤ 1193182 / 19 := Nat.div_le_div_left (by omega) (by decide)
        omega
      · intro hsmall
        have hmono : 1193182 / 18 ≤ 1193182 / frequency.toNat := Nat.div_le_div_left (by omega) (by omega)
        omega
    have hlt : pitFrequency.sdiv frequency < 1 ↔ 1193182 / frequency.toNat = 0 := by
      rw [BitVec.lt_def, hdiv]
      exact Nat.lt_one_iff
    have hclocks : (1193182 / frequency.toInt).toNat = 1193182 / frequency.toNat := by
      rw [← hint]
      rfl
    rw [if_pos (show frequency.toInt > 0 from hpos), if_neg (show ¬ frequency.toInt ≤ 0 by omega), hclocks]
    by_cases hsmall : frequency.toNat < 19
    · rw [if_pos (hgt.mpr hsmall), if_pos (show frequency.toInt < 19 by omega)]
      exact ⟨by decide, rfl⟩
    · have hfits : 1193182 / frequency.toNat < 65536 := by
        have hmono : 1193182 / frequency.toNat ≤ 1193182 / 19 := Nat.div_le_div_left (by omega) (by decide)
        omega
      rw [if_neg (mt hgt.mp hsmall), if_neg (show ¬ frequency.toInt < 19 by omega)]
      by_cases hzero : 1193182 / frequency.toNat = 0
      · rw [if_pos (hlt.mpr hzero), hzero]
        exact ⟨by decide, rfl⟩
      · rw [if_neg (mt hlt.mp hzero), hdiv, if_neg hzero]
        exact ⟨hfits, by omega⟩
  · rw [if_neg (show ¬ frequency.toInt > 0 from hpos), if_pos (show frequency.toInt ≤ 0 by omega)]
    exact ⟨by decide, rfl⟩

/-- The two bytes of a counter come together again. -/
theorem counter_bytes {d : BitVec 32} (hd : d.toNat < 65536) :
    (((d >>> 8 &&& 0xFF).setWidth 8).setWidth 16 <<< 8 ||| ((d &&& 0xFF).setWidth 8).setWidth 16 : BitVec 16)
      = d.setWidth 16 := by
  have hbyte : ∀ v : BitVec 32, (((v &&& 0xFF).setWidth 8).setWidth 16).toNat = v.toNat % 256 := fun v => by
    rw [BitVec.toNat_setWidth, BitVec.toNat_setWidth, BitVec.toNat_and,
      show (0xFF : BitVec 32).toNat = 2 ^ 8 - 1 from rfl,
      Nat.and_two_pow_sub_one_eq_mod]
    omega
  have hhigh : (d.toNat / 2 ^ 8 % 256) <<< 8 % 2 ^ 16 = (d.toNat / 2 ^ 8) <<< 8 := by
    rw [Nat.shiftLeft_eq, Nat.shiftLeft_eq]
    omega
  apply BitVec.eq_of_toNat_eq
  rw [BitVec.toNat_or, BitVec.toNat_shiftLeft, hbyte, hbyte, BitVec.toNat_ushiftRight, Nat.shiftRight_eq_div_pow, hhigh,
    ← Nat.shiftLeft_add_eq_or_of_lt (by omega), Nat.shiftLeft_eq, BitVec.toNat_setWidth]
  omega

/-- Channel 0 after `timer_init`: a square wave with the counter of `frequency`. -/
def programmed (frequency : BitVec 32) : Pit := ⟨3, 3, false, none, some ((divisor frequency).setWidth 16)⟩

theorem programmed_period (frequency : BitVec 32) : (programmed frequency).period = some (clocks frequency.toInt) := by
  obtain ⟨hlt, hclocks⟩ := divisor_toNat frequency
  have hnat : ((divisor frequency).setWidth 16).toNat = (divisor frequency).toNat := by
    rw [BitVec.toNat_setWidth, Nat.mod_eq_of_lt hlt]
  have hzero : (divisor frequency).setWidth 16 = 0 ↔ (divisor frequency).toNat = 0 := by
    rw [← hnat]
    exact ⟨fun h => by rw [h]; rfl, fun h => BitVec.eq_of_toNat_eq h⟩
  rw [programmed, Pit.period, Option.map_some, hnat, ← hclocks]
  simp only [hzero]

theorem writeCommand_init (p : Pit) : p.writeCommand pitInitTimer = ⟨3, 3, false, none, none⟩ := rfl

theorem exec_onPics {α : Type} (p : Pic.Io α) (s : Machine) : (onPics p).exec device s
    = (p.exec Pic.device s.pics).map fun r => (r.1, { s with pics := r.2 }) :=
  PortIo.exec_embed (fun s => s.pics) (fun pics s => { s with pics := pics }) (fun _ _ _ => rfl) (fun _ _ => rfl)
    (fun _ => rfl) (fun _ _ _ => rfl) (fun _ _ => rfl) p s

/-- `timer_init` on any machine: the counter is programmed and line 0 unmasked. -/
theorem timerInit_exec (frequency : BitVec 32) (s : Machine) : (timerInit frequency).exec device s
    = ((Pic.picEnableIrq 0).exec Pic.device s.pics).map fun r => (r.1, ⟨programmed frequency, r.2⟩) := by
  have hcounter := counter_bytes (divisor_toNat frequency).1
  have hpit : ((s.pit.writeCommand pitInitTimer).writeCounter ((divisor frequency &&& 0xFF).setWidth 8)).writeCounter
      ((divisor frequency >>> 8 &&& 0xFF).setWidth 8) = programmed frequency := by
    rw [writeCommand_init, programmed, ← hcounter]
    rfl
  show (onPics (Pic.picEnableIrq 0)).exec device ⟨((s.pit.writeCommand pitInitTimer).writeCounter
    ((divisor frequency &&& 0xFF).setWidth 8)).writeCounter ((divisor frequency >>> 8 &&& 0xFF).setWidth 8), s.pics⟩ = _
  rw [hpit, exec_onPics]

/-! ### From the boot to a tick -/

/-- `interrupt_init` and then `timer_init`, as far as they reach the devices. -/
def start (frequency : BitVec 32) : Io Unit := do
  onPics (Pic.picInit Pic.picIrqOffset)
  timerInit frequency

open Pic (View Deliverable Requested Masked deliver vector)

/-- Only lines 0 and 2 are unmasked. -/
def startMasks : Chip → Byte
  | .master => 0xFA
  | .slave => 0xFF

/-- Nothing is in service, and only the timer's line is let through. -/
def TimerOnly (pics : Pics) : Prop := View pics (fun _ => 0) startMasks

/-- What the lines, the chips and `interrupt_dispatch` do after `pics₀`; the handlers leave the chips alone. -/
inductive Ticking (registered : Nat → Bool) (pics₀ : Pics) : Pics → Prop where
  | start : Ticking registered pics₀ pics₀
  | request {pics pics' : Pics} (h : Ticking registered pics₀ pics) (hrequests : Requests pics pics') :
      Ticking registered pics₀ pics'
  | handled {irq : Nat} {pics pics₁ pics₂ : Pics} {rest : Pic.Io Unit} (h : Ticking registered pics₀ pics)
      (hirq : Deliverable pics irq false)
      (hcall : (Pic.interruptDispatch registered (vector pics irq)).execToCall Pic.device (deliver irq false pics)
        = some (rest, pics₁))
      (hrest : rest.exec Pic.device pics₁ = some ((), pics₂)) : Ticking registered pics₀ pics₂
  | spurious {irq : Nat} {pics pics₁ : Pics} (h : Ticking registered pics₀ pics) (hirq : Deliverable pics irq true)
      (hdispatch : (Pic.interruptDispatch registered (vector pics irq)).exec Pic.device (deliver irq true pics)
        = some ((), pics₁)) : Ticking registered pics₀ pics₁

variable {pics pics' : Pics} {registered : Nat → Bool} {irq : Nat} {frequency : BitVec 32}

theorem start_exec (frequency : BitVec 32) (s : Machine) : ∃ pics, (start frequency).exec device s
    = some ((), ⟨programmed frequency, pics⟩) ∧ TimerOnly pics := by
  obtain ⟨pics, hinit, hview⟩ := Pic.picInit_exec s.pics
  have henable : (Pic.picEnableIrq 0).exec Pic.device pics = some ((),
      Pic.device.write (.data .master) ((pics .master).imr &&& ~~~(1#8 <<< 0)) pics) := rfl
  refine ⟨Pic.device.write (.data .master) ((pics .master).imr &&& ~~~(1#8 <<< 0)) pics, ?_, ?_⟩
  · rw [start, PortIo.exec_bind, exec_onPics, hinit]
    show (timerInit frequency).exec device ⟨s.pit, pics⟩ = _
    rw [timerInit_exec, henable]
    rfl
  · have hdata := hview.write_data (c := .master) (v := (pics .master).imr &&& ~~~(1#8 <<< 0))
    refine ⟨hdata.ready, hdata.isr, fun c => (hdata.imr c).trans ?_⟩
    rw [hview.imr .master]
    cases c <;> rfl

theorem TimerOnly.request (h : TimerOnly pics) (hrequests : Requests pics pics') : TimerOnly pics' := hrequests.view h

/-- The only line that the chips deliver is that of the timer. -/
theorem TimerOnly.deliverable_iff (h : TimerOnly pics) : Deliverable pics irq false ↔ irq = 0 ∧ Requested pics 0 := by
  constructor
  · rintro ⟨hlt, hne, hrequested, hmasked, hcascade⟩
    have hmask : ∀ line, ¬ Masked pics line → (startMasks (Pic.chipOf line)).getLsbD (line % 8) = false := by
      intro line hline
      rw [Masked, h.imr] at hline
      simpa using hline
    have hzero : irq = 0 := by
      have hbit := hmask irq hmasked
      interval_cases irq <;> first | rfl | exact absurd rfl hne | exact absurd hbit (by decide)
    exact ⟨hzero, hzero ▸ hrequested⟩
  · rintro ⟨rfl, hrequested⟩
    refine ⟨by decide, by decide, hrequested, ?_, fun h => absurd h (by decide)⟩
    rw [Masked, h.imr]
    decide

/-- A tick: the line is masked and acknowledged, the handler runs, and the line is unmasked again. -/
theorem TimerOnly.tick (h : TimerOnly pics) (hregistered : registered 32 = true) :
    ∃ pics₁ pics₂, (Pic.interruptDispatch registered 32).execToCall Pic.device (deliver 0 false pics)
        = some (Pic.picEnableIrq 0, pics₁) ∧ Masked pics₁ 0 ∧ Pic.Idle pics₁ ∧
      (Pic.picEnableIrq 0).exec Pic.device pics₁ = some ((), pics₂) ∧ TimerOnly pics₂ := by
  have hdelivered := h.deliver 0 false
  generalize deliver 0 false pics = p at hdelivered
  have hmask := hdelivered.write_data (c := .master) (v := (p .master).imr ||| 1#8 <<< 0)
  have heoi := hmask.write_eoi (c := .master)
  have henable := heoi.write_data (c := .master) (v := 0xFA)
  have hbit : (Pic.device.write (.command .master) Pic.Command.eoi
      (Pic.device.write (.data .master) ((p .master).imr ||| 1#8 <<< 0) p) .master).imr = 0xFB := by
    rw [heoi.imr, Function.update_self, hdelivered.imr]
    rfl
  refine ⟨Pic.device.write (.command .master) Pic.Command.eoi
    (Pic.device.write (.data .master) ((p .master).imr ||| 1#8 <<< 0) p), _, ?_, ?_, fun c => ?_, rfl, ?_⟩
  · show (Pic.callHandler registered 32 (Pic.picEnableIrq 0)).execToCall Pic.device _ = _
    rw [Pic.callHandler, if_pos hregistered]
    rfl
  · show (Pic.device.write _ _ _ .master).imr.getLsbD 0 = true
    rw [hbit]
    decide
  · rw [heoi.isr]
    cases c <;> rfl
  · have hread : Pic.device.read (.data .master) (Pic.device.write (.command .master) Pic.Command.eoi
        (Pic.device.write (.data .master) ((p .master).imr ||| 1#8 <<< 0) p)) &&& ~~~(1#8 <<< Int.toNat 0) = 0xFA := by
      show (Pic.device.write _ _ _ .master).imr &&& _ = _
      rw [hbit]
      rfl
    rw [hread]
    refine ⟨henable.ready, fun c => (henable.isr c).trans ?_, fun c => (henable.imr c).trans ?_⟩
    · cases c <;> rfl
    · cases c
      · rfl
      · simp [Function.update, startMasks]

/-- Where a chip shows that nothing is in service, `pic_irq_real` finds no real interrupt. -/
theorem read_isr {isr imr : Chip → Byte} {p : Pics} {c : Chip} (h : View p isr imr) :
    Pic.device.read (.command c) (Pic.device.write (.command c) Pic.Command.readIsr p) = isr c := by
  obtain ⟨hread, hreadIsr⟩ := h.write_readIsr (c := c)
  exact (if_pos hreadIsr).trans (hread.isr c)

/-- A spurious interrupt has no handler and leaves everything as it was. -/
theorem TimerOnly.spurious (h : TimerOnly pics) (hirq : irq = 7 ∨ irq = 15) :
    ∃ pics₁, (Pic.interruptDispatch registered (vector pics irq)).exec Pic.device (deliver irq true pics) =
        some ((), pics₁) ∧
      TimerOnly pics₁ := by
  have hdelivered := h.deliver irq true
  rw [Pic.vector_eq h.ready (by omega)]
  generalize deliver irq true pics = p at hdelivered
  rcases hirq with rfl | rfl
  · have hisr := read_isr (c := .master) hdelivered
    have hback := (hdelivered.write_readIsr (c := .master)).1.write_readIrr (c := .master)
    have hreal : (Pic.picIrqReal 7).exec Pic.device p = some (false, Pic.device.write (.command .master) Pic.Command.readIrr
        (Pic.device.write (.command .master) Pic.Command.readIsr p)) := by
      show some (decide ((Pic.device.read (.command .master) (Pic.device.write (.command .master)
        Pic.Command.readIsr p)).setWidth 32 &&& (1 : BitVec 32) <<< 7 ≠ 0), _) = _
      rw [hisr]
      rfl
    refine ⟨_, ?_, hback.ready, fun c => (hback.isr c).trans ?_, hback.imr⟩
    · show (Pic.picIrqReal 7 >>= _).exec Pic.device p = _
      rw [PortIo.exec_bind, hreal]
      rfl
    · cases c <;> rfl
  · have hisr := read_isr (c := .slave) hdelivered
    have hback := (hdelivered.write_readIsr (c := .slave)).1.write_readIrr (c := .slave)
    have heoi := hback.write_eoi (c := .master)
    have hreal : (Pic.picIrqReal 15).exec Pic.device p = some (false, Pic.device.write (.command .master) Pic.Command.eoi
        (Pic.device.write (.command .slave) Pic.Command.readIrr
          (Pic.device.write (.command .slave) Pic.Command.readIsr p))) := by
      show (if (Pic.device.read (.command .slave) (Pic.device.write (.command .slave) Pic.Command.readIsr p)).setWidth 32
        &&& ((1 : BitVec 32) <<< 15 >>> 8) ≠ 0 then _ else _ : Pic.Io Bool).exec Pic.device _ = _
      rw [hisr]
      rfl
    refine ⟨_, ?_, heoi.ready, fun c => (heoi.isr c).trans ?_, heoi.imr⟩
    · show (Pic.picIrqReal 15 >>= _).exec Pic.device p = _
      rw [PortIo.exec_bind, hreal]
      rfl
    · cases c <;> rfl

/-- In any run the chips stay as `timer_init` has left them, whatever comes on the lines. -/
theorem Ticking.timerOnly {pics₀ : Pics} (hrun : Ticking registered pics₀ pics) (h₀ : TimerOnly pics₀)
    (hregistered : registered 32 = true) : TimerOnly pics := by
  induction hrun with
  | start => exact h₀
  | request h hrequests ih => exact ih.request hrequests
  | handled h hirq hcall hrest ih =>
    obtain ⟨rfl, -⟩ := ih.deliverable_iff.mp hirq
    obtain ⟨pics₁, pics₂, htick, -, -, henable, hafter⟩ := ih.tick hregistered
    rw [Pic.vector_eq ih.ready (by decide)] at hcall
    cases hcall.symm.trans htick
    cases hrest.symm.trans henable
    exact hafter
  | spurious h hirq hdispatch ih =>
    obtain ⟨pics₁, hexec, hafter⟩ := @TimerOnly.spurious _ registered _ ih hirq
    cases hdispatch.symm.trans hexec
    exact hafter

/-- What a run may expect of the next interrupt. -/
structure TickReady (registered : Nat → Bool) (pics : Pics) : Prop where
  /-- Nothing but the timer comes through, and as interrupt 32. -/
  only : ∀ irq, Deliverable pics irq false ↔ irq = 0 ∧ Requested pics 0
  vector : vector pics 0 = 32
  /-- Its handler runs with the line masked and acknowledged, and the line is unmasked behind it. -/
  tick : ∃ pics₁ pics₂, (Pic.interruptDispatch registered 32).execToCall Pic.device (deliver 0 false pics)
      = some (Pic.picEnableIrq 0, pics₁) ∧ Masked pics₁ 0 ∧ Pic.Idle pics₁ ∧
    (Pic.picEnableIrq 0).exec Pic.device pics₁ = some ((), pics₂) ∧ ¬ Masked pics₂ 0
  /-- A spurious interrupt is dropped. -/
  spurious : ∀ irq, irq = 7 ∨ irq = 15 → ∃ pics₁,
    (Pic.interruptDispatch registered (Pic.vector pics irq)).exec Pic.device (deliver irq true pics) = some ((), pics₁)

/-- After `interrupt_init` and `timer_init`, for every frequency and from any state of the devices: the counter has the
divisor of the frequency, and in every run that follows the timer's interrupt, and no other, reaches a handler, which is
`callback` unless there was another one before. -/
theorem timer_ticks {H : Type} (frequency : BitVec 32) (s : Machine) (callback : H) (handlers : Nat → Option H) :
    let handlers' := (interruptRegister 32 callback handlers).2
    let registered := fun i => (handlers' i).isSome
    (handlers 32 = none → handlers' 32 = some callback) ∧
      ∃ pics₀, (start frequency).exec device s = some ((), ⟨programmed frequency, pics₀⟩) ∧
        (programmed frequency).period = some (clocks frequency.toInt) ∧
        ∀ pics, Ticking registered pics₀ pics → TickReady registered pics := by
  intro handlers' registered
  have hregister : (handlers 32 = none → handlers' 32 = some callback) ∧ registered 32 = true := by
    show (_ → (interruptRegister 32 callback handlers).2 32 = _) ∧
      ((interruptRegister 32 callback handlers).2 32).isSome = true
    unfold interruptRegister
    cases hold : handlers 32 with
    | none => simp
    | some handler => simp [hold]
  obtain ⟨pics₀, hstart, hview⟩ := start_exec frequency s
  refine ⟨hregister.1, pics₀, hstart, programmed_period frequency, fun pics hrun => ?_⟩
  have htimer := hrun.timerOnly hview hregister.2
  obtain ⟨pics₁, pics₂, hcall, hmasked, hidle, henable, hafter⟩ := htimer.tick hregister.2
  refine ⟨fun irq => htimer.deliverable_iff, Pic.vector_eq htimer.ready (by decide),
    ⟨pics₁, pics₂, hcall, hmasked, hidle, henable, ?_⟩, fun irq hirq => ?_⟩
  · rw [Masked, hafter.imr]
    decide
  · obtain ⟨pics₁, hexec, -⟩ := @TimerOnly.spurious _ registered _ htimer hirq
    exact ⟨pics₁, hexec⟩

end Kiznix.Timer
