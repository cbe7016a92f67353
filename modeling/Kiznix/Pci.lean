import Kiznix.ByteMemory
import Kiznix.PortIo

/-! The reads of the PCI configuration space in `pci.c` and `acpi.c`, on a bus with configuration mechanism #1. -/

namespace Kiznix.Pci

open ByteMemory (load)

inductive Width where
  | byte
  | word
  | dword
  deriving DecidableEq

def Width.size : Width → Nat
  | byte => 1
  | word => 2
  | dword => 4

/-- A port, and the width of the access. -/
structure Port where
  width : Width
  port : BitVec 16
  deriving DecidableEq

abbrev Io := PortIo Port (BitVec 32)

def ioOut32 (port : BitVec 16) (value : BitVec 32) : Io Unit := PortIo.write ⟨.dword, port⟩ value

def ioIn8 (port : BitVec 16) : Io (BitVec 8) := do
  return (← PortIo.read ⟨.byte, port⟩).setWidth 8

def ioIn16 (port : BitVec 16) : Io (BitVec 16) := do
  return (← PortIo.read ⟨.word, port⟩).setWidth 16

def ioIn32 (port : BitVec 16) : Io (BitVec 32) := PortIo.read ⟨.dword, port⟩

def assert (c : Prop) [Decidable c] : Io Unit := if c then .ret () else .fail

def pciConfigAddress : BitVec 16 := 0xCF8
def pciConfigData : BitVec 32 := 0xCFC
def pciConfigEnable : BitVec 32 := 0x80000000

def address (bus device function offset : BitVec 32) : BitVec 32 :=
  pciConfigEnable ||| bus <<< 16 ||| device <<< 11 ||| function <<< 8 ||| offset

/-- The common part of the three routines; the offset may have none of the bits `misaligned`. -/
def select (bus device function offset misaligned : BitVec 32) : Io Unit := do
  assert (0 ≤ bus.toInt ∧ bus.toInt < 256)
  assert (0 ≤ device.toInt ∧ device.toInt < 32)
  assert (0 ≤ function.toInt ∧ function.toInt < 8)
  assert (0 ≤ offset.toInt ∧ offset.toInt < 256)
  assert (offset &&& misaligned = 0)
  ioOut32 pciConfigAddress (address bus device function offset)

def pciReadConfig8 (bus device function offset : BitVec 32) : Io (BitVec 8) := do
  select bus device function offset 0
  let result ← ioIn8 ((pciConfigData + (offset &&& 3)).setWidth 16)
  return result

/-- `result` is a `uint8_t` here and in `pci_read_config_32`. -/
def pciReadConfig16 (bus device function offset : BitVec 32) : Io (BitVec 16) := do
  select bus device function offset 1
  let result ← ioIn16 ((pciConfigData + (offset &&& 2)).setWidth 16)
  return (result.setWidth 8).setWidth 16

def pciReadConfig32 (bus device function offset : BitVec 32) : Io (BitVec 32) := do
  select bus device function offset 3
  let result ← ioIn32 (pciConfigData.setWidth 16)
  return (result.setWidth 8).setWidth 32

/-- `ACPI_PCI_ID`, but for the segment. -/
structure PciId where
  bus : BitVec 16
  device : BitVec 16
  function : BitVec 16

inductive AcpiStatus where
  | ok
  | badParameter
  deriving DecidableEq

/-- The status and `*result`. -/
def acpiOsReadPciConfiguration (pciId : PciId) (reg width : BitVec 32) : Io (AcpiStatus × BitVec 64) :=
  let bus := pciId.bus.setWidth 32
  let device := pciId.device.setWidth 32
  let function := pciId.function.setWidth 32
  if width = 8 then do
    let result ← pciReadConfig8 bus device function reg
    return (.ok, result.setWidth 64)
  else if width = 16 then do
    let result ← pciReadConfig16 bus device function reg
    return (.ok, result.setWidth 64)
  else if width = 32 then do
    let result ← pciReadConfig32 bus device function reg
    return (.ok, result.setWidth 64)
  else do
    assert False
    return (.badParameter, 0)

/-! ### Configuration mechanism #1 -/

/-- A function of a device on a bus. -/
@[ext] structure Function where
  bus : BitVec 8
  device : BitVec 5
  function : BitVec 3
  deriving DecidableEq

/-- The function that an address selects. -/
def decode (a : BitVec 32) : Function where
  bus := (a >>> 16).setWidth 8
  device := (a >>> 11).setWidth 5
  function := (a >>> 8).setWidth 3

/-- The bus with the address register for its state. What other accesses read is `others`. -/
def bridge (space : Function → ByteMemory.Memory) (others : Port → BitVec 32 → BitVec 32) :
    PortIo.Device Port (BitVec 32) (BitVec 32) where
  write port value a := if port = ⟨.dword, pciConfigAddress⟩ then value else a
  read port a :=
    let lane := port.port.toNat - 0xCFC
    if a.msb ∧ 0xCFC ≤ port.port.toNat ∧ lane + port.width.size ≤ 4 then
      BitVec.ofNat 32 (load (space (decode a)) ((a &&& 0xFC).toNat + lane) port.width.size)
    else others port a

variable {f : Function} {o : Nat}

namespace Function

def address (f : Function) (o : Nat) : BitVec 32 :=
  Pci.address (f.bus.setWidth 32) (f.device.setWidth 32) (f.function.setWidth 32) (BitVec.ofNat 32 o)

theorem getLsbD_enable (k : Nat) : pciConfigEnable.getLsbD k = decide (k = 31) := by
  rw [show pciConfigEnable = BitVec.twoPow 32 31 from rfl, BitVec.getLsbD_twoPow]
  grind

theorem getLsbD_offset {k : Nat} (ho : o < 256) (hk : 8 ≤ k) : (BitVec.ofNat 32 o).getLsbD k = false := by
  have hbit : o.testBit k = false :=
    Nat.testBit_lt_two_pow (Nat.lt_of_lt_of_le ho (Nat.pow_le_pow_right (show 2 > 0 by decide) hk))
  rw [BitVec.getLsbD_ofNat, hbit, Bool.and_false]

/-- A bit of the address above the offset. -/
theorem getLsbD_address {k : Nat} (ho : o < 256) (hk : 8 ≤ k) (hlt : k < 31) : (f.address o).getLsbD k =
    (decide (16 ≤ k) && f.bus.getLsbD (k - 16) || decide (11 ≤ k) && f.device.getLsbD (k - 11) ||
      f.function.getLsbD (k - 8)) := by
  simp only [address, Pci.address, BitVec.getLsbD_or, BitVec.getLsbD_shiftLeft, BitVec.getLsbD_setWidth,
    getLsbD_enable, getLsbD_offset ho hk]
  grind

theorem decode_address (ho : o < 256) : decode (f.address o) = f := by
  ext i hi
  · have hdevice : f.device.getLsbD (16 + i - 11) = false := BitVec.getLsbD_of_ge _ _ (by omega)
    have hfunction : f.function.getLsbD (16 + i - 8) = false := BitVec.getLsbD_of_ge _ _ (by omega)
    show ((f.address o >>> 16).setWidth 8)[i] = _
    rw [← BitVec.getLsbD_eq_getElem, BitVec.getLsbD_setWidth, BitVec.getLsbD_ushiftRight,
      getLsbD_address ho (by omega) (by omega), hdevice, hfunction]
    simp [hi]
  · have hfunction : f.function.getLsbD (11 + i - 8) = false := BitVec.getLsbD_of_ge _ _ (by omega)
    show ((f.address o >>> 11).setWidth 5)[i] = _
    rw [← BitVec.getLsbD_eq_getElem, BitVec.getLsbD_setWidth, BitVec.getLsbD_ushiftRight,
      getLsbD_address ho (by omega) (by omega), hfunction]
    simp [hi, show ¬ 16 ≤ 11 + i by omega]
  · show ((f.address o >>> 8).setWidth 3)[i] = _
    rw [← BitVec.getLsbD_eq_getElem, BitVec.getLsbD_setWidth, BitVec.getLsbD_ushiftRight,
      getLsbD_address ho (by omega) (by omega)]
    simp [hi, show ¬ 16 ≤ 8 + i by omega, show ¬ 11 ≤ 8 + i by omega]

theorem address_msb : (f.address o).msb = true := by
  rw [BitVec.msb_eq_getLsbD_last]
  simp only [address, Pci.address, BitVec.getLsbD_or, getLsbD_enable]
  rfl

theorem and_252 : ∀ o, o < 256 → o &&& 252 = o - o % 4 := by decide +kernel

/-- The offset without its two lowest bits. -/
theorem address_offset (ho : o < 256) : (f.address o &&& 0xFC).toNat = o - o % 4 := by
  have hlow : f.address o &&& 0xFC = BitVec.ofNat 32 o &&& 0xFC := by
    ext k hk
    simp only [← BitVec.getLsbD_eq_getElem, BitVec.getLsbD_and, address, Pci.address, BitVec.getLsbD_or,
      BitVec.getLsbD_shiftLeft, getLsbD_enable]
    by_cases hk8 : k < 8
    · simp [hk8, show k < 16 by omega, show k < 11 by omega, show k ≠ 31 by omega]
    · have hmask : (0xFC : BitVec 32).getLsbD k = false := getLsbD_offset (by decide) (Nat.le_of_not_lt hk8)
      rw [hmask, Bool.and_false, Bool.and_false]
  rw [hlow, BitVec.toNat_and, BitVec.toNat_ofNat, Nat.mod_eq_of_lt (Nat.lt_trans ho (by decide))]
  exact and_252 o ho

end Function

/-! ### What the routines read -/

variable {space : Function → ByteMemory.Memory} {others : Port → BitVec 32 → BitVec 32} {α β : Type}

/-- From whatever state, the program comes to its end and returns `a`. -/
def Returns (space : Function → ByteMemory.Memory) (others : Port → BitVec 32 → BitVec 32) (p : Io α) (a : α) :
    Prop :=
  ∀ s, ∃ s', PortIo.exec (bridge space others) p s = some (a, s')

theorem Returns.unique {p : Io α} {a b : α} (h : Returns space others p a) (h' : Returns space others p b) : a = b := by
  obtain ⟨s', hrun⟩ := h 0
  obtain ⟨t', hrun'⟩ := h' 0
  rw [hrun] at hrun'
  exact (Prod.mk.inj (Option.some.inj hrun')).1

/-- A read of the data port at the lane of `o` after the address has been written. -/
theorem read_data {width : Width} {port : BitVec 16} (ho : o < 256) (hport : port.toNat = 0xCFC + o % 4)
    (hfit : o % 4 + width.size ≤ 4) :
    (bridge space others).read ⟨width, port⟩ (f.address o) = BitVec.ofNat 32 (load (space f) o width.size) := by
  have hlane : port.toNat - 0xCFC = o % 4 := by omega
  have hoffset : o - o % 4 + o % 4 = o := Nat.sub_add_cancel (Nat.mod_le o 4)
  show (if _ then _ else _) = _
  dsimp only
  rw [if_pos ⟨Function.address_msb, by omega, by omega⟩, Function.decode_address ho, Function.address_offset ho,
    hlane, hoffset]

theorem toInt_setWidth {w : Nat} (hw : w ≤ 8) (v : BitVec w) : (v.setWidth 32).toInt = v.toNat := by
  have hlt : v.toNat < 2 ^ 8 := Nat.lt_of_lt_of_le v.isLt (Nat.pow_le_pow_right (by decide) hw)
  have hvalue : (v.setWidth 32).toNat = v.toNat := by
    rw [BitVec.toNat_setWidth, Nat.mod_eq_of_lt (Nat.lt_trans hlt (by decide))]
  rw [BitVec.toInt_eq_toNat_of_lt (by omega), hvalue]

theorem assert_of_true {c : Prop} [Decidable c] (h : c) : assert c = .ret () := if_pos h

theorem exec_select {misaligned : BitVec 32} {k : Unit → Io α} {s : BitVec 32} (ho : o < 256)
    (haligned : BitVec.ofNat 32 o &&& misaligned = 0) :
    PortIo.exec (bridge space others) (select (f.bus.setWidth 32) (f.device.setWidth 32) (f.function.setWidth 32)
      (BitVec.ofNat 32 o) misaligned >>= k) s = PortIo.exec (bridge space others) (k ()) (f.address o) := by
  have hbus := f.bus.isLt
  have hdevice := f.device.isLt
  have hfunction := f.function.isLt
  have hoffset : (BitVec.ofNat 32 o).toInt = o := by
    have hvalue : (BitVec.ofNat 32 o).toNat = o := by
      rw [BitVec.toNat_ofNat, Nat.mod_eq_of_lt (Nat.lt_trans ho (by decide))]
    rw [BitVec.toInt_eq_toNat_of_lt (by omega), hvalue]
  rw [select, toInt_setWidth (by decide), toInt_setWidth (by decide), toInt_setWidth (by decide), hoffset]
  rw [assert_of_true (by omega), assert_of_true (by omega), assert_of_true (by omega), assert_of_true (by omega),
    assert_of_true haligned]
  rfl

/-- The port that stands for the lane `k`. -/
theorem lane_toNat {k : Nat} (hk : k < 4) : ((pciConfigData + BitVec.ofNat 32 k).setWidth 16).toNat = 0xCFC + k := by
  have hdata : pciConfigData.toNat = 0xCFC := rfl
  rw [BitVec.toNat_setWidth, BitVec.toNat_add, BitVec.toNat_ofNat, hdata]
  omega

theorem ofNat_and (o k : Nat) : BitVec.ofNat 32 o &&& BitVec.ofNat 32 k = BitVec.ofNat 32 (o &&& k) :=
  BitVec.ofNat_and.symm

theorem and_3 (o : Nat) : o &&& 3 = o % 4 := Nat.and_two_pow_sub_one_eq_mod o 2

theorem and_2 : ∀ o, o < 256 → o % 2 = 0 → o &&& 2 = o % 4 := by decide +kernel

/-- The lowest byte of what was read. -/
theorem setWidth_load (m : ByteMemory.Memory) (p n : Nat) : (BitVec.ofNat 32 (load m p (n + 1))).setWidth 8 = m p := by
  apply BitVec.eq_of_toNat_eq
  have hbyte := (m p).isLt
  rw [BitVec.toNat_setWidth, BitVec.toNat_ofNat, load]
  omega

namespace Function

/-- The routines on a function at an offset. -/
def read8 (f : Function) (o : Nat) : Io (BitVec 8) :=
  pciReadConfig8 (f.bus.setWidth 32) (f.device.setWidth 32) (f.function.setWidth 32) (BitVec.ofNat 32 o)

def read16 (f : Function) (o : Nat) : Io (BitVec 16) :=
  pciReadConfig16 (f.bus.setWidth 32) (f.device.setWidth 32) (f.function.setWidth 32) (BitVec.ofNat 32 o)

def read32 (f : Function) (o : Nat) : Io (BitVec 32) :=
  pciReadConfig32 (f.bus.setWidth 32) (f.device.setWidth 32) (f.function.setWidth 32) (BitVec.ofNat 32 o)

def pciId (f : Function) : PciId := ⟨f.bus.setWidth 16, f.device.setWidth 16, f.function.setWidth 16⟩

def acpiRead (f : Function) (o : Nat) (width : Width) : Io (AcpiStatus × BitVec 64) :=
  acpiOsReadPciConfiguration f.pciId (BitVec.ofNat 32 o) (BitVec.ofNat 32 (8 * width.size))

end Function

theorem Returns.map {p : Io α} {a : α} (h : Returns space others p a) (g : α → β) :
    Returns space others (p >>= fun x => pure (g x)) (g a) := by
  intro s
  obtain ⟨s', hrun⟩ := h s
  refine ⟨s', ?_⟩
  rw [PortIo.exec_bind, hrun]
  rfl

section Routines

variable (space : Function → ByteMemory.Memory) (others : Port → BitVec 32 → BitVec 32) (f : Function)

theorem read8_returns (ho : o < 256) : Returns space others (f.read8 o) (space f o) := by
  intro s
  have hport : ((pciConfigData + (BitVec.ofNat 32 o &&& 3)).setWidth 16).toNat = 0xCFC + o % 4 := by
    rw [show (3 : BitVec 32) = BitVec.ofNat 32 3 from rfl, ofNat_and, and_3, lane_toNat (by omega)]
  have hfit : o % 4 + Width.byte.size ≤ 4 := by
    rw [Width.size]
    omega
  have hmask : BitVec.ofNat 32 o &&& 0 = 0 := BitVec.and_zero
  refine ⟨f.address o, ?_⟩
  rw [Function.read8, pciReadConfig8, exec_select ho hmask]
  show some (BitVec.setWidth 8 ((bridge space others).read _ _), _) = _
  rw [read_data ho hport hfit, Width.size, setWidth_load]

/-- Only the lowest byte comes back. -/
theorem read16_returns (ho : o < 256) (haligned : o % 2 = 0) :
    Returns space others (f.read16 o) ((space f o).setWidth 16) := by
  intro s
  have hport : ((pciConfigData + (BitVec.ofNat 32 o &&& 2)).setWidth 16).toNat = 0xCFC + o % 4 := by
    rw [show (2 : BitVec 32) = BitVec.ofNat 32 2 from rfl, ofNat_and, and_2 o ho haligned, lane_toNat (by omega)]
  have hfit : o % 4 + Width.word.size ≤ 4 := by
    rw [Width.size]
    omega
  have hmask : BitVec.ofNat 32 o &&& 1 = 0 := by
    rw [show (1 : BitVec 32) = BitVec.ofNat 32 1 from rfl, ofNat_and, Nat.and_one_is_mod, haligned]
    rfl
  have hnarrow : ∀ v : BitVec 32, (v.setWidth 16).setWidth 8 = v.setWidth 8 :=
    fun v => BitVec.setWidth_setWidth_of_le v (by decide)
  refine ⟨f.address o, ?_⟩
  rw [Function.read16, pciReadConfig16, exec_select ho hmask]
  show some (((BitVec.setWidth 16 ((bridge space others).read _ _)).setWidth 8).setWidth 16, _) = _
  rw [read_data ho hport hfit, Width.size, hnarrow, setWidth_load]

theorem read32_returns (ho : o < 256) (haligned : o % 4 = 0) :
    Returns space others (f.read32 o) ((space f o).setWidth 32) := by
  intro s
  have hport : (pciConfigData.setWidth 16).toNat = 0xCFC + o % 4 := by
    rw [haligned]
    rfl
  have hfit : o % 4 + Width.dword.size ≤ 4 := by
    rw [Width.size]
    omega
  have hmask : BitVec.ofNat 32 o &&& 3 = 0 := by
    rw [show (3 : BitVec 32) = BitVec.ofNat 32 3 from rfl, ofNat_and, and_3, haligned]
    rfl
  refine ⟨f.address o, ?_⟩
  rw [Function.read32, pciReadConfig32, exec_select ho hmask]
  show some ((BitVec.setWidth 8 ((bridge space others).read _ _)).setWidth 32, _) = _
  rw [read_data ho hport hfit, Width.size, setWidth_load]

/-- ACPICA gets the lowest byte too. -/
theorem acpiRead_returns {width : Width} (ho : o < 256) (haligned : o % width.size = 0) :
    Returns space others (f.acpiRead o width) (.ok, (space f o).setWidth 64) := by
  have hargument : ∀ {w : Nat} (_ : w ≤ 8) (v : BitVec w), (v.setWidth 16).setWidth 32 = v.setWidth 32 := by
    intro w hw v
    exact BitVec.setWidth_setWidth (by omega)
  have hbus := hargument (by decide) f.bus
  have hdevice := hargument (by decide) f.device
  have hfunction := hargument (by decide) f.function
  rw [Function.acpiRead, acpiOsReadPciConfiguration, Function.pciId]
  dsimp only
  rw [hbus, hdevice, hfunction]
  cases width with
  | byte => exact (read8_returns space others f ho).map fun v => (AcpiStatus.ok, v.setWidth 64)
  | word =>
      have hread := (read16_returns space others f ho haligned).map fun v => (AcpiStatus.ok, v.setWidth 64)
      rwa [BitVec.setWidth_setWidth (by decide)] at hread
  | dword =>
      have hread := (read32_returns space others f ho haligned).map fun v => (AcpiStatus.ok, v.setWidth 64)
      rwa [BitVec.setWidth_setWidth (by decide)] at hread

end Routines

/-- The reads at an offset agree, as far as they are aligned: each is made of the two halves, and ACPICA gets
the bytes at the offset. -/
structure Agree (space : Function → ByteMemory.Memory) (others : Port → BitVec 32 → BitVec 32) (f : Function)
    (o : Nat) : Prop where
  word : o % 2 = 0 → ∃ value low high, Returns space others (f.read16 o) value ∧
    Returns space others (f.read8 o) low ∧ Returns space others (f.read8 (o + 1)) high ∧
    value.toNat = low.toNat + 256 * high.toNat
  dword : o % 4 = 0 → ∃ value low high, Returns space others (f.read32 o) value ∧
    Returns space others (f.read16 o) low ∧ Returns space others (f.read16 (o + 2)) high ∧
    value.toNat = low.toNat + 65536 * high.toNat
  acpi : ∀ width : Width, o % width.size = 0 → ∃ value, Returns space others (f.acpiRead o width) (.ok, value) ∧
    value.toNat = load (space f) o width.size

/-- The bytes above the lowest one are zero in the word and in the doubleword at an offset. -/
def LowOnly (m : ByteMemory.Memory) (o : Nat) : Prop :=
  (o % 2 = 0 → m (o + 1) = 0) ∧ (o % 4 = 0 → m (o + 2) = 0 ∧ m (o + 3) = 0)

/-! ### The widths agree -/

theorem toNat_setWidth_byte {w : Nat} (hw : 8 ≤ w) (v : BitVec 8) : (v.setWidth w).toNat = v.toNat := by
  rw [BitVec.toNat_setWidth, Nat.mod_eq_of_lt (Nat.lt_of_lt_of_le v.isLt (Nat.pow_le_pow_right (by decide) hw))]

theorem toNat_eq_zero {v : BitVec 8} : v.toNat = 0 ↔ v = 0 :=
  ⟨fun h => BitVec.eq_of_toNat_eq h, fun h => by rw [h]; rfl⟩

theorem word_iff (ho : o < 256) (haligned : o % 2 = 0) :
    (∃ value low high, Returns space others (f.read16 o) value ∧ Returns space others (f.read8 o) low ∧
      Returns space others (f.read8 (o + 1)) high ∧ value.toNat = low.toNat + 256 * high.toNat) ↔
      space f (o + 1) = 0 := by
  have hvalue := read16_returns space others f ho haligned
  have hlow := read8_returns space others f ho
  have hhigh := read8_returns space others f (show o + 1 < 256 by omega)
  constructor
  · rintro ⟨value, low, high, h, h', h'', heq⟩
    obtain rfl := h.unique hvalue
    obtain rfl := h'.unique hlow
    obtain rfl := h''.unique hhigh
    rw [toNat_setWidth_byte (by decide)] at heq
    exact toNat_eq_zero.mp (by omega)
  · intro hzero
    refine ⟨_, _, _, hvalue, hlow, hhigh, ?_⟩
    rw [toNat_setWidth_byte (by decide), hzero]
    rfl

theorem dword_iff (ho : o < 256) (haligned : o % 4 = 0) :
    (∃ value low high, Returns space others (f.read32 o) value ∧ Returns space others (f.read16 o) low ∧
      Returns space others (f.read16 (o + 2)) high ∧ value.toNat = low.toNat + 65536 * high.toNat) ↔
      space f (o + 2) = 0 := by
  have hvalue := read32_returns space others f ho haligned
  have hlow := read16_returns space others f ho (by omega)
  have hhigh := read16_returns space others f (show o + 2 < 256 by omega) (by omega)
  constructor
  · rintro ⟨value, low, high, h, h', h'', heq⟩
    obtain rfl := h.unique hvalue
    obtain rfl := h'.unique hlow
    obtain rfl := h''.unique hhigh
    rw [toNat_setWidth_byte (by decide), toNat_setWidth_byte (by decide), toNat_setWidth_byte (by decide)] at heq
    exact toNat_eq_zero.mp (by omega)
  · intro hzero
    refine ⟨_, _, _, hvalue, hlow, hhigh, ?_⟩
    rw [toNat_setWidth_byte (by decide), toNat_setWidth_byte (by decide), hzero]
    rfl

/-- A number of `n` bytes is its lowest byte when the others are zero. -/
theorem load_eq_low {m : ByteMemory.Memory} {n : Nat} :
    load m o (n + 1) = (m o).toNat ↔ ∀ k, k < n → m (o + 1 + k) = 0 := by
  have hzero : ∀ p n, load m p n = 0 ↔ ∀ k, k < n → m (p + k) = 0 := by
    intro p n
    induction n generalizing p with
    | zero => exact iff_of_true rfl fun k hk => absurd hk (Nat.not_lt_zero k)
    | succ n ih =>
        rw [load, Nat.add_eq_zero_iff, toNat_eq_zero, Nat.mul_eq_zero, or_iff_right (by decide), ih]
        constructor
        · rintro ⟨hfirst, hrest⟩ k hk
          cases k with
          | zero => exact hfirst
          | succ k =>
              rw [Nat.add_comm k 1, ← Nat.add_assoc]
              exact hrest k (Nat.lt_of_succ_lt_succ hk)
        · intro hall
          refine ⟨hall 0 (Nat.succ_pos n), fun k hk => ?_⟩
          rw [Nat.add_assoc, Nat.add_comm 1 k]
          exact hall (k + 1) (Nat.succ_lt_succ hk)
  rw [load, ← hzero]
  omega

theorem acpi_iff (width : Width) (ho : o < 256) (haligned : o % width.size = 0) :
    (∃ value, Returns space others (f.acpiRead o width) (.ok, value) ∧ value.toNat = load (space f) o width.size) ↔
      load (space f) o width.size = (space f o).toNat := by
  have hread := acpiRead_returns space others f ho haligned
  constructor
  · rintro ⟨value, h, heq⟩
    obtain rfl := (Prod.mk.inj (h.unique hread)).2
    rw [← heq, toNat_setWidth_byte (by decide)]
  · intro heq
    refine ⟨_, hread, ?_⟩
    rw [heq, toNat_setWidth_byte (by decide)]

/-- Whatever the bytes of the configuration space are, the reads at an offset agree just when the routines, which
return one byte, lose nothing. -/
theorem pci_widths_agree (space : Function → ByteMemory.Memory) (others : Port → BitVec 32 → BitVec 32) (f : Function)
    (ho : o < 256) : Agree space others f o ↔ LowOnly (space f) o := by
  constructor
  · intro h
    have hword : o % 2 = 0 → space f (o + 1) = 0 := fun haligned => (word_iff ho haligned).mp (h.word haligned)
    refine ⟨hword, fun haligned => ⟨(dword_iff ho haligned).mp (h.dword haligned), ?_⟩⟩
    have hfull := (acpi_iff .dword ho haligned).mp (h.acpi .dword haligned)
    exact load_eq_low.mp hfull 2 (by decide)
  · intro h
    have hone : o % 2 = 0 → space f (o + 1 + 0) = 0 := h.1
    refine ⟨fun haligned => (word_iff ho haligned).mpr (h.1 haligned),
      fun haligned => (dword_iff ho haligned).mpr (h.2 haligned).1,
      fun width haligned => (acpi_iff width ho haligned).mpr ?_⟩
    cases width with
    | byte => exact Nat.add_zero _
    | word =>
        refine load_eq_low.mpr fun k hk => ?_
        obtain rfl : k = 0 := by omega
        exact hone haligned
    | dword =>
        have haligned : o % 4 = 0 := haligned
        obtain ⟨htwo, hthree⟩ := h.2 haligned
        refine load_eq_low.mpr fun k hk => ?_
        match k, hk with
        | 0, _ => exact hone (by omega)
        | 1, _ => exact htwo
        | 2, _ => exact hthree

/-- Every function has the vendor 0x8086, the revision 2 at offset 8, and zeros otherwise. -/
def vendorSpace : Function → ByteMemory.Memory :=
  fun _ p => if p = 0 then 0x86 else if p = 1 then 0x80 else if p = 8 then 2 else 0

/-- The host bridge. -/
def hostBridge : Function := ⟨0, 0, 0⟩

/-- The revision has nothing above its byte to lose. -/
theorem pci_widths_agree_revision : (load (vendorSpace hostBridge) 8 4 = 2 ∧ LowOnly (vendorSpace hostBridge) 8) ∧
    Agree vendorSpace (fun _ _ => 0xFFFFFFFF) hostBridge 8 := by
  have hlow : LowOnly (vendorSpace hostBridge) 8 := ⟨fun _ => rfl, fun _ => ⟨rfl, rfl⟩⟩
  exact ⟨⟨rfl, hlow⟩, (pci_widths_agree vendorSpace _ hostBridge (by decide)).mpr hlow⟩

/-- The vendor is read as 0x86. -/
theorem pci_vendor_truncated :
    Returns vendorSpace (fun _ _ => 0xFFFFFFFF) (hostBridge.read16 0) 0x86 ∧
      load (vendorSpace hostBridge) 0 2 = 0x8086 ∧
      ¬ Agree vendorSpace (fun _ _ => 0xFFFFFFFF) hostBridge 0 := by
  have hread := read16_returns vendorSpace (fun _ _ => 0xFFFFFFFF) hostBridge (show 0 < 256 by decide) rfl
  refine ⟨hread, rfl, fun h => ?_⟩
  have hzero := (word_iff (show 0 < 256 by decide) rfl).mp (h.word rfl)
  exact absurd hzero (by decide)

end Kiznix.Pci
