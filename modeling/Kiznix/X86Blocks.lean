import Kiznix.ByteMemory
import Mathlib.Logic.Function.Basic

/-! 32-bit x86 code in labelled blocks, on registers, two flags and a flat memory of bytes. -/

namespace Kiznix.X86

open ByteMemory

inductive Reg where
  | eax
  | ebx
  | ecx
  | edx
  | esi
  | edi
  deriving DecidableEq

structure Machine where
  reg : Reg → BitVec 32
  mem : Memory
  zf : Bool
  cf : Bool

inductive Operand where
  | reg (r : Reg)
  | imm (v : BitVec 32)
  /-- `dword [base + offset]`. -/
  | mem (base : Reg) (offset : BitVec 32)

inductive Condition where
  | equal
  | notEqual
  | aboveEqual

inductive Instr (Label : Type) where
  | mov (r : Reg) (source : Operand)
  /-- `mov [base + offset], r`. -/
  | store (base : Reg) (offset : BitVec 32) (r : Reg)
  /-- `mov [address], r`. -/
  | storeAt (address : BitVec 32) (r : Reg)
  /-- `lea r, [base + offset]`. -/
  | lea (r base : Reg) (offset : BitVec 32)
  | add (r : Reg) (source : Operand)
  | xor (r : Reg) (source : Operand)
  | inc (r : Reg)
  | cmp (a b : Operand)
  | test (a b : Operand)
  | jmp (target : Label)
  /-- A conditional jump. -/
  | jcc (condition : Condition) (target : Label)

namespace Machine

variable (m : Machine)

def value : Operand → BitVec 32
  | .reg r => m.reg r
  | .imm v => v
  | .mem base offset => BitVec.ofNat 32 (load m.mem (m.reg base + offset).toNat 4)

def setReg (r : Reg) (v : BitVec 32) : Machine := { m with reg := Function.update m.reg r v }

def setDword (address v : BitVec 32) : Machine := { m with mem := store m.mem address.toNat 4 v.toNat }

def setFlags (zf cf : Bool) : Machine := { m with zf, cf }

def holds : Condition → Bool
  | .equal => m.zf
  | .notEqual => !m.zf
  | .aboveEqual => !m.cf

@[simp] theorem setReg_mem (r : Reg) (v : BitVec 32) : (m.setReg r v).mem = m.mem := rfl
@[simp] theorem setReg_same (r : Reg) (v : BitVec 32) : (m.setReg r v).reg r = v := by
  show Function.update m.reg r v r = v
  rw [Function.update_self]

@[simp] theorem setReg_other {r r' : Reg} (v : BitVec 32) (h : r' ≠ r) : (m.setReg r v).reg r' = m.reg r' := by
  show Function.update m.reg r v r' = m.reg r'
  rw [Function.update_of_ne h]

end Machine

variable {Label : Type}

/-- What an instruction does that is no jump. -/
def Instr.apply (m : Machine) : Instr Label → Machine
  | mov r source => m.setReg r (m.value source)
  | store base offset r => m.setDword (m.reg base + offset) (m.reg r)
  | storeAt address r => m.setDword address (m.reg r)
  | lea r base offset => m.setReg r (m.reg base + offset)
  | add r source =>
      let v := m.value source
      (m.setReg r (m.reg r + v)).setFlags (m.reg r + v == 0) (decide (2 ^ 32 ≤ (m.reg r).toNat + v.toNat))
  | xor r source => (m.setReg r (m.reg r ^^^ m.value source)).setFlags (m.reg r ^^^ m.value source == 0) false
  | inc r => (m.setReg r (m.reg r + 1)).setFlags (m.reg r + 1 == 0) m.cf
  | cmp a b => m.setFlags (m.value a == m.value b) ((m.value a).ult (m.value b))
  | test a b => m.setFlags (m.value a &&& m.value b == 0) false
  | jmp _ => m
  | jcc _ _ => m

/-- A block goes on with the block after it unless it jumps. -/
structure Block (Label : Type) where
  body : List (Instr Label)
  next : Label

/-- The instructions up to a jump that is taken, and where that goes. -/
def exec (next : Label) : List (Instr Label) → Machine → Label × Machine
  | [], m => (next, m)
  | .jmp target :: _, m => (target, m)
  | .jcc condition target :: body, m => if m.holds condition then (target, m) else exec next body m
  | instr :: body, m => exec next body (instr.apply m)

/-- The code from a label on, until a label outside the code. -/
def run (code : Label → Option (Block Label)) : Nat → Label → Machine → Option (Label × Machine)
  | fuel, l, m =>
      match code l with
      | none => some (l, m)
      | some block =>
          match fuel with
          | 0 => none
          | fuel + 1 =>
              let r := exec block.next block.body m
              run code fuel r.1 r.2

/-! ### Blocks -/

section Exec

variable {next target : Label} {body : List (Instr Label)} {m : Machine} {a b : Operand}

/-- The machine after a comparison. -/
def Machine.compare (m : Machine) (a b : Operand) : Machine :=
  m.setFlags (m.value a == m.value b) ((m.value a).ult (m.value b))

theorem exec_cmp_je : exec next (.cmp a b :: .jcc .equal target :: body) m =
    if m.value a = m.value b then (target, m.compare a b) else exec next body (m.compare a b) := by
  show (if (m.value a == m.value b) = true then _ else _) = _
  simp only [beq_iff_eq]
  rfl

theorem exec_cmp_jne : exec next (.cmp a b :: .jcc .notEqual target :: body) m =
    if m.value a = m.value b then exec next body (m.compare a b) else (target, m.compare a b) := by
  show (if (!(m.value a == m.value b)) = true then _ else _) = _
  simp only [Bool.not_eq_true', beq_eq_false_iff_ne, ne_eq, ite_not]
  rfl

theorem exec_cmp_jae : exec next (.cmp a b :: .jcc .aboveEqual target :: body) m =
    if (m.value a).toNat < (m.value b).toNat then exec next body (m.compare a b) else (target, m.compare a b) := by
  show (if (!(decide ((m.value a).toNat < (m.value b).toNat))) = true then _ else _) = _
  simp only [Bool.not_eq_true', decide_eq_false_iff_not, ite_not]
  rfl

/-- The machine after a test. -/
def Machine.check (m : Machine) (a b : Operand) : Machine := m.setFlags (m.value a &&& m.value b == 0) false

theorem exec_test_jz : exec next (.test a b :: .jcc .equal target :: body) m =
    if m.value a &&& m.value b = 0 then (target, m.check a b) else exec next body (m.check a b) := by
  show (if (m.value a &&& m.value b == 0) = true then _ else _) = _
  simp only [beq_iff_eq]
  rfl

/-- Eight bytes through two registers. -/
theorem exec_copy_qword (r r' src dst : Reg) {i i' j j' : BitVec 32} {p q : Nat} (hne : r ≠ r')
    (hsrc : src ≠ r) (hdst : dst ≠ r) (hdst' : dst ≠ r') (hp : (m.reg src + i).toNat = p)
    (hp' : (m.reg src + i').toNat = p + 4) (hq : (m.reg dst + j).toNat = q) (hq' : (m.reg dst + j').toNat = q + 4) :
    exec next (.mov r (.mem src i) :: .mov r' (.mem src i') :: .store dst j r :: .store dst j' r' :: body) m =
      exec next body
        { (m.setReg r (BitVec.ofNat 32 (load m.mem p 4))).setReg r' (BitVec.ofNat 32 (load m.mem (p + 4) 4)) with
          mem := store m.mem q 8 (load m.mem p 8) } := by
  have hlow : load m.mem p 8 % 256 ^ 4 = load m.mem p 4 := by
    rw [show 8 = 4 + 4 from rfl, load_add, Nat.add_mul_mod_self_left, Nat.mod_eq_of_lt load_lt]
  have hhigh : load m.mem p 8 / 256 ^ 4 = load m.mem (p + 4) 4 := by
    rw [show 8 = 4 + 4 from rfl, load_add, Nat.add_mul_div_left _ _ (Nat.pow_pos (by decide)),
      Nat.div_eq_of_lt load_lt, Nat.zero_add]
  have hload : ∀ k, (BitVec.ofNat 32 (load m.mem k 4)).toNat = load m.mem k 4 :=
    fun k => (BitVec.toNat_ofNat _ _).trans (Nat.mod_eq_of_lt load_lt)
  -- The machine between the loads and the stores.
  obtain ⟨m₂, hm₂⟩ : ∃ m₂, m₂ = (m.setReg r (BitVec.ofNat 32 (load m.mem p 4))).setReg r'
      (BitVec.ofNat 32 (load m.mem (p + 4) 4)) := ⟨_, rfl⟩
  have hloads : exec next (.mov r (.mem src i) :: .mov r' (.mem src i') :: .store dst j r :: .store dst j' r' :: body) m =
      exec next (.store dst j r :: .store dst j' r' :: body) m₂ := by
    show exec next _ ((m.setReg r (m.value (.mem src i))).setReg r'
      ((m.setReg r (m.value (.mem src i))).value (.mem src i'))) = _
    rw [Machine.value, Machine.value, Machine.setReg_other _ _ hsrc, Machine.setReg_mem, hp, hp', hm₂]
  have hstores : exec next (.store dst j r :: .store dst j' r' :: body) m₂ =
      exec next body { m₂ with mem := store m.mem q 8 (load m.mem p 8) } := by
    have hbase : m₂.reg dst = m.reg dst := by
      rw [hm₂, Machine.setReg_other _ _ hdst', Machine.setReg_other _ _ hdst]
    have hr : m₂.reg r = BitVec.ofNat 32 (load m.mem p 4) := by
      rw [hm₂, Machine.setReg_other _ _ hne, Machine.setReg_same]
    have hr' : m₂.reg r' = BitVec.ofNat 32 (load m.mem (p + 4) 4) := by
      rw [hm₂, Machine.setReg_same]
    have hmem : m₂.mem = m.mem := by
      rw [hm₂]
      rfl
    show exec next body { m₂ with
      mem := store (store m₂.mem (m₂.reg dst + j).toNat 4 (m₂.reg r).toNat) (m₂.reg dst + j').toNat 4
        (m₂.reg r').toNat } = _
    rw [hbase, hr, hr', hmem, hq, hq', hload, hload, ← hlow, ← hhigh, store_add]
  rw [hloads, hstores, hm₂]

end Exec

/-! ### Reaching a label -/

/-- The code comes from one place to another. -/
def Reaches (code : Label → Option (Block Label)) (l : Label) (m : Machine) (l' : Label) (m' : Machine) : Prop :=
  ∃ n, ∀ fuel, run code (n + fuel) l m = run code fuel l' m'

variable {code : Label → Option (Block Label)} {l l' l'' : Label} {m m' m'' : Machine} {block : Block Label}

theorem Reaches.trans (h : Reaches code l m l' m') (h' : Reaches code l' m' l'' m'') : Reaches code l m l'' m'' := by
  obtain ⟨n, hn⟩ := h
  obtain ⟨k, hk⟩ := h'
  refine ⟨n + k, fun fuel => ?_⟩
  rw [Nat.add_assoc, hn, hk]

theorem Reaches.of_exec (hcode : code l = some block) (hexec : exec block.next block.body m = (l', m')) :
    Reaches code l m l' m' := by
  refine ⟨1, fun fuel => ?_⟩
  rw [Nat.add_comm, run, hcode]
  dsimp only
  rw [hexec]

/-- A run that comes to a label outside the code ends there. -/
theorem Reaches.ends (h : Reaches code l m l' m') (hexit : code l' = none) :
    ∃ n, ∀ fuel, n ≤ fuel → run code fuel l m = some (l', m') := by
  obtain ⟨n, hn⟩ := h
  refine ⟨n, fun fuel hfuel => ?_⟩
  obtain ⟨k, rfl⟩ := Nat.exists_eq_add_of_le hfuel
  rw [hn, run, hexit]

/-- More fuel does not change a run that ends. -/
theorem run_mono {n fuel : Nat} {r : Label × Machine} (h : run code n l m = some r) (hfuel : n ≤ fuel) :
    run code fuel l m = some r := by
  induction n generalizing fuel l m with
  | zero =>
      unfold run at h ⊢
      cases hcode : code l with
      | none => rwa [hcode] at h
      | some block =>
          rw [hcode] at h
          cases h
  | succ n ih =>
      obtain ⟨fuel, rfl⟩ : ∃ k, fuel = k + 1 := ⟨fuel - 1, by omega⟩
      rw [run] at h ⊢
      cases hcode : code l with
      | none => rwa [hcode] at h
      | some block =>
          rw [hcode] at h
          exact ih h (Nat.le_of_succ_le_succ hfuel)

end Kiznix.X86
