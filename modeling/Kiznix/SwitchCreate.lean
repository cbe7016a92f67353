import Kiznix.SwitchRun

/-! A new thread from the first switch to it: `thread_entry` and `interrupt_exit` run on the frames that
`thread_create` has built, then its function, and what comes after that function. -/

namespace Kiznix.Switch

open ByteMemory

variable {a : Arch} {T : Type} {code : Code a} {st : Stacks a T} {c c' c₁ c₂ ctx : Cpu a} {m m' m₁ m₂ : Memory}
  {t old : T} {p stop high : Nat} {is body rest : List (Instr a)} {user : BitVec a.bits}

/-- `THREAD_STACK_SIZE`. -/
def threadStackSize : Nat := 16384

/-- The stack of a new thread comes from `vmm_alloc`: whole pages of the heap, where no code is. -/
structure NewStack (code : Code a) (st : Stacks a T) (t : T) : Prop where
  aligned : st.low t % 4096 = 0
  size : st.high t = st.low t + threadStackSize
  outside : code.threadExit.toNat < st.low t ∨ st.high t ≤ code.threadExit.toNat

/-- The calling convention: a C function without parameters that was called with `c` and `m` has returned. -/
structure Returns (high : Nat) (c : Cpu a) (m : Memory) (c' : Cpu a) (m' : Memory) : Prop where
  sp : c'.sp = c.sp + a.word
  ip : c'.ip = BitVec.ofNat a.bits (load m c.sp a.word)
  saved : ∀ r ∈ calleeSaved a, c'.reg r = c.reg r
  stack : ∀ x, c'.sp ≤ x → x < high → m' x = m x

/-- Instructions one after the other. Interrupts may come between them, and other threads run meanwhile: what is
on the stack is the same afterwards, other memory need not be. -/
inductive Executes (high : Nat) : List (Instr a) → Cpu a → Memory → Cpu a → Memory → Prop where
  | nil {c : Cpu a} {m m' : Memory} (hmem : ∀ y, c.sp ≤ y → y < high → m' y = m y) : Executes high [] c m c m'
  | cons {i : Instr a} {is : List (Instr a)} {c c' : Cpu a} {m m₁ m' : Memory} (x : Ambient a)
      (hmem : ∀ y, c.sp ≤ y → y < high → m₁ y = m y)
      (h : Executes high is (i.cpu x c m₁) (i.mem c m₁) c' m') : Executes high (i :: is) c m c' m'

/-- The selectors that `iret` takes from the stack: CS, and on x86_64 also SS. -/
def iretSelectors : {a : Arch} → Cpu a → Memory → List Nat
  | .i386, c, m => [load m (c.sp + 4) 4]
  | .x86_64, c, m => [load m (c.sp + 8) 8, load m (c.sp + 32) 8]

def kernelSelectors : Arch → List Nat
  | .i386 => [kernelCode]
  | .x86_64 => [kernelCode, kernelData]

/-- `interrupt_exit` up to its last instruction, `iret`. -/
def exitBody (a : Arch) : List (Instr a) := (interruptExit a).tail.dropLast

/-- A thread that is to run the function at `user` starts and ends as designed, from `c` on. -/
structure Starts (code : Code a) (high : Nat) (user : BitVec a.bits) (c : Cpu a) (m : Memory) : Prop where
  entry : c.ip = code.threadEntry
  exit : ∀ c₁ m₁, Returns high c m c₁ m₁ → c₁.ip = code.interruptExit
  selectors : ∀ c₁ m₁ c₂ m₂, Returns high c m c₁ m₁ → Executes high (exitBody a) c₁ m₁ c₂ m₂ →
    iretSelectors c₂ m₂ = kernelSelectors a
  user : ∀ c₁ m₁ c₂ m₂ x, Returns high c m c₁ m₁ → Executes high (exitBody a) c₁ m₁ c₂ m₂ →
    (Instr.iret.cpu x c₂ m₂).ip = user ∧ (∀ s, (Instr.iret.cpu x c₂ m₂).seg s = BitVec.ofNat 16 kernelData) ∧
      (Instr.iret.cpu x c₂ m₂).Interruptible
  ends : ∀ c₁ m₁ c₂ m₂ x c₃ m₃, Returns high c m c₁ m₁ → Executes high (exitBody a) c₁ m₁ c₂ m₂ →
    Returns high (Instr.iret.cpu x c₂ m₂) m₂ c₃ m₃ → c₃.ip = code.threadExit

/-! ### Instructions with interrupts between them -/

/-- What an instruction of `interrupt_exit` adds to the stack pointer. -/
def Instr.shift : Instr a → Nat
  | .pop _ => a.word
  | .popSeg _ => 2
  | .addSp n => n
  | _ => 0

theorem exit_eq : (interruptExit a).tail = exitBody a ++ [.iret] := by
  cases a <;> rfl

theorem exitBody_shift : ((exitBody a).map Instr.shift).sum + Instr.iretSize a = contextSize a := by
  cases a <;> rfl

/-- The instructions that only take from the stack. -/
def Instr.Takes : Instr a → Prop
  | .pop _ | .popSeg _ | .loadSeg _ _ | .addSp _ => True
  | _ => False

theorem Instr.Takes.sp {i : Instr a} (h : i.Takes) (x : Ambient a) (c : Cpu a) (m : Memory) :
    (i.cpu x c m).sp = c.sp + i.shift := by
  cases i <;> first | rfl | exact h.elim

theorem exitBody_takes : ∀ i ∈ exitBody a, i.Takes := by
  cases a <;> simp [exitBody, interruptExit, Instr.Takes]

theorem Executes.sp (h : Executes high is c m c' m')
    (his : ∀ i ∈ is, i.Takes) : c'.sp = c.sp + (is.map Instr.shift).sum := by
  induction h with
  | nil => rfl
  | cons x hmem h ih =>
      rw [ih fun i hi => his i (List.mem_cons_of_mem _ hi), (his _ List.mem_cons_self).sp, List.map_cons, List.sum_cons,
        Nat.add_assoc]

/-- Without interrupts. -/
theorem executes_run (x : Ambient a) : Executes high is c m (Instr.run x is c m).1 (Instr.run x is c m).2 := by
  induction is generalizing c m with
  | nil => exact .nil fun _ _ _ => rfl
  | cons i is ih => exact .cons x (fun _ _ _ => rfl) ih

/-- Instructions that take up a frame do so whatever comes between them. -/
theorem Restores.executes (h : Restores (body ++ rest) c m stop ctx) (hrest : rest ≠ []) (hstop : stop ≤ high)
    (hexec : Executes high body c m c' m') :
    Restores rest c' m' stop ctx ∧ c.sp ≤ c'.sp ∧ ∀ y, c'.sp ≤ y → y < high → m' y = m y := by
  induction hexec with
  | nil hmem => exact ⟨h.congr fun y hlow hlt => hmem y hlow (by omega), Nat.le_refl _, hmem⟩
  | @cons i is c c' m m₁ m' x hmem hexec ih =>
      have h₁ : Restores (i :: (is ++ rest)) c m₁ stop ctx := h.congr fun y hlow hlt => hmem y hlow (by omega)
      obtain ⟨-, hsame, hnext⟩ := h₁
      obtain ⟨hsp, hleft⟩ := hnext x
      have hsp := hsp.resolve_left fun hnil => hrest (List.append_eq_nil_iff.mp hnil).2
      rw [hsame] at ih
      obtain ⟨hrestores, hsp', hmem'⟩ := ih hleft
      refine ⟨hrestores, Nat.le_trans hsp hsp', fun y hlow hlt => (hmem' y hlow hlt).trans ?_⟩
      exact hmem y (by omega) hlt

/-! ### The frames of a new thread -/

/-- Where the function of a new thread returns to. On i386 `iret` leaves the fields `esp` and `ss` of its frame on the
stack, and `esp` holds the address of the word that is meant to be next. -/
def returnTarget : {a : Arch} → Code a → (high : Nat) → Nat
  | .i386, _, high => high - 4
  | .x86_64, code, _ => code.threadExit.toNat

/-- The words of a new stack under and over the frame of the interrupt. -/
theorem created_slots {user : BitVec a.bits} (hroom : st.low t + 512 ≤ st.high t)
    (hm : m' = threadCreate code st t user m) :
    load m' (createdFrame a (st.high t) - a.word) a.word = code.interruptExit.toNat ∧
      load m' (createdFrame a (st.high t) + contextSize a) a.word = returnTarget code (st.high t) := by
  have hlt := st.high_lt t
  have hcontext := st.context_outside t t
  cases a with
  | i386 =>
      obtain ⟨base, hbase, hlow⟩ : ∃ base, st.high t = base + 96 ∧ st.low t ≤ base :=
        ⟨st.high t - 96, by omega, by omega⟩
      have hframe : createdFrame .i386 (base + 96) = base + 24 := Nat.add_sub_cancel (base + 24) 72
      have hexit : code.interruptExit.toNat < 4294967296 := code.interruptExit.isLt
      simp only [Arch.word] at hlt hcontext
      subst hm
      refine ⟨?_, ?_⟩
      · simp (disch := omega) [threadCreate, hbase, hframe, load_store_outside, load_store_same, Nat.add_assoc, hexit,
          Arch.word]
      · simp (disch := omega) [threadCreate, hbase, hframe, load_store_outside, load_store_same, Nat.add_assoc,
          Arch.word, contextSize, returnTarget]
        omega
  | x86_64 =>
      obtain ⟨base, hbase, hlow⟩ : ∃ base, st.high t = base + 264 ∧ st.low t ≤ base :=
        ⟨st.high t - 264, by omega, by omega⟩
      have hframe : createdFrame .x86_64 (base + 264) = base + 64 := Nat.add_sub_cancel (base + 64) 200
      have hexit : code.interruptExit.toNat < 18446744073709551616 := code.interruptExit.isLt
      have hover : code.threadExit.toNat < 18446744073709551616 := code.threadExit.isLt
      simp only [Arch.word] at hlt hcontext
      subst hm
      refine ⟨?_, ?_⟩
      · simp (disch := omega) [threadCreate, hbase, hframe, load_store_outside, load_store_same, Nat.add_assoc, hexit,
          Arch.word]
      · simp (disch := omega) [threadCreate, hbase, hframe, load_store_outside, load_store_same, Nat.add_assoc, hover,
          Arch.word, contextSize, returnTarget]

/-- A stack as `thread_create` has built it, with the interrupt's frame at `p`. -/
structure Built (code : Code a) (high : Nat) (user : BitVec a.bits) (p : Nat) (ctx : Cpu a) (m : Memory) : Prop where
  room : a.word ≤ p
  top : p + contextSize a + a.word ≤ high
  exit : load m (p - a.word) a.word = code.interruptExit.toNat
  context : ∃ cr2 interrupt error, Laid m p (contextFields ctx cr2 interrupt error)
  after : load m (p + contextSize a) a.word = returnTarget code high
  sp : ctx.sp = p + contextSize a
  ip : ctx.ip = user
  seg : ∀ s, ctx.seg s = BitVec.ofNat 16 kernelData
  flags : ctx.flags = BitVec.ofNat a.bits interruptFlag

theorem Built.congr (h : Built code high user p ctx m) (hmem : ∀ y, p - a.word ≤ y → y < high → m' y = m y) :
    Built code high user p ctx m' := by
  obtain ⟨cr2, interrupt, error, hlaid⟩ := h.context
  have htop := h.top
  have hroom := h.room
  refine { h with exit := ?_, context := ⟨cr2, interrupt, error, ?_⟩, after := ?_ }
  · exact (load_congr fun y hlow hlt => hmem y hlow (by omega)).trans h.exit
  · refine hlaid.congr fun y hlow hlt => hmem y (by omega) ?_
    rw [size_contextFields] at hlt
    omega
  · exact (load_congr fun y hlow hlt => hmem y (by omega) (by omega)).trans h.after

theorem createdFrame_room (hhigh : 512 ≤ high) :
    a.word ≤ createdFrame a high ∧ createdFrame a high + contextSize a + a.word ≤ high := by
  cases a with
  | i386 =>
      show 4 ≤ high - 72 ∧ high - 72 + 60 + 4 ≤ high
      omega
  | x86_64 =>
      show 8 ≤ high - 200 ∧ high - 200 + 192 + 8 ≤ high
      omega

theorem created_built {user : BitVec a.bits} (hroom : st.low t + 512 ≤ st.high t)
    (hm : m' = threadCreate code st t user m) :
    Built code (st.high t) user (createdFrame a (st.high t)) (createdContext st t user m') m' := by
  obtain ⟨rest, hacts, hwaits⟩ := created_waits code hroom hm
  obtain ⟨hexit, hafter⟩ := created_slots hroom hm
  obtain ⟨hword, htop⟩ := createdFrame_room (a := a) (Nat.le_trans (Nat.le_add_left _ _) hroom)
  have hrest := (List.cons.inj hacts).2
  subst hrest
  obtain ⟨-, -, hcontext, -⟩ := hwaits.holds
  exact ⟨hword, htop, hexit, hcontext, hafter, rfl, rfl, fun _ => rfl, rfl⟩

/-! ### From `thread_entry` to the function -/

theorem size_deliveredFields : size (deliveredFields ctx) = Instr.iretSize a := by
  cases a <;> simp [deliveredFields, Instr.iretSize]

/-- What the processor pushed ends the frame. -/
theorem laid_delivered {cr2 interrupt error : Nat} (h : Laid m p (contextFields ctx cr2 interrupt error)) :
    ∃ q, q + Instr.iretSize a = p + contextSize a ∧ Laid m q (deliveredFields ctx) := by
  have hsize := size_contextFields ctx cr2 interrupt error
  rw [contextFields, size_append, size_append, size_deliveredFields] at hsize
  have hlaid := (laid_append.mp (laid_append.mp h).2).2
  exact ⟨_, by omega, hlaid⟩

theorem selectors_of_laid (h : Laid m c.sp (deliveredFields ctx)) : iretSelectors c m = kernelSelectors a := by
  cases a with
  | i386 => exact congrArg ([·]) h.2.1
  | x86_64 =>
      obtain ⟨-, hcs, -, -, hss, -⟩ := h
      rw [show c.sp + 8 + 8 + 8 + 8 = c.sp + 32 by omega] at hss
      rw [iretSelectors, hcs, hss]
      rfl

namespace Built

variable (h : Built code high user p ctx m) (hsp : c.sp = p - a.word)

include h

theorem framed : Framed p ctx := by
  cases a with
  | i386 => exact h.sp
  | x86_64 => exact Nat.le_of_eq h.sp.symm

include hsp

/-- `thread_entry` returns to `interrupt_exit`, which gets to the function. -/
theorem runs (hret : Returns high c m c₁ m₁) : c₁.ip = code.interruptExit ∧
    ∀ c₂ m₂, Executes high (exitBody a) c₁ m₁ c₂ m₂ → iretSelectors c₂ m₂ = kernelSelectors a ∧
      (∀ x, Instr.iret.cpu x c₂ m₂ = ctx) ∧ load m₂ (p + contextSize a) a.word = returnTarget code high := by
  have hroom := h.room
  have htop := h.top
  obtain ⟨cr2, interrupt, error, hlaid⟩ := h.context
  have hsp₁ : c₁.sp = p := by
    rw [hret.sp, hsp]
    omega
  have hip := hret.ip
  rw [hsp, ofNat_toNat_load h.exit] at hip
  refine ⟨hip, fun c₂ m₂ hexec => ?_⟩
  have hlaid₁ : Laid m₁ p (contextFields ctx cr2 interrupt error) := by
    refine hlaid.congr fun y hlow hlt => hret.stack y (by omega) ?_
    rw [size_contextFields] at hlt
    omega
  have hrestores := restores_exit hlaid₁ h.framed hsp₁
  rw [exit_eq] at hrestores
  obtain ⟨hiret, -, hmem⟩ := hrestores.executes (List.cons_ne_nil _ _) (by omega) hexec
  obtain ⟨q, hq, hdelivered⟩ := laid_delivered hlaid₁
  have hsp₂ : c₂.sp = q := by
    have hshift := exitBody_shift (a := a)
    rw [hexec.sp exitBody_takes, hsp₁]
    omega
  subst hsp₂
  refine ⟨selectors_of_laid (hdelivered.congr fun y hlow hlt => hmem y hlow ?_), fun x => (hiret.2.2 x).2, ?_⟩
  · rw [size_deliveredFields] at hlt
    omega
  · have hword : 0 < Instr.iretSize a := by cases a <;> decide
    refine (load_congr fun y hlow hlt => (hmem y (by omega) (by omega)).trans ?_).trans h.after
    exact hret.stack y (by omega) (by omega)

/-- A new thread does as it should exactly if its function returns to `thread_exit`. -/
theorem starts (hip : c.ip = code.threadEntry) :
    Starts code high user c m ↔ BitVec.ofNat a.bits (returnTarget code high) = code.threadExit := by
  refine ⟨fun hstarts => ?_, fun htarget => ?_⟩
  · let c₁ : Cpu a := { c with sp := c.sp + a.word, ip := BitVec.ofNat a.bits (load m c.sp a.word) }
    have hret : Returns high c m c₁ m := ⟨rfl, rfl, fun _ _ => rfl, fun _ _ _ => rfl⟩
    obtain ⟨-, hruns⟩ := h.runs hsp hret
    let x : Ambient a := ⟨0, 0, 0⟩
    obtain ⟨c₂, m₂, hexec⟩ : ∃ c₂ m₂, Executes high (exitBody a) c₁ m c₂ m₂ := ⟨_, _, executes_run x⟩
    obtain ⟨-, hctx, hafter⟩ := hruns _ _ hexec
    have hends := hstarts.ends c₁ m c₂ m₂ x
      { ctx with sp := ctx.sp + a.word, ip := BitVec.ofNat a.bits (returnTarget code high) } m₂ hret hexec
    rw [hctx x] at hends
    refine hends ⟨rfl, ?_, fun _ _ => rfl, fun _ _ _ => rfl⟩
    rw [h.sp, hafter]
  · refine ⟨hip, fun c₁ m₁ hret => (h.runs hsp hret).1, fun c₁ m₁ c₂ m₂ hret hexec => ?_,
      fun c₁ m₁ c₂ m₂ x hret hexec => ?_, fun c₁ m₁ c₂ m₂ x c₃ m₃ hret hexec hret' => ?_⟩
    · exact ((h.runs hsp hret).2 _ _ hexec).1
    · rw [((h.runs hsp hret).2 _ _ hexec).2.1 x]
      refine ⟨h.ip, h.seg, ?_⟩
      rw [Cpu.Interruptible, h.flags]
      cases a <;> decide
    · obtain ⟨-, hctx, hafter⟩ := (h.runs hsp hret).2 _ _ hexec
      have hip' := hret'.ip
      rw [hctx x, h.sp, hafter] at hip'
      exact hip'.trans htarget

end Built

/-- The first switch to a new thread gets to `thread_entry`, over a stack that is as it was built. -/
theorem first_switch (hne : t ≠ old) (hsize : st.low t + 512 ≤ st.high t)
    (hkept : ∀ y, st.low t ≤ y ∧ y < st.high t ∨ st.context t ≤ y ∧ y < st.context t + a.word →
      m₁ y = threadCreate code st t user m y)
    (x : Ambient a) (back : BitVec a.bits) (hroom : st.low old + 256 ≤ c.sp) (hhigh : c.sp ≤ st.high old)
    (hpassed : Passed c m₁ (st.context old) (load m₁ (st.context t) a.word)) :
    let final := Instr.run x (.call code.threadSwitch back :: threadSwitch a) c m₁
    Starts code (st.high t) user final.1 final.2 ↔
      BitVec.ofNat a.bits (returnTarget code (st.high t)) = code.threadExit := by
  intro final
  obtain ⟨m', hm⟩ : ∃ m', m' = threadCreate code st t user m := ⟨_, rfl⟩
  obtain ⟨rest, -, hwaits⟩ := created_waits code hsize hm
  have hbuilt := created_built hsize hm
  rw [← hm] at hkept
  have hwaits₁ : Waits code st m₁ t _ rest :=
    hwaits.congr c (fun y hy => hkept y (Or.inl (hwaits.zone hy))) fun y hlow hlt => hkept y (Or.inr ⟨hlow, hlt⟩)
  obtain ⟨hsp, hip, -⟩ := hwaits₁.switched hne x code.threadSwitch back hroom hhigh hpassed
  have hlow : st.low t ≤ createdFrame a (st.high t) - a.word := by
    have hroom' := hwaits.room
    rw [show (createdStart code st t m').sp = createdFrame a (st.high t) - a.word from rfl] at hroom'
    omega
  have hbuilt₁ : Built code (st.high t) user (createdFrame a (st.high t)) (createdContext st t user m') final.2 := by
    refine hbuilt.congr fun y hy hlt => ?_
    by_contra hdiff
    have hstack : m₁ y = m' y := hkept y (Or.inl ⟨by omega, hlt⟩)
    rw [← hstack] at hdiff
    have hdisjoint := st.disjoint t old hne
    have hcontext := st.context_outside old t
    have hregisters : registerSize a ≤ 56 := by cases a <;> decide
    have hcases := threadSwitch_outside x code.threadSwitch back (by omega) hpassed hdiff
    omega
  exact hbuilt₁.starts hsp hip

/-- The code of an image, and the stack of a new thread under that of the running one. -/
def sampleCode (a : Arch) : Code a where
  interruptDispatch := BitVec.ofNat a.bits 0x101000
  threadSwitch := BitVec.ofNat a.bits 0x102000
  threadEntry := BitVec.ofNat a.bits 0x103000
  threadExit := BitVec.ofNat a.bits 0x104000
  afterDispatch k := BitVec.ofNat a.bits (0x100000 + k)
  afterDispatch_injective k k' hk hk' heq := by
    have heq := congrArg BitVec.toNat heq
    rw [BitVec.toNat_ofNat, BitVec.toNat_ofNat] at heq
    have hbits : 2 ^ 32 ≤ 2 ^ a.bits := by cases a <;> decide
    rw [Nat.mod_eq_of_lt (by omega), Nat.mod_eq_of_lt (by omega)] at heq
    omega

def sampleStacks (a : Arch) : Stacks a Bool where
  low t := if t then 0xE0000000 else 0xE0010000
  high t := if t then 0xE0004000 else 0xE0014000
  context t := if t then 0xE0020000 else 0xE0020010
  high_lt t := by cases a <;> cases t <;> decide
  disjoint t t' := by cases t <;> cases t' <;> decide
  context_outside t t' := by cases a <;> cases t <;> cases t' <;> decide
  context_disjoint t t' := by cases a <;> cases t <;> cases t' <;> decide

theorem sampleStacks_new (a : Arch) : NewStack (sampleCode a) (sampleStacks a) true :=
  ⟨by simp [sampleStacks], by simp [sampleStacks, threadStackSize], Or.inl (by cases a <;> decide)⟩

/-- The arguments of `thread_switch`, in registers and on the stack. -/
def sampleCpu (a : Arch) : Cpu a where
  reg r := if r = .di then BitVec.ofNat a.bits 0xE0020010 else
    BitVec.ofNat a.bits (createdFrame a 0xE0004000 - a.word - registerSize a)
  sp := 0xE0013000
  seg _ := BitVec.ofNat 16 kernelData
  flags := 2
  ip := 0

def sampleMemory (a : Arch) : Memory :=
  store (store (fun _ => 0) 0xE0013000 4 0xE0020010) 0xE0013004 4 (createdFrame a 0xE0004000 - a.word - registerSize a)

theorem sample_passed (a : Arch) (user : BitVec a.bits) :
    let m := threadCreate (sampleCode a) (sampleStacks a) true user (sampleMemory a)
    Passed (sampleCpu a) m ((sampleStacks a).context false) (load m ((sampleStacks a).context true) a.word) := by
  have hroom : (sampleStacks a).low true + 512 ≤ (sampleStacks a).high true := by
    show 0xE0000000 + 512 ≤ 0xE0004000
    omega
  intro m
  have hm : m = threadCreate (sampleCode a) (sampleStacks a) true user (sampleMemory a) := rfl
  obtain ⟨-, -, hfield, -⟩ := created_spec hroom hm
  have hsame : ∀ y, 0xE0010000 ≤ y → y < 0xE0014000 → m y = sampleMemory a y := by
    intro y hlow hlt
    by_contra hdiff
    have hcases := threadCreate_outside hroom hdiff
    have hword : a.word ≤ 8 := by cases a <;> decide
    simp only [sampleStacks, if_true] at hcases
    omega
  rw [hfield]
  cases a with
  | i386 =>
      have hargument : ∀ p, 0xE0013000 ≤ p → p ≤ 0xE0013004 → load m p 4 = load (sampleMemory .i386) p 4 :=
        fun p hlow hhigh => load_congr fun y hy hlt => hsame y (by omega) (by omega)
      refine ⟨(hargument 0xE0013000 (by decide) (by decide)).trans ?_,
        (hargument 0xE0013004 (by decide) (by decide)).trans ?_⟩
      · decide
      · decide
  | x86_64 => exact ⟨by decide, by decide⟩

/-- A new thread runs `thread_entry`, `interrupt_exit`, its function and then `thread_exit` exactly on x86_64:
the `iret` of i386 leaves two words of the frame on the stack, where the function finds its return address. -/
theorem created_starts (hne : t ≠ old) (hstack : NewStack code st t)
    (hkept : ∀ y, st.low t ≤ y ∧ y < st.high t ∨ st.context t ≤ y ∧ y < st.context t + a.word →
      m₁ y = threadCreate code st t user m y)
    (x : Ambient a) (back : BitVec a.bits) (hroom : st.low old + 256 ≤ c.sp) (hhigh : c.sp ≤ st.high old)
    (hpassed : Passed c m₁ (st.context old) (load m₁ (st.context t) a.word)) :
    let final := Instr.run x (.call code.threadSwitch back :: threadSwitch a) c m₁
    Starts code (st.high t) user final.1 final.2 ↔ a = .x86_64 := by
  have hsize := hstack.size
  rw [threadStackSize] at hsize
  refine (first_switch hne (by omega) hkept x back hroom hhigh hpassed).trans ?_
  cases a with
  | i386 =>
      refine iff_of_false (fun heq => ?_) nofun
      have hlt := st.high_lt t
      have hnat := congrArg BitVec.toNat heq
      rw [returnTarget, BitVec.toNat_ofNat, show 2 ^ Arch.i386.bits = 4294967296 from rfl] at hnat
      simp only [Arch.word] at hlt
      have houtside := hstack.outside
      omega
  | x86_64 =>
      refine iff_of_true ?_ rfl
      rw [returnTarget, BitVec.ofNat_toNat, BitVec.setWidth_eq]

/-- On x86_64 a thread for the function at 0x105000. -/
theorem created_starts_x86_64 :
    let m := threadCreate (sampleCode .x86_64) (sampleStacks .x86_64) true 0x105000 (sampleMemory .x86_64)
    let final := Instr.run ⟨0, 0, 0⟩ (.call (sampleCode .x86_64).threadSwitch 0x106000 :: threadSwitch .x86_64)
      (sampleCpu .x86_64) m
    Starts (sampleCode .x86_64) 0xE0004000 0x105000 final.1 final.2 := by
  intro m final
  have hstarts := created_starts (t := true) (by decide) (sampleStacks_new .x86_64) (fun _ _ => rfl) ⟨0, 0, 0⟩
    0x106000 (by decide) (by decide) (sample_passed .x86_64 0x105000)
  exact hstarts.mpr rfl

/-- On i386 its function does not return to `thread_exit`. -/
theorem created_lost :
    let m := threadCreate (sampleCode .i386) (sampleStacks .i386) true 0x105000 (sampleMemory .i386)
    let final := Instr.run ⟨0, 0, 0⟩ (.call (sampleCode .i386).threadSwitch 0x106000 :: threadSwitch .i386)
      (sampleCpu .i386) m
    NewStack (sampleCode .i386) (sampleStacks .i386) true ∧
      ¬ Starts (sampleCode .i386) 0xE0004000 0x105000 final.1 final.2 := by
  intro m final
  have hne : true ≠ false := by decide
  have hswitch := first_switch hne (by decide) (fun _ _ => rfl) ⟨0, 0, 0⟩ 0x106000 (by decide) (by decide)
    (sample_passed .i386 0x105000)
  exact ⟨sampleStacks_new .i386, fun hstarts => absurd (hswitch.mp hstarts) (by decide)⟩

end Kiznix.Switch
