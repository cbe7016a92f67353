import Kiznix.SwitchModel

/-! The frames that the routines leave on the stack: `interrupt_entry` lays down an `interrupt_context_t`
and `thread_switch` a `thread_registers_t`, each in the order in which it is taken up again. -/

namespace Kiznix.Switch

open ByteMemory

variable {a : Arch} {c c' ctx : Cpu a} {m m' : Memory} {p stop : Nat}

/-- The registers of `interrupt_context_t`, in its order. -/
def contextRegs : (a : Arch) → List (Reg a)
  | .i386 => [.ax, .bx, .cx, .dx, .si, .di, .bp]
  | .x86_64 => [.ax, .bx, .cx, .dx, .si, .di, .bp, .r8, .r9, .r10, .r11, .r12, .r13, .r14, .r15]

/-- What the processor pushes when the kernel interrupts itself, the last field first. -/
def deliveredFields : {a : Arch} → Cpu a → List Field
  | .i386, c => [(4, c.ip.toNat), (4, kernelCode), (4, c.flags.toNat)]
  | .x86_64, c => [(8, c.ip.toNat), (8, kernelCode), (8, c.flags.toNat), (8, c.sp), (8, kernelData)]

def regFields (c : Cpu a) (regs : List (Reg a)) : List Field := regs.map fun r => (a.word, (c.reg r).toNat)

/-- `interrupt_context_t`, as far as it is pushed when the kernel interrupts itself. -/
def contextFields (c : Cpu a) (cr2 interrupt error : Nat) : List Field :=
  [(a.word, cr2), (2, (c.seg .ds).toNat), (2, (c.seg .es).toNat), (2, (c.seg .fs).toNat),
      (2, (c.seg .gs).toNat)] ++
    (regFields c (contextRegs a) ++ [(a.word, interrupt), (a.word, error)] ++ deliveredFields c)

/-- The bytes of it. -/
def contextSize : Arch → Nat
  | .i386 => 60
  | .x86_64 => 192

theorem size_contextFields (c : Cpu a) (cr2 interrupt error : Nat) :
    size (contextFields c cr2 interrupt error) = contextSize a := by
  cases a <;> simp [contextFields, contextSize, regFields, contextRegs, deliveredFields, Arch.word]

/-- `thread_registers_t` for a thread that will go on at `c`. -/
def registerFields (c : Cpu a) : List Field :=
  regFields c (calleeSaved a) ++ [(a.word, c.ip.toNat)]

def registerSize : Arch → Nat
  | .i386 => 20
  | .x86_64 => 56

theorem size_registerFields (c : Cpu a) : size (registerFields c) = registerSize a := by
  cases a <;> simp [registerFields, registerSize, regFields, calleeSaved, Arch.word]

/-- The stack pointer at the first instruction of `interrupt_dispatch`, for an interrupt at `c`. -/
def entryBase : {a : Arch} → Cpu a → Nat
  | .i386, c => c.sp - 68
  | .x86_64, c => c.sp / 16 * 16 - 200

/-- What `interrupt_entry` leaves on the stack under its frame. -/
def entryCallFields : {a : Arch} → Code a → Cpu a → List Field
  | .i386, code, c => [(4, (code.afterDispatch 0).toNat), (4, entryBase c + 8)]
  | .x86_64, code, _ => [(8, (code.afterDispatch 0).toNat)]

theorem entry_i386 (x : Ambient .i386) (code : Code .i386) {interrupt : Nat} (hnull : ¬ InterruptNull interrupt)
    (error : BitVec Arch.i386.bits) {c : Cpu .i386} (hroom : 256 ≤ c.sp) :
    let start := deliver interrupt error c m
    let final := Instr.run x (interruptStub .i386 interrupt ++ interruptEntry code) start.1 start.2
    final.1.sp = entryBase c ∧ final.2 = lay m (entryBase c) (entryCallFields code c ++
      contextFields c x.cr2.toNat interrupt (if pushesErrorCode interrupt then error.toNat else 0)) := by
  obtain ⟨base, hbase⟩ : ∃ base, c.sp = base + 68 := ⟨c.sp - 68, by omega⟩
  have hentry : entryBase c = base := (congrArg (· - 68) hbase).trans (Nat.add_sub_cancel base 68)
  have hpushes := pushesErrorCode_iff hnull
  intro start final
  by_cases herror : hasErrorCode interrupt
  · simp [start, final, deliver, interruptStub, hpushes, herror, interruptEntry, Instr.run, Instr.cpu, Instr.mem, hbase,
      Arch.word, Cpu.clear, Cpu.setReg, Function.update, hentry, entryCallFields, contextFields, regFields,
      contextRegs, deliveredFields, lay, Nat.add_assoc]
  · simp [start, final, deliver, interruptStub, hpushes, herror, interruptEntry, Instr.run, Instr.cpu, Instr.mem, hbase,
      Arch.word, Cpu.clear, Cpu.setReg, Function.update, hentry, entryCallFields, contextFields, regFields,
      contextRegs, deliveredFields, lay, Nat.add_assoc]

theorem entry_x86_64 (x : Ambient .x86_64) (code : Code .x86_64) {interrupt : Nat} (hnull : ¬ InterruptNull interrupt)
    (error : BitVec Arch.x86_64.bits) {c : Cpu .x86_64} (hroom : 256 ≤ c.sp) :
    let start := deliver interrupt error c m
    let final := Instr.run x (interruptStub .x86_64 interrupt ++ interruptEntry code) start.1 start.2
    final.1.sp = entryBase c ∧ final.1.reg .bx = BitVec.ofNat Arch.x86_64.bits (entryBase c + 8) ∧
      final.2 = lay m (entryBase c) (entryCallFields code c ++
        contextFields c x.cr2.toNat interrupt (if pushesErrorCode interrupt then error.toNat else 0)) := by
  obtain ⟨base, hbase, hmod⟩ : ∃ base, c.sp / 16 * 16 = base + 200 ∧ (base + 8) / 16 * 16 = base + 8 :=
    ⟨c.sp / 16 * 16 - 200, by omega, by omega⟩
  have hentry : entryBase c = base := (congrArg (· - 200) hbase).trans (Nat.add_sub_cancel base 200)
  have hpushes := pushesErrorCode_iff hnull
  intro start final
  by_cases herror : hasErrorCode interrupt
  · simp [start, final, deliver, interruptStub, hpushes, herror, interruptEntry, Instr.run, Instr.cpu, Instr.mem, hbase,
      Arch.word, Cpu.clear, Cpu.setReg, Function.update, hentry, entryCallFields, contextFields, regFields,
      contextRegs, deliveredFields, lay, Cpu.status, hmod, Nat.add_assoc]
  · simp [start, final, deliver, interruptStub, hpushes, herror, interruptEntry, Instr.run, Instr.cpu, Instr.mem, hbase,
      Arch.word, Cpu.clear, Cpu.setReg, Function.update, hentry, entryCallFields, contextFields, regFields,
      contextRegs, deliveredFields, lay, Cpu.status, hmod, Nat.add_assoc]

/-! ### `thread_switch` -/

theorem fits_word {v : BitVec a.bits} : v.toNat < 256 ^ a.word := by
  have hlt := v.isLt
  cases a with
  | i386 => exact Nat.lt_of_lt_of_le hlt (by decide)
  | x86_64 => exact Nat.lt_of_lt_of_le hlt (by decide)

theorem fits_seg {v : BitVec 16} : v.toNat < 256 ^ 2 := Nat.lt_of_lt_of_le v.isLt (by decide)

theorem fits_nil : Fits [] := fun _ h => absurd h List.not_mem_nil

theorem fits_cons {n v : Nat} {fields : List Field} (hv : v < 256 ^ n) (h : Fits fields) :
    Fits ((n, v) :: fields) := List.forall_mem_cons.mpr ⟨hv, h⟩

theorem fits_append {fields fields' : List Field} (h : Fits fields) (h' : Fits fields') :
    Fits (fields ++ fields') := fun field hfield => (List.mem_append.mp hfield).elim (h field) (h' field)

theorem fits_regs {regs : List (Reg a)} : Fits (regFields c regs) := by
  intro field hfield
  obtain ⟨r, -, rfl⟩ := List.mem_map.mp hfield
  exact fits_word

theorem fits_context {cr2 : BitVec a.bits} {interrupt error : Nat} (hinterrupt : interrupt < 256 ^ a.word)
    (herror : error < 256 ^ a.word) (hsp : c.sp < 256 ^ a.word) :
    Fits (contextFields c cr2.toNat interrupt error) := by
  have hdelivered : Fits (deliveredFields c) := by
    cases a with
    | i386 => exact fits_cons fits_word (fits_cons (by decide) (fits_cons fits_word fits_nil))
    | x86_64 =>
        exact fits_cons fits_word (fits_cons (by decide) (fits_cons fits_word (fits_cons hsp
          (fits_cons (by decide) fits_nil))))
  refine fits_append ?_ (fits_append (fits_append fits_regs ?_) hdelivered)
  · exact fits_cons fits_word (fits_cons fits_seg (fits_cons fits_seg (fits_cons fits_seg
      (fits_cons fits_seg fits_nil))))
  · exact fits_cons hinterrupt (fits_cons herror fits_nil)

theorem run_append (x : Ambient a) (is js : List (Instr a)) :
    Instr.run x (is ++ js) c m = Instr.run x js (Instr.run x is c m).1 (Instr.run x is c m).2 := by
  induction is generalizing c m with
  | nil => rfl
  | cons i is ih => exact ih

/-- The part of `thread_switch` that runs on the old stack. -/
def saveRegisters : (a : Arch) → List (Instr a)
  | .i386 =>
      [.loadArg .ax 4, .loadArg .dx 8, .push .bp, .push .di, .push .si, .push .bx, .storeSp .ax, .movToSp .dx]
  | .x86_64 =>
      [.push .r15, .push .r14, .push .r13, .push .r12, .push .bp, .push .bx, .storeSp .di, .movToSp .si]

theorem threadSwitch_eq : threadSwitch a = saveRegisters a ++ ((calleeSaved a).map .pop ++ [.ret]) := by
  cases a <;> rfl

theorem saveRegisters_i386 (x : Ambient .i386) {target back : BitVec Arch.i386.bits} {c : Cpu .i386}
    {old new : Nat} (hroom : 256 ≤ c.sp) (hpassed : Passed c m old new) :
    let final := Instr.run x (.call target back :: saveRegisters .i386) c m
    final.1.sp = new ∧ final.2 = store (lay m (c.sp - 20) (registerFields { c with ip := back })) old 4
      (c.sp - 20) := by
  obtain ⟨base, hbase⟩ : ∃ base, c.sp = base + 20 := ⟨c.sp - 20, by omega⟩
  obtain ⟨hold, hnew⟩ := hpassed
  have hold' : (BitVec.ofNat Arch.i386.bits old).toNat = old := by
    rw [← hold, BitVec.toNat_ofNat]
    exact Nat.mod_eq_of_lt load_lt
  have hnew' : (BitVec.ofNat Arch.i386.bits new).toNat = new := by
    rw [← hnew, BitVec.toNat_ofNat]
    exact Nat.mod_eq_of_lt load_lt
  rw [hbase] at hold hnew
  rw [Nat.add_assoc] at hnew
  intro final
  simp only [final, saveRegisters, Instr.run, Instr.cpu, Instr.mem, hbase, Arch.word, Cpu.setReg]
  simp [registerFields, regFields, calleeSaved, lay, Nat.add_assoc, Arch.word, load_store_outside, hold, hnew,
    Function.update, -BitVec.toNat_ofNat, hold', hnew']

theorem saveRegisters_x86_64 (x : Ambient .x86_64) {target back : BitVec Arch.x86_64.bits} {c : Cpu .x86_64}
    {old new : Nat} (hroom : 256 ≤ c.sp) (hpassed : Passed c m old new) :
    let final := Instr.run x (.call target back :: saveRegisters .x86_64) c m
    final.1.sp = new ∧ final.2 = store (lay m (c.sp - 56) (registerFields { c with ip := back })) old 8
      (c.sp - 56) := by
  obtain ⟨base, hbase⟩ : ∃ base, c.sp = base + 56 := ⟨c.sp - 56, by omega⟩
  obtain ⟨hold, hnew⟩ := hpassed
  intro final
  simp only [final, saveRegisters, Instr.run, Instr.cpu, Instr.mem, hbase, Arch.word]
  simp [registerFields, regFields, calleeSaved, lay, Nat.add_assoc, Arch.word, hold, hnew]

theorem saveRegisters_spec (x : Ambient a) (target back : BitVec a.bits) {old new : Nat} (hroom : 256 ≤ c.sp)
    (hpassed : Passed c m old new) :
    let final := Instr.run x (.call target back :: saveRegisters a) c m
    final.1.sp = new ∧ final.2 = store
      (lay m (c.sp - registerSize a) (registerFields { c with ip := back })) old a.word
      (c.sp - registerSize a) := by
  cases a with
  | i386 => exact saveRegisters_i386 x hroom hpassed
  | x86_64 => exact saveRegisters_x86_64 x hroom hpassed

theorem ofNat_toNat_load {v : BitVec a.bits} (h : load m p a.word = v.toNat) :
    BitVec.ofNat a.bits (load m p a.word) = v := by
  rw [h, BitVec.ofNat_toNat, BitVec.setWidth_eq]

/-- Registers are popped as they were laid down. -/
theorem run_pops (x : Ambient a) {regs : List (Reg a)} (hnodup : regs.Nodup)
    (hlaid : Laid m c.sp (regFields c' regs)) :
    let final := Instr.run x (regs.map .pop) c m
    final.2 = m ∧ final.1.sp = c.sp + a.word * regs.length ∧ (∀ r ∈ regs, final.1.reg r = c'.reg r) ∧
      ∀ r, r ∉ regs → final.1.reg r = c.reg r := by
  induction regs generalizing c with
  | nil => exact ⟨rfl, rfl, fun r hr => absurd hr List.not_mem_nil, fun _ _ => rfl⟩
  | cons r regs ih =>
      obtain ⟨hload, hlaid⟩ := hlaid
      obtain ⟨hnot, hnodup⟩ := List.nodup_cons.mp hnodup
      obtain ⟨hmem, hsp, hin, hout⟩ := ih (c := (Instr.pop r).cpu x c m) hnodup hlaid
      have hpop : ((Instr.pop r).cpu x c m).reg r = c'.reg r := by
        show Function.update c.reg r _ r = _
        rw [Function.update_self, ofNat_toNat_load hload]
      refine ⟨hmem, ?_, fun r' hr' => ?_, fun r' hr' => ?_⟩
      · rw [List.length_cons, Nat.mul_succ]
        refine hsp.trans ?_
        show c.sp + a.word + _ = _
        omega
      · rcases List.mem_cons.mp hr' with rfl | hr'
        · exact (hout _ hnot).trans hpop
        · exact hin r' hr'
      · obtain ⟨hne, hr'⟩ := not_or.mp (mt List.mem_cons.mpr hr')
        refine (hout r' hr').trans ?_
        show Function.update c.reg r _ r' = _
        rw [Function.update_of_ne hne]

theorem size_regFields (regs : List (Reg a)) : size (regFields c regs) = a.word * regs.length := by
  induction regs with
  | nil => rfl
  | cons r regs ih =>
      have hcons : regFields c (r :: regs) = (a.word, (c.reg r).toNat) :: regFields c regs := rfl
      rw [hcons, size_cons, ih, List.length_cons, Nat.mul_succ, Nat.add_comm]

theorem calleeSaved_nodup : (calleeSaved a).Nodup := by
  cases a <;> decide

/-- The rest of `thread_switch` takes up the new thread where it left. -/
theorem restoreRegisters_spec (x : Ambient a) (hlaid : Laid m c.sp (registerFields c')) :
    let final := Instr.run x ((calleeSaved a).map .pop ++ [.ret]) c m
    final.2 = m ∧ final.1.sp = c.sp + registerSize a ∧ final.1.ip = c'.ip ∧
      ∀ r ∈ calleeSaved a, final.1.reg r = c'.reg r := by
  obtain ⟨hregs, hlast⟩ := laid_append.mp hlaid
  obtain ⟨hmem, hsp, hin, -⟩ := run_pops x calleeSaved_nodup hregs
  have hword : a.word * (calleeSaved a).length + a.word = registerSize a := by
    cases a <;> rfl
  rw [size_regFields, ← hsp] at hlast
  rw [run_append]
  generalize Instr.run x ((calleeSaved a).map .pop) c m = middle at hmem hsp hin hlast ⊢
  refine ⟨hmem, ?_, ?_, hin⟩
  · show middle.1.sp + a.word = _
    omega
  · show BitVec.ofNat a.bits (load middle.2 middle.1.sp a.word) = _
    rw [hmem]
    exact ofNat_toNat_load hlast.1

/-- `thread_switch` saves the registers of one thread and takes up those of the other. -/
theorem threadSwitch_spec (x : Ambient a) (target back : BitVec a.bits) (c' : Cpu a) {old new : Nat} (hroom : 256 ≤ c.sp)
    (hpassed : Passed c m old new) :
    let final := Instr.run x (.call target back :: threadSwitch a) c m
    final.2 = store (lay m (c.sp - registerSize a) (registerFields { c with ip := back })) old a.word
        (c.sp - registerSize a) ∧
      (Laid final.2 new (registerFields c') → final.1.sp = new + registerSize a ∧ final.1.ip = c'.ip ∧
        ∀ r ∈ calleeSaved a, final.1.reg r = c'.reg r) := by
  obtain ⟨hsp, hmem⟩ := saveRegisters_spec x target back hroom hpassed
  have hrun : Instr.run x (.call target back :: threadSwitch a) c m =
      Instr.run x ((calleeSaved a).map .pop ++ [.ret])
        (Instr.run x (.call target back :: saveRegisters a) c m).1
        (Instr.run x (.call target back :: saveRegisters a) c m).2 := by
    rw [threadSwitch_eq, ← List.cons_append, run_append]
  have hsame : ∀ (regs : List (Reg a)) (c : Cpu a) (m : Memory),
      (Instr.run x (regs.map .pop ++ [.ret]) c m).2 = m := by
    intro regs
    induction regs with
    | nil => exact fun _ _ => rfl
    | cons r regs ih => exact fun c m => ih _ m
  intro final
  have hfinal : final.2 = (Instr.run x (.call target back :: saveRegisters a) c m).2 := by
    rw [show final = _ from hrun]
    exact hsame _ _ _
  refine ⟨hfinal.trans hmem, fun hlaid => ?_⟩
  rw [hfinal, ← hsp] at hlaid
  obtain ⟨-, hsp', hip, hregs⟩ := restoreRegisters_spec x hlaid
  rw [show final = _ from hrun]
  exact ⟨hsp'.trans (congrArg (· + registerSize a) hsp), hip, hregs⟩

/-- It writes under the old stack pointer and in the field `context` of the old thread. -/
theorem threadSwitch_outside (x : Ambient a) (target back : BitVec a.bits) {old new y : Nat} (hroom : 256 ≤ c.sp)
    (hpassed : Passed c m old new) (hy : (Instr.run x (.call target back :: threadSwitch a) c m).2 y ≠ m y) :
    c.sp - registerSize a ≤ y ∧ y < c.sp ∨ old ≤ y ∧ y < old + a.word := by
  have hsize : registerSize a ≤ 56 := by cases a <;> decide
  by_contra hnot
  refine hy ?_
  rw [(threadSwitch_spec x target back c hroom hpassed).1, store_outside (by omega), lay_outside]
  rw [size_registerFields]
  omega

/-! ### `interrupt_exit` -/

namespace Instr

/-- The bytes above the stack pointer that an instruction takes. -/
def extent : Instr a → Nat
  | .pop _ | .ret => a.word
  | .popSeg _ => 2
  | .loadSeg _ offset => offset + 2
  | .loadArg _ offset => offset + a.word
  | .iret => iretSize a
  | _ => 0

theorem cpu_congr {x : Ambient a} {i : Instr a} (h : ∀ y, c.sp ≤ y → y < c.sp + i.extent → m' y = m y) :
    i.cpu x c m' = i.cpu x c m := by
  cases i with
  | pop r =>
      have hload : load m' c.sp a.word = load m c.sp a.word := load_congr h
      simp only [cpu, hload]
  | popSeg s =>
      have hload : load m' c.sp 2 = load m c.sp 2 := load_congr h
      simp only [cpu, hload]
  | loadSeg s offset =>
      have hload : load m' (c.sp + offset) 2 = load m (c.sp + offset) 2 :=
        load_congr fun y hlow hhigh => h y (by omega) (by simp only [extent]; omega)
      simp only [cpu, hload]
  | loadArg r offset =>
      have hload : load m' (c.sp + offset) a.word = load m (c.sp + offset) a.word :=
        load_congr fun y hlow hhigh => h y (by omega) (by simp only [extent]; omega)
      simp only [cpu, hload]
  | ret =>
      have hload : load m' c.sp a.word = load m c.sp a.word := load_congr h
      simp only [cpu, hload]
  | iret =>
      have hload : ∀ k n, k + n ≤ iretSize a → load m' (c.sp + k) n = load m (c.sp + k) n :=
        fun k n hle => load_congr fun y hlow hhigh => h y (by omega) (by simp only [extent]; omega)
      cases a with
      | i386 =>
          have hip := hload 0 4 (by decide)
          have hflags := hload 8 4 (by decide)
          rw [Nat.add_zero] at hip
          simp only [cpu, Arch.word, hip, hflags]
      | x86_64 =>
          have hip := hload 0 8 (by decide)
          have hflags := hload 16 8 (by decide)
          have hsp := hload 24 8 (by decide)
          rw [Nat.add_zero] at hip
          simp only [cpu, Arch.word, hip, hflags, hsp]
  | _ => rfl

end Instr

/-- The instructions lead from `c` to `ctx`, whatever the processor leaves in the status flags; they take
only bytes between the stack pointer and `stop`, and write none. -/
def Restores : List (Instr a) → Cpu a → Memory → Nat → Cpu a → Prop
  | [], c, _, _, ctx => c = ctx
  | i :: rest, c, m, stop, ctx =>
      c.sp + i.extent ≤ stop ∧ (∀ m', i.mem c m' = m') ∧
        ∀ x, (rest = [] ∨ c.sp ≤ (i.cpu x c m).sp) ∧ Restores rest (i.cpu x c m) m stop ctx

theorem Restores.congr {is : List (Instr a)} (h : Restores is c m stop ctx)
    (hsame : ∀ y, c.sp ≤ y → y < stop → m' y = m y) : Restores is c m' stop ctx := by
  induction is generalizing c with
  | nil => exact h
  | cons i is ih =>
      obtain ⟨hextent, hmem, hnext⟩ := h
      refine ⟨hextent, hmem, fun x => ?_⟩
      have hcpu : i.cpu x c m' = i.cpu x c m :=
        Instr.cpu_congr fun y hlow hhigh => hsame y hlow (Nat.lt_of_lt_of_le hhigh hextent)
      obtain ⟨hsp, hrest⟩ := hnext x
      rw [hcpu]
      refine ⟨hsp, ?_⟩
      cases is with
      | nil => exact hrest
      | cons j is =>
          have hsp := hsp.resolve_left (List.cons_ne_nil j is)
          exact ih hrest fun y hlow hhigh => hsame y (Nat.le_trans hsp hlow) hhigh

theorem Restores.addSp {is : List (Instr a)} {n : Nat} (hne : c.sp ≤ stop)
    (h : ∀ flags ip, Restores is { c with sp := c.sp + n, flags := flags, ip := ip } m stop ctx) :
    Restores (.addSp n :: is) c m stop ctx :=
  ⟨hne, fun _ => rfl, fun _ => ⟨Or.inr (Nat.le_add_right _ _), h _ _⟩⟩

theorem Restores.popSeg {is : List (Instr a)} {s : Seg} (hload : load m c.sp 2 = (ctx.seg s).toNat)
    (hstop : c.sp + 2 ≤ stop)
    (h : ∀ ip, Restores is { c.setSeg s (ctx.seg s) with sp := c.sp + 2, ip := ip } m stop ctx) :
    Restores (.popSeg s :: is) c m stop ctx := by
  refine ⟨hstop, fun _ => rfl, fun x => ⟨Or.inr (Nat.le_add_right _ _), ?_⟩⟩
  simp only [Instr.cpu, hload, BitVec.ofNat_toNat, BitVec.setWidth_eq]
  exact h x.next

theorem Restores.loadSeg {is : List (Instr a)} {s : Seg} {offset : Nat}
    (hload : load m (c.sp + offset) 2 = (ctx.seg s).toNat) (hstop : c.sp + (offset + 2) ≤ stop)
    (h : ∀ ip, Restores is { c.setSeg s (ctx.seg s) with ip := ip } m stop ctx) :
    Restores (.loadSeg s offset :: is) c m stop ctx := by
  refine ⟨hstop, fun _ => rfl, fun x => ⟨Or.inr (Nat.le_refl _), ?_⟩⟩
  simp only [Instr.cpu, hload, BitVec.ofNat_toNat, BitVec.setWidth_eq]
  exact h x.next

/-- Registers that are popped get the values of `ctx`. -/
theorem Restores.pops {is : List (Instr a)} {regs : List (Reg a)}
    (hlaid : Laid m c.sp (regFields ctx regs))
    (hstop : c.sp + a.word * regs.length ≤ stop)
    (h : ∀ c' : Cpu a, c'.sp = c.sp + a.word * regs.length → c'.seg = c.seg →
      (∀ r, c'.reg r = ctx.reg r ∨ r ∉ regs ∧ c'.reg r = c.reg r) → Restores is c' m stop ctx) :
    Restores (regs.map .pop ++ is) c m stop ctx := by
  induction regs generalizing c with
  | nil => exact h c rfl rfl fun r => Or.inr ⟨List.not_mem_nil, rfl⟩
  | cons r regs ih =>
      obtain ⟨hload, hlaid⟩ := hlaid
      rw [List.length_cons, Nat.mul_succ] at hstop
      have hfirst : c.sp + a.word ≤ stop := by omega
      refine ⟨hfirst, fun _ => rfl, fun x => ⟨Or.inr (Nat.le_add_right _ _), ?_⟩⟩
      have hpop : ((Instr.pop r).cpu x c m).reg r = ctx.reg r := by
        show Function.update c.reg r _ r = _
        rw [Function.update_self, ofNat_toNat_load hload]
      have hsp : ((Instr.pop r).cpu x c m).sp = c.sp + a.word := rfl
      refine ih hlaid (by omega) fun c' hsp' hseg hreg => ?_
      refine h c' ?_ hseg fun r' => ?_
      · rw [List.length_cons, Nat.mul_succ]
        omega
      · by_cases heq : r' = r
        · subst heq
          exact Or.inl ((hreg r').elim id fun hold => hold.2.trans hpop)
        · refine (hreg r').imp id fun hold => ⟨fun hmem => ?_, hold.2.trans ?_⟩
          · exact hold.1 ((List.mem_cons.mp hmem).resolve_left heq)
          · show Function.update c.reg r _ r' = _
            rw [Function.update_of_ne heq]

theorem mem_contextRegs (r : Reg a) : r ∈ contextRegs a := by
  cases a <;> cases r <;> decide

/-- The end of a frame and the stack pointer of the code that was interrupted. -/
def Framed : {a : Arch} → Nat → Cpu a → Prop
  | .i386, p, ctx => ctx.sp = p + 60
  | .x86_64, p, ctx => p + 192 ≤ ctx.sp

theorem Framed.le (h : Framed p ctx) : p + contextSize a ≤ ctx.sp := by
  cases a with
  | i386 => exact Nat.le_of_eq (Eq.symm h)
  | x86_64 => exact h

/-- The bytes from `c` to the end of the frame, when only what the processor pushed is left. -/
theorem Restores.iret (hreg : c.reg = ctx.reg) (hseg : c.seg = ctx.seg)
    (hlaid : Laid m c.sp (deliveredFields ctx)) (hframe : Framed p ctx)
    (hsp : c.sp + Instr.iretSize a = p + contextSize a) : Restores [.iret] c m (p + contextSize a) ctx := by
  refine ⟨Nat.le_of_eq hsp, fun _ => rfl, fun x => ⟨Or.inl rfl, ?_⟩⟩
  cases a with
  | i386 =>
      obtain ⟨hip, -, hflags, -⟩ := hlaid
      have hip' := ofNat_toNat_load (a := .i386) hip
      have hflags' := ofNat_toNat_load (a := .i386) hflags
      have hsp' : c.sp + 12 = ctx.sp := hsp.trans (Eq.symm hframe)
      obtain ⟨reg, sp, seg, flags, ip⟩ := ctx
      dsimp only at *
      subst hreg hseg hsp' hip' hflags'
      rfl
  | x86_64 =>
      obtain ⟨hip, -, hflags, hsp, -⟩ := hlaid
      have hip' := ofNat_toNat_load (a := .x86_64) hip
      have hflags' := ofNat_toNat_load (a := .x86_64) hflags
      obtain ⟨reg, sp, seg, flags, ip⟩ := ctx
      dsimp only at *
      subst hreg hseg hsp hip' hflags'
      rfl

/-- The end of `interrupt_exit`, from the general-purpose registers on. -/
theorem restores_regs {interrupt error : Nat} (hseg : c.seg = ctx.seg)
    (hlaid : Laid m c.sp (regFields ctx (contextRegs a) ++ [(a.word, interrupt), (a.word, error)] ++
      deliveredFields ctx))
    (hframe : Framed p ctx) (hsp : c.sp = p + a.word + 8) :
    Restores ((contextRegs a).map .pop ++ [.addSp (2 * a.word), .iret]) c m (p + contextSize a) ctx := by
  obtain ⟨hlaid, hdelivered⟩ := laid_append.mp hlaid
  obtain ⟨hregs, -⟩ := laid_append.mp hlaid
  have hsize : size (regFields ctx (contextRegs a) ++ [(a.word, interrupt), (a.word, error)]) =
      a.word * (contextRegs a).length + 2 * a.word := by
    rw [size_append, size_regFields, size_cons, size_cons, size_nil]
    omega
  have htotal : a.word + 8 + (a.word * (contextRegs a).length + 2 * a.word + Instr.iretSize a) =
      contextSize a := by
    cases a <;> rfl
  rw [hsize] at hdelivered
  refine Restores.pops hregs (by omega) fun c' hsp' hseg' hreg => ?_
  refine Restores.addSp (by omega) fun flags ip => Restores.iret ?_ (hseg'.trans hseg) ?_ hframe ?_
  · funext r
    exact (hreg r).resolve_right fun hnot => hnot.1 (mem_contextRegs r)
  · rw [← Nat.add_assoc, ← hsp'] at hdelivered
    exact hdelivered
  · dsimp only
    omega

theorem seg_eq (old seg : Seg → BitVec 16) :
    Function.update (Function.update (Function.update (Function.update old .ds (seg .ds)) .es (seg .es))
      .fs (seg .fs)) .gs (seg .gs) = seg := by
  funext s
  cases s <;> simp [Function.update]

/-- From `interrupt_exit` on, a frame is taken up as it was laid down. -/
theorem restores_exit {cr2 interrupt error : Nat} (hlaid : Laid m p (contextFields ctx cr2 interrupt error))
    (hframe : Framed p ctx) (hsp : c.sp = p) :
    Restores (interruptExit a).tail c m (p + contextSize a) ctx := by
  obtain ⟨-, hds, hes, hfs, hgs, hrest⟩ := hlaid
  subst hsp
  cases a with
  | i386 =>
      refine Restores.addSp (Nat.le_add_right _ _) fun flags ip => ?_
      refine Restores.popSeg hds (by simp only [contextSize]; omega) fun ip => ?_
      refine Restores.popSeg hes (by simp only [contextSize]; omega) fun ip => ?_
      refine Restores.popSeg hfs (by simp only [contextSize]; omega) fun ip => ?_
      refine Restores.popSeg hgs (by simp only [contextSize]; omega) fun ip => ?_
      exact restores_regs (seg_eq c.seg ctx.seg) hrest hframe rfl
  | x86_64 =>
      refine Restores.addSp (Nat.le_add_right _ _) fun flags ip => ?_
      refine Restores.loadSeg hds (by simp only [contextSize]; omega) fun ip => ?_
      refine Restores.loadSeg hes (by simp only [contextSize, Cpu.setSeg]; omega) fun ip => ?_
      refine Restores.addSp (by simp only [contextSize, Cpu.setSeg]; omega) fun flags ip => ?_
      refine Restores.popSeg hfs (by simp only [contextSize, Cpu.setSeg]; omega) fun ip => ?_
      refine Restores.popSeg hgs (by simp only [contextSize, Cpu.setSeg]; omega) fun ip => ?_
      exact restores_regs (seg_eq c.seg ctx.seg) hrest hframe rfl

/-- The first instruction after a call of `interrupt_dispatch` gets to the frame at `p`. -/
def Leads : {a : Arch} → Nat → Cpu a → Prop
  | .i386, p, c => c.sp + 4 = p
  | .x86_64, p, c => c.sp ≤ p ∧ (c.reg .bx).toNat = p

theorem Leads.le (h : Leads p c) : c.sp ≤ p := by
  cases a with
  | i386 => exact Nat.le_trans (Nat.le_add_right _ _) (Nat.le_of_eq h)
  | x86_64 => exact h.1

theorem restores_after_dispatch {cr2 interrupt error : Nat}
    (hlaid : Laid m p (contextFields ctx cr2 interrupt error)) (hframe : Framed p ctx) (hleads : Leads p c) :
    Restores (interruptExit a) c m (p + contextSize a) ctx := by
  have hle := hleads.le
  cases a with
  | i386 =>
      refine ⟨Nat.le_trans hle (Nat.le_add_right _ _), fun _ => rfl, fun x => ⟨Or.inr (Nat.le_add_right _ _), ?_⟩⟩
      exact restores_exit hlaid hframe hleads
  | x86_64 =>
      have hsp : (Instr.cpu ⟨0, 0, 0⟩ c m (.movToSp .bx)).sp = p := hleads.2
      refine ⟨Nat.le_trans hle (Nat.le_add_right _ _), fun _ => rfl, fun x => ⟨Or.inr ?_, ?_⟩⟩
      · exact Nat.le_trans hle (Nat.le_of_eq hleads.2.symm)
      · exact restores_exit hlaid hframe hleads.2

/-- `interrupt_entry` leaves a frame under which `interrupt_dispatch` runs. -/
theorem entry_spec (x : Ambient a) (code : Code a) {interrupt : Nat} (error : BitVec a.bits)
    (hinterrupt : interrupt < 256) (hnull : ¬ InterruptNull interrupt) (hroom : 256 ≤ c.sp) (hsp : c.sp < 256 ^ a.word) :
    let start := deliver interrupt error c m
    let final := Instr.run x (interruptStub a interrupt ++ interruptEntry code) start.1 start.2
    final.1.sp = entryBase c ∧ (∀ ip, Leads (entryBase c + 8) { final.1 with sp := final.1.sp + a.word, ip := ip }) ∧
      Framed (entryBase c + 8) c ∧ c.sp < entryBase c + 256 ∧
      (∃ cr2 interrupt error, Laid final.2 (entryBase c + 8) (contextFields c cr2 interrupt error)) ∧
      ∀ y, y < entryBase c ∨ c.sp ≤ y → final.2 y = m y := by
  intro start final
  have hword : interrupt < 256 ^ a.word := by
    cases a <;> exact Nat.lt_of_lt_of_le hinterrupt (by decide)
  have herror : (if pushesErrorCode interrupt then error.toNat else 0) < 256 ^ a.word := by
    split
    · exact fits_word
    · exact Nat.pow_pos (by decide)
  have hcontext : Fits (contextFields c x.cr2.toNat interrupt
      (if pushesErrorCode interrupt then error.toNat else 0)) := fits_context hword herror hsp
  cases a with
  | i386 =>
      obtain ⟨hbase, hmem⟩ := entry_i386 x code hnull error hroom (m := m)
      have hentry : entryBase c + 68 = c.sp := Nat.sub_add_cancel (by omega)
      have hfits : Fits (entryCallFields code c ++ contextFields c x.cr2.toNat interrupt
          (if pushesErrorCode interrupt then error.toNat else 0)) := by
        refine fits_cons fits_word (fits_cons ?_ hcontext)
        simp only [Arch.word] at hsp
        omega
      have hlaid := laid_lay (m := m) (p := entryBase c) hfits
      rw [← hmem] at hlaid
      refine ⟨hbase, fun _ => congrArg (· + 4 + 4) hbase, by simp only [Framed]; omega, by omega,
        ⟨_, _, _, (laid_append.mp hlaid).2⟩, fun y hy => ?_⟩
      · rw [hmem, lay_outside]
        rw [size_append, size_contextFields]
        simp only [entryCallFields, size_cons, size_nil, contextSize]
        omega
  | x86_64 =>
      obtain ⟨hbase, hbx, hmem⟩ := entry_x86_64 x code hnull error hroom (m := m)
      have hentry : entryBase c + 200 = c.sp / 16 * 16 := Nat.sub_add_cancel (by omega)
      have hfits : Fits (entryCallFields code c ++ contextFields c x.cr2.toNat interrupt
          (if pushesErrorCode interrupt then error.toNat else 0)) := fits_cons fits_word hcontext
      have hlaid := laid_lay (m := m) (p := entryBase c) hfits
      rw [← hmem] at hlaid
      refine ⟨hbase, fun _ => ⟨Nat.le_of_eq (congrArg (· + 8) hbase), ?_⟩, by simp only [Framed]; omega, by omega,
        ⟨_, _, _, (laid_append.mp hlaid).2⟩, fun y hy => ?_⟩
      · refine (congrArg BitVec.toNat hbx).trans ?_
        rw [BitVec.toNat_ofNat]
        simp only [Arch.word, Arch.bits] at hsp ⊢
        omega
      · rw [hmem, lay_outside]
        rw [size_append, size_contextFields]
        simp only [entryCallFields, size_cons, size_nil, contextSize]
        omega

/-! ### Interrupts -/

theorem interruptible_of_flags {c' : Cpu a}
    (h : c'.flags &&& BitVec.ofNat a.bits interruptFlag = c.flags &&& BitVec.ofNat a.bits interruptFlag) :
    c'.Interruptible ↔ c.Interruptible := by
  unfold Cpu.Interruptible
  rw [h]

/-- A mask without the interrupt flag leaves it as it is. -/
theorem masked_interruptFlag (flags : BitVec a.bits) (mask : Nat)
    (hmask : ~~~ BitVec.ofNat a.bits mask &&& BitVec.ofNat a.bits interruptFlag =
      BitVec.ofNat a.bits interruptFlag) :
    flags &&& ~~~ BitVec.ofNat a.bits mask &&& BitVec.ofNat a.bits interruptFlag =
      flags &&& BitVec.ofNat a.bits interruptFlag := by
  rw [BitVec.and_assoc, hmask]

theorem status_interruptible (v : BitVec a.bits) :
    (c.status v).flags &&& BitVec.ofNat a.bits interruptFlag = c.flags &&& BitVec.ofNat a.bits interruptFlag := by
  have hold := masked_interruptFlag c.flags statusFlags (by cases a <;> decide)
  have hnew : BitVec.ofNat a.bits statusFlags &&& BitVec.ofNat a.bits interruptFlag = 0#a.bits := by
    cases a <;> decide
  show (_ ||| _) &&& _ = _
  rw [BitVec.and_comm, BitVec.and_or_distrib_left, BitVec.and_comm, hold, BitVec.and_comm _ (v &&& _),
    BitVec.and_assoc, hnew, BitVec.and_zero, BitVec.or_zero]

/-- Only `iret` writes the interrupt flag. -/
theorem Instr.cpu_interruptible {x : Ambient a} {i : Instr a} (hne : i ≠ .iret) :
    (i.cpu x c m).Interruptible ↔ c.Interruptible := by
  cases i with
  | iret => exact absurd rfl hne
  | addSp | subSp | alignSp => exact interruptible_of_flags (status_interruptible _)
  | cld => exact interruptible_of_flags (masked_interruptFlag _ directionFlag (by cases a <;> decide))
  | _ => exact Iff.rfl

theorem Instr.run_interruptible {x : Ambient a} {is : List (Instr a)} (h : .iret ∉ is) :
    (Instr.run x is c m).1.Interruptible ↔ c.Interruptible := by
  induction is generalizing c m with
  | nil => exact Iff.rfl
  | cons i is ih =>
      obtain ⟨hi, his⟩ := not_or.mp (mt List.mem_cons.mpr h)
      exact (ih his).trans (Instr.cpu_interruptible (Ne.symm hi))

/-- An interrupt gate disables interrupts. -/
theorem deliver_interruptible {interrupt : Nat} {error : BitVec a.bits} :
    ¬ (deliver interrupt error c m).1.Interruptible := by
  have hgate : c.flags &&& ~~~ BitVec.ofNat a.bits gateFlags &&& BitVec.ofNat a.bits interruptFlag = 0#a.bits := by
    have hmask : ~~~ BitVec.ofNat a.bits gateFlags &&& BitVec.ofNat a.bits interruptFlag = 0#a.bits := by
      cases a <;> decide
    rw [BitVec.and_assoc, hmask, BitVec.and_zero]
  refine fun hflag => hflag ?_
  cases a <;> unfold deliver <;> dsimp only <;> split <;> exact hgate

/-- No interrupt comes before `interrupt_dispatch` does. -/
theorem entry_interruptible {x : Ambient a} (code : Code a) {interrupt : Nat} {error : BitVec a.bits} (k : Nat) :
    ¬ (Instr.run x ((interruptStub a interrupt ++ interruptEntry code).take k)
      (deliver interrupt error c m).1 (deliver interrupt error c m).2).1.Interruptible := by
  have hstub : .iret ∉ interruptStub a interrupt ++ interruptEntry code := by
    cases a <;> by_cases herror : hasErrorCode interrupt <;> simp [interruptStub, herror, interruptEntry]
  rw [Instr.run_interruptible fun hmem => hstub (List.mem_of_mem_take hmem)]
  exact deliver_interruptible

/-- Nor within `thread_switch`, which is called with interrupts disabled. -/
theorem threadSwitch_interruptible {x : Ambient a} {target back : BitVec a.bits} (h : ¬ c.Interruptible) (k : Nat) :
    ¬ (Instr.run x ((.call target back :: threadSwitch a).take k) c m).1.Interruptible := by
  have hswitch : .iret ∉ (.call target back :: threadSwitch a : List (Instr a)) := by
    cases a <;> simp [threadSwitch]
  rwa [Instr.run_interruptible fun hmem => hswitch (List.mem_of_mem_take hmem)]

end Kiznix.Switch
