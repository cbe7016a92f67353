import Kiznix.SwitchThreads

/-! Each frame on a stack holds what was saved there until it is taken up, whatever the other threads do in
the meantime. -/

namespace Kiznix.Switch

open ByteMemory

variable {a : Arch} {T : Type} {code : Code a} {st : Stacks a T} {s s' : State a T} {c c' ctx ret : Cpu a}
  {m m' : Memory} {t : T} {low high p stop x : Nat} {acts rest : List (Activity a)} {events : List (Event a T)}

/-- From `c` on, the assembly finds the frame at `p`. -/
def Finds (code : Code a) (p : Nat) (c : Cpu a) : Prop :=
  c.ip = code.afterDispatch 1 ∧ c.sp = p ∨ c.ip = code.afterDispatch 0 ∧ Leads p c

/-- The activities of a thread that runs with the registers `c` are in order. -/
def Holds (code : Code a) (low high : Nat) (m : Memory) : Cpu a → List (Activity a) → Prop
  | c, [] => low ≤ c.sp ∧ c.sp ≤ high
  | c, .handling ctx p ret :: rest =>
      low ≤ c.sp ∧ c.sp ≤ p ∧ (∃ cr2 interrupt error, Laid m p (contextFields ctx cr2 interrupt error)) ∧
        Framed p ctx ∧ low ≤ ret.sp ∧ Finds code p ret ∧ Holds code low high m ctx rest
  | c, .exiting ctx stop :: rest =>
      low ≤ c.sp ∧ c.sp ≤ stop ∧
        (∃ k, k < (interruptExit a).length ∧ c.ip = code.afterDispatch k ∧
          Restores ((interruptExit a).drop k) c m stop ctx) ∧
        stop ≤ ctx.sp ∧ Holds code low high m ctx rest
  | _, .switched _ :: _ => False

theorem Finds.sp_le (h : Finds code p c) : c.sp ≤ p := by
  obtain ⟨-, h⟩ | ⟨-, h⟩ := h
  · exact Nat.le_of_eq h
  · exact h.le

namespace Holds

theorem low_le (h : Holds code low high m c acts) : low ≤ c.sp := by
  match acts, h with
  | [], h => exact h.1
  | .handling .. :: _, h => exact h.1
  | .exiting .. :: _, h => exact h.1

theorem le_high (h : Holds code low high m c acts) : c.sp ≤ high := by
  induction acts generalizing c with
  | nil => exact h.2
  | cons act rest ih =>
      cases act with
      | switched => exact h.elim
      | handling ctx p ret =>
          obtain ⟨-, hsp, -, hframe, -, -, hrest⟩ := h
          have hle := hframe.le
          have hhigh := ih hrest
          omega
      | exiting ctx stop =>
          obtain ⟨-, hsp, -, hstop, hrest⟩ := h
          have hhigh := ih hrest
          omega

/-- All frames stand between the stack pointer and the end of the stack. -/
theorem zone (h : Holds code low high m c acts) (hx : Zone c acts x) : c.sp ≤ x ∧ x < high := by
  induction acts generalizing c with
  | nil => exact hx.elim
  | cons act rest ih =>
      cases act with
      | switched => exact h.elim
      | handling ctx p ret =>
          obtain ⟨-, hsp, -, hframe, -, -, hrest⟩ := h
          have hle := hframe.le
          have hhigh := hrest.le_high
          rcases hx with hx | hx
          · omega
          · have hrec := ih hrest hx
            omega
      | exiting ctx stop =>
          obtain ⟨-, hsp, -, hstop, hrest⟩ := h
          have hhigh := hrest.le_high
          rcases hx with hx | hx
          · omega
          · have hrec := ih hrest hx
            omega

/-- Memory may change outside the frames. -/
theorem congr (h : Holds code low high m c acts) (hmem : ∀ x, Zone c acts x → m' x = m x) :
    Holds code low high m' c acts := by
  induction acts generalizing c with
  | nil => exact h
  | cons act rest ih =>
      cases act with
      | switched => exact h.elim
      | handling ctx p ret =>
          obtain ⟨hlow, hsp, ⟨cr2, interrupt, error, hlaid⟩, hframe, hret, hfinds, hrest⟩ := h
          refine ⟨hlow, hsp, ⟨cr2, interrupt, error, hlaid.congr fun y hy hy' => hmem y (Or.inl ⟨hy, ?_⟩)⟩,
            hframe, hret, hfinds, ih hrest fun y hy => hmem y (Or.inr hy)⟩
          rwa [size_contextFields] at hy'
      | exiting ctx stop =>
          obtain ⟨hlow, hsp, ⟨k, hk, hip, hrestores⟩, hstop, hrest⟩ := h
          exact ⟨hlow, hsp, ⟨k, hk, hip, hrestores.congr fun y hy hy' => hmem y (Or.inl ⟨hy, hy'⟩)⟩, hstop,
            ih hrest fun y hy => hmem y (Or.inr hy)⟩

/-- C code may change the registers, its stack pointer stays under the frames. -/
theorem code_step (h : Holds code low high m c acts) {top : Nat} (hroof : roof high acts = some top)
    (hlow : low ≤ c'.sp) (hhigh : c'.sp ≤ top) : Holds code low high m c' acts := by
  match acts, h with
  | [], _ =>
      cases hroof
      exact ⟨hlow, hhigh⟩
  | .handling .. :: _, h =>
      cases hroof
      exact ⟨hlow, hhigh, h.2.2⟩
  | .exiting .. :: _, _ => cases hroof

theorem le_roof (h : Holds code low high m c acts) {top : Nat} (hroof : roof high acts = some top) :
    c.sp ≤ top := by
  match acts, h with
  | [], h =>
      cases hroof
      exact h.2
  | .handling .. :: _, h =>
      cases hroof
      exact h.2.1
  | .exiting .. :: _, _ => cases hroof

theorem roof_le_high (h : Holds code low high m c acts) {top : Nat} (hroof : roof high acts = some top) : top ≤ high := by
  match acts, h with
  | [], _ =>
      cases hroof
      exact le_rfl
  | .handling .. :: _, h =>
      cases hroof
      obtain ⟨-, -, -, hframe, -, -, hrest⟩ := h
      exact (Nat.le_of_add_right_le hframe.le).trans hrest.le_high
  | .exiting .. :: _, _ => cases hroof

/-- C code runs below all frames of its thread. -/
theorem roof_le (h : Holds code low high m c acts) {top : Nat} (hroof : roof high acts = some top)
    (hx : Zone c acts x) : top ≤ x := by
  match acts, h with
  | [], _ => exact hx.elim
  | .handling .. :: _, h =>
      cases hroof
      obtain ⟨-, -, -, hframe, -, -, hrest⟩ := h
      have hle := hframe.le
      rcases hx with hx | hx
      · exact hx.1
      · have hzone := hrest.zone hx
        omega
  | .exiting .. :: _, _ => cases hroof

end Holds

/-- A thread off the processor, which `thread_switch` will let go on at `c`. -/
structure Waits (code : Code a) (st : Stacks a T) (m : Memory) (t : T) (c : Cpu a) (rest : List (Activity a)) :
    Prop where
  room : st.low t + registerSize a ≤ c.sp
  saved : Laid m (c.sp - registerSize a) (registerFields c)
  roofed : (roof (st.high t) rest).isSome
  holds : Holds code (st.low t) (st.high t) m c rest
  context : load m (st.context t) a.word = c.sp - registerSize a

namespace Waits

variable (h : Waits code st m t c rest)

include h

theorem zone (hx : Zone c' (.switched c :: rest) x) : st.low t ≤ x ∧ x < st.high t := by
  have hroom := h.room
  have hlow := h.holds.low_le
  have hhigh := h.holds.le_high
  rcases hx with hx | hx
  · omega
  · have hzone := h.holds.zone hx
    omega

theorem congr (c' : Cpu a) (hmem : ∀ x, Zone c' (.switched c :: rest) x → m' x = m x)
    (hcontext : ∀ x, st.context t ≤ x → x < st.context t + a.word → m' x = m x) :
    Waits code st m' t c rest where
  room := h.room
  saved := by
    refine h.saved.congr fun y hy hy' => hmem y (Or.inl ⟨hy, ?_⟩)
    have hroom := h.room
    rw [size_registerFields] at hy'
    omega
  roofed := h.roofed
  holds := h.holds.congr fun y hy => hmem y (Or.inr hy)
  context := (load_congr hcontext).trans h.context

/-- What another thread does on its own stack, and to its own saved stack pointer, is of no matter. -/
theorem other {t' : T} (hne : t ≠ t')
    (hmem : ∀ x, m' x ≠ m x → st.low t' ≤ x ∧ x < st.high t' ∨
      st.context t' ≤ x ∧ x < st.context t' + a.word) : Waits code st m' t c rest := by
  refine h.congr c (fun x hx => ?_) fun x hlow hhigh => ?_
  · by_contra hx'
    have hzone := h.zone hx
    rcases hmem x hx' with hstack | hfield
    · rcases st.disjoint t t' hne with hd | hd <;> omega
    · rcases st.context_outside t' t with hd | hd <;> omega
  · by_contra hx'
    rcases hmem x hx' with hstack | hfield
    · rcases st.context_outside t t' with hd | hd <;> omega
    · rcases st.context_disjoint t t' hne with hd | hd <;> omega

/-- `thread_switch` gets from thread `old` to one that waits. -/
theorem switched {old : T} (hne : t ≠ old) (x : Ambient a) (target back : BitVec a.bits)
    (hroom : st.low old + 256 ≤ c'.sp) (hhigh : c'.sp ≤ st.high old)
    (hpassed : Passed c' m (st.context old) (load m (st.context t) a.word)) :
    let final := Instr.run x (.call target back :: threadSwitch a) c' m
    final.1.sp = c.sp ∧ final.1.ip = c.ip ∧ (∀ r ∈ calleeSaved a, final.1.reg r = c.reg r) ∧
      Waits code st final.2 t c rest := by
  have hsize : registerSize a ≤ 56 := by cases a <;> decide
  have hroom' := h.room
  intro final
  have hwaits : Waits code st final.2 t c rest := by
    refine h.other hne fun y hy => (threadSwitch_outside x target back (by omega) hpassed hy).imp (fun hy => ?_) id
    omega
  obtain ⟨-, hnew⟩ := threadSwitch_spec x target back c (by omega) hpassed
  rw [h.context] at hnew
  obtain ⟨hsp, hip, hregs⟩ := hnew hwaits.saved
  rw [Nat.sub_add_cancel (by omega)] at hsp
  exact ⟨hsp, hip, hregs, hwaits⟩

end Waits

theorem drop_of_getElem? {is : List (Instr a)} {i : Instr a} {k : Nat} (hi : is[k]? = some i) :
    is.drop k = i :: is.drop (k + 1) := by
  obtain ⟨hk, rfl⟩ := List.getElem?_eq_some_iff.mp hi
  exact List.drop_eq_getElem_cons hk

/-- `iret` is the last instruction; the others go on to the next one. -/
theorem interruptExit_eq : ∃ body : List (Instr a), interruptExit a = body ++ [.iret] ∧ .iret ∉ body ∧
    ∀ i ∈ body, ∀ x c m, (i.cpu x c m).ip = x.next := by
  cases a with
  | i386 =>
      refine ⟨(interruptExit .i386).dropLast, rfl, ?_, ?_⟩
      · simp [interruptExit]
      · simp [interruptExit, Instr.cpu]
  | x86_64 =>
      refine ⟨(interruptExit .x86_64).dropLast, rfl, ?_, ?_⟩
      · simp [interruptExit]
      · simp [interruptExit, Instr.cpu]

theorem exit_mem {k : Nat} {i : Instr a} (hi : (interruptExit a)[k]? = some i) (c : Cpu a) (m : Memory) :
    i.mem c m = m := by
  have hmem := List.mem_of_getElem? hi
  cases a with
  | i386 => cases i <;> first | rfl | simp [interruptExit] at hmem
  | x86_64 => cases i <;> first | rfl | simp [interruptExit] at hmem

theorem exit_length_le : (interruptExit a).length ≤ 32 := by
  cases a <;> decide

theorem exit_last {k : Nat} (hi : (interruptExit a)[k]? = some .iret) : (interruptExit a).drop (k + 1) = [] := by
  obtain ⟨body, hbody, hnot, -⟩ := interruptExit_eq (a := a)
  rw [hbody] at hi ⊢
  refine List.drop_of_length_le ?_
  rw [List.length_append, List.length_singleton]
  by_contra hlt
  rw [List.getElem?_append_left (by omega)] at hi
  exact hnot (List.mem_of_getElem? hi)

theorem exit_next {k : Nat} {i : Instr a} (hi : (interruptExit a)[k]? = some i) (hne : i ≠ .iret) :
    k + 1 < (interruptExit a).length ∧ (interruptExit a).drop (k + 1) ≠ [] ∧
      ∀ x c m, (i.cpu x c m).ip = x.next := by
  obtain ⟨body, hbody, -, hip⟩ := interruptExit_eq (a := a)
  rw [hbody] at hi ⊢
  have hk : k < body.length := by
    by_contra hlt
    rw [List.getElem?_append_right (Nat.le_of_not_lt hlt)] at hi
    exact hne (List.mem_singleton.mp (List.mem_of_getElem? hi))
  rw [List.getElem?_append_left hk] at hi
  refine ⟨?_, ?_, hip i (List.mem_of_getElem? hi)⟩
  · rw [List.length_append, List.length_singleton]
    omega
  · rw [ne_eq, List.drop_eq_nil_iff, List.length_append, List.length_singleton]
    omega

/-! ### `thread_create` -/

theorem created_i386 (code : Code .i386) {st : Stacks .i386 T} (user : BitVec Arch.i386.bits) (m : Memory) {base : Nat}
    (hhigh : st.high t = base + 96) (hlow : st.low t ≤ base) :
    let m' := threadCreate code st t user m
    load m' (st.context t) 4 = base ∧ load m' (base + 16) 4 = code.threadEntry.toNat ∧
      Laid m' (base + 24) [(4, 0), (2, kernelData), (2, kernelData), (2, kernelData), (2, kernelData)] ∧
      Laid m' (base + 72) [(4, user.toNat), (4, kernelCode), (4, interruptFlag)] := by
  have hlt := st.high_lt t
  have hcontext := st.context_outside t t
  have huser : user.toNat < 4294967296 := user.isLt
  have hentry : code.threadEntry.toNat < 4294967296 := code.threadEntry.isLt
  simp only [Arch.word] at hlt hcontext
  have hframe : createdFrame .i386 (base + 96) = base + 24 := Nat.add_sub_cancel (base + 24) 72
  refine ⟨?_, ?_, ?_, ?_⟩
  · simp only [threadCreate, hhigh, hframe]
    rw [load_store_same]
    omega
  · simp (disch := omega) [threadCreate, hhigh, hframe, load_store_outside, load_store_same, Nat.add_assoc, hentry]
  · simp (disch := omega) [threadCreate, hhigh, hframe, load_store_outside, load_store_same, Nat.add_assoc, Laid,
      kernelData]
  · simp (disch := omega) [threadCreate, hhigh, hframe, load_store_outside, load_store_same, Nat.add_assoc, Laid,
      kernelCode, interruptFlag, huser]

theorem created_x86_64 (code : Code .x86_64) {st : Stacks .x86_64 T} (user : BitVec Arch.x86_64.bits) (m : Memory)
    {base : Nat} (hhigh : st.high t = base + 264) (hlow : st.low t ≤ base) :
    let m' := threadCreate code st t user m
    load m' (st.context t) 8 = base ∧ load m' (base + 48) 8 = code.threadEntry.toNat ∧
      Laid m' (base + 64) [(8, 0), (2, kernelData), (2, kernelData), (2, kernelData), (2, kernelData)] ∧
      Laid m' (base + 216) [(8, user.toNat), (8, kernelCode), (8, interruptFlag), (8, base + 256),
        (8, kernelData)] := by
  have hlt := st.high_lt t
  have hcontext := st.context_outside t t
  have huser : user.toNat < 18446744073709551616 := user.isLt
  have hentry : code.threadEntry.toNat < 18446744073709551616 := code.threadEntry.isLt
  simp only [Arch.word] at hlt hcontext
  have hframe : createdFrame .x86_64 (base + 264) = base + 64 := Nat.add_sub_cancel (base + 64) 200
  refine ⟨?_, ?_, ?_, ?_⟩
  · simp only [threadCreate, hhigh, hframe]
    rw [load_store_same]
    omega
  · simp (disch := omega) [threadCreate, hhigh, hframe, load_store_outside, load_store_same, Nat.add_assoc, hentry]
  · simp (disch := omega) [threadCreate, hhigh, hframe, load_store_outside, load_store_same, Nat.add_assoc, Laid,
      kernelData]
  · simp (disch := omega) [threadCreate, hhigh, hframe, load_store_outside, load_store_same, Nat.add_assoc, Laid,
      kernelCode, kernelData, interruptFlag, huser]
    omega

/-- The bytes of the frames on a new stack, `thread_registers_t` and the words around `interrupt_context_t` included. -/
def framesSize : Arch → Nat
  | .i386 => 96
  | .x86_64 => 264

/-- `thread_create` writes to its frames and to the thread's `context`. -/
theorem threadCreate_frames {user : BitVec a.bits} (hhigh : framesSize a ≤ st.high t)
    (hx : threadCreate code st t user m x ≠ m x) : st.high t - framesSize a ≤ x ∧ x < st.high t ∨
      st.context t ≤ x ∧ x < st.context t + a.word := by
  by_contra hnot
  refine hx ?_
  cases a with
  | i386 =>
      obtain ⟨base, hbase⟩ : ∃ base, st.high t = base + 96 := ⟨st.high t - 96, (Nat.sub_add_cancel hhigh).symm⟩
      have hframe : createdFrame .i386 (base + 96) = base + 24 := Nat.add_sub_cancel (base + 24) 72
      simp only [Arch.word, framesSize] at hnot
      simp (disch := omega) [threadCreate, hbase, hframe, store_outside, Nat.add_assoc]
  | x86_64 =>
      obtain ⟨base, hbase⟩ : ∃ base, st.high t = base + 264 := ⟨st.high t - 264, (Nat.sub_add_cancel hhigh).symm⟩
      have hframe : createdFrame .x86_64 (base + 264) = base + 64 := Nat.add_sub_cancel (base + 64) 200
      simp only [Arch.word, framesSize] at hnot
      simp (disch := omega) [threadCreate, hbase, hframe, store_outside, Nat.add_assoc]

theorem framesSize_lt : framesSize a < 512 := by
  cases a <;> decide

theorem threadCreate_outside {user : BitVec a.bits} (hroom : st.low t + 512 ≤ st.high t)
    (hx : threadCreate code st t user m x ≠ m x) : st.low t ≤ x ∧ x < st.high t ∨
      st.context t ≤ x ∧ x < st.context t + a.word := by
  have hlt := framesSize_lt (a := a)
  refine (threadCreate_frames (by omega) hx).imp_left fun hin => ?_
  omega

/-- Registers are loaded as they stand. -/
theorem laid_loadRegs {regs : List (Reg a)} (hnodup : regs.Nodup) (hreg : c.reg = loadRegs m p regs) :
    Laid m p (regFields c regs) := by
  have hpart : ∀ (before after : List (Reg a)), regs = before ++ after →
      Laid m (p + a.word * before.length) (regFields c after) := by
    intro before after heq
    induction after generalizing before with
    | nil => trivial
    | cons r after ih =>
        have hindex : regs.idxOf r = before.length := by
          have hnot : r ∉ before := by
            rw [heq] at hnodup
            exact fun hmem => (List.nodup_append.mp hnodup).2.2 r hmem r List.mem_cons_self rfl
          rw [heq, List.idxOf_append, if_neg hnot, List.idxOf_cons_self, Nat.zero_add]
        refine ⟨?_, ?_⟩
        · rw [hreg, loadRegs, hindex, BitVec.toNat_ofNat, Nat.mod_eq_of_lt]
          cases a with
          | i386 => exact load_lt (n := 4)
          | x86_64 => exact load_lt (n := 8)
        · have hrest := ih (before ++ [r]) (by rw [heq, List.append_assoc]; rfl)
          rw [List.length_append, List.length_singleton, Nat.mul_succ, ← Nat.add_assoc] at hrest
          exact hrest
  exact hpart [] regs rfl

/-- The frames of a new thread. -/
theorem created_spec {user : BitVec a.bits} (hroom : st.low t + 512 ≤ st.high t)
    (hm : m' = threadCreate code st t user m) :
    let frame := createdFrame a (st.high t)
    st.low t + registerSize a + a.word ≤ frame ∧ frame + contextSize a ≤ st.high t ∧
      load m' (st.context t) a.word = frame - a.word - registerSize a ∧
      load m' (frame - 2 * a.word) a.word = code.threadEntry.toNat ∧
      Laid m' frame [(a.word, 0), (2, kernelData), (2, kernelData), (2, kernelData), (2, kernelData)] ∧
      Laid m' (frame + (a.word + 8) + (a.word * (contextRegs a).length + 2 * a.word))
        (deliveredFields (createdContext st t user m')) := by
  cases a with
  | i386 =>
      obtain ⟨base, hbase, hlow⟩ : ∃ base, st.high t = base + 96 ∧ st.low t ≤ base :=
        ⟨st.high t - 96, by omega, by omega⟩
      have hframe : createdFrame .i386 (base + 96) = base + 24 := Nat.add_sub_cancel (base + 24) 72
      obtain ⟨hfield, hentry, hhead, hend⟩ := created_i386 code user m hbase hlow
      rw [← hm] at hfield hentry hhead hend
      rw [hbase, hframe]
      exact ⟨Nat.add_le_add_right hlow 24, by simp only [contextSize]; omega, hfield, hentry, hhead, hend⟩
  | x86_64 =>
      obtain ⟨base, hbase, hlow⟩ : ∃ base, st.high t = base + 264 ∧ st.low t ≤ base :=
        ⟨st.high t - 264, by omega, by omega⟩
      have hframe : createdFrame .x86_64 (base + 264) = base + 64 := Nat.add_sub_cancel (base + 64) 200
      obtain ⟨hfield, hentry, hhead, hend⟩ := created_x86_64 code user m hbase hlow
      rw [← hm] at hfield hentry hhead hend
      have hsp : (createdContext st t user m').sp = base + 256 := by
        show createdFrame .x86_64 (st.high t) + 192 = base + 256
        rw [hbase, hframe]
      rw [hbase, hframe]
      refine ⟨Nat.add_le_add_right hlow 64, by simp only [contextSize]; omega, hfield, hentry, hhead, ?_⟩
      rw [← hsp] at hend
      exact hend

/-- A new thread looks like one that has been interrupted and has called `thread_switch`. -/
theorem created_waits (code : Code a) {user : BitVec a.bits} (hroom : st.low t + 512 ≤ st.high t)
    (hm : m' = threadCreate code st t user m) :
    ∃ rest, createdActivities code st t user m' = .switched (createdStart code st t m') :: rest ∧
      Waits code st m' t (createdStart code st t m') rest := by
  obtain ⟨hlow, hhigh, hfield, hentry, hhead, hend⟩ := created_spec hroom hm
  have hword : a.word * (calleeSaved a).length + a.word = registerSize a := by cases a <;> rfl
  have hcontext : (contextRegs a).Nodup := by cases a <;> decide
  have hstart : (createdStart code st t m').sp = createdFrame a (st.high t) - a.word := rfl
  have hctx : (createdContext st t user m').sp = createdFrame a (st.high t) + contextSize a := rfl
  generalize hframe : createdFrame a (st.high t) = frame at hlow hhigh hfield hentry hhead hend hstart hctx
  refine ⟨_, rfl, by omega, ?_, rfl, ⟨by omega, by rw [hframe]; omega, ?_, ?_, ?_, ?_, ?_⟩, hstart ▸ hfield⟩
  · refine laid_append.mpr ⟨laid_loadRegs calleeSaved_nodup (hstart ▸ hframe ▸ rfl), ?_, trivial⟩
    rw [size_regFields, hstart]
    refine Eq.trans ?_ hentry
    congr 1
    omega
  · refine ⟨0, load m' (frame + (a.word + 8) + a.word * (contextRegs a).length) a.word,
      load m' (frame + (a.word + 8) + a.word * (contextRegs a).length + a.word) a.word, ?_⟩
    rw [hframe]
    refine laid_append.mpr ⟨hhead, laid_append.mpr ⟨laid_append.mpr ⟨?_, ?_⟩, ?_⟩⟩
    · refine laid_loadRegs hcontext ?_
      show loadRegs m' (createdFrame a (st.high t) + a.word + 8) (contextRegs a) = _
      rw [hframe, Nat.add_assoc]
      rfl
    · rw [size_regFields]
      exact ⟨rfl, rfl, trivial⟩
    · refine Eq.mp (congrArg (Laid m' · _) ?_) hend
      simp only [size_append, size_regFields, size_cons, size_nil]
      omega
  · cases a with
    | i386 => exact hctx.trans (hframe ▸ rfl)
    | x86_64 => exact Nat.le_of_eq (hframe ▸ hctx.symm)
  · show st.low t ≤ createdFrame a (st.high t)
    omega
  · exact Or.inl ⟨rfl, rfl⟩
  · show st.low t ≤ (createdContext st t user m').sp ∧ (createdContext st t user m').sp ≤ st.high t
    omega

/-! ### Steps -/

variable [DecidableEq T]

/-- The event that an activity began with. -/
def Activity.event (t : T) : Activity a → Event a T
  | .switched c => .called t c
  | .handling ctx _ _ => .interrupted t ctx
  | .exiting ctx _ => .interrupted t ctx

structure Inv (code : Code a) (st : Stacks a T) (s : State a T) (events : List (Event a T)) : Prop where
  running : Holds code (st.low s.current) (st.high s.current) s.mem s.cpu (s.pending s.current)
  waiting : ∀ t, t ≠ s.current → s.pending t ≠ [] →
    ∃ c rest, s.pending t = .switched c :: rest ∧ Waits code st s.mem t c rest
  record : ∀ t, outstanding t events = (s.pending t).map (Activity.event t)

theorem initial_inv (h : Initial st s) : Inv code st s [] where
  running := by
    rw [h.alone]
    exact ⟨h.low, h.high⟩
  waiting t _ ht := absurd (h.alone t) ht
  record t := by
    rw [h.alone]
    rfl

section Step

variable (h : Inv code st s events)

include h

/-- A step of the running thread that writes to memory on its own stack only. -/
theorem Inv.local_step (new : List (Event a T)) (hcurrent : s'.current = s.current)
    (hpending : ∀ t, t ≠ s.current → s'.pending t = s.pending t)
    (hrunning : Holds code (st.low s.current) (st.high s.current) s'.mem s'.cpu (s'.pending s.current))
    (hmem : ∀ x, s'.mem x ≠ s.mem x → st.low s.current ≤ x ∧ x < st.high s.current)
    (hother : ∀ t, t ≠ s.current → outstanding t (new ++ events) = outstanding t events)
    (hrecord : outstanding s.current (new ++ events) =
      (s'.pending s.current).map (Activity.event s.current)) : Inv code st s' (new ++ events) where
  running := by
    rw [hcurrent]
    exact hrunning
  waiting t ht hne := by
    rw [hcurrent] at ht
    rw [hpending t ht] at hne ⊢
    obtain ⟨c', rest, hswitched, hwaits⟩ := h.waiting t ht hne
    exact ⟨c', rest, hswitched, hwaits.other ht fun x hx => Or.inl (hmem x hx)⟩
  record t := by
    by_cases ht : t = s.current
    · subst ht
      exact hrecord
    · rw [hother t ht, h.record t, hpending t ht]

theorem Inv.code_step {top : Nat} (hroof : roof (st.high s.current) (s.pending s.current) = some top)
    (hlow : st.low s.current ≤ c.sp) (hhigh : c.sp ≤ top) (hmem : ∀ x, s.Protected st x → m x = s.mem x) :
    Inv code st { s with cpu := c, mem := m } events where
  running := by
    refine (h.running.congr fun x hx => ?_).code_step hroof hlow hhigh
    exact hmem x (Or.inl ⟨s.current, hx⟩)
  waiting t ht hne := by
    obtain ⟨c', rest, hswitched, hwaits⟩ := h.waiting t ht hne
    have hnot : s.pending t ≠ [] := hne
    refine ⟨c', rest, hswitched, hwaits.congr s.cpu (fun x hx => ?_) fun x hx hx' => ?_⟩
    · have hswitched : s.pending t = _ := hswitched
      exact hmem x (Or.inl ⟨t, hswitched ▸ hx⟩)
    · exact hmem x (Or.inr ⟨t, ht, hnot, hx, hx'⟩)
  record := h.record

theorem Inv.interrupt_step {interrupt : Nat} {error : BitVec a.bits} {x : Ambient a} (hinterrupt : interrupt < 256)
    (hnull : ¬ InterruptNull interrupt) (hroom : s.Room st) {final : Cpu a × Memory}
    (hfinal : final = Instr.run x (interruptStub a interrupt ++ interruptEntry code)
      (deliver interrupt error s.cpu s.mem).1 (deliver interrupt error s.cpu s.mem).2) :
    Inv code st
      { s with
        cpu := final.1
        mem := final.2
        pending := Function.update s.pending s.current
          (.handling s.cpu (entryBase s.cpu + 8) (dispatchReturn code final.1) :: s.pending s.current) }
      (.interrupted s.current s.cpu :: events) := by
  have hhigh := h.running.le_high
  have hlt := st.high_lt s.current
  have hroom' : st.low s.current + 256 ≤ s.cpu.sp := hroom
  obtain ⟨hsp, hleads, hframe, hbase, hlaid, hmem⟩ := entry_spec x code error hinterrupt hnull
    (c := s.cpu) (m := s.mem) (by omega) (by omega)
  rw [← hfinal] at hsp hleads hlaid hmem
  have hle := hframe.le
  have hpos : contextSize a ≥ 60 := by cases a <;> decide
  refine h.local_step [.interrupted s.current s.cpu] rfl (fun t ht => Function.update_of_ne ht _ _) ?_
    (fun y hy => ?_) (fun t ht => if_neg ht.symm) ?_
  · show Holds _ _ _ final.2 final.1 (Function.update s.pending s.current _ s.current)
    rw [Function.update_self]
    refine ⟨by omega, by omega, hlaid, hframe, ?_, Or.inr ⟨rfl, hleads _⟩, ?_⟩
    · have hword : (dispatchReturn code final.1).sp = final.1.sp + a.word := rfl
      omega
    · refine h.running.congr fun y hy => hmem y (Or.inr ?_)
      exact (h.running.zone hy).1
  · have hy' : entryBase s.cpu ≤ y ∧ y < s.cpu.sp := by
      by_contra hnot
      exact hy (hmem y (by omega))
    omega
  · show (if s.current = s.current then _ else _) = (Function.update s.pending s.current _ s.current).map _
    rw [if_pos rfl, Function.update_self]
    exact congrArg (_ :: ·) (h.record s.current)

theorem Inv.back_step {p : Nat} (hpending : s.pending s.current = .handling ctx p ret :: rest)
    (hsp : c.sp = ret.sp) (hip : c.ip = ret.ip) (hsaved : ∀ r ∈ calleeSaved a, c.reg r = ret.reg r) :
    Inv code st
      { s with
        cpu := c
        pending := Function.update s.pending s.current (.exiting ctx (p + contextSize a) :: rest) } events := by
  have hrunning := h.running
  have hrecord := h.record s.current
  rw [hpending] at hrunning hrecord
  obtain ⟨-, -, ⟨cr2, interrupt, error, hlaid⟩, hframe, hlow, hfinds, hrest⟩ := hrunning
  refine h.local_step [] rfl (fun t ht => Function.update_of_ne ht _ _) ?_
    (fun y hy => absurd rfl hy) (fun _ _ => rfl) ?_
  · show Holds _ _ _ s.mem c (Function.update s.pending s.current _ s.current)
    rw [Function.update_self]
    have hle := hfinds.sp_le
    refine ⟨by omega, by omega, ?_, hframe.le, hrest⟩
    obtain ⟨hret, hp⟩ | ⟨hret, hleads⟩ := hfinds
    · refine ⟨1, by cases a <;> decide, hip.trans hret, ?_⟩
      rw [List.drop_one]
      exact restores_exit hlaid hframe (hsp.trans hp)
    · refine ⟨0, by cases a <;> decide, hip.trans hret, ?_⟩
      refine restores_after_dispatch hlaid hframe ?_
      cases a with
      | i386 => exact (congrArg (· + 4) hsp).trans hleads
      | x86_64 =>
          have hbx : c.reg .bx = ret.reg .bx := hsaved .bx List.mem_cons_self
          exact ⟨hsp ▸ hleads.1, hbx ▸ hleads.2⟩
  · show _ = (Function.update s.pending s.current _ s.current).map _
    rw [Function.update_self]
    exact hrecord

theorem Inv.exit_step {k : Nat} {i : Instr a} {x : Ambient a}
    (hpending : s.pending s.current = .exiting ctx stop :: rest) (hip : s.cpu.ip = code.afterDispatch k)
    (hk : k < 32) (hi : (interruptExit a)[k]? = some i) (hne : i ≠ .iret)
    (hnext : x.next = code.afterDispatch (k + 1)) :
    Inv code st { s with cpu := i.cpu x s.cpu s.mem, mem := i.mem s.cpu s.mem } events := by
  have hrunning := h.running
  rw [hpending] at hrunning
  obtain ⟨hlow, hsp, ⟨k', hk', hip', hrestores⟩, hstop, hrest⟩ := hrunning
  obtain rfl : k' = k := code.afterDispatch_injective k' k (Nat.lt_of_lt_of_le hk' exit_length_le) hk
    (hip'.symm.trans hip)
  rw [drop_of_getElem? hi] at hrestores
  obtain ⟨-, hmem, hnext'⟩ := hrestores
  obtain ⟨hsp', hrestores⟩ := hnext' x
  obtain ⟨hlength, hdrop, hcpu⟩ := exit_next hi hne
  have hsp'' := hsp'.resolve_left hdrop
  have hstop' : (i.cpu x s.cpu s.mem).sp ≤ stop := by
    cases hcode : (interruptExit a).drop (k' + 1) with
    | nil => exact absurd hcode hdrop
    | cons j is =>
        rw [hcode] at hrestores
        exact Nat.le_trans (Nat.le_add_right _ _) hrestores.1
  rw [hmem]
  refine h.local_step [] rfl (fun _ _ => rfl) ?_ (fun y hy => absurd rfl hy) (fun _ _ => rfl)
    (h.record s.current)
  show Holds _ _ _ s.mem (i.cpu x s.cpu s.mem) (s.pending s.current)
  rw [hpending]
  exact ⟨Nat.le_trans hlow hsp'', hstop', ⟨k' + 1, hlength, (hcpu x _ _).trans hnext, hrestores⟩, hstop, hrest⟩

theorem Inv.iret_step {k : Nat} {x : Ambient a} (hpending : s.pending s.current = .exiting ctx stop :: rest)
    (hip : s.cpu.ip = code.afterDispatch k) (hk : k < 32) (hi : (interruptExit a)[k]? = some .iret) :
    Instr.iret.cpu x s.cpu s.mem = ctx ∧
      Inv code st
        { s with
          cpu := Instr.iret.cpu x s.cpu s.mem
          pending := Function.update s.pending s.current rest }
        (.resumed s.current (Instr.iret.cpu x s.cpu s.mem) :: events) := by
  have hrunning := h.running
  have hrecord := h.record s.current
  rw [hpending] at hrunning hrecord
  obtain ⟨hlow, hsp, ⟨k', hk', hip', hrestores⟩, hstop, hrest⟩ := hrunning
  obtain rfl : k' = k := code.afterDispatch_injective k' k (Nat.lt_of_lt_of_le hk' exit_length_le) hk
    (hip'.symm.trans hip)
  rw [drop_of_getElem? hi, exit_last hi] at hrestores
  have hctx : Instr.iret.cpu x s.cpu s.mem = ctx := (hrestores.2.2 x).2
  refine ⟨hctx, ?_⟩
  rw [hctx]
  refine h.local_step [.resumed s.current ctx] rfl (fun t ht => Function.update_of_ne ht _ _) ?_
    (fun y hy => absurd rfl hy) (fun t ht => if_neg ht.symm) ?_
  · show Holds _ _ _ s.mem ctx (Function.update s.pending s.current _ s.current)
    rw [Function.update_self]
    exact hrest
  · show (if s.current = s.current then _ else _) = (Function.update s.pending s.current _ s.current).map _
    rw [if_pos rfl, Function.update_self]
    exact congrArg List.tail hrecord

/-- The thread that calls `thread_switch` waits with its registers on its stack. -/
theorem Inv.switch_self (back : BitVec a.bits) (x : Ambient a) {top : Nat}
    (hroof : roof (st.high s.current) (s.pending s.current) = some top) (hroom : s.Room st)
    (hpassed : Passed s.cpu s.mem (st.context s.current) (load s.mem (st.context t) a.word)) :
    Waits code st (Instr.run x (.call code.threadSwitch back :: threadSwitch a) s.cpu s.mem).2 s.current
      { s.cpu with ip := back } (s.pending s.current) := by
  have hroom' : st.low s.current + 256 ≤ s.cpu.sp := hroom
  have hhigh := h.running.le_high
  have hhigh' := st.high_lt s.current
  have hcontext := st.context_outside s.current s.current
  have hsize : registerSize a ≤ 56 := by cases a <;> decide
  have hmem := (threadSwitch_spec x code.threadSwitch back s.cpu (show 256 ≤ s.cpu.sp by omega) hpassed).1
  have hchanged := fun y =>
    threadSwitch_outside x code.threadSwitch back (show 256 ≤ s.cpu.sp by omega) hpassed (y := y)
  obtain ⟨c₀, hc₀, hsp₀⟩ : ∃ c₀ : Cpu a, { s.cpu with ip := back } = c₀ ∧ c₀.sp = s.cpu.sp := ⟨_, rfl, rfl⟩
  rw [hc₀] at hmem ⊢
  refine ⟨by omega, ?_, Option.isSome_iff_exists.mpr ⟨top, hroof⟩, ?_, ?_⟩
  · have hlaid : Laid (lay s.mem (s.cpu.sp - registerSize a) (registerFields c₀))
        (s.cpu.sp - registerSize a) (registerFields c₀) :=
      laid_lay (fits_append fits_regs (fits_cons fits_word fits_nil))
    rw [hmem, hsp₀]
    refine hlaid.congr fun y hlow hlt => store_outside ?_
    rw [size_registerFields] at hlt
    omega
  · refine (h.running.congr fun y hy => ?_).code_step hroof (hsp₀ ▸ h.running.low_le)
      (hsp₀ ▸ h.running.le_roof hroof)
    by_contra hy'
    have hzone := h.running.zone hy
    have hy := hchanged y hy'
    omega
  · rw [hmem, hsp₀, load_store_of_lt]
    omega

theorem Inv.switch_step {back : BitVec a.bits} {x : Ambient a} {top : Nat}
    (hroof : roof (st.high s.current) (s.pending s.current) = some top) (hroom : s.Room st)
    (hne : t ≠ s.current) (hpending : s.pending t = .switched c :: rest)
    (hpassed : Passed s.cpu s.mem (st.context s.current) (load s.mem (st.context t) a.word))
    {final : Cpu a × Memory}
    (hfinal : final = Instr.run x (.call code.threadSwitch back :: threadSwitch a) s.cpu s.mem) :
    final.1.sp = c.sp ∧ final.1.ip = c.ip ∧ (∀ r ∈ calleeSaved a, final.1.reg r = c.reg r) ∧
      Inv code st
        { cpu := final.1
          mem := final.2
          current := t
          pending := Function.update (Function.update s.pending t rest) s.current
            (.switched { s.cpu with ip := back } :: s.pending s.current) }
        (.returned t final.1 :: .called s.current { s.cpu with ip := back } :: events) := by
  obtain ⟨c', rest', hswitched, hwaits⟩ := h.waiting t hne (by rw [hpending]; exact List.cons_ne_nil _ _)
  obtain ⟨hact, rfl⟩ := List.cons.inj (hpending.symm.trans hswitched)
  obtain rfl := Activity.switched.inj hact
  have hroom' : st.low s.current + 256 ≤ s.cpu.sp := hroom
  have hhigh := h.running.le_high
  have hchanged : ∀ y, final.2 y ≠ s.mem y → s.cpu.sp - registerSize a ≤ y ∧ y < s.cpu.sp ∨
      st.context s.current ≤ y ∧ y < st.context s.current + a.word := by
    intro y hy
    rw [hfinal] at hy
    exact threadSwitch_outside x code.threadSwitch back (by omega) hpassed hy
  obtain ⟨hsp, hip, hregs, hwaits'⟩ := hwaits.switched hne x code.threadSwitch back hroom' hhigh hpassed
  rw [← hfinal] at hsp hip hregs hwaits'
  have hsize : registerSize a ≤ 56 := by cases a <;> decide
  have hothers : ∀ t' c' rest', t' ≠ s.current → Waits code st s.mem t' c' rest' →
      Waits code st final.2 t' c' rest' := by
    intro t' c' rest' hne' hwaits'
    refine hwaits'.other hne' fun y hy => (hchanged y hy).imp (fun hy => ?_) id
    omega
  have hself := h.switch_self back x hroof hroom hpassed
  rw [← hfinal] at hself
  obtain ⟨c₀, hc₀⟩ : ∃ c₀ : Cpu a, { s.cpu with ip := back } = c₀ := ⟨_, rfl⟩
  rw [hc₀] at hself ⊢
  have hpending' : ∀ t', t' ≠ s.current → t' ≠ t →
      Function.update (Function.update s.pending t rest) s.current
        (.switched c₀ :: s.pending s.current) t' = s.pending t' := by
    intro t' hcur ht
    rw [Function.update_of_ne hcur, Function.update_of_ne ht]
  have hnew' : Function.update (Function.update s.pending t rest) s.current
      (.switched c₀ :: s.pending s.current) t = rest := by
    rw [Function.update_of_ne hne, Function.update_self]
  refine ⟨hsp, hip, hregs, ?_, fun t' ht' hpend => ?_, fun t' => ?_⟩
  · obtain ⟨top', hroof'⟩ := Option.isSome_iff_exists.mp hwaits.roofed
    dsimp only
    rw [hnew']
    exact hwaits'.holds.code_step hroof' (hsp ▸ hwaits'.holds.low_le) (hsp ▸ hwaits'.holds.le_roof hroof')
  · dsimp only at ht' hpend ⊢
    by_cases hcur : t' = s.current
    · subst hcur
      rw [Function.update_self]
      exact ⟨_, _, rfl, hself⟩
    · rw [hpending' t' hcur ht'] at hpend ⊢
      obtain ⟨c', rest', hswitched', hwaits''⟩ := h.waiting t' hcur hpend
      exact ⟨c', rest', hswitched', hothers t' c' rest' hcur hwaits''⟩
  · have hrecord := h.record t'
    dsimp only
    by_cases hcur : t' = s.current
    · subst hcur
      rw [Function.update_self, outstanding, if_neg hne, outstanding, if_pos rfl, hrecord]
      rfl
    · by_cases ht' : t' = t
      · subst ht'
        rw [hnew', outstanding, if_pos rfl, outstanding, if_neg (Ne.symm hne), hrecord, hpending]
        rfl
      · rw [hpending' t' hcur ht', outstanding, if_neg (Ne.symm ht'), outstanding, if_neg (Ne.symm hcur), hrecord]

theorem Inv.create_step {user : BitVec a.bits} (hne : t ≠ s.current) (hpending : s.pending t = [])
    (hroom : st.low t + 512 ≤ st.high t) (hm : m = threadCreate code st t user s.mem) :
    Inv code st
      { s with
        mem := m
        pending := Function.update s.pending t (createdActivities code st t user m) }
      (.called t (createdStart code st t m) :: .interrupted t (createdContext st t user m) :: events) := by
  obtain ⟨rest, hacts, hwaits⟩ := created_waits code hroom hm
  have hchanged : ∀ y, m y ≠ s.mem y → st.low t ≤ y ∧ y < st.high t ∨
      st.context t ≤ y ∧ y < st.context t + a.word := by
    intro y hy
    rw [hm] at hy
    exact threadCreate_outside hroom hy
  have hpending' : ∀ t', t' ≠ t →
      Function.update s.pending t (createdActivities code st t user m) t' = s.pending t' :=
    fun t' ht' => Function.update_of_ne ht' _ _
  refine ⟨?_, fun t' ht' hpend => ?_, fun t' => ?_⟩
  · dsimp only
    rw [hpending' _ hne.symm]
    refine h.running.congr fun y hy => ?_
    by_contra hy'
    have hzone := h.running.zone hy
    have hlow := h.running.low_le
    have hdisjoint := st.disjoint t s.current hne
    have hcontext := st.context_outside t s.current
    have hcases := hchanged y hy'
    omega
  · dsimp only at ht' hpend ⊢
    by_cases heq : t' = t
    · subst heq
      rw [Function.update_self]
      exact ⟨_, rest, hacts, hwaits⟩
    · rw [hpending' t' heq] at hpend ⊢
      obtain ⟨c', rest', hswitched, hwaits'⟩ := h.waiting t' ht' hpend
      exact ⟨c', rest', hswitched, hwaits'.other heq hchanged⟩
  · have hrecord := h.record t'
    dsimp only
    by_cases heq : t' = t
    · subst heq
      rw [Function.update_self, outstanding, if_pos rfl, outstanding, if_pos rfl, hrecord, hpending]
      rfl
    · rw [hpending' t' heq, outstanding, if_neg (Ne.symm heq), outstanding, if_neg (Ne.symm heq), hrecord]

end Step

/-- Every event of a run. -/
def AllTransparent : List (Event a T) → Prop
  | [] => True
  | e :: before => Transparent before e ∧ AllTransparent before

theorem AllTransparent.event {before after : List (Event a T)} {e : Event a T}
    (h : AllTransparent (after ++ e :: before)) : Transparent before e := by
  induction after with
  | nil => exact h.1
  | cons e' after ih => exact ih h.2

/-- A step keeps the invariant, and a thread that comes back is as it left. -/
theorem step_inv {new : List (Event a T)} (h : Inv code st s events) (hstep : Step code st s new s') :
    Inv code st s' (new.reverse ++ events) ∧ (AllTransparent events → AllTransparent (new.reverse ++ events)) := by
  cases hstep with
  | code c m top hroof hlow hhigh hmem => exact ⟨h.code_step hroof hlow hhigh hmem, id⟩
  | interrupt interrupt error x hinterrupt hnull hflag hroom final hfinal =>
      exact ⟨h.interrupt_step hinterrupt hnull hroom hfinal, fun hall => ⟨trivial, hall⟩⟩
  | back c ctx ret p rest hpending hsp hip hsaved => exact ⟨h.back_step hpending hsp hip hsaved, id⟩
  | exit ctx stop k i x rest hpending hip hk hi hne hnext =>
      exact ⟨h.exit_step hpending hip hk hi hne hnext, id⟩
  | iret ctx stop k x rest hpending hip hk hi =>
      obtain ⟨hctx, hinv⟩ := h.iret_step (x := x) hpending hip hk hi
      refine ⟨hinv, fun hall => ⟨⟨rest.map (Activity.event s.current), ?_⟩, hall⟩⟩
      have hrecord := h.record s.current
      rw [hpending] at hrecord
      rw [hctx]
      exact hrecord
  | switch t c rest back x top hroof hroom hflag hne hpending hpassed final hfinal =>
      obtain ⟨hsp, hip, hregs, hinv⟩ := h.switch_step hroof hroom hne hpending hpassed hfinal
      refine ⟨hinv, fun hall => ⟨⟨c, rest.map (Activity.event t), ?_, hsp, hip, hregs⟩, trivial, hall⟩⟩
      have hrecord := h.record t
      rw [hpending] at hrecord
      exact (if_neg (Ne.symm hne)).trans hrecord
  | create t user m top hroof hne hpending hroom hm =>
      exact ⟨h.create_step hne hpending hroom hm, fun hall => ⟨trivial, trivial, hall⟩⟩

theorem run_inv {s₀ : State a T} (h₀ : Initial st s₀) (hrun : Run code st s₀ events s) :
    Inv code st s events ∧ AllTransparent events := by
  induction hrun with
  | start => exact ⟨initial_inv h₀, trivial⟩
  | step _ hstep ih =>
      obtain ⟨hinv, hall⟩ := ih
      exact (step_inv hinv hstep).imp id fun hnew => hnew hall

theorem Run.trans {s₁ s₂ : State a T} {new : List (Event a T)} (hrun : Run code st s₁ new s₂)
    (h : Run code st s events s₁) : Run code st s (new ++ events) s₂ := by
  induction hrun with
  | start => exact h
  | step _ hstep ih => exact List.append_assoc .. ▸ ih.step hstep

theorem Run.cons {s₁ s₂ : State a T} {new : List (Event a T)} (hstep : Step code st s new s₁)
    (hrun : Run code st s₁ events s₂) : Run code st s (events ++ new.reverse) s₂ :=
  hrun.trans (List.append_nil new.reverse ▸ Run.start.step hstep)

/-- A thread that has got to the end of `interrupt_entry` or to `interrupt_exit` gets to its `iret`. -/
theorem Inv.exits (h : Inv code st s events) (hpending : s.pending s.current = .exiting ctx stop :: rest) :
    Run code st s [.resumed s.current ctx]
      { s with
        cpu := ctx
        pending := Function.update s.pending s.current rest } := by
  obtain ⟨k, hk, hip⟩ : ∃ k, k < (interruptExit a).length ∧ s.cpu.ip = code.afterDispatch k := by
    have hrunning := h.running
    rw [hpending] at hrunning
    obtain ⟨-, -, ⟨k, hk, hip, -⟩, -⟩ := hrunning
    exact ⟨k, hk, hip⟩
  have hk' : k < 32 := Nat.lt_of_lt_of_le hk exit_length_le
  -- on the number of instructions that are left
  induction hn : (interruptExit a).length - k generalizing s k with
  | zero => omega
  | succ n ih =>
      obtain ⟨i, hi⟩ : ∃ i, (interruptExit a)[k]? = some i := ⟨_, List.getElem?_eq_getElem hk⟩
      by_cases hiret : i = .iret
      · subst hiret
        let x : Ambient a := ⟨0, 0, 0⟩
        have hstep : Step code st s _ _ := Step.iret ctx stop k x rest hpending hip hk' hi
        rw [(h.iret_step (x := x) hpending hip hk' hi).1] at hstep
        exact Run.start.step hstep
      · let x : Ambient a := ⟨0, 0, code.afterDispatch (k + 1)⟩
        have hstep : Step code st s _ _ := Step.exit ctx stop k i x rest hpending hip hk' hi hiret rfl
        have hmem : i.mem s.cpu s.mem = s.mem := exit_mem hi s.cpu s.mem
        obtain ⟨hlength, -, hcpu⟩ := exit_next hi hiret
        have hinv := h.exit_step (x := x) hpending hip hk' hi hiret rfl
        rw [hmem] at hstep hinv
        exact Run.cons hstep (ih hinv hpending (k + 1) hlength (hcpu x _ _)
          (Nat.lt_of_lt_of_le hlength exit_length_le) (by omega))

/-- Interrupts and switches are transparent: an interrupted thread goes on where it was, with the registers,
segments, flags and stack pointer it had, and a call of `thread_switch` returns with the callee-saved registers
and the stack pointer of the call. -/
theorem switch_transparent (code : Code a) (st : Stacks a T) (s₀ s : State a T) (events : List (Event a T))
    (h₀ : Initial st s₀) (hrun : Run code st s₀ events s) (before after : List (Event a T)) (e : Event a T)
    (hevents : events = after ++ e :: before) : Transparent before e := by
  have hall := (run_inv h₀ hrun).2
  rw [hevents] at hall
  exact hall.event

/-- The code of an image at 1 MB. -/
def imageCode : Code .i386 where
  interruptDispatch := 0x101000
  threadSwitch := 0x102000
  threadEntry := 0x103000
  threadExit := 0x104000
  afterDispatch k := BitVec.ofNat 32 (0x100000 + k)
  afterDispatch_injective k k' hk hk' heq := by
    have heq := congrArg BitVec.toNat heq
    rw [BitVec.toNat_ofNat, BitVec.toNat_ofNat] at heq
    omega

/-- Two stacks of 4096 bytes. -/
def twoStacks : Stacks .i386 Bool where
  low t := if t then 0x10000 else 0x12000
  high t := if t then 0x11000 else 0x13000
  context t := if t then 0x20000 else 0x20010
  high_lt t := by cases t <;> decide
  disjoint t t' := by cases t <;> cases t' <;> decide
  context_outside t t' := by cases t <;> cases t' <;> decide
  context_disjoint t t' := by cases t <;> cases t' <;> decide

/-- A thread in the middle of its code. -/
def runningState : State .i386 Bool where
  cpu := { reg := fun _ => 7, sp := 0x10800, seg := fun _ => 0x10, flags := 0x203, ip := 0x105000 }
  mem := fun _ => 0
  current := true
  pending := fun _ => []

section Witness

variable {s : State .i386 Bool} {c ctx ret : Cpu .i386} {rest : List (Activity .i386)}
  {events : List (Event .i386 Bool)} {top p : Nat}

/-- C code below `top` disables interrupts and pushes the two arguments of `thread_switch`. -/
def pushArguments (s : State .i386 Bool) (top : Nat) : State .i386 Bool :=
  { s with
    cpu := { s.cpu with sp := top - 8, flags := 0 }
    mem := store (store s.mem (top - 8) 4 (twoStacks.context s.current)) (top - 4) 4
      (load s.mem (twoStacks.context (!s.current)) 4) }

theorem pushArguments_mem {x : Nat} (htop : 8 ≤ top) (hx : x < top - 8 ∨ top ≤ x) :
    (pushArguments s top).mem x = s.mem x :=
  (store_outside (by omega)).trans (store_outside (by omega))

section Call

variable (h : Inv imageCode twoStacks s events)
  (hroof : roof (twoStacks.high s.current) (s.pending s.current) = some top)
  (hroom : twoStacks.low s.current + 264 ≤ top)

include h hroof hroom

theorem Inv.pushes : Step imageCode twoStacks s [] (pushArguments s top) := by
  have hhigh := h.running.roof_le_high hroof
  refine .code _ _ top hroof (show _ ≤ top - 8 by omega) (Nat.sub_le _ _) fun x hx => pushArguments_mem (by omega) ?_
  rcases hx with ⟨t, hx⟩ | ⟨t, hne, hpend, hlow, hlt⟩
  · by_cases hself : t = s.current
    · subst hself
      exact Or.inr (h.running.roof_le hroof hx)
    · obtain ⟨c₀, rest₀, hswitched, hwaits⟩ := h.waiting t hself fun hnil => by
        rw [hnil] at hx
        exact hx
      rw [hswitched] at hx
      have hzone := hwaits.zone hx
      have hdisjoint := twoStacks.disjoint t s.current hself
      omega
  · have hcontext := twoStacks.context_outside t s.current
    omega

theorem Inv.calls (hpending : s.pending (!s.current) = .switched c :: rest) :
    ∃ s' c₀ c₁, Run imageCode twoStacks s [.returned (!s.current) c₁, .called s.current c₀] s' ∧
      s'.current = !s.current ∧ s'.pending (!s.current) = rest ∧
      s'.pending s.current = .switched c₀ :: s.pending s.current := by
  have hne : (!s.current) ≠ s.current := Bool.not_ne_self _
  have hpushes := h.pushes hroof hroom
  have hhigh := h.running.roof_le_high hroof
  have hcontext := twoStacks.context_outside (!s.current) s.current
  simp only [Arch.word] at hcontext
  have hnew : load (pushArguments s top).mem (twoStacks.context (!s.current)) 4 =
      load s.mem (twoStacks.context (!s.current)) 4 :=
    load_congr fun x hlow hlt => pushArguments_mem (by omega) (by omega)
  have hpassed : Passed (pushArguments s top).cpu (pushArguments s top).mem (twoStacks.context s.current)
      (load (pushArguments s top).mem (twoStacks.context (!s.current)) 4) := by
    refine ⟨?_, ?_⟩
    · refine (load_store_outside (Or.inl ?_)).trans (load_store_of_lt ?_)
      · show top - 8 + 4 ≤ top - 4
        omega
      · cases s.current <;> decide
    · rw [hnew]
      show load _ (top - 8 + 4) 4 = _
      rw [show top - 8 + 4 = top - 4 by omega]
      exact load_store_of_lt load_lt
  have hflag : ¬ (pushArguments s top).cpu.Interruptible := not_not.mpr BitVec.zero_and
  have hswitch : Step imageCode twoStacks _ _ _ := .switch (s := pushArguments s top) (!s.current) c rest 0
    ⟨0, 0, 0⟩ top hroof (show twoStacks.low s.current + 256 ≤ top - 8 by omega) hflag hne hpending hpassed _ rfl
  refine ⟨_, _, _, (Run.start.step hpushes).step hswitch, rfl, ?_, ?_⟩
  · exact (Function.update_of_ne hne _ _).trans (Function.update_self ..)
  · exact Function.update_self ..

end Call

/-- C code over the frame of an interrupt returns, and the interrupt ends. -/
theorem Inv.leaves (h : Inv imageCode twoStacks s events)
    (hpending : s.pending s.current = .handling ctx p ret :: rest) :
    ∃ s', Run imageCode twoStacks s [.resumed s.current ctx] s' ∧ s'.current = s.current ∧
      s'.pending s.current = rest ∧ s'.pending (!s.current) = s.pending (!s.current) := by
  have hne : (!s.current) ≠ s.current := Bool.not_ne_self _
  have hback : Step imageCode twoStacks s _ _ := .back ret ctx ret p rest hpending rfl rfl fun _ _ => rfl
  have hinv := h.back_step hpending (c := ret) rfl rfl fun _ _ => rfl
  refine ⟨_, (hinv.exits (Function.update_self ..)).trans (Run.start.step hback), rfl, Function.update_self .., ?_⟩
  exact (Function.update_of_ne hne _ _).trans (Function.update_of_ne hne _ _)

/-- The handler of an interrupt has created a thread. -/
theorem created_handling : ∃ s p ret c ctx q ret',
    Run imageCode twoStacks runningState
      [.called false c, .interrupted false ctx, .interrupted true runningState.cpu] s ∧
    s.current = true ∧ s.pending true = [.handling runningState.cpu p ret] ∧ 0x10000 + 264 ≤ p ∧
    s.pending false = [.switched c, .handling ctx q ret'] := by
  have hflag : runningState.cpu.Interruptible := by
    unfold Cpu.Interruptible
    decide
  have hroom : runningState.Room twoStacks := by
    unfold State.Room
    decide
  have hinterrupt : Step imageCode twoStacks runningState _ _ :=
    Step.interrupt 32 0 ⟨0, 0, 0⟩ (by decide) (by decide) hflag hroom _ rfl
  exact ⟨_, _, _, _, _, _, _, (Run.start.step hinterrupt).step
    (.create false 0x105000 _ _ rfl nofun rfl (by decide) rfl), rfl, rfl, by decide, rfl⟩

/-- The handler of an interrupt creates a thread and switches to it; the thread enters its function, and switches
back. -/
theorem switch_transparent_interrupt : ∃ s before c c',
    Run imageCode twoStacks runningState (.resumed true runningState.cpu :: .returned true c :: before) s ∧
    .returned false c' ∈ before ∧ Transparent before (.returned true c) ∧
    Transparent (.returned true c :: before) (.resumed true runningState.cpu) := by
  have h₀ : Initial twoStacks runningState := ⟨fun _ => rfl, by decide, by decide⟩
  obtain ⟨s, p, ret, c, ctx, q, ret', hrun, hcurrent, hself, hp, hother⟩ := created_handling
  obtain ⟨s₁, c₁, c', hcall, hcurrent₁, hself₁, hother₁⟩ := (run_inv h₀ hrun).1.calls (by rw [hcurrent, hself]; rfl)
    (by rw [hcurrent]; exact hp) (by rw [hcurrent]; exact hother)
  rw [hcurrent] at hcall hcurrent₁ hself₁ hother₁
  rw [hself] at hother₁
  have hrun₁ := hcall.trans hrun
  obtain ⟨s₂, hleave, hcurrent₂, hself₂, hother₂⟩ := (run_inv h₀ hrun₁).1.leaves (by rw [hcurrent₁]; exact hself₁)
  rw [hcurrent₁] at hleave hcurrent₂ hself₂ hother₂
  have hrun₂ := hleave.trans hrun₁
  obtain ⟨s₃, c₂, c₃, hcall₃, hcurrent₃, hself₃, -⟩ := (run_inv h₀ hrun₂).1.calls (by rw [hcurrent₂, hself₂]; rfl)
    (by rw [hcurrent₂]; decide) (by rw [hcurrent₂]; exact hother₂.trans hother₁)
  rw [hcurrent₂] at hcall₃ hcurrent₃ hself₃
  have hrun₃ := hcall₃.trans hrun₂
  obtain ⟨s₄, hleave₄, -⟩ := (run_inv h₀ hrun₃).1.leaves (by rw [hcurrent₃]; exact hself₃)
  rw [hcurrent₃] at hleave₄
  have hrun₄ := hleave₄.trans hrun₃
  refine ⟨s₄, _, _, c', hrun₄, by simp, ?_, ?_⟩
  · exact switch_transparent imageCode twoStacks runningState _ _ h₀ hrun₄ _ [_] _ rfl
  · exact switch_transparent imageCode twoStacks runningState _ _ h₀ hrun₄ _ [] _ rfl

end Witness

end Kiznix.Switch
