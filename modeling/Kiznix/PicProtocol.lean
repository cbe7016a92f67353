import Kiznix.PicModel

/-! When an interrupt comes nothing is in service, so that an EOI that names no interrupt is meant for the one
that is dispatched. -/

namespace Kiznix.Pic

open PortIo (Always)

variable {s s' : Pics} {isr imr : Chip → Byte} {c : Chip} {irq : Nat} {spurious : Bool} {L : Nat → Prop}
  {v : Byte} {next : Io Unit} {irq' : Int}

/-! ### Registers -/

/-- What is known of the registers but for the requests. -/
structure View (s : Pics) (isr imr : Chip → Byte) : Prop where
  ready : Ready s
  isr : ∀ c, (s c).isr = isr c
  imr : ∀ c, (s c).imr = imr c

theorem Requests.refl (s : Pics) : Requests s s := fun c => ⟨(s c).irr, rfl⟩

theorem Requests.trans {s₁ s₂ s₃ : Pics} (h₁ : Requests s₁ s₂) (h₂ : Requests s₂ s₃) : Requests s₁ s₃ := by
  intro c
  obtain ⟨irr₁, h₁⟩ := h₁ c
  obtain ⟨irr₂, h₂⟩ := h₂ c
  exact ⟨irr₂, by rw [h₂, h₁]⟩

namespace Requests

variable (h : Requests s s')

include h

theorem same_isr (c : Chip) : (s' c).isr = (s c).isr := by
  obtain ⟨irr, h⟩ := h c
  rw [h]

theorem same_imr (c : Chip) : (s' c).imr = (s c).imr := by
  obtain ⟨irr, h⟩ := h c
  rw [h]

theorem same_readIsr (c : Chip) : (s' c).readIsr = (s c).readIsr := by
  obtain ⟨irr, h⟩ := h c
  rw [h]

theorem ready (hs : Ready s) : Ready s' where
  icw c := by
    obtain ⟨irr, h⟩ := h c
    rw [h]
    exact hs.icw c
  master := by
    obtain ⟨irr, h⟩ := h .master
    rw [h]
    exact hs.master
  slave := by
    obtain ⟨irr, h⟩ := h .slave
    rw [h]
    exact hs.slave

theorem view (hs : View s isr imr) : View s' isr imr :=
  ⟨h.ready hs.ready, fun c => (h.same_isr c).trans (hs.isr c), fun c => (h.same_imr c).trans (hs.imr c)⟩

theorem idle (hs : Idle s) : Idle s' := fun c => (h.same_isr c).trans (hs c)

theorem masked (hs : Masked s irq) : Masked s' irq := by
  unfold Masked
  rw [h.same_imr]
  exact hs

end Requests

/-- A chip changes by a write that leaves the offset and the initialization alone. -/
theorem View.update {r : Registers} {a b : Byte} (h : View s isr imr) (hicw : r.icw = 0)
    (hoffset : r.offset = (s c).offset) (hisr : r.isr = a) (himr : r.imr = b) :
    View (Function.update s c r) (Function.update isr c a) (Function.update imr c b) := by
  have hcases : ∀ c', c' = c ∨ c' ≠ c := fun c' => eq_or_ne c' c
  refine ⟨⟨fun c' => ?_, ?_, ?_⟩, fun c' => ?_, fun c' => ?_⟩
  · obtain rfl | hne := hcases c'
    · rwa [Function.update_self]
    · rw [Function.update_of_ne hne]
      exact h.ready.icw c'
  · obtain rfl | hne := hcases .master
    · rw [Function.update_self, hoffset, h.ready.master]
    · rw [Function.update_of_ne hne, h.ready.master]
  · obtain rfl | hne := hcases .slave
    · rw [Function.update_self, hoffset, h.ready.slave]
    · rw [Function.update_of_ne hne, h.ready.slave]
  · obtain rfl | hne := hcases c'
    · rwa [Function.update_self, Function.update_self]
    · rw [Function.update_of_ne hne, Function.update_of_ne hne, h.isr]
  · obtain rfl | hne := hcases c'
    · rwa [Function.update_self, Function.update_self]
    · rw [Function.update_of_ne hne, Function.update_of_ne hne, h.imr]

theorem View.write_readIsr (h : View s isr imr) :
    View (device.write (.command c) Command.readIsr s) isr imr ∧
      (device.write (.command c) Command.readIsr s c).readIsr = true := by
  have hview := h.update (c := c) (r := { s c with readIsr := true }) (h.ready.icw c) rfl (h.isr c) (h.imr c)
  rw [Function.update_eq_self, Function.update_eq_self] at hview
  exact ⟨hview, by simp [device, Registers.writeCommand, Command.readIsr, Command.readIrr]⟩

theorem View.write_readIrr (h : View s isr imr) :
    View (device.write (.command c) Command.readIrr s) isr imr := by
  have hview := h.update (c := c) (r := { s c with readIsr := false }) (h.ready.icw c) rfl (h.isr c) (h.imr c)
  rwa [Function.update_eq_self, Function.update_eq_self] at hview

theorem View.write_eoi (h : View s isr imr) :
    View (device.write (.command c) Command.eoi s) (Function.update isr c (isr c &&& (isr c - 1))) imr := by
  have hview := h.update (c := c) (r := (s c).eoi) (b := imr c) (h.ready.icw c) rfl rfl (h.imr c)
  rw [Function.update_eq_self] at hview
  rw [← h.isr c]
  exact hview

theorem View.write_data (h : View s isr imr) :
    View (device.write (.data c) v s) isr (Function.update imr c v) := by
  have hdata : (s c).writeData v = { s c with imr := v } := by
    unfold Registers.writeData
    simp only [h.ready.icw c]
  have hview := h.update (c := c) (r := { s c with imr := v }) (h.ready.icw c) rfl (h.isr c) rfl
  rw [Function.update_eq_self] at hview
  show View (Function.update s c ((s c).writeData v)) _ _
  rwa [hdata]

/-! ### Mask updates -/

/-- The lines of `L` are masked in a value for the mask register of chip `c`. -/
def Keeps (L : Nat → Prop) (c : Chip) (v : Byte) : Prop :=
  ∀ irq, L irq → chipOf irq = c → v.getLsbD (irq % 8) = true

/-- What is left of a program only updates masks, and those of the lines of `L` stay set. -/
def Updates (L : Nat → Prop) : Io Unit → Prop
  | .ret _ => True
  | .fail => True
  | .out port v next => ∃ c, port = .data c ∧ Keeps L c v ∧ Updates L next
  | .inp port next => ∃ c, port = .data c ∧ ∀ v, Keeps L c v → Updates L (next v)
  | .call _ => False

theorem getLsbD_clear {m : Byte} {k n : Nat} (hk : k < 8) (hne : k ≠ n) :
    (m &&& ~~~(1#8 <<< n)).getLsbD k = m.getLsbD k := by
  have hbit : (1#8 <<< n).getLsbD k = false := by
    simp only [BitVec.getLsbD_shiftLeft, BitVec.getLsbD_one]
    by_cases hlt : k < n
    · simp [hlt]
    · have hsub : k - n ≠ 0 := by omega
      simp [hsub]
  rw [BitVec.getLsbD_and, BitVec.getLsbD_not, hbit]
  simp [hk]

theorem getLsbD_set {m : Byte} {k n : Nat} (h : m.getLsbD k = true) : (m ||| 1#8 <<< n).getLsbD k = true := by
  rw [BitVec.getLsbD_or, h, Bool.true_or]

theorem getLsbD_set_self {m : Byte} {n : Nat} (hn : n < 8) : (m ||| 1#8 <<< n).getLsbD n = true := by
  simp [hn]

theorem chipOf_master (h : irq < 8) : chipOf irq = .master ∧ irq % 8 = irq :=
  ⟨if_pos h, Nat.mod_eq_of_lt h⟩

theorem chipOf_slave (h : irq < 16) (h' : 8 ≤ irq) : chipOf irq = .slave ∧ irq % 8 = irq - 8 :=
  ⟨if_neg (Nat.not_lt.mpr h'), by omega⟩

/-- A line is a chip and a bit. -/
theorem line_ext {irq irq' : Nat} (h : irq < 16) (h' : irq' < 16) (hchip : chipOf irq = chipOf irq')
    (hbit : irq % 8 = irq' % 8) : irq = irq' := by
  unfold chipOf at hchip
  split at hchip <;> split at hchip
  · omega
  · cases hchip
  · cases hchip
  · omega

theorem picEnableIrq_line (h : irq < 16) : picEnableIrq irq = .inp (.data (chipOf irq)) fun m =>
    .out (.data (chipOf irq)) (m &&& ~~~(1#8 <<< (irq % 8))) (.ret ()) := by
  unfold picEnableIrq
  by_cases hmaster : irq < 8
  · obtain ⟨hchip, hbit⟩ := chipOf_master hmaster
    rw [if_pos ⟨by omega, by omega⟩, hchip, hbit]
    rfl
  · obtain ⟨hchip, hbit⟩ := chipOf_slave h (Nat.not_lt.mp hmaster)
    have hsub : ((irq : Int) - 8).toNat = irq - 8 := by omega
    rw [if_neg (by omega), if_pos ⟨by omega, by omega⟩, hchip, hbit, hsub]
    rfl

theorem picDisableIrq_line (h : irq < 16) : picDisableIrq irq = .inp (.data (chipOf irq)) fun m =>
    .out (.data (chipOf irq)) (m ||| 1#8 <<< (irq % 8)) (.ret ()) := by
  unfold picDisableIrq
  by_cases hmaster : irq < 8
  · obtain ⟨hchip, hbit⟩ := chipOf_master hmaster
    rw [if_pos ⟨by omega, by omega⟩, hchip, hbit]
    rfl
  · obtain ⟨hchip, hbit⟩ := chipOf_slave h (Nat.not_lt.mp hmaster)
    have hsub : ((irq : Int) - 8).toNat = irq - 8 := by omega
    rw [if_neg (by omega), if_pos ⟨by omega, by omega⟩, hchip, hbit, hsub]
    rfl

/-- There is a line with this number, or the call does nothing. -/
theorem line_cases (irq' : Int) : (∃ line : Nat, line < 16 ∧ irq' = line) ∨
    picEnableIrq irq' = .ret () ∧ picDisableIrq irq' = .ret () := by
  by_cases hline : 0 ≤ irq' ∧ irq' < 16
  · exact Or.inl ⟨irq'.toNat, by omega, by omega⟩
  · refine Or.inr ⟨?_, ?_⟩
    · unfold picEnableIrq
      rw [if_neg (by omega), if_neg (by omega)]
      rfl
    · unfold picDisableIrq
      rw [if_neg (by omega), if_neg (by omega)]
      rfl

theorem updates_picEnableIrq (hL : ∀ irq, L irq → irq < 16) (hirq : ∀ line : Nat, (line : Int) = irq' → ¬ L line) :
    Updates L (picEnableIrq irq') := by
  obtain ⟨line, hline, rfl⟩ | ⟨hret, -⟩ := line_cases irq'
  · rw [picEnableIrq_line hline]
    refine ⟨_, rfl, fun m hm => ⟨_, rfl, fun irq hirq' hchip => ?_, trivial⟩⟩
    rw [getLsbD_clear (Nat.mod_lt _ (by decide)) fun hbit => ?_]
    · exact hm irq hirq' hchip
    · exact hirq line rfl (line_ext (hL irq hirq') hline hchip hbit ▸ hirq')
  · rw [hret]
    trivial

theorem updates_picDisableIrq : Updates L (picDisableIrq irq') := by
  obtain ⟨line, hline, rfl⟩ | ⟨-, hret⟩ := line_cases irq'
  · rw [picDisableIrq_line hline]
    exact ⟨_, rfl, fun m hm => ⟨_, rfl, fun irq hirq hchip => getLsbD_set (hm irq hirq hchip), trivial⟩⟩
  · rw [hret]
    trivial

/-! ### `interrupt_dispatch`, up to its handler -/

/-- What `interrupt_dispatch` owes while it runs with interrupts disabled. -/
def duty (L : Nat → Prop) (irq : Nat) (spurious : Bool) : PortIo.Duty Port Byte Pics Unit where
  write port v s := Ready (device.write port v s) ∧
    (∀ c, port = .command c → v = Command.eoi → (s c).isr = lineBit irq c ∧ lineBit irq c ≠ 0) ∧
    (spurious = true → ∀ c, (device.write port v s c).imr = (s c).imr) ∧
    ∀ line, L line → Masked s line → Masked (device.write port v s) line
  call next s := spurious = false ∧ Idle s ∧ Masked s irq ∧ Updates L next
  ret _ s := Idle s

theorem lineBit_eoi (hirq : irq < 16) : lineBit irq c &&& (lineBit irq c - 1) = 0 := by
  have hall : ∀ irq, irq < 16 → ∀ c, lineBit irq c &&& (lineBit irq c - 1) = 0 := by
    intro irq hirq c
    cases c <;> revert irq <;> decide
  exact hall irq hirq c

section Dispatch

variable (hview : View s isr imr)

include hview

theorem always_readIsr {next : Byte → Io Unit}
    (hnext : ∀ s', View s' isr imr → Always device Requests (duty L irq spurious) (next (isr c)) s') :
    Always device Requests (duty L irq spurious)
      (.out (.command c) Command.readIsr (.inp (.command c) fun v => .out (.command c) Command.readIrr (next v)))
      s := by
  intro s₁ h₁
  have hview₁ := h₁.view hview
  obtain ⟨hview₂, hread⟩ := hview₁.write_readIsr (c := c)
  refine ⟨⟨hview₂.ready, fun _ _ heoi => absurd heoi (by decide), fun _ c' => ?_, fun line _ hmask => ?_⟩, ?_⟩
  · rw [hview₂.imr, hview₁.imr]
  · unfold Masked at hmask ⊢
    rwa [hview₂.imr, ← hview₁.imr]
  intro s₂ h₂
  have hisr : device.read (.command c) s₂ = isr c := by
    show (if (s₂ c).readIsr then (s₂ c).isr else (s₂ c).irr) = isr c
    rw [h₂.same_readIsr, if_pos hread, h₂.same_isr, hview₂.isr]
  rw [hisr]
  intro s₃ h₃
  have hview₃ := h₃.view (h₂.view hview₂)
  have hview₄ := hview₃.write_readIrr (c := c)
  refine ⟨⟨hview₄.ready, fun _ _ heoi => absurd heoi (by decide), fun _ c' => ?_, fun line _ hmask => ?_⟩,
    hnext _ hview₄⟩
  · rw [hview₄.imr, hview₃.imr]
  · unfold Masked at hmask ⊢
    rwa [hview₄.imr, ← hview₃.imr]

/-- An EOI for a chip that has only the interrupt that is dispatched in service. -/
theorem always_eoi (hirq : irq < 16) (hisr : isr c = lineBit irq c) (hbit : lineBit irq c ≠ 0)
    (hnext : ∀ s', View s' (Function.update isr c 0) imr → Always device Requests (duty L irq spurious) next s') :
    Always device Requests (duty L irq spurious) (.out (.command c) Command.eoi next) s := by
  intro s₁ h₁
  have hview₁ := h₁.view hview
  have hview₂ := hview₁.write_eoi (c := c)
  rw [hisr, lineBit_eoi hirq] at hview₂
  refine ⟨⟨hview₂.ready, fun c' hc' _ => ?_, fun _ c' => ?_, fun line _ hmask => ?_⟩, hnext _ hview₂⟩
  · obtain rfl := Port.command.inj hc'
    exact ⟨(hview₁.isr c).trans hisr, hbit⟩
  · rw [hview₂.imr, hview₁.imr]
  · unfold Masked at hmask ⊢
    rwa [hview₂.imr, ← hview₁.imr]

theorem always_disable (hspurious : spurious = false)
    (hnext : ∀ s', View s' isr (Function.update imr c (imr c ||| v)) →
      Always device Requests (duty L irq spurious) next s') :
    Always device Requests (duty L irq spurious) (.inp (.data c) fun m => .out (.data c) (m ||| v) next) s := by
  intro s₁ h₁ s₂ h₂
  have hread : device.read (.data c) s₁ = imr c := (h₁.view hview).imr c
  rw [hread]
  have hview₂ := h₂.view (h₁.view hview)
  have hview₃ := hview₂.write_data (c := c) (v := imr c ||| v)
  refine ⟨⟨hview₃.ready, fun c' hc' => (by cases hc'), fun hspurious' => ?_, fun line _ hmask => ?_⟩, hnext _ hview₃⟩
  · rw [hspurious] at hspurious'
    cases hspurious'
  · unfold Masked at hmask ⊢
    rw [hview₂.imr] at hmask
    rw [hview₃.imr]
    by_cases hc : chipOf line = c
    · subst hc
      rw [Function.update_self, BitVec.getLsbD_or, hmask, Bool.true_or]
    · rwa [Function.update_of_ne hc]

theorem always_picIrqReal {f : Bool → Io Unit} (hirq : irq < 16) (hline : spurious = true → irq = 7 ∨ irq = 15)
    (hisr : isr = fun c => if spurious ∧ c = chipOf irq then 0 else lineBit irq c)
    (hreal : spurious = false → ∀ s', View s' isr imr →
      Always device Requests (duty L irq spurious) (f true) s')
    (hnot : spurious = true → ∀ s', View s' (fun _ => 0) imr →
      Always device Requests (duty L irq spurious) (f false) s') :
    Always device Requests (duty L irq spurious) (picIrqReal irq >>= f) s := by
  cases spurious with
  | false =>
      have hreal := hreal rfl
      simp only [Bool.false_eq_true, false_and, if_false] at hisr
      unfold picIrqReal
      by_cases h7 : irq = 7
      · subst h7
        refine always_readIsr hview fun s' hview' => ?_
        rw [hisr]
        exact hreal s' hview'
      · by_cases h15 : irq = 15
        · subst h15
          refine always_readIsr hview fun s' hview' => ?_
          rw [hisr]
          exact hreal s' hview'
        · rw [if_pos (by omega)]
          exact hreal s hview
  | true =>
      have hnot := hnot rfl
      obtain rfl | rfl := hline rfl
      · have hzero : isr = fun _ => 0 := by
          rw [hisr]
          funext c
          cases c <;> decide
        refine always_readIsr hview fun s' hview' => ?_
        rw [hzero] at hview' ⊢
        exact hnot s' hview'
      · have hslave : isr .slave = 0 := by
          rw [hisr]
          decide
        have hmaster : isr .master = lineBit 15 .master := by
          rw [hisr]
          decide
        have hzero : Function.update isr .master 0 = fun _ => 0 := by
          funext c
          cases c with
          | master => exact Function.update_self ..
          | slave => exact (Function.update_of_ne (by decide) _ _).trans hslave
        refine always_readIsr hview fun s' hview' => ?_
        rw [hslave]
        exact always_eoi hview' (by decide) hmaster (by decide) fun s'' hview'' => hnot s'' (hzero ▸ hview'')

theorem always_picEoi {f : Unit → Io Unit} (hirq : irq < 16) (hisr : isr = lineBit irq)
    (hnext : ∀ s', View s' (fun _ => 0) imr → Always device Requests (duty L irq spurious) (f ()) s') :
    Always device Requests (duty L irq spurious) (picEoi irq >>= f) s := by
  subst hisr
  have hne : ∀ irq, irq < 16 → lineBit irq .master ≠ 0 ∧ (8 ≤ irq → lineBit irq .slave ≠ 0) ∧
      (irq < 8 → lineBit irq .slave = 0) := by decide
  obtain ⟨hmaster, hslave, hnone⟩ := hne irq hirq
  unfold picEoi
  by_cases h8 : 8 ≤ irq
  · rw [if_pos (by omega)]
    refine always_eoi hview hirq rfl (hslave h8) fun s₁ hview₁ => ?_
    refine always_eoi hview₁ hirq (Function.update_of_ne (by decide) _ _) hmaster fun s₂ hview₂ => hnext s₂ ?_
    have hzero : Function.update (Function.update (lineBit irq) .slave 0) .master 0 = fun _ => 0 := by
      funext c
      cases c <;> rfl
    rwa [hzero] at hview₂
  · rw [if_neg (by omega)]
    refine always_eoi hview hirq rfl hmaster fun s₁ hview₁ => hnext s₁ ?_
    have hzero : Function.update (lineBit irq) .master 0 = fun _ => 0 := by
      funext c
      cases c with
      | master => rfl
      | slave => exact hnone (Nat.lt_of_not_le h8)
    rwa [hzero] at hview₁

theorem interruptDispatch_always (registered : Nat → Bool) (hirq : irq < 16)
    (hline : spurious = true → irq = 7 ∨ irq = 15)
    (hisr : isr = fun c => if spurious ∧ c = chipOf irq then 0 else lineBit irq c)
    (hL : ∀ line, L line → line < 16) (hnot : spurious = false → ¬ L irq) :
    Always device Requests (duty L irq spurious) (interruptDispatch registered (picIrqOffset + irq)) s := by
  have hint : ((picIrqOffset + irq : Nat) : Int) - picIrqOffset = irq := by omega
  unfold interruptDispatch
  rw [hint, if_pos ⟨by omega, by omega⟩]
  refine always_picIrqReal hview hirq hline hisr (fun hspurious s₁ hview₁ => ?_) fun _ s₁ hview₁ => ?_
  · rw [if_pos rfl, picDisableIrq_line hirq]
    refine always_disable hview₁ hspurious fun s₂ hview₂ => ?_
    have hisr' : isr = lineBit irq := by
      rw [hisr, hspurious]
      simp
    refine always_picEoi hview₂ hirq hisr' fun s₃ hview₃ => ?_
    unfold callHandler
    split
    · refine fun s₄ h₄ => ⟨hspurious, (h₄.view hview₃).isr, ?_, updates_picEnableIrq hL fun line heq => ?_⟩
      · unfold Masked
        rw [(h₄.view hview₃).imr, Function.update_self]
        exact getLsbD_set_self (Nat.mod_lt _ (by decide))
      · obtain rfl : line = irq := by omega
        exact hnot hspurious
    · trivial
  · exact fun s₂ h₂ => h₂.idle hview₁.isr

end Dispatch

/-- What the chips show when they have delivered an interrupt. -/
theorem View.deliver (h : View s (fun _ => 0) imr) (irq : Nat) (spurious : Bool) :
    View (deliver irq spurious s) (fun c => if spurious ∧ c = chipOf irq then 0 else lineBit irq c) imr where
  ready := ⟨h.ready.icw, h.ready.master, h.ready.slave⟩
  isr c := by
    show (if spurious ∧ c = chipOf irq then (s c).isr else (s c).isr ||| lineBit irq c) = _
    rw [h.isr c]
    split
    · rfl
    · exact BitVec.zero_or
  imr := h.imr

theorem vector_eq (h : Ready s) (hirq : irq < 16) : vector s irq = picIrqOffset + irq := by
  unfold vector
  by_cases h8 : irq < 8
  · obtain ⟨hchip, hbit⟩ := chipOf_master h8
    rw [hchip, hbit, h.master]
    rfl
  · obtain ⟨hchip, hbit⟩ := chipOf_slave hirq (Nat.not_lt.mp h8)
    have hsum : 40 + (irq - 8) = picIrqOffset + irq := by
      unfold picIrqOffset
      omega
    rw [hchip, hbit, h.slave]
    exact hsum

/-- `pic_init` leaves the chips ready, with nothing in service and all lines masked but the cascade. -/
theorem picInit_exec (s : Pics) : ∃ s', (picInit picIrqOffset).exec device s = some ((), s') ∧
    View s' (fun _ => 0) fun c => match c with | .master => 0xfb | .slave => 0xff := by
  refine ⟨_, rfl, ⟨fun c => ?_, ?_, ?_⟩, fun c => ?_, fun c => ?_⟩
  · cases c <;> rfl
  · rfl
  · rfl
  · cases c <;> rfl
  · cases c <;> rfl

end Kiznix.Pic
