import Kiznix.PicProtocol

/-! Runs of many threads. Interrupts are accepted only where nothing is in service; a handler's line stays
masked as long as no other thread unmasks it behind its back. -/

namespace Kiznix.Pic

open PortIo (Always)

variable {T : Type} {s s' : State T} {pics pics' : Pics} {clean : Prop} {a : Activation} {d : Dispatch}
  {stack rest : List Activation} {irq : Nat} {p : Io Unit} {registered : Nat → Bool}

/-- The lines that have to stay masked; none where runs need not be clean. -/
def Guards (clean : Prop) (stack : List Activation) (irq : Nat) : Prop := clean ∧ Unfinished stack irq

/-- What may be interrupted: only mask updates are left, perhaps after a handler. -/
def Settled (L : Nat → Prop) : Activation → Prop
  | .call p => Updates L p
  | .dispatch d => (d.spurious = true → d.rest = .ret ()) ∧
      (Updates L d.rest ∨ ∃ next, d.rest = .call next ∧ Updates L next)

def Chain (clean : Prop) : List Activation → Prop
  | [] => True
  | a :: rest => Settled (Guards clean rest) a ∧ Chain clean rest

/-- An access is next, or the machine has stopped. -/
def Pending : Io Unit → Prop
  | .out _ _ _ => True
  | .inp _ _ => True
  | .fail => True
  | _ => False

/-- `interrupt_dispatch` has not come to its handler. -/
def Entering (clean : Prop) (pics : Pics) (d : Dispatch) (rest : List Activation) : Prop :=
  ∃ irq, irq < 16 ∧ d.interrupt = picIrqOffset + irq ∧
    Always device Requests (duty (Guards clean rest) irq d.spurious) d.rest pics

structure Inv (clean : Prop) (s : State T) : Prop where
  ready : Ready s.pics
  others : ∀ t, t ≠ s.current → Chain clean (s.stack t)
  since : ∀ t, t ≠ s.current → ∀ irq, Guards clean (s.stack t) irq → ¬ s.unmaskedSince t irq →
    Masked s.pics irq
  running : Chain clean (s.stack s.current) ∧ Idle s.pics ∨
    s.flag = false ∧ ∃ d rest, s.stack s.current = .dispatch d :: rest ∧ Pending d.rest ∧
      Entering clean s.pics d rest ∧ Chain clean rest
  masked : ∀ irq, Guards clean (s.stack s.current) irq → Masked s.pics irq

/-! ### Stacks -/

theorem unfinished_nil : ¬ Unfinished [] irq := fun ⟨_, h, _⟩ => List.not_mem_nil h

theorem unfinished_dispatch : Unfinished (.dispatch d :: rest) irq ↔ d.Handling irq ∨ Unfinished rest irq := by
  unfold Unfinished
  constructor
  · rintro ⟨d', hmem, hd'⟩
    obtain heq | hmem := List.mem_cons.mp hmem
    · obtain rfl := Activation.dispatch.inj heq
      exact Or.inl hd'
    · exact Or.inr ⟨d', hmem, hd'⟩
  · rintro (hd | ⟨d', hmem, hd'⟩)
    · exact ⟨d, List.mem_cons_self, hd⟩
    · exact ⟨d', List.mem_cons_of_mem _ hmem, hd'⟩

theorem unfinished_call : Unfinished (.call p :: rest) irq ↔ Unfinished rest irq := by
  unfold Unfinished
  constructor
  · rintro ⟨d', hmem, hd'⟩
    exact ⟨d', (List.mem_cons.mp hmem).resolve_left (by simp), hd'⟩
  · rintro ⟨d', hmem, hd'⟩
    exact ⟨d', List.mem_cons_of_mem _ hmem, hd'⟩

theorem unfinished_tail (h : Unfinished rest irq) : Unfinished (a :: rest) irq := by
  obtain ⟨d, hmem, hd⟩ := h
  exact ⟨d, List.mem_cons_of_mem _ hmem, hd⟩

/-- An activation that is not in a handler has no line to keep masked. -/
theorem unfinished_cons (ha : ∀ next, a.rest ≠ .call next) : Unfinished (a :: rest) irq ↔ Unfinished rest irq := by
  cases a with
  | call p => exact unfinished_call
  | dispatch d =>
      refine unfinished_dispatch.trans ⟨fun h => h.resolve_left ?_, Or.inr⟩
      rintro ⟨-, -, -, next, hnext⟩
      exact ha next hnext

theorem guards_cons (ha : ∀ next, a.rest ≠ .call next) (h : Guards clean (a :: rest) irq) :
    Guards clean rest irq := ⟨h.1, (unfinished_cons ha).mp h.2⟩

theorem guards_lt (h : Guards clean stack irq) : irq < 16 := by
  obtain ⟨-, d, -, -, hlt, -⟩ := h
  exact hlt

theorem rest_resume (a : Activation) (p : Io Unit) : (a.resume p).rest = p := by
  cases a <;> rfl

theorem not_call_resume {L : Nat → Prop} (h : Updates L p) (next : Io Unit) : (a.resume p).rest ≠ .call next := by
  rw [rest_resume]
  rintro rfl
  exact h

/-- Between accesses a settled activation goes on with mask updates. -/
theorem Settled.updates {L : Nat → Prop} (h : Settled L a) (ha : Pending a.rest) : Updates L a.rest := by
  cases a with
  | call p => exact h
  | dispatch d =>
      refine h.2.resolve_right ?_
      rintro ⟨next, hnext, -⟩
      have ha : Pending d.rest := ha
      rw [hnext] at ha
      exact ha

theorem Settled.resume {L : Nat → Prop} (h : Settled L a) (ha : Pending a.rest) (hp : Updates L p) :
    Settled L (a.resume p) := by
  cases a with
  | call => exact hp
  | dispatch d =>
      refine ⟨fun hspurious => ?_, Or.inl hp⟩
      have ha : Pending d.rest := ha
      rw [h.1 hspurious] at ha
      exact ha.elim

/-- A settled activation that runs C code is in a handler. -/
theorem Settled.handler {L : Nat → Prop} (h : Settled L (.dispatch d)) {next : Io Unit} (hd : d.rest = .call next) :
    d.spurious = false ∧ Updates L next := by
  obtain ⟨hspurious, hrest⟩ := h
  rw [hd] at hspurious hrest
  refine ⟨Bool.eq_false_iff.mpr fun htrue => ?_, ?_⟩
  · cases hspurious htrue
  · obtain hrest | ⟨next', heq, hnext⟩ := hrest
    · exact hrest.elim
    · obtain rfl := PortIo.call.inj heq
      exact hnext

/-- `interrupt_dispatch` is at an access, has stopped the machine, is in its handler or is over. -/
theorem Entering.cases (h : Entering clean pics d rest) :
    Pending d.rest ∨ Settled (Guards clean rest) (.dispatch d) ∧ Idle pics ∧
      ∀ irq, d.Handling irq → Masked pics irq := by
  obtain ⟨irq, hirq, hinterrupt, halways⟩ := h
  cases hrest : d.rest with
  | out port v next => exact Or.inl trivial
  | inp port next => exact Or.inl trivial
  | fail => exact Or.inl trivial
  | ret _ =>
      rw [hrest] at halways
      refine Or.inr ⟨⟨fun _ => hrest, Or.inl ?_⟩, halways pics (Requests.refl pics), fun irq hd => ?_⟩
      · rw [hrest]
        trivial
      · obtain ⟨-, -, -, next, hnext⟩ := hd
        rw [hrest] at hnext
        cases hnext
  | call next =>
      rw [hrest] at halways
      obtain ⟨hspurious, hidle, hmasked, hupdates⟩ := halways pics (Requests.refl pics)
      refine Or.inr ⟨⟨fun htrue => ?_, Or.inr ⟨next, hrest, hupdates⟩⟩, hidle, fun irq' hd => ?_⟩
      · rw [hspurious] at htrue
        cases htrue
      · obtain ⟨hinterrupt', -⟩ := hd
        obtain rfl : irq' = irq := by omega
        exact hmasked

/-! ### Steps -/

theorem initial_inv (h : Initial s) : Inv clean s where
  ready := h.ready
  others t _ := by
    rw [h.stack]
    trivial
  since t _ irq hirq := by
    rw [h.stack] at hirq
    exact absurd hirq.2 unfinished_nil
  running := by
    rw [h.stack]
    exact Or.inl ⟨trivial, h.idle⟩
  masked irq hirq := by
    rw [h.stack] at hirq
    exact absurd hirq.2 unfinished_nil

/-- When a handler unmasks its line, the line is no longer one to keep. -/
theorem markUnmasked_spec {irq : Int} (hchain : Chain clean stack)
    (hrest : ∀ line : Nat, clean → Unfinished stack.tail line → (line : Int) ≠ irq) :
    Chain clean (markUnmasked irq stack) ∧ ∀ line, Guards clean (markUnmasked irq stack) line →
      Guards clean stack line ∧ (line : Int) ≠ irq := by
  match stack with
  | [] => exact ⟨trivial, fun line hline => absurd hline.2 unfinished_nil⟩
  | .call p :: rest => exact ⟨hchain, fun line hline => ⟨hline, hrest line hline.1 (unfinished_call.mp hline.2)⟩⟩
  | .dispatch d :: rest =>
      by_cases heq : (d.interrupt : Int) = picIrqOffset + irq
      · simp only [markUnmasked, if_pos heq]
        refine ⟨hchain, fun line hline => ?_⟩
        have hline' : Unfinished rest line := by
          refine (unfinished_dispatch.mp hline.2).resolve_left ?_
          rintro ⟨-, -, hunmasked, -⟩
          cases hunmasked
        exact ⟨⟨hline.1, unfinished_tail hline'⟩, hrest line hline.1 hline'⟩
      · simp only [markUnmasked, if_neg heq]
        refine ⟨hchain, fun line hline => ⟨hline, ?_⟩⟩
        obtain ⟨hinterrupt, -⟩ | hline' := unfinished_dispatch.mp hline.2
        · omega
        · exact hrest line hline.1 hline'

/-- Nothing changes for other threads when no line is unmasked. -/
theorem same_masks (hkeep : ∀ irq, Masked s.pics irq → Masked pics' irq) :
    ∀ t, t ≠ s.current → ∀ irq, ¬ s.unmaskedSince t irq →
      ¬ s.unmaskedSince t irq ∧ (Masked s.pics irq → Masked pics' irq) :=
  fun _ _ irq hnot => ⟨hnot, hkeep irq⟩

section Step

variable (h : Inv clean s)

include h

theorem Inv.in_code (hcode : InCode (s.stack s.current)) : Chain clean (s.stack s.current) ∧ Idle s.pics := by
  refine h.running.resolve_right ?_
  rintro ⟨-, d, rest, hstack, hpending, -⟩
  rw [hstack] at hcode
  obtain ⟨next, hnext⟩ := hcode
  rw [hnext] at hpending
  exact hpending

theorem Inv.interruptible (hflag : s.flag = true) : Chain clean (s.stack s.current) ∧ Idle s.pics := by
  refine h.running.resolve_right ?_
  rintro ⟨hflag', -⟩
  rw [hflag] at hflag'
  cases hflag'

variable [DecidableEq T]

/-- The running thread gets another stack; the chips, if they change, keep the masks that others need. -/
theorem Inv.local_step {flag : Bool} {since : T → Nat → Prop} (hready : Ready pics')
    (hsince : ∀ t, t ≠ s.current → ∀ irq, ¬ since t irq → ¬ s.unmaskedSince t irq ∧
      (Masked s.pics irq → Masked pics' irq))
    (hrunning : Chain clean stack ∧ Idle pics' ∨ flag = false ∧ ∃ d rest, stack = .dispatch d :: rest ∧
      Pending d.rest ∧ Entering clean pics' d rest ∧ Chain clean rest)
    (hmasked : ∀ irq, Guards clean stack irq → Masked pics' irq) :
    Inv clean
      { s with
        pics := pics'
        flag := flag
        stack := Function.update s.stack s.current stack
        unmaskedSince := since } where
  ready := hready
  others t ht := by
    dsimp only
    rw [Function.update_of_ne ht]
    exact h.others t ht
  since t ht irq hirq hnot := by
    dsimp only at hirq hnot ⊢
    rw [Function.update_of_ne ht] at hirq
    obtain ⟨hnot', hkeep⟩ := hsince t ht irq hnot
    exact hkeep (h.since t ht irq hirq hnot')
  running := by
    dsimp only
    rwa [Function.update_self]
  masked irq hirq := by
    dsimp only at hirq
    rw [Function.update_self] at hirq
    exact hmasked irq hirq

/-- The same, when `interrupt_dispatch` goes on before its handler. -/
theorem Inv.entering_step {flag : Bool} {since : T → Nat → Prop} (hflag : flag = false) (hready : Ready pics')
    (hsince : ∀ t, t ≠ s.current → ∀ irq, ¬ since t irq → ¬ s.unmaskedSince t irq ∧
      (Masked s.pics irq → Masked pics' irq))
    (hentering : Entering clean pics' d rest) (hchain : Chain clean rest)
    (hmasked : ∀ irq, Guards clean rest irq → Masked pics' irq) :
    Inv clean
      { s with
        pics := pics'
        flag := flag
        stack := Function.update s.stack s.current (.dispatch d :: rest)
        unmaskedSince := since } := by
  obtain hpending | ⟨hsettled, hidle, hhandling⟩ := hentering.cases
  · refine h.local_step hready hsince (Or.inr ⟨hflag, d, rest, rfl, hpending, hentering, hchain⟩) fun irq hirq => ?_
    refine hmasked irq (guards_cons (fun next hnext => ?_) hirq)
    have hnext : d.rest = .call next := hnext
    rw [hnext] at hpending
    exact hpending
  · refine h.local_step hready hsince (Or.inl ⟨⟨hsettled, hchain⟩, hidle⟩) fun irq hirq => ?_
    obtain hd | hrest := unfinished_dispatch.mp hirq.2
    · exact hhandling irq hd
    · exact hmasked irq ⟨hirq.1, hrest⟩

theorem Inv.write_step {port : Port} {v : Byte} {next : Io Unit} (hstack : s.stack s.current = a :: rest)
    (ha : a.rest = .out port v next) :
    Inv clean
      { s with
        pics := device.write port v s.pics
        stack := Function.update s.stack s.current (a.resume next :: rest)
        unmaskedSince := fun t irq => s.unmaskedSince t irq ∨
          Masked s.pics irq ∧ ¬ Masked (device.write port v s.pics) irq } := by
  have hpending : Pending a.rest := by
    rw [ha]
    trivial
  have hnot : ∀ next, a.rest ≠ .call next := fun next' hnext => by
    rw [ha] at hnext
    cases hnext
  have hmasked : ∀ irq, Guards clean rest irq → Masked s.pics irq := by
    intro irq hirq
    refine h.masked irq ?_
    rw [hstack]
    exact ⟨hirq.1, unfinished_tail hirq.2⟩
  have hsince : ∀ t, t ≠ s.current → ∀ irq,
      ¬ (s.unmaskedSince t irq ∨ Masked s.pics irq ∧ ¬ Masked (device.write port v s.pics) irq) →
      ¬ s.unmaskedSince t irq ∧ (Masked s.pics irq → Masked (device.write port v s.pics) irq) := by
    intro t _ irq hnot
    obtain ⟨hsince, hunmasked⟩ := not_or.mp hnot
    refine ⟨hsince, fun hmask => ?_⟩
    by_contra hnot'
    exact hunmasked ⟨hmask, hnot'⟩
  obtain ⟨hchain, hidle⟩ | ⟨hflag, d, rest', hstack', -, hentering, hchain⟩ := h.running
  · rw [hstack] at hchain
    obtain ⟨hsettled, hchain⟩ := hchain
    have hupdates := hsettled.updates hpending
    rw [ha] at hupdates
    obtain ⟨c, rfl, hkeeps, hnext⟩ := hupdates
    have hview : View s.pics (fun _ => 0) fun c => (s.pics c).imr := ⟨h.ready, hidle, fun _ => rfl⟩
    have hview' := hview.write_data (c := c) (v := v)
    refine h.local_step hview'.ready hsince
      (Or.inl ⟨⟨hsettled.resume hpending hnext, hchain⟩, hview'.isr⟩) fun irq hirq => ?_
    have hirq : Guards clean rest irq := guards_cons (not_call_resume hnext) hirq
    have hmask := hmasked irq hirq
    unfold Masked at hmask ⊢
    rw [hview'.imr]
    by_cases hc : chipOf irq = c
    · subst hc
      rw [Function.update_self]
      exact hkeeps irq hirq rfl
    · rwa [Function.update_of_ne hc]
  · obtain ⟨rfl, rfl⟩ := List.cons.inj (hstack.symm.trans hstack')
    obtain ⟨irq, hirq, hinterrupt, halways⟩ := hentering
    have ha : d.rest = .out port v next := ha
    rw [ha] at halways
    obtain ⟨⟨hready, -, -, hkeep⟩, halways⟩ := halways.out_step (Requests.refl _)
    exact h.entering_step (d := { d with rest := next }) hflag hready hsince ⟨irq, hirq, hinterrupt, halways⟩
      hchain fun irq hirq => hkeep irq hirq (hmasked irq hirq)

theorem Inv.read_step {port : Port} {next : Byte → Io Unit} (hstack : s.stack s.current = a :: rest)
    (ha : a.rest = .inp port next) :
    Inv clean
      { s with
        stack := Function.update s.stack s.current (a.resume (next (device.read port s.pics)) :: rest) } := by
  have hpending : Pending a.rest := by
    rw [ha]
    trivial
  have hmasked : ∀ irq, Guards clean rest irq → Masked s.pics irq := by
    intro irq hirq
    refine h.masked irq ?_
    rw [hstack]
    exact ⟨hirq.1, unfinished_tail hirq.2⟩
  have hsince : ∀ t, t ≠ s.current → ∀ irq, ¬ s.unmaskedSince t irq →
      ¬ s.unmaskedSince t irq ∧ (Masked s.pics irq → Masked s.pics irq) := fun _ _ _ hnot => ⟨hnot, id⟩
  obtain ⟨hchain, hidle⟩ | ⟨hflag, d, rest', hstack', -, hentering, hchain⟩ := h.running
  · rw [hstack] at hchain
    obtain ⟨hsettled, hchain⟩ := hchain
    have hupdates := hsettled.updates hpending
    rw [ha] at hupdates
    obtain ⟨c, rfl, hnext⟩ := hupdates
    have hnext := hnext (s.pics c).imr fun irq hirq hc => hc ▸ hmasked irq hirq
    refine h.local_step h.ready hsince (Or.inl ⟨⟨hsettled.resume hpending hnext, hchain⟩, hidle⟩) fun irq hirq => ?_
    exact hmasked irq (guards_cons (not_call_resume hnext) hirq)
  · obtain ⟨rfl, rfl⟩ := List.cons.inj (hstack.symm.trans hstack')
    obtain ⟨irq, hirq, hinterrupt, halways⟩ := hentering
    have ha : d.rest = .inp port next := ha
    rw [ha] at halways
    exact h.entering_step (d := { d with rest := next (device.read port s.pics) }) hflag h.ready hsince
      ⟨irq, hirq, hinterrupt, halways.inp_step (Requests.refl _)⟩ hchain hmasked

theorem Inv.done_step (hstack : s.stack s.current = .call (.ret ()) :: rest) :
    Inv clean { s with stack := Function.update s.stack s.current rest } := by
  have hcalled : Chain clean (s.stack s.current) ∧ Idle s.pics := by
    refine h.running.resolve_right ?_
    rintro ⟨-, d, rest', hstack', -⟩
    rw [hstack] at hstack'
    cases hstack'
  rw [hstack] at hcalled
  refine h.local_step h.ready (same_masks fun _ => id) (Or.inl ⟨hcalled.1.2, hcalled.2⟩) fun irq hirq => ?_
  refine h.masked irq ?_
  rw [hstack]
  exact ⟨hirq.1, unfinished_tail hirq.2⟩

theorem Inv.handled_step {next : Io Unit} (hstack : s.stack s.current = .dispatch d :: rest)
    (hd : d.rest = .call next) :
    Inv clean
      { s with stack := Function.update s.stack s.current (.dispatch { d with rest := next } :: rest) } := by
  obtain ⟨hchain, hidle⟩ := h.in_code (by rw [hstack]; exact ⟨next, hd⟩)
  rw [hstack] at hchain
  obtain ⟨hspurious, hnext⟩ := hchain.1.handler hd
  refine h.local_step h.ready (same_masks fun _ => id)
    (Or.inl ⟨⟨⟨fun htrue => ?_, Or.inl hnext⟩, hchain.2⟩, hidle⟩) fun irq hirq => ?_
  · rw [hspurious] at htrue
    cases htrue
  · refine h.masked irq ?_
    rw [hstack]
    have hirq := guards_cons (not_call_resume (a := .dispatch d) hnext) hirq
    exact ⟨hirq.1, unfinished_tail hirq.2⟩

theorem Inv.iret_step (hstack : s.stack s.current = .dispatch d :: rest) (hd : d.rest = .ret ()) :
    Inv clean { s with flag := d.flag, stack := Function.update s.stack s.current rest } := by
  have hover : Chain clean (s.stack s.current) ∧ Idle s.pics := by
    refine h.running.resolve_right ?_
    rintro ⟨-, d', rest', hstack', hpending, -⟩
    obtain ⟨heq, -⟩ := List.cons.inj (hstack.symm.trans hstack')
    obtain rfl := Activation.dispatch.inj heq
    rw [hd] at hpending
    exact hpending
  rw [hstack] at hover
  refine h.local_step h.ready (same_masks fun _ => id) (Or.inl ⟨hover.1.2, hover.2⟩) fun irq hirq => ?_
  refine h.masked irq ?_
  rw [hstack]
  exact ⟨hirq.1, unfinished_tail hirq.2⟩

omit [DecidableEq T] in
theorem Inv.request_step (hpics : Requests s.pics pics') : Inv clean { s with pics := pics' } where
  ready := hpics.ready h.ready
  others := h.others
  since t ht irq hirq hnot := hpics.masked (h.since t ht irq hirq hnot)
  running := by
    refine h.running.imp (fun hrun => ⟨hrun.1, hpics.idle hrun.2⟩) ?_
    rintro ⟨hflag, d, rest, hstack, hpending, ⟨irq, hirq, hinterrupt, halways⟩, hchain⟩
    exact ⟨hflag, d, rest, hstack, hpending,
      ⟨irq, hirq, hinterrupt, halways.stable hpics fun _ _ _ => Requests.trans⟩, hchain⟩
  masked irq hirq := hpics.masked (h.masked irq hirq)

theorem Inv.interrupt_step {spurious : Bool} (hflag : s.flag = true) (hirq : Deliverable s.pics irq spurious) :
    Inv clean
      { s with
        pics := deliver irq spurious s.pics
        flag := false
        stack := Function.update s.stack s.current (.dispatch
          { interrupt := vector s.pics irq
            spurious := spurious
            unmasked := false
            flag := s.flag
            rest := interruptDispatch registered (vector s.pics irq) } :: s.stack s.current) } := by
  obtain ⟨hchain, hidle⟩ := h.interruptible hflag
  have hview : View s.pics (fun _ => 0) fun c => (s.pics c).imr := ⟨h.ready, hidle, fun _ => rfl⟩
  have hview' := hview.deliver irq spurious
  have hlt : irq < 16 := by
    cases spurious with
    | false => exact hirq.1
    | true =>
        obtain rfl | rfl := hirq
        · decide
        · decide
  have hline : spurious = true → irq = 7 ∨ irq = 15 := by
    rintro rfl
    exact hirq
  rw [vector_eq h.ready hlt]
  refine h.entering_step rfl hview'.ready (same_masks fun _ => id) ?_ hchain h.masked
  refine ⟨irq, hlt, rfl, interruptDispatch_always hview' registered hlt hline rfl (fun _ => guards_lt) ?_⟩
  rintro rfl hguards
  exact hirq.2.2.2.1 (h.masked irq hguards)

theorem Inv.exception_step {interrupt : Nat} (hcode : InCode (s.stack s.current))
    (hinterrupt : interrupt < picIrqOffset ∨ picIrqOffset + 16 ≤ interrupt) :
    Inv clean
      { s with
        flag := false
        stack := Function.update s.stack s.current (.dispatch
          { interrupt := interrupt
            spurious := false
            unmasked := false
            flag := s.flag
            rest := interruptDispatch registered interrupt } :: s.stack s.current) } := by
  obtain ⟨hchain, hidle⟩ := h.in_code hcode
  have hdispatch : interruptDispatch registered interrupt = callHandler registered interrupt (.ret ()) := by
    unfold interruptDispatch
    rw [if_neg (by unfold picIrqOffset at hinterrupt ⊢; omega)]
    rfl
  rw [hdispatch]
  refine h.local_step h.ready (same_masks fun _ => id) (Or.inl ⟨⟨⟨fun htrue => ?_, ?_⟩, hchain⟩, hidle⟩)
    fun irq hirq => ?_
  · cases htrue
  · unfold callHandler
    split
    · exact Or.inr ⟨_, rfl, trivial⟩
    · exact Or.inl trivial
  · refine h.masked irq ⟨hirq.1, (unfinished_dispatch.mp hirq.2).resolve_left ?_⟩
    rintro ⟨heq, hlt, -⟩
    have heq : interrupt = picIrqOffset + irq := heq
    omega

theorem Inv.enable_step {irq : Int} (hcode : InCode (s.stack s.current))
    (hclean : clean → Clean s (.enable irq)) :
    Inv clean
      { s with
        stack := Function.update s.stack s.current
          (.call (picEnableIrq irq) :: markUnmasked irq (s.stack s.current)) } := by
  obtain ⟨hchain, hidle⟩ := h.in_code hcode
  have hmark := markUnmasked_spec hchain fun line hc hline heq => hclean hc line heq hline
  refine h.local_step h.ready (same_masks fun _ => id) (Or.inl ⟨⟨?_, hmark.1⟩, hidle⟩) fun line hline => ?_
  · exact updates_picEnableIrq (fun _ => guards_lt) fun line heq hline => (hmark.2 line hline).2 heq
  · exact h.masked line (hmark.2 line ⟨hline.1, unfinished_call.mp hline.2⟩).1

theorem Inv.disable_step {irq : Int} (hcode : InCode (s.stack s.current)) :
    Inv clean
      { s with
        stack := Function.update s.stack s.current (.call (picDisableIrq irq) :: s.stack s.current) } := by
  obtain ⟨hchain, hidle⟩ := h.in_code hcode
  refine h.local_step h.ready (same_masks fun _ => id) (Or.inl ⟨⟨updates_picDisableIrq, hchain⟩, hidle⟩)
    fun line hline => ?_
  exact h.masked line ⟨hline.1, unfinished_call.mp hline.2⟩

theorem Inv.switch_step {t : T} (hcode : InCode (s.stack s.current)) (hne : t ≠ s.current)
    (hclean : clean → Clean s (.switch t)) :
    Inv clean
      { s with
        current := t
        unmaskedSince := Function.update s.unmaskedSince s.current fun _ => False } where
  ready := h.ready
  others t' _ := by
    by_cases hcur : t' = s.current
    · subst hcur
      exact (h.in_code hcode).1
    · exact h.others t' hcur
  since t' _ irq hirq hnot := by
    by_cases hcur : t' = s.current
    · subst hcur
      exact h.masked irq hirq
    · dsimp only at hnot
      rw [Function.update_of_ne hcur] at hnot
      exact h.since t' hcur irq hirq hnot
  running := Or.inl ⟨h.others t hne, (h.in_code hcode).2⟩
  masked irq hirq := by
    by_cases hsince : s.unmaskedSince t irq
    · exact h.masked irq ⟨hirq.1, hclean hirq.1 irq hirq.2 hsince⟩
    · exact h.since t hne irq hirq hsince

theorem Inv.step {a : Action T} (hstep : Step registered s a s') (hclean : clean → Clean s a) : Inv clean s' := by
  cases hstep with
  | write a rest port v next hstack ha => exact h.write_step hstack ha
  | read a rest port next hstack ha => exact h.read_step hstack ha
  | done rest hstack => exact h.done_step hstack
  | handled d rest next hstack hd => exact h.handled_step hstack hd
  | iret d rest hstack hd => exact h.iret_step hstack hd
  | request pics hpics => exact h.request_step hpics
  | interrupt irq spurious hflag hirq => exact h.interrupt_step hflag hirq
  | exception interrupt hcode hinterrupt => exact h.exception_step hcode hinterrupt
  | setFlag flag hcode => exact { h with running := Or.inl (h.in_code hcode) }
  | enable irq hcode => exact h.enable_step hcode hclean
  | disable irq hcode => exact h.disable_step hcode
  | switch t hcode hne => exact h.switch_step hcode hne hclean

end Step

theorem run_inv [DecidableEq T] {s₀ : State T} (h₀ : Initial s₀) (hrun : Run registered clean s₀ s) : Inv clean s := by
  induction hrun with
  | start => exact initial_inv h₀
  | step _ hstep hclean ih => exact ih.step hstep hclean

/-- No activation below the innermost one is in `interrupt_dispatch` before its handler. -/
theorem Chain.spurious (h : Chain clean stack) (hmem : .dispatch d ∈ stack) (hspurious : d.spurious = true) :
    d.rest = .ret () := by
  induction stack with
  | nil => exact absurd hmem List.not_mem_nil
  | cons a rest ih =>
      obtain heq | hmem := List.mem_cons.mp hmem
      · subst heq
        exact h.1.1 hspurious
      · exact ih h.2 hmem

/-- Where a write comes next, it is to a mask register or one that `interrupt_dispatch` owes. -/
theorem Inv.next_write {port : Port} {v : Byte} (h : Inv clean s) (hnext : Next s a port v) :
    (∃ c, port = .data c) ∧ (∀ d, a = .dispatch d → d.spurious = false) ∨
      ∃ d irq L, a = .dispatch d ∧ irq < 16 ∧ d.interrupt = picIrqOffset + irq ∧
        (duty L irq d.spurious).write port v s.pics := by
  obtain ⟨rest, next, hstack, ha⟩ := hnext
  obtain ⟨hchain, -⟩ | ⟨-, d, rest', hstack', -, ⟨irq, hirq, hinterrupt, halways⟩, -⟩ := h.running
  · rw [hstack] at hchain
    have hupdates := hchain.1.updates (by rw [ha]; trivial)
    rw [ha] at hupdates
    obtain ⟨c, hc, -⟩ := hupdates
    refine Or.inl ⟨⟨c, hc⟩, fun d hd => ?_⟩
    subst hd
    refine Bool.eq_false_iff.mpr fun htrue => ?_
    have hret : d.rest = .ret () := hchain.1.1 htrue
    have ha : d.rest = .out port v next := ha
    rw [hret] at ha
    cases ha
  · obtain ⟨rfl, -⟩ := List.cons.inj (hstack.symm.trans hstack')
    have ha : d.rest = .out port v next := ha
    rw [ha] at halways
    exact Or.inr ⟨d, irq, _, rfl, hirq, hinterrupt, (halways.out_step (Requests.refl _)).1⟩

theorem Inv.acknowledged (h : Inv clean s) : Acknowledged s where
  interrupts hflag := (h.interruptible hflag).2
  code hcode := (h.in_code hcode).2
  eoi a c hnext := by
    obtain ⟨⟨c', hc'⟩, -⟩ | ⟨d, irq, L, rfl, hirq, hinterrupt, -, heoi, -⟩ := h.next_write hnext
    · cases hc'
    · obtain ⟨hisr, hbit⟩ := heoi c rfl rfl
      refine ⟨irq, d, rfl, hinterrupt, hisr, hbit, ?_⟩
      have hview : View s.pics (fun c => (s.pics c).isr) fun c => (s.pics c).imr :=
        ⟨h.ready, fun _ => rfl, fun _ => rfl⟩
      rw [hview.write_eoi.isr, Function.update_self, hisr, lineBit_eoi hirq]
  spurious t d hmem hspurious next := by
    have hsettled : ∀ stack, Chain clean stack → .dispatch d ∈ stack → d.rest ≠ .call next := by
      intro stack hchain hmem
      rw [hchain.spurious hmem hspurious]
      simp
    by_cases ht : t = s.current
    · subst ht
      obtain ⟨hchain, -⟩ | ⟨-, d', rest, hstack, hpending, -, hchain⟩ := h.running
      · exact hsettled _ hchain hmem
      · rw [hstack] at hmem
        obtain heq | hmem := List.mem_cons.mp hmem
        · obtain rfl := Activation.dispatch.inj heq
          intro hcall
          rw [hcall] at hpending
          exact hpending
        · exact hsettled _ hchain hmem
    · exact hsettled _ (h.others t ht) hmem
  masks d port v hnext hspurious := by
    obtain ⟨-, hreal⟩ | ⟨d', irq, L, heq, -, -, -, -, hmasks, -⟩ := h.next_write hnext
    · rw [hreal d rfl] at hspurious
      cases hspurious
    · obtain rfl := Activation.dispatch.inj heq
      exact hmasks hspurious

/-- Whenever an interrupt can be accepted nothing is in service, each EOI is written for the interrupt that
is dispatched, spurious interrupts run no handler and leave the masks, in all runs; in clean runs a handler's
line is masked until the handler unmasks it. -/
theorem pic_protocol [DecidableEq T] (registered : Nat → Bool) (clean : Prop) (s₀ s : State T) (h₀ : Initial s₀)
    (hrun : Run registered clean s₀ s) : Acknowledged s ∧ (clean → HandlersMasked s) := by
  have hinv := run_inv h₀ hrun
  exact ⟨hinv.acknowledged, fun hclean irq hirq => hinv.masked irq ⟨hclean, hirq⟩⟩

/-- After `pic_init` and `timer_init`, when the timer has ticked. -/
def tickedState : State Bool where
  pics
    | .master => { irr := 1, isr := 0, imr := 0xfa, readIsr := false, icw := 0, offset := 32 }
    | .slave => { irr := 0, isr := 0, imr := 0xff, readIsr := false, icw := 0, offset := 40 }
  flag := true
  current := false
  stack := fun _ => []
  unmaskedSince := fun _ _ => False

theorem tickedState_initial : Initial tickedState :=
  ⟨⟨fun c => by cases c <;> rfl, rfl, rfl⟩, fun c => by cases c <;> rfl, fun _ => rfl⟩

/-- The timer's handler has been called. -/
theorem tickedState_run (clean : Prop) : ∃ s, Run (fun _ => true) clean tickedState s ∧
    (∃ d next, s.stack false = [.dispatch d] ∧ d.interrupt = 32 ∧ d.unmasked = false ∧ d.rest = .call next) ∧
    s.current = false ∧ s.stack true = [] ∧ (s.pics .master).icw = 0 := by
  have htick : Step (fun _ => true) tickedState (.interrupt 0 false) _ :=
    .interrupt 0 false rfl ⟨by decide, by decide, by unfold Requested; decide, by unfold Masked; decide,
      fun h => absurd h (by decide)⟩
  have hstart : Run (fun _ => true) clean tickedState tickedState := .start
  have hread := (hstart.step htick fun _ => trivial).step (.read _ [] _ _ rfl rfl) fun _ => trivial
  have hdisabled := hread.step (.write _ [] _ _ _ rfl rfl) fun _ => trivial
  have hacknowledged := hdisabled.step (.write _ [] _ _ _ rfl rfl) fun _ => trivial
  exact ⟨_, hacknowledged, ⟨_, _, rfl, rfl, rfl, rfl⟩, rfl, rfl, rfl⟩

theorem pic_protocol_ticked : ∃ s, Run (fun _ => true) True tickedState s ∧ Unfinished (s.stack s.current) 0 ∧
    Masked s.pics 0 ∧ Idle s.pics := by
  obtain ⟨s, hrun, ⟨d, next, hstack, hinterrupt, hunmasked, hd⟩, hcurrent, -, -⟩ := tickedState_run True
  obtain ⟨hacknowledged, hmasked⟩ := pic_protocol (fun _ => true) True tickedState s tickedState_initial hrun
  have hstack' : s.stack s.current = [.dispatch d] := by rw [hcurrent, hstack]
  have hunfinished : Unfinished (s.stack s.current) 0 := by
    rw [hstack']
    exact ⟨d, List.mem_cons_self, hinterrupt, by decide, hunmasked, next, hd⟩
  refine ⟨s, hrun, hunfinished, hmasked trivial 0 hunfinished, hacknowledged.code ?_⟩
  rw [hstack']
  exact ⟨next, hd⟩

/-- The handler of the timer switches to a new thread, `thread_entry` unmasks IRQ 0, and the new thread yields
before the next tick. -/
theorem pic_handler_unmasked : ∃ s, Run (fun _ => true) False tickedState s ∧ Unfinished (s.stack s.current) 0 ∧
    ¬ Masked s.pics 0 := by
  obtain ⟨s, hrun, ⟨d, next, hstack, hinterrupt, hunmasked, hd⟩, hcurrent, hempty, hicw⟩ := tickedState_run False
  have hcode : InCode (s.stack s.current) := by
    rw [hcurrent, hstack]
    exact ⟨next, hd⟩
  have hswitched := hrun.step (.switch true hcode (by rw [hcurrent]; decide)) False.elim
  have henabling := hswitched.step (.enable 0 (by dsimp only; rw [hempty]; trivial)) False.elim
  have hread := henabling.step (.read (.call (picEnableIrq 0)) [] _ _ (by dsimp only; rw [hempty]; rfl) rfl) False.elim
  have hwritten := hread.step (.write (.call _) [] _ _ _ rfl rfl) False.elim
  have hdone := hwritten.step (.done [] rfl) False.elim
  have hback := hdone.step (.switch false trivial Bool.false_ne_true) False.elim
  refine ⟨_, hback, ?_, ?_⟩
  · refine ⟨d, ?_, hinterrupt, by decide, hunmasked, next, hd⟩
    simp [Function.update, hstack]
  · simp [Masked, chipOf, device, Registers.writeData, hicw]

end Kiznix.Pic
