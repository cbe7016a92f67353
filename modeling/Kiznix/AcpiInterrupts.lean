import Mathlib.Logic.Function.Basic

/-! The interrupt handler of ACPICA. What is installed is known to two globals of `acpi.c` and to the table
of `interrupt.c`, from which nothing is ever taken out. -/

namespace Kiznix.Acpi

inductive Status where
  | ok
  | badParameter
  | alreadyExists
  | notExist
  deriving DecidableEq, Repr

/-- The functions that `interrupt_handlers` points to. -/
inductive InterruptHandler (K : Type) where
  /-- `acpi_interrupt_handler`. -/
  | acpi
  | other (handler : K)
  deriving DecidableEq

/-- Null pointers are `none`. -/
structure State (H C K : Type) where
  acpiInterruptHandler : Option H
  acpiInterruptContext : Option C
  interruptHandlers : Nat → Option (InterruptHandler K)

variable {H C K : Type}

def interruptRegister (interrupt : Nat) (handler : InterruptHandler K) (s : State H C K) : Bool × State H C K :=
  if (s.interruptHandlers interrupt).isSome then (false, s)
  else (true, { s with interruptHandlers := Function.update s.interruptHandlers interrupt (some handler) })

def acpiOsInstallInterruptHandler (interruptNumber : Nat) (serviceRoutine : Option H) (context : Option C)
    (s : State H C K) : Status × State H C K :=
  if interruptNumber > 255 then (.badParameter, s)
  else if serviceRoutine.isNone then (.badParameter, s)
  else if s.acpiInterruptHandler.isSome then (.alreadyExists, s)
  else
    let s := { s with acpiInterruptHandler := serviceRoutine, acpiInterruptContext := context }
    match interruptRegister interruptNumber .acpi s with
    | (false, s) => (.alreadyExists, { s with acpiInterruptHandler := none, acpiInterruptContext := none })
    | (true, s) => (.ok, s)

/-- Neither argument is looked at. -/
def acpiOsRemoveInterruptHandler (_interruptNumber : Nat) (_serviceRoutine : Option H) (s : State H C K) :
    Status × State H C K :=
  if s.acpiInterruptHandler.isNone then (.notExist, s)
  else (.ok, { s with acpiInterruptHandler := none, acpiInterruptContext := none })

/-- What becomes of an interrupt. -/
inductive Delivery (H C K : Type) where
  | ignored
  /-- `fatal`. -/
  | unhandled
  | other (handler : K)
  | called (routine : H) (context : Option C)
  /-- A null pointer is called. -/
  | null

def acpiInterruptHandler (s : State H C K) : Delivery H C K :=
  match s.acpiInterruptHandler with
  | some routine => .called routine s.acpiInterruptContext
  | none => .null

/-- `real` is what `pic_irq_real` says of an IRQ. -/
def interruptDispatch (interrupt : Nat) (real : Bool) (s : State H C K) : Delivery H C K :=
  if 32 ≤ interrupt ∧ interrupt ≤ 47 ∧ real = false then .ignored
  else
    match s.interruptHandlers interrupt with
    | none => .unhandled
    | some (.other handler) => .other handler
    | some .acpi => acpiInterruptHandler s

inductive Op (H C : Type) where
  | install (interruptNumber : Nat) (serviceRoutine : Option H) (context : Option C)
  | remove (interruptNumber : Nat) (serviceRoutine : Option H)
  | deliver (interrupt : Nat) (real : Bool)

inductive Outcome (H C K : Type) where
  | status (status : Status)
  | delivery (delivery : Delivery H C K)

def step : Op H C → State H C K → Outcome H C K × State H C K
  | .install n routine context, s =>
      let (status, s') := acpiOsInstallInterruptHandler n routine context s
      (.status status, s')
  | .remove n routine, s =>
      let (status, s') := acpiOsRemoveInterruptHandler n routine s
      (.status status, s')
  | .deliver n real, s => (.delivery (interruptDispatch n real s), s)

/-! ### The registry -/

/-- What a successful `AcpiOsInstallInterruptHandler` has installed. -/
structure Installed (H C : Type) where
  interrupt : Nat
  routine : Option H
  context : Option C

/-- What is installed after an operation. -/
def register (r : Option (Installed H C)) : Op H C → Outcome H C K → Option (Installed H C)
  | .install n routine context, .status .ok => some ⟨n, routine, context⟩
  | .remove _ _, .status .ok => none
  | _, _ => r

/-- The machine goes on. -/
def Outcome.Continues : Outcome H C K → Prop
  | .delivery .unhandled => False
  | .delivery .null => False
  | _ => True

/-- Arguments are valid, and the vectors are among those that ACPICA uses. -/
def Op.Valid (vectors : Nat → Prop) : Op H C → Prop
  | .install n routine _ => vectors n ∧ n ≤ 255 ∧ routine.isSome
  | .remove n routine => vectors n ∧ n ≤ 255 ∧ routine.isSome
  | .deliver n _ => vectors n

structure Initial (vectors : Nat → Prop) (s : State H C K) : Prop where
  handler : s.acpiInterruptHandler = none
  context : s.acpiInterruptContext = none
  unregistered : ∀ n, vectors n → s.interruptHandlers n = none

/-- Operations in any order, from `s₀`. -/
inductive Run (vectors : Nat → Prop) (s₀ : State H C K) : Option (Installed H C) → State H C K → Prop where
  | start : Run vectors s₀ none s₀
  | step {r : Option (Installed H C)} {s : State H C K} (h : Run vectors s₀ r s) (op : Op H C)
      (hop : op.Valid vectors) (hcontinues : (step op s).1.Continues) :
      Run vectors s₀ (register r op (step op s).1) (step op s).2

/-- What is promised of an operation, where `r` is installed. -/
structure Correct (r : Option (Installed H C)) (s : State H C K) (op : Op H C) : Prop where
  safe : (step op s).1 ≠ .delivery .null
  install : ∀ n routine context, op = .install n routine context → ((step op s).1 = .status .ok ↔ r = none)
  deliver : ∀ n routine context, op = .deliver n true → r = some ⟨n, some routine, context⟩ →
    (step op s).1 = .delivery (.called routine context)
  error : ∀ status, (step op s).1 = .status status → status ≠ .ok → (step op s).2 = s

/-- No handler is installed, but the table still has `acpi_interrupt_handler` for the vector. -/
def Left (s : State H C K) (n : Nat) : Prop :=
  s.acpiInterruptHandler = none ∧ s.interruptHandlers n = some .acpi

/-- The operation is about a vector that `AcpiOsRemoveInterruptHandler` has left behind. -/
def OnLeft (s : State H C K) : Op H C → Prop
  | .install n _ _ => Left s n
  | .deliver n real => Left s n ∧ (32 ≤ n → n ≤ 47 → real = true)
  | .remove _ _ => False

/-! ### What each operation does -/

variable {s s₀ : State H C K} {r : Option (Installed H C)} {vectors : Nat → Prop} {op : Op H C} {n : Nat}
  {routine : H} {context : Option C} {real : Bool}

theorem install_installed (hn : n ≤ 255) (h : s.acpiInterruptHandler.isSome) :
    acpiOsInstallInterruptHandler n (some routine) context s = (.alreadyExists, s) := by
  unfold acpiOsInstallInterruptHandler
  rw [if_neg (Nat.not_lt.mpr hn), if_neg (by simp), if_pos h]

theorem install_registered (hn : n ≤ 255) (h : s.acpiInterruptHandler = none) (hcontext : s.acpiInterruptContext = none)
    (hregistered : (s.interruptHandlers n).isSome) :
    acpiOsInstallInterruptHandler n (some routine) context s = (.alreadyExists, s) := by
  unfold acpiOsInstallInterruptHandler interruptRegister
  rw [if_neg (Nat.not_lt.mpr hn), if_neg (by simp), if_neg (by simp [h])]
  simp only [hregistered, if_true]
  obtain ⟨handler, context', handlers⟩ := s
  dsimp only at h hcontext
  rw [h, hcontext]

theorem install_free (hn : n ≤ 255) (h : s.acpiInterruptHandler = none) (hfree : s.interruptHandlers n = none) :
    acpiOsInstallInterruptHandler n (some routine) context s = (.ok,
      { acpiInterruptHandler := some routine
        acpiInterruptContext := context
        interruptHandlers := Function.update s.interruptHandlers n (some .acpi) }) := by
  unfold acpiOsInstallInterruptHandler interruptRegister
  rw [if_neg (Nat.not_lt.mpr hn), if_neg (by simp), if_neg (by simp [h])]
  simp only [hfree, Option.isSome_none, Bool.false_eq_true, if_false]

theorem remove_none (h : s.acpiInterruptHandler = none) (n : Nat) (routine : Option H) :
    acpiOsRemoveInterruptHandler n routine s = (.notExist, s) := by
  unfold acpiOsRemoveInterruptHandler
  rw [h]
  rfl

theorem remove_installed (h : s.acpiInterruptHandler = some routine) (n : Nat) (routine' : Option H) :
    acpiOsRemoveInterruptHandler n routine' s =
      (.ok, { s with acpiInterruptHandler := none, acpiInterruptContext := none }) := by
  unfold acpiOsRemoveInterruptHandler
  rw [h]
  rfl

/-! ### Runs -/

/-- The globals and the table hold what is installed. -/
structure Inv (vectors : Nat → Prop) (r : Option (Installed H C)) (s : State H C K) : Prop where
  handler : s.acpiInterruptHandler = r.bind Installed.routine
  context : s.acpiInterruptContext = r.bind Installed.context
  routine : ∀ i, r = some i → i.routine.isSome
  table : ∀ i, r = some i → s.interruptHandlers i.interrupt = some .acpi
  vectors : ∀ n, vectors n → s.interruptHandlers n = none ∨ s.interruptHandlers n = some .acpi

theorem initial_inv (h : Initial vectors s) : Inv vectors none s where
  handler := h.handler
  context := h.context
  routine _ hi := by cases hi
  table _ hi := by cases hi
  vectors n hn := Or.inl (h.unregistered n hn)

namespace Inv

variable (h : Inv vectors r s)

include h

theorem handler_none : s.acpiInterruptHandler = none ↔ r = none := by
  rw [h.handler]
  cases r with
  | none => exact ⟨fun _ => rfl, fun _ => rfl⟩
  | some i =>
      obtain ⟨routine, hroutine⟩ := Option.isSome_iff_exists.mp (h.routine i rfl)
      rw [Option.bind_some, hroutine]
      refine ⟨fun hnone => ?_, fun hnone => ?_⟩
      · cases hnone
      · cases hnone

/-- An installation succeeds where nothing is installed and the vector is not left from an earlier one. -/
theorem install_cases (routine : H) (context : Option C) (hn : vectors n) (hlt : n ≤ 255) :
    (r = none ∧ s.interruptHandlers n = none ∧ step (.install n (some routine) context) s = (.status .ok,
      { acpiInterruptHandler := some routine
        acpiInterruptContext := context
        interruptHandlers := Function.update s.interruptHandlers n (some .acpi) })) ∨
      ((r = none → Left s n) ∧
        step (.install n (some routine) context) s = (.status .alreadyExists, s)) := by
  by_cases hr : r = none
  · have hhandler := h.handler_none.mpr hr
    have hcontext : s.acpiInterruptContext = none := by
      rw [h.context, hr]
      rfl
    obtain hfree | hacpi := h.vectors n hn
    · refine Or.inl ⟨hr, hfree, ?_⟩
      simp only [step, install_free hlt hhandler hfree]
    · have hregistered : (s.interruptHandlers n).isSome := by rw [hacpi, Option.isSome_some]
      refine Or.inr ⟨fun _ => ⟨hhandler, hacpi⟩, ?_⟩
      simp only [step, install_registered hlt hhandler hcontext hregistered]
  · have hhandler : s.acpiInterruptHandler ≠ none := fun hnone => hr (h.handler_none.mp hnone)
    refine Or.inr ⟨fun hnone => absurd hnone hr, ?_⟩
    simp only [step, install_installed hlt (Option.isSome_iff_ne_none.mpr hhandler)]

theorem remove_cases (n : Nat) (routine : Option H) :
    (r = none ∧ step (.remove n routine) s = (.status .notExist, s)) ∨
      (step (.remove n routine) s =
        (.status .ok, { s with acpiInterruptHandler := none, acpiInterruptContext := none })) := by
  by_cases hr : r = none
  · refine Or.inl ⟨hr, ?_⟩
    simp only [step, remove_none (h.handler_none.mpr hr)]
  · have hhandler : s.acpiInterruptHandler ≠ none := fun hnone => hr (h.handler_none.mp hnone)
    obtain ⟨routine', hroutine⟩ := Option.ne_none_iff_exists'.mp hhandler
    refine Or.inr ?_
    simp only [step, remove_installed hroutine]

/-- A null pointer is called only for a vector that was left behind. -/
theorem deliver_cases (real : Bool) (hn : vectors n) :
    interruptDispatch n real s = .null ∧ OnLeft s (.deliver n real) ∨
      interruptDispatch n real s ≠ .null ∧ ¬ OnLeft s (.deliver n real) := by
  by_cases hignored : 32 ≤ n ∧ n ≤ 47 ∧ real = false
  · refine Or.inr ⟨?_, ?_⟩
    · unfold interruptDispatch
      rw [if_pos hignored]
      simp
    · rintro ⟨-, hreal⟩
      have htrue := hreal hignored.1 hignored.2.1
      rw [hignored.2.2] at htrue
      cases htrue
  · have hreal : 32 ≤ n → n ≤ 47 → real = true := fun hlow hhigh =>
      Bool.not_eq_false _ ▸ fun hfalse => hignored ⟨hlow, hhigh, hfalse⟩
    unfold interruptDispatch
    rw [if_neg hignored]
    obtain hfree | hacpi := h.vectors n hn
    · refine Or.inr ⟨?_, ?_⟩
      · rw [hfree]
        simp
      · rintro ⟨⟨-, hacpi⟩, -⟩
        rw [hfree] at hacpi
        cases hacpi
    · rw [hacpi]
      unfold acpiInterruptHandler
      cases hhandler : s.acpiInterruptHandler with
      | none => exact Or.inl ⟨rfl, ⟨hhandler, hacpi⟩, hreal⟩
      | some routine =>
          refine Or.inr ⟨by simp, ?_⟩
          rintro ⟨⟨hnone, -⟩, -⟩
          rw [hhandler] at hnone
          cases hnone

theorem step_inv (hop : op.Valid vectors) : Inv vectors (register r op (step op s).1) (step op s).2 := by
  cases op with
  | install n routine context =>
      obtain ⟨hn, hlt, hroutine⟩ := hop
      obtain ⟨routine, rfl⟩ := Option.isSome_iff_exists.mp hroutine
      obtain ⟨hr, hfree, hstep⟩ | ⟨-, hstep⟩ := h.install_cases routine context hn hlt
      · rw [hstep]
        refine ⟨rfl, rfl, fun i hi => ?_, fun i hi => ?_, fun n' hn' => ?_⟩
        · obtain rfl := Option.some.inj hi
          rfl
        · obtain rfl := Option.some.inj hi
          exact Function.update_self ..
        · by_cases heq : n' = n
          · subst heq
            exact Or.inr (Function.update_self ..)
          · dsimp only
            rw [Function.update_of_ne heq]
            exact h.vectors n' hn'
      · rw [hstep]
        exact h
  | remove n routine =>
      obtain ⟨-, hstep⟩ | hstep := h.remove_cases n routine
      · rw [hstep]
        exact h
      · rw [hstep]
        refine ⟨rfl, rfl, fun i hi => ?_, fun i hi => ?_, h.vectors⟩
        · cases hi
        · cases hi
  | deliver n real => exact h

theorem correct (hop : op.Valid vectors) : Correct r s op ↔ ¬ OnLeft s op := by
  cases op with
  | install n routine context =>
      obtain ⟨hn, hlt, hroutine⟩ := hop
      obtain ⟨routine, rfl⟩ := Option.isSome_iff_exists.mp hroutine
      obtain ⟨hr, hfree, hstep⟩ | ⟨hleft, hstep⟩ := h.install_cases routine context hn hlt
      · refine ⟨fun _ => ?_, fun _ => ⟨?_, fun _ _ _ _ => ?_, ?_, ?_⟩⟩
        · rintro ⟨-, hacpi⟩
          rw [hfree] at hacpi
          cases hacpi
        · rw [hstep]
          simp
        · rw [hstep]
          exact ⟨fun _ => hr, fun _ => rfl⟩
        · intro _ _ _ heq
          cases heq
        · rw [hstep]
          rintro status hstatus hne
          cases hstatus
          exact absurd rfl hne
      · refine ⟨fun hcorrect hleft => ?_, fun hnot => ⟨?_, fun _ _ _ _ => ?_, ?_, ?_⟩⟩
        · have hok := (hcorrect.install _ _ _ rfl).mpr (h.handler_none.mp hleft.1)
          rw [hstep] at hok
          cases hok
        · rw [hstep]
          simp
        · rw [hstep]
          refine ⟨fun hok => ?_, fun hr => absurd (hleft hr) hnot⟩
          cases hok
        · intro _ _ _ heq
          cases heq
        · rw [hstep]
          exact fun _ _ _ => rfl
  | remove n routine =>
      refine ⟨fun _ => id, fun _ => ⟨?_, fun _ _ _ heq => ?_, fun _ _ _ heq => ?_, ?_⟩⟩
      · obtain ⟨-, hstep⟩ | hstep := h.remove_cases n routine <;> simp [hstep]
      · cases heq
      · cases heq
      · obtain ⟨-, hstep⟩ | hstep := h.remove_cases n routine
        · rw [hstep]
          exact fun _ _ _ => rfl
        · rw [hstep]
          rintro status hstatus hne
          cases hstatus
          exact absurd rfl hne
  | deliver n real =>
      refine ⟨fun hcorrect hleft => ?_, fun hnot => ⟨?_, fun _ _ _ heq => ?_, ?_, ?_⟩⟩
      · obtain ⟨hnull, -⟩ | ⟨-, hnot⟩ := h.deliver_cases real hop
        · exact hcorrect.safe (congrArg Outcome.delivery hnull)
        · exact hnot hleft
      · obtain ⟨-, hleft⟩ | ⟨hsafe, -⟩ := h.deliver_cases real hop
        · exact absurd hleft hnot
        · exact fun hnull => hsafe (Outcome.delivery.inj hnull)
      · cases heq
      · intro n' routine context heq hr
        obtain ⟨rfl, rfl⟩ := Op.deliver.inj heq
        show Outcome.delivery _ = _
        unfold interruptDispatch acpiInterruptHandler
        rw [if_neg (by simp), h.table _ hr, h.handler, h.context, hr]
        rfl
      · intro status hstatus
        cases hstatus

end Inv

theorem run_inv (h₀ : Initial vectors s₀) (hrun : Run vectors s₀ r s) : Inv vectors r s := by
  induction hrun with
  | start => exact initial_inv h₀
  | step _ op hop _ ih => exact ih.step_inv hop

/-- In every run an operation does what is promised exactly if it is not about a vector that
`AcpiOsRemoveInterruptHandler` has left behind. -/
theorem interrupt_handler_correct (vectors : Nat → Prop) (s₀ s : State H C K) (r : Option (Installed H C))
    (h₀ : Initial vectors s₀) (hrun : Run vectors s₀ r s) (op : Op H C) (hop : op.Valid vectors) :
    Correct r s op ↔ ¬ OnLeft s op := (run_inv h₀ hrun).correct hop

/-- No interrupt has a handler. -/
def bareState : State Bool Nat Empty := ⟨none, none, fun _ => none⟩

theorem bareState_initial : Initial (fun _ => True) bareState := ⟨rfl, rfl, fun _ _ => rfl⟩

/-- IRQ 9 comes after an installation. -/
theorem interrupt_handler_correct_sci : ∃ r s, Run (fun _ => True) bareState r s ∧
    Correct r s (.deliver 41 true) ∧ (step (.deliver 41 true) s).1 = .delivery (.called true (some 5)) := by
  have hstart : Run (fun _ => True) bareState none bareState := .start
  have hrun := hstart.step (.install 41 (some true) (some 5)) ⟨trivial, by decide, rfl⟩ trivial
  have hnot : ¬ OnLeft (step (.install 41 (some true) (some 5)) bareState).2 (.deliver 41 true) := by
    rintro ⟨⟨hnone, -⟩, -⟩
    cases hnone
  exact ⟨_, _, hrun, (interrupt_handler_correct _ _ _ _ bareState_initial hrun (.deliver 41 true) trivial).mpr hnot,
    rfl⟩

/-- After a removal the vector still leads to `acpi_interrupt_handler`, which calls a null pointer; and the
handler cannot be installed again. -/
theorem interrupt_handler_null : Initial (fun _ => True) bareState ∧ ∃ r s, Run (fun _ => True) bareState r s ∧
    r = none ∧ (step (.deliver 41 true) s).1 = .delivery .null ∧
    (step (.install 41 (some true) (some 5)) s).1 = .status .alreadyExists := by
  have hstart : Run (fun _ => True) bareState none bareState := .start
  have hinstalled := hstart.step (.install 41 (some true) (some 5)) ⟨trivial, by decide, rfl⟩ trivial
  have hremoved := hinstalled.step (.remove 41 (some true)) ⟨trivial, by decide, rfl⟩ trivial
  exact ⟨bareState_initial, _, _, hremoved, rfl, rfl, rfl⟩

end Kiznix.Acpi
