import Mathlib.Algebra.Order.Ring.Nat

/-! Programs that reach a device through its ports, one access at a time, and may call code that is not
theirs. Between two accesses the device may change by itself, within a relation that is known. -/

namespace Kiznix

inductive PortIo (Port Value α : Type) where
  | ret (a : α)
  | out (port : Port) (value : Value) (next : PortIo Port Value α)
  | inp (port : Port) (next : Value → PortIo Port Value α)
  /-- Code of others runs, then the program goes on. -/
  | call (next : PortIo Port Value α)
  /-- The program stops the machine. -/
  | fail

namespace PortIo

variable {Port Value σ α β : Type}

def bind : PortIo Port Value α → (α → PortIo Port Value β) → PortIo Port Value β
  | .ret a, f => f a
  | .out port value next, f => .out port value (next.bind f)
  | .inp port next, f => .inp port fun v => (next v).bind f
  | .call next, f => .call (next.bind f)
  | .fail, _ => .fail

instance : Monad (PortIo Port Value) where
  pure := .ret
  bind := bind

def write (port : Port) (value : Value) : PortIo Port Value Unit := .out port value (.ret ())

def read (port : Port) : PortIo Port Value Value := .inp port .ret

/-- What ports do. -/
structure Device (Port Value σ : Type) where
  write : Port → Value → σ → σ
  read : Port → σ → Value

/-- What a program owes: at each write, where it calls others, and when it returns. -/
structure Duty (Port Value σ α : Type) where
  write : Port → Value → σ → Prop
  call : PortIo Port Value α → σ → Prop
  ret : α → σ → Prop

/-- The program in one go, while the device does nothing by itself. -/
def exec (device : Device Port Value σ) : PortIo Port Value α → σ → Option (α × σ)
  | .ret a, s => some (a, s)
  | .out port value next, s => exec device next (device.write port value s)
  | .inp port next, s => exec device (next (device.read port s)) s
  | .call _, _ => none
  | .fail, _ => none

theorem exec_bind (device : Device Port Value σ) (p : PortIo Port Value α) (f : α → PortIo Port Value β) (s : σ) :
    exec device (p >>= f) s = (exec device p s).bind fun r => exec device (f r.1) r.2 := by
  induction p generalizing s with
  | ret a => rfl
  | out port value next ih => exact ih _
  | inp port next ih => exact ih _ s
  | call next ih => rfl
  | fail => rfl

/-- The program up to its first call, and what is left of it there. -/
def execToCall (device : Device Port Value σ) : PortIo Port Value α → σ → Option (PortIo Port Value α × σ)
  | .ret _, _ => none
  | .out port value next, s => execToCall device next (device.write port value s)
  | .inp port next, s => execToCall device (next (device.read port s)) s
  | .call next, s => some (next, s)
  | .fail, _ => none

/-- The program on a machine that has more ports. -/
def embed {Port' : Type} (f : Port → Port') : PortIo Port Value α → PortIo Port' Value α
  | .ret a => .ret a
  | .out port value next => .out (f port) value (embed f next)
  | .inp port next => .inp (f port) fun v => embed f (next v)
  | .call next => .call (embed f next)
  | .fail => .fail

/-- It does there to its own device what it does without the others. -/
theorem exec_embed {Port' σ' : Type} {device : Device Port Value σ} {device' : Device Port' Value σ'} {f : Port → Port'}
    (get : σ' → σ) (set : σ → σ' → σ') (hset : ∀ s s₁ s₂, set s₂ (set s₁ s) = set s₂ s)
    (hget : ∀ s s₁, get (set s₁ s) = s₁) (hsame : ∀ s, set (get s) s = s)
    (hwrite : ∀ port v s, device'.write (f port) v s = set (device.write port v (get s)) s)
    (hread : ∀ port s, device'.read (f port) s = device.read port (get s)) (p : PortIo Port Value α) (s : σ') :
    exec device' (embed f p) s = (exec device p (get s)).map fun r => (r.1, set r.2 s) := by
  induction p generalizing s with
  | ret a => simp only [embed, exec, Option.map_some, hsame]
  | out port value next ih =>
    rw [embed, exec, hwrite, ih, hget, exec]
    simp only [hset]
  | inp port next ih => rw [embed, exec, hread, ih, exec]
  | call next ih => rfl
  | fail => rfl

variable (device : Device Port Value σ) (rely : σ → σ → Prop) (duty : Duty Port Value σ α)

/-- From the state `s` on, the program does what it owes, up to its return or its call of others, although
the device may change along `rely` before each access. -/
def Always : PortIo Port Value α → σ → Prop
  | .ret a, s => ∀ s', rely s s' → duty.ret a s'
  | .out port value next, s => ∀ s', rely s s' →
      duty.write port value s' ∧ Always next (device.write port value s')
  | .inp port next, s => ∀ s', rely s s' → Always (next (device.read port s')) s'
  | .call next, s => ∀ s', rely s s' → duty.call next s'
  | .fail, _ => True

variable {device rely duty} {p : PortIo Port Value α} {s s' : σ}

/-- What the device does by itself changes nothing. -/
theorem Always.stable (h : Always device rely duty p s) (hs : rely s s')
    (htrans : ∀ s₁ s₂ s₃, rely s₁ s₂ → rely s₂ s₃ → rely s₁ s₃) : Always device rely duty p s' := by
  cases p with
  | ret a => exact fun s₁ h₁ => h s₁ (htrans _ _ _ hs h₁)
  | out port value next => exact fun s₁ h₁ => h s₁ (htrans _ _ _ hs h₁)
  | inp port next => exact fun s₁ h₁ => h s₁ (htrans _ _ _ hs h₁)
  | call next => exact fun s₁ h₁ => h s₁ (htrans _ _ _ hs h₁)
  | fail => trivial

theorem Always.out_step {port : Port} {value : Value} {next : PortIo Port Value α}
    (h : Always device rely duty (.out port value next) s) (hrefl : rely s s) :
    duty.write port value s ∧ Always device rely duty next (device.write port value s) := h s hrefl

theorem Always.inp_step {port : Port} {next : Value → PortIo Port Value α}
    (h : Always device rely duty (.inp port next) s) (hrefl : rely s s) :
    Always device rely duty (next (device.read port s)) s := h s hrefl

end PortIo

end Kiznix
