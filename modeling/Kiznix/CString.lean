import Mathlib.Algebra.Order.Ring.Nat
import Mathlib.Logic.Function.Basic

/-! The string primitives of `libc/string.c`, and the contracts of ISO C that the compiler builds on. -/

namespace Kiznix.CString

/-- Memory by address, where pointers and `size_t` have `w` bits. -/
abbrev Memory (w : Nat) := BitVec w → BitVec 8

variable {w : Nat}

/-- The loop of `memcpy` with `i` bytes to go. -/
def memcpyLoop : Nat → BitVec w → BitVec w → Memory w → BitVec w × Memory w
  | 0, dest, _, m => (dest, m)
  | i + 1, dest, src, m => memcpyLoop i (dest + 1) (src + 1) (Function.update m dest (m src))

def memcpy (dest src length : BitVec w) (m : Memory w) : BitVec w × Memory w :=
  memcpyLoop length.toNat dest src m

/-- `(char)value`. -/
def toChar (value : BitVec 32) : BitVec 8 := value.setWidth 8

def memsetLoop (value : BitVec 32) : Nat → BitVec w → Memory w → BitVec w × Memory w
  | 0, dest, m => (dest, m)
  | i + 1, dest, m => memsetLoop value i (dest + 1) (Function.update m dest (toChar value))

def memset (dest : BitVec w) (value : BitVec 32) (length : BitVec w) (m : Memory w) : BitVec w × Memory w :=
  memsetLoop value length.toNat dest m

/-- The loop of `strchr`; `NULL` is 0. -/
def strchrLoop (c : BitVec 8) (m : Memory w) : Nat → BitVec w → Option (BitVec w)
  | 0, _ => none
  | fuel + 1, p =>
      if m p = 0 then some 0
      else if m p = c then some p
      else strchrLoop c m fuel (p + 1)

def strchr (fuel : Nat) (string : BitVec w) (character : BitVec 32) (m : Memory w) : Option (BitVec w) :=
  strchrLoop (toChar character) m fuel string

def strlenLoop (string : BitVec w) (m : Memory w) : Nat → BitVec w → Option (BitVec w)
  | 0, _ => none
  | fuel + 1, result => if m (string + result) = 0 then some result else strlenLoop string m fuel (result + 1)

def strlen (fuel : Nat) (string : BitVec w) (m : Memory w) : Option (BitVec w) := strlenLoop string m fuel 0

variable {m m' : Memory w} {dest src string length : BitVec w} {value character : BitVec 32} {c : BitVec 8}
  {n fuel : Nat} {b b' : Nat → BitVec 8}

/-- The address `i` bytes further. -/
def offset (p : BitVec w) (i : Nat) : BitVec w := p + BitVec.ofNat w i

@[simp] theorem offset_zero (p : BitVec w) : offset p 0 = p := BitVec.add_zero p

theorem offset_succ (p : BitVec w) (i : Nat) : offset (p + 1) i = offset p (i + 1) := by
  have hone : (1 : BitVec w) + BitVec.ofNat w i = BitVec.ofNat w (i + 1) := by
    rw [BitVec.add_comm, BitVec.ofNat_add]
    rfl
  rw [offset, offset, BitVec.add_assoc, hone]

theorem offset_toNat (p length : BitVec w) : offset p length.toNat = p + length := by
  rw [offset, BitVec.ofNat_toNat, BitVec.setWidth_eq]

theorem add_eq_self_iff {p k : BitVec w} : p + k = p ↔ k = 0 := by
  have hzero : p + 0 = p := BitVec.add_zero p
  constructor
  · intro heq
    exact (BitVec.add_right_inj p).mp (heq.trans hzero.symm)
  · intro hk
    rw [hk, hzero]

theorem offset_add (p : BitVec w) (k i : Nat) : offset (offset p k) i = offset p (k + i) := by
  rw [offset, offset, offset, BitVec.add_assoc, ← BitVec.ofNat_add]

theorem offset_ne {p : BitVec w} (hn : n < 2 ^ w) (hpos : 0 < n) : offset p n ≠ p := by
  intro heq
  have hvalue : (BitVec.ofNat w n).toNat = 0 := by
    rw [add_eq_self_iff.mp heq]
    exact BitVec.toNat_zero
  rw [BitVec.toNat_ofNat, Nat.mod_eq_of_lt hn] at hvalue
  omega

/-! ### Stores of a sequence of bytes -/

/-- The `n` bytes at `dest` are those of `b`, and no other byte has changed. -/
structure Stored (dest : BitVec w) (n : Nat) (b : Nat → BitVec 8) (m m' : Memory w) : Prop where
  bytes : ∀ i, i < n → m' (offset dest i) = b i
  frame : ∀ a, (∀ i, i < n → a ≠ offset dest i) → m' a = m a

theorem stored_zero : Stored dest 0 b m m := ⟨fun _ hi => absurd hi (Nat.not_lt_zero _), fun _ _ => rfl⟩

theorem Stored.congr (h : Stored dest n b m m') (hb : ∀ i, i < n → b i = b' i) : Stored dest n b' m m' :=
  ⟨fun i hi => (h.bytes i hi).trans (hb i hi), h.frame⟩

/-- One byte before the others. -/
theorem Stored.cons (h : Stored (dest + 1) n (fun i => b (i + 1)) (Function.update m dest (b 0)) m')
    (hn : n + 1 < 2 ^ w) : Stored dest (n + 1) b m m' := by
  refine ⟨fun i hi => ?_, fun a ha => ?_⟩
  · cases i with
    | zero =>
        have hmiss : ∀ i, i < n → dest ≠ offset (dest + 1) i := by
          intro i hi heq
          rw [offset_succ] at heq
          exact offset_ne (by omega) (Nat.succ_pos i) heq.symm
        rw [offset_zero, h.frame dest hmiss, Function.update_self]
    | succ i =>
        rw [← offset_succ]
        exact h.bytes i (Nat.lt_of_succ_lt_succ hi)
  · have hne : a ≠ dest := by
      have hfirst : a ≠ offset dest 0 := ha 0 (Nat.succ_pos n)
      rwa [offset_zero] at hfirst
    have hrest : ∀ i, i < n → a ≠ offset (dest + 1) i := by
      intro i hi
      rw [offset_succ]
      exact ha (i + 1) (Nat.succ_lt_succ hi)
    rw [h.frame a hrest, Function.update_of_ne hne]

/-- The buffers have no byte in common. -/
def Separate (dest src : BitVec w) (n : Nat) : Prop := ∀ i, i < n → ∀ j, j < n → offset dest i ≠ offset src j

theorem memcpyLoop_spec (hn : n < 2 ^ w) (hsep : Separate dest src n) :
    (memcpyLoop n dest src m).1 = offset dest n ∧
      Stored dest n (fun i => m (offset src i)) m (memcpyLoop n dest src m).2 := by
  induction n generalizing dest src m with
  | zero => exact ⟨(offset_zero dest).symm, stored_zero⟩
  | succ n ih =>
      have hrest : Separate (dest + 1) (src + 1) n := by
        intro i hi j hj
        rw [offset_succ, offset_succ]
        exact hsep (i + 1) (Nat.succ_lt_succ hi) (j + 1) (Nat.succ_lt_succ hj)
      obtain ⟨hpointer, hstored⟩ := ih (m := Function.update m dest (m src)) (Nat.lt_of_succ_lt hn) hrest
      rw [memcpyLoop]
      refine ⟨hpointer.trans (offset_succ dest n), ?_⟩
      have hsource : ∀ i, i < n →
          Function.update m dest (m src) (offset (src + 1) i) = m (offset src (i + 1)) := by
        -- The first store leaves the rest of the source as it is.
        intro i hi
        have hmiss : offset dest 0 ≠ offset src (i + 1) := hsep 0 (Nat.succ_pos n) (i + 1) (Nat.succ_lt_succ hi)
        rw [offset_zero] at hmiss
        rw [offset_succ, Function.update_of_ne hmiss.symm]
      have hbytes := hstored.congr hsource
      apply Stored.cons _ hn
      rw [offset_zero]
      exact hbytes

theorem memsetLoop_spec (dest : BitVec w) (m : Memory w) (hn : n < 2 ^ w) :
    (memsetLoop value n dest m).1 = offset dest n ∧
      Stored dest n (fun _ => toChar value) m (memsetLoop value n dest m).2 := by
  induction n generalizing dest m with
  | zero => exact ⟨(offset_zero dest).symm, stored_zero⟩
  | succ n ih =>
      obtain ⟨hpointer, hstored⟩ := ih (dest + 1) (Function.update m dest (toChar value)) (Nat.lt_of_succ_lt hn)
      rw [memsetLoop]
      exact ⟨hpointer.trans (offset_succ dest n), hstored.cons hn⟩

/-- The bytes are stored; the pointer that comes back is the one after the last byte. -/
theorem memcpy_spec (hsep : Separate dest src length.toNat) :
    (memcpy dest src length m).1 = dest + length ∧
      Stored dest length.toNat (fun i => m (offset src i)) m (memcpy dest src length m).2 := by
  rw [← offset_toNat]
  exact memcpyLoop_spec length.isLt hsep

theorem memset_spec (dest : BitVec w) (value : BitVec 32) (length : BitVec w) (m : Memory w) :
    (memset dest value length m).1 = dest + length ∧
      Stored dest length.toNat (fun _ => toChar value) m (memset dest value length m).2 := by
  rw [← offset_toNat]
  exact memsetLoop_spec dest m length.isLt

/-! ### Strings -/

/-- The bytes at `string` up to the first zero, which is byte `n`. -/
structure IsString (m : Memory w) (string : BitVec w) (n : Nat) : Prop where
  bytes : ∀ i, i < n → m (offset string i) ≠ 0
  zero : m (offset string n) = 0
  lt : n < 2 ^ w

theorem IsString.tail (h : IsString m string (n + 1)) : IsString m (string + 1) n := by
  refine ⟨fun i hi => ?_, ?_, Nat.lt_of_succ_lt h.lt⟩
  · rw [offset_succ]
    exact h.bytes (i + 1) (Nat.succ_lt_succ hi)
  · rw [offset_succ]
    exact h.zero

theorem IsString.length_unique {k : Nat} (h : IsString m string n) (h' : IsString m string k) : n = k := by
  rcases Nat.lt_trichotomy n k with hlt | heq | hgt
  · exact absurd h.zero (h'.bytes n hlt)
  · exact heq
  · exact absurd h'.zero (h.bytes k hgt)

theorem strlenLoop_spec {k : Nat} (h : IsString m (offset string k) n) (hfuel : n < fuel) :
    strlenLoop string m fuel (BitVec.ofNat w k) = some (BitVec.ofNat w (k + n)) := by
  induction n generalizing k fuel with
  | zero =>
      obtain ⟨fuel, rfl⟩ : ∃ f, fuel = f + 1 := ⟨fuel - 1, by omega⟩
      have hzero := h.zero
      rw [offset_zero, offset] at hzero
      rw [strlenLoop, if_pos hzero, Nat.add_zero]
  | succ n ih =>
      obtain ⟨fuel, rfl⟩ : ∃ f, fuel = f + 1 := ⟨fuel - 1, by omega⟩
      have hbyte := h.bytes 0 (Nat.succ_pos n)
      rw [offset_zero, offset] at hbyte
      have hnext : BitVec.ofNat w k + 1 = BitVec.ofNat w (k + 1) := (BitVec.ofNat_add k 1).symm
      have htail : IsString m (offset string (k + 1)) n := by
        have hrest := h.tail
        rwa [← offset_zero (offset string k + 1), offset_succ, offset_add] at hrest
      rw [strlenLoop, if_neg hbyte, hnext, ih htail (Nat.lt_of_succ_lt_succ hfuel), Nat.add_right_comm, Nat.add_assoc]

theorem strlen_spec (h : IsString m string n) (hfuel : n < fuel) :
    strlen fuel string m = some (BitVec.ofNat w n) := by
  have hrun := strlenLoop_spec (k := 0) (h := by rwa [offset_zero]) hfuel
  rwa [Nat.zero_add] at hrun

theorem strchrLoop_next (hbyte : m string ≠ 0) (hmiss : m string ≠ c) (hfuel : n + 1 < fuel) {r : Option (BitVec w)}
    (hrun : ∀ fuel, n < fuel → strchrLoop c m fuel (string + 1) = r) : strchrLoop c m fuel string = r := by
  obtain ⟨fuel, rfl⟩ : ∃ f, fuel = f + 1 := ⟨fuel - 1, by omega⟩
  rw [strchrLoop, if_neg hbyte, if_neg hmiss, hrun fuel (Nat.lt_of_succ_lt_succ hfuel)]

/-- The loop stops at the first byte that is zero or `c`, and tells which of the two it was. -/
theorem strchrLoop_spec (h : IsString m string n) :
    (∀ i, i < n → m (offset string i) ≠ c) ∧ (∀ fuel, n < fuel → strchrLoop c m fuel string = some 0) ∨
      ∃ i, i < n ∧ m (offset string i) = c ∧ (∀ j, j < i → m (offset string j) ≠ c) ∧
        ∀ fuel, n < fuel → strchrLoop c m fuel string = some (offset string i) := by
  induction n generalizing string with
  | zero =>
      have hzero := h.zero
      rw [offset_zero] at hzero
      refine Or.inl ⟨fun _ hi => absurd hi (Nat.not_lt_zero _), fun fuel hfuel => ?_⟩
      obtain ⟨fuel, rfl⟩ : ∃ f, fuel = f + 1 := ⟨fuel - 1, by omega⟩
      rw [strchrLoop, if_pos hzero]
  | succ n ih =>
      have hbyte := h.bytes 0 (Nat.succ_pos n)
      rw [offset_zero] at hbyte
      by_cases hfound : m string = c
      · refine Or.inr ⟨0, Nat.succ_pos n, ?_, fun _ hj => absurd hj (Nat.not_lt_zero _), fun fuel hfuel => ?_⟩
        · rw [offset_zero, hfound]
        · obtain ⟨fuel, rfl⟩ : ∃ f, fuel = f + 1 := ⟨fuel - 1, by omega⟩
          rw [strchrLoop, if_neg hbyte, if_pos hfound, offset_zero]
      · rcases ih h.tail with ⟨hnone, hrun⟩ | ⟨i, hi, hat, hbefore, hrun⟩
        · refine Or.inl ⟨fun i hi => ?_, fun fuel hfuel => strchrLoop_next hbyte hfound hfuel hrun⟩
          cases i with
          | zero => rwa [offset_zero]
          | succ i =>
              rw [← offset_succ]
              exact hnone i (Nat.lt_of_succ_lt_succ hi)
        · refine Or.inr ⟨i + 1, Nat.succ_lt_succ hi, ?_, fun j hj => ?_, fun fuel hfuel => ?_⟩
          · rw [← offset_succ, hat]
          · cases j with
            | zero => rwa [offset_zero]
            | succ j =>
                rw [← offset_succ]
                exact hbefore j (Nat.lt_of_succ_lt_succ hj)
          · rw [← offset_succ]
            exact strchrLoop_next hbyte hfound hfuel hrun

/-! ### The contracts -/

inductive Call (w : Nat) where
  | memcpy (dest src length : BitVec w)
  | memset (dest : BitVec w) (value : BitVec 32) (length : BitVec w)
  | strchr (string : BitVec w) (character : BitVec 32)
  | strlen (string : BitVec w)

/-- What `strchr` owes for a string of `n` bytes: the first byte equal to `c`, the terminator being one of the
bytes, or `NULL`. -/
structure Finds (m : Memory w) (string : BitVec w) (c : BitVec 8) (n : Nat) (result : BitVec w) : Prop where
  first : ∀ i, i ≤ n → m (offset string i) = c → (∀ j, j < i → m (offset string j) ≠ c) → result = offset string i
  absent : (∀ i, i ≤ n → m (offset string i) ≠ c) → result = 0

namespace Call

/-- The value that the call returns and the memory it leaves; the loops on strings take at most `fuel` steps. -/
def run (fuel : Nat) (m : Memory w) : Call w → Option (BitVec w × Memory w)
  | memcpy dest src length => some (CString.memcpy dest src length m)
  | memset dest value length => some (CString.memset dest value length m)
  | strchr string character => (CString.strchr fuel string character m).map fun p => (p, m)
  | strlen string => (CString.strlen fuel string m).map fun n => (n, m)

/-- What the caller promises. -/
def Allowed (m : Memory w) : Call w → Prop
  | memcpy dest src length => Separate dest src length.toNat
  | memset _ _ _ => True
  | strchr string _ => ∃ n, IsString m string n
  | strlen string => ∃ n, IsString m string n

/-- What ISO C promises to the caller. -/
def Contract (m : Memory w) (result : BitVec w) (m' : Memory w) : Call w → Prop
  | memcpy dest src length => Stored dest length.toNat (fun i => m (offset src i)) m m' ∧ result = dest
  | memset dest value length => Stored dest length.toNat (fun _ => value.setWidth 8) m m' ∧ result = dest
  | strchr string character => m' = m ∧ ∀ n, IsString m string n → Finds m string (character.setWidth 8) n result
  | strlen string => m' = m ∧ ∀ n, IsString m string n → result = BitVec.ofNat w n

/-- When the code does that: nothing is copied or set, or the character that is looked for is no terminator
(unless the terminator is the byte at address 0). -/
def Sound (m : Memory w) : Call w → Prop
  | memcpy _ _ length => length = 0
  | memset _ _ length => length = 0
  | strchr string character => toChar character = 0 → ∀ n, IsString m string n → offset string n = 0
  | strlen _ => True

end Call

theorem strchr_finds (character : BitVec 32) (h : IsString m string n) :
    ∃ result, (∀ fuel, n < fuel → strchr fuel string character m = some result) ∧
      (Finds m string (toChar character) n result ↔ (toChar character = 0 → offset string n = 0)) := by
  have hzero := h.zero
  rcases strchrLoop_spec (c := toChar character) h with ⟨hnone, hrun⟩ | ⟨i, hi, hat, hbefore, hrun⟩
  · refine ⟨0, hrun, fun hfinds hc => ?_, fun hsound => ⟨fun i hi hat _ => ?_, fun _ => rfl⟩⟩
    · have hterminator : m (offset string n) = toChar character := by rw [hzero, hc]
      exact (hfinds.first n (Nat.le_refl n) hterminator hnone).symm
    · rcases Nat.lt_or_eq_of_le hi with hlt | rfl
      · exact absurd hat (hnone i hlt)
      · have hc : toChar character = 0 := by rw [← hat, hzero]
        exact (hsound hc).symm
  · have hc : toChar character ≠ 0 := by
      rw [← hat]
      exact h.bytes i hi
    refine ⟨offset string i, hrun, fun _ hnull => absurd hnull hc, fun _ => ⟨fun k hk hfound hearlier => ?_,
      fun hmiss => absurd hat (hmiss i (Nat.le_of_lt hi))⟩⟩
    rcases Nat.lt_trichotomy i k with hlt | heq | hgt
    · exact absurd hat (hearlier i hlt)
    · rw [heq]
    · exact absurd hfound (hbefore k hgt)

/-- Each call returns, and keeps its contract exactly when it is sound: `memcpy` and `memset` hand out the
pointer that they have moved, and `strchr` does not see the terminator. -/
theorem string_primitives_correct (call : Call w) (hallowed : call.Allowed m) :
    ∃ result m', (∀ fuel, 2 ^ w ≤ fuel → call.run fuel m = some (result, m')) ∧
      (call.Contract m result m' ↔ call.Sound m) := by
  cases call with
  | memcpy dest src length =>
      obtain ⟨hpointer, hstored⟩ := memcpy_spec hallowed (m := m)
      refine ⟨(memcpy dest src length m).1, (memcpy dest src length m).2, fun _ _ => rfl, ?_⟩
      rw [hpointer]
      exact (and_iff_right hstored).trans add_eq_self_iff
  | memset dest value length =>
      obtain ⟨hpointer, hstored⟩ := memset_spec dest value length m
      refine ⟨(memset dest value length m).1, (memset dest value length m).2, fun _ _ => rfl, ?_⟩
      rw [hpointer]
      exact (and_iff_right hstored).trans add_eq_self_iff
  | strchr string character =>
      obtain ⟨n, hstring⟩ := hallowed
      obtain ⟨result, hrun, hfinds⟩ := strchr_finds character hstring
      refine ⟨result, m, fun fuel hfuel => ?_, ?_⟩
      · rw [Call.run, hrun fuel (Nat.lt_of_lt_of_le hstring.lt hfuel), Option.map_some]
      · constructor
        · intro hcontract hc k hk
          obtain rfl := hstring.length_unique hk
          exact hfinds.mp (hcontract.2 n hstring) hc
        · intro hsound
          refine ⟨rfl, fun k hk => ?_⟩
          obtain rfl := hstring.length_unique hk
          exact hfinds.mpr fun hc => hsound hc n hstring
  | strlen string =>
      obtain ⟨n, hstring⟩ := hallowed
      refine ⟨BitVec.ofNat w n, m, fun fuel hfuel => ?_, ?_⟩
      · rw [Call.run, strlen_spec hstring (Nat.lt_of_lt_of_le hstring.lt hfuel), Option.map_some]
      · have hlength : ∀ k, IsString m string k → BitVec.ofNat w n = BitVec.ofNat w k := by
          intro k hk
          rw [hstring.length_unique hk]
        exact iff_of_true ⟨rfl, hlength⟩ trivial

/-- A memory that holds the string `"a"` at 16. -/
def oneLetter : Memory 64 := fun a => if a = 16 then 0x61 else 0

theorem oneLetter_string : IsString oneLetter 16 1 :=
  ⟨by decide, by decide, by decide⟩

/-- The letter is found. -/
theorem string_primitives_correct_letter : (Call.strchr 16 0x61).Allowed oneLetter ∧ ∃ result m',
    (∀ fuel, 2 ^ 64 ≤ fuel → (Call.strchr 16 0x61).run fuel oneLetter = some (result, m')) ∧
      (Call.strchr 16 0x61).Contract oneLetter result m' := by
  have hallowed : (Call.strchr 16 0x61).Allowed oneLetter := ⟨1, oneLetter_string⟩
  obtain ⟨result, m', hrun, hcontract⟩ := string_primitives_correct (Call.strchr 16 0x61) hallowed
  exact ⟨hallowed, result, m', hrun, hcontract.mpr fun hc => absurd hc (by decide)⟩

/-- A copy of one byte returns the address after it, and the search for the terminator fails. -/
theorem string_primitives_differ :
    (∃ m', (Call.memcpy 32 16 1).Allowed oneLetter ∧ (Call.memcpy 32 16 1).run 0 oneLetter = some (33, m') ∧
      ¬ (Call.memcpy 32 16 1).Contract oneLetter 33 m') ∧
    (Call.strchr 16 0).Allowed oneLetter ∧ (Call.strchr 16 0).run 2 oneLetter = some (0, oneLetter) ∧
      ¬ (Call.strchr 16 0).Contract oneLetter 0 oneLetter := by
  have hallowed : (Call.memcpy 32 16 1).Allowed oneLetter := by
    unfold Call.Allowed Separate
    decide
  refine ⟨⟨_, hallowed, rfl, fun h => absurd h.2 (by decide)⟩, ⟨1, oneLetter_string⟩, rfl, fun h => ?_⟩
  have hfound := (h.2 1 oneLetter_string).first 1 (by decide) (by decide) (by decide)
  exact absurd hfound (by decide)

end Kiznix.CString
