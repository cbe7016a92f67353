import Mathlib.Algebra.Order.Ring.Nat

/-! Little-endian loads and stores in a memory of bytes, and memory that holds a sequence of fields, each
of its own size. -/

namespace Kiznix.ByteMemory

abbrev Memory := Nat → BitVec 8

variable {m m' : Memory} {p q n k v : Nat}

def load (m : Memory) (p : Nat) : Nat → Nat
  | 0 => 0
  | n + 1 => (m p).toNat + 256 * load m (p + 1) n

def store (m : Memory) (p n v : Nat) : Memory := fun x =>
  if p ≤ x ∧ x < p + n then BitVec.ofNat 8 (v / 256 ^ (x - p)) else m x

theorem load_congr (h : ∀ x, p ≤ x → x < p + n → m' x = m x) : load m' p n = load m p n := by
  induction n generalizing p with
  | zero => rfl
  | succ n ih =>
      rw [load, load, h p (Nat.le_refl p) (by omega)]
      rw [ih fun x hlow hhigh => h x (by omega) (by omega)]

theorem store_outside {x : Nat} (h : x < p ∨ p + n ≤ x) : store m p n v x = m x := by
  rw [store, if_neg (by omega)]

theorem load_store_outside (h : q + k ≤ p ∨ p + n ≤ q) : load (store m p n v) q k = load m q k :=
  load_congr fun x hlow hhigh => store_outside (by omega)

theorem load_lt : load m p n < 256 ^ n := by
  induction n generalizing p with
  | zero => exact Nat.one_pos
  | succ n ih =>
      have hlt : load m (p + 1) n < 256 ^ n := ih
      have hbyte : (m p).toNat < 256 := (m p).isLt
      rw [load, Nat.pow_succ]
      omega

theorem load_store_part {i : Nat} (hi : i + k ≤ n) :
    load (store m p n v) (p + i) k = v / 256 ^ i % 256 ^ k := by
  induction k generalizing i with
  | zero => exact (Nat.mod_one _).symm
  | succ k ih =>
      have hbyte : (store m p n v (p + i)).toNat = v / 256 ^ i % 256 := by
        rw [store, if_pos (by omega), Nat.add_sub_cancel_left, BitVec.toNat_ofNat]
      have hrest : load (store m p n v) (p + (i + 1)) k = v / 256 ^ (i + 1) % 256 ^ k := ih (by omega)
      rw [load, hbyte, Nat.add_assoc, hrest, Nat.pow_succ 256 i, ← Nat.div_div_eq_div_mul, Nat.pow_succ,
        Nat.mul_comm (256 ^ k), Nat.mod_mul]

theorem load_store_same : load (store m p n v) p n = v % 256 ^ n := by
  have h : load (store m p n v) (p + 0) n = v / 256 ^ 0 % 256 ^ n := load_store_part (by omega)
  rwa [Nat.add_zero, Nat.pow_zero, Nat.div_one] at h

theorem load_store_of_lt (hv : v < 256 ^ n) : load (store m p n v) p n = v := by
  rw [load_store_same, Nat.mod_eq_of_lt hv]

/-- A load in two parts. -/
theorem load_add : load m p (n + k) = load m p n + 256 ^ n * load m (p + n) k := by
  induction n generalizing p with
  | zero => rw [Nat.zero_add, load, Nat.pow_zero, Nat.one_mul, Nat.zero_add, Nat.add_zero]
  | succ n ih =>
      rw [Nat.add_right_comm, load, load, ih, Nat.pow_succ, Nat.mul_add, Nat.add_assoc (m p).toNat,
        Nat.mul_comm (256 ^ n) 256, Nat.mul_assoc, Nat.add_assoc p 1 n, Nat.add_comm 1 n]

/-- A store in two parts. -/
theorem store_add : store (store m p n (v % 256 ^ n)) (p + n) k (v / 256 ^ n) = store m p (n + k) v := by
  funext x
  by_cases hhigh : p + n ≤ x ∧ x < p + n + k
  · have hpow : 256 ^ n * 256 ^ (x - (p + n)) = 256 ^ (x - p) := by
      rw [← Nat.pow_add]
      congr 1
      omega
    rw [store, if_pos hhigh, store, if_pos (by omega), Nat.div_div_eq_div_mul, hpow]
  · rw [store, if_neg hhigh]
    by_cases hlow : p ≤ x ∧ x < p + n
    · obtain ⟨i, hi⟩ : ∃ i, n = x - p + (i + 1) := ⟨n - (x - p) - 1, by omega⟩
      rw [store, if_pos hlow, store, if_pos (by omega)]
      apply BitVec.eq_of_toNat_eq
      rw [BitVec.toNat_ofNat, BitVec.toNat_ofNat, hi, Nat.pow_add, Nat.mod_mul_right_div_self, Nat.pow_succ,
        Nat.mod_mod_of_dvd _ (Nat.dvd_mul_left _ _)]
    · rw [store, if_neg hlow, store, if_neg (by omega)]

/-! ### Sequences of fields -/

/-- A field: its size in bytes and its value. -/
abbrev Field := Nat × Nat

/-- The fields stand one after the other from `p` on. -/
def Laid (m : Memory) (p : Nat) : List Field → Prop
  | [] => True
  | (n, v) :: fields => load m p n = v ∧ Laid m (p + n) fields

def size (fields : List Field) : Nat := (fields.map Prod.fst).sum

@[simp] theorem size_nil : size [] = 0 := rfl

@[simp] theorem size_cons {fields : List Field} : size ((n, v) :: fields) = n + size fields := by
  rw [size, List.map_cons, List.sum_cons]
  rfl

theorem size_append {fields fields' : List Field} : size (fields ++ fields') = size fields + size fields' := by
  rw [size, List.map_append, List.sum_append]
  rfl

theorem Laid.congr {fields : List Field} (h : Laid m p fields)
    (hmem : ∀ x, p ≤ x → x < p + size fields → m' x = m x) : Laid m' p fields := by
  induction fields generalizing p with
  | nil => trivial
  | cons field fields ih =>
      obtain ⟨n, v⟩ := field
      rw [size_cons] at hmem
      refine ⟨(load_congr fun x hlow hhigh => hmem x hlow (by omega)).trans h.1, ?_⟩
      exact ih h.2 fun x hlow hhigh => hmem x (by omega) (by omega)

/-- A store below the fields puts a field in front of them. -/
theorem Laid.store {fields : List Field} (h : Laid m (p + n) fields) (hv : v < 256 ^ n) :
    Laid (store m p n v) p ((n, v) :: fields) :=
  ⟨load_store_of_lt hv, h.congr fun _ hlow _ => store_outside (Or.inr hlow)⟩

/-- Stores of the fields, the last one first. -/
def lay (m : Memory) (p : Nat) : List Field → Memory
  | [] => m
  | (n, v) :: fields => store (lay m (p + n) fields) p n v

/-- Each value fits its field. -/
def Fits (fields : List Field) : Prop := ∀ field ∈ fields, field.2 < 256 ^ field.1

theorem laid_lay {fields : List Field} (h : Fits fields) : Laid (lay m p fields) p fields := by
  induction fields generalizing p with
  | nil => trivial
  | cons field fields ih =>
      obtain ⟨n, v⟩ := field
      exact (ih fun field hfield => h field (List.mem_cons_of_mem _ hfield)).store (h _ List.mem_cons_self)

theorem lay_outside {fields : List Field} {x : Nat} (h : x < p ∨ p + size fields ≤ x) :
    lay m p fields x = m x := by
  induction fields generalizing p with
  | nil => rfl
  | cons field fields ih =>
      obtain ⟨n, v⟩ := field
      rw [size_cons] at h
      rw [lay, store_outside (by omega), ih (by omega)]

theorem laid_append {fields fields' : List Field} :
    Laid m p (fields ++ fields') ↔ Laid m p fields ∧ Laid m (p + size fields) fields' := by
  induction fields generalizing p with
  | nil => exact (and_iff_right trivial).symm
  | cons field fields ih =>
      obtain ⟨n, v⟩ := field
      rw [List.cons_append, Laid, Laid, ih, size_cons, Nat.add_assoc, and_assoc]

end Kiznix.ByteMemory
