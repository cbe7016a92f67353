import Kiznix.MemInit
import Mathlib.Data.List.Range

/-! What `pmm_init` records: one range for each entry of which a frame is left after rounding and clipping,
and the sizes of these ranges. -/

namespace Kiznix.Memory

variable {b : Build} {map : List MemoryMapEntry} {e e' : MemoryMapEntry} {p : PmmInit}
  {kernelEnd start stop f : Nat}

/-! ### One entry -/

/-- The first address that an entry can give, after rounding and clipping. -/
def rangeStart (kernelEnd : Nat) (e : MemoryMapEntry) : Nat :=
  max (max (pageAlignUp 64 e.base) mem1GB) kernelEnd

/-- The address after the last one that an entry can give. -/
def rangeStop (b : Build) (e : MemoryMapEntry) : Nat :=
  let stop := pageAlignDown ((e.base + e.length) % 2 ^ 64)
  if b = .i386 then min stop mem4GB else stop

/-- The range that an entry gives, if there is something left. -/
def entryRange (b : Build) (kernelEnd : Nat) (e : MemoryMapEntry) : List (Nat × Nat) :=
  if rangeStart kernelEnd e < rangeStop b e then [(rangeStart kernelEnd e, rangeStop b e)] else []

/-- How a range is stored. -/
def storedRange (b : Build) (r : Nat × Nat) : FreeMemory := ⟨r.1 % 2 ^ b.physBits, r.2 % 2 ^ b.physBits⟩

theorem addRange_eq : p.addRange b mem1GB kernelEnd start stop =
    if max (max start mem1GB) kernelEnd < stop then
      p.addFree b (max (max start mem1GB) kernelEnd) stop
    else p := by
  have hstart : PmmInit.clipStart mem1GB kernelEnd start = max (max start mem1GB) kernelEnd := by
    simp only [PmmInit.clipStart]
    split <;> split <;> omega
  rw [PmmInit.addRange, hstart, PmmInit.clipStop]
  by_cases hlt : max (max start mem1GB) kernelEnd < stop
  · have hstop : ¬ (mem1GB ≤ stop ∧ stop < kernelEnd) := by omega
    rw [if_neg hstop, if_neg (by omega), if_pos hlt]
  · rw [if_neg hlt, if_pos]
    split <;> omega

theorem rangeStop_of_not (hb : b ≠ .i386) :
    rangeStop b e = pageAlignDown ((e.base + e.length) % 2 ^ 64) := by
  rw [rangeStop, if_neg hb]

theorem addRange_entry (hstop : stop = rangeStop b e) :
    p.addRange b mem1GB kernelEnd (pageAlignUp 64 e.base) stop =
      if rangeStart kernelEnd e < rangeStop b e then
        p.addFree b (rangeStart kernelEnd e) (rangeStop b e)
      else p := by
  rw [addRange_eq, hstop]
  rfl

theorem sub64_of_le {x y : Nat} (hle : y ≤ x) (hx : x < 2 ^ 64) : sub64 x y = x - y := by
  unfold sub64
  omega

/-- The bytes of an entry that the non-PAE i386 build cannot address. -/
def unavailableSize (b : Build) (e : MemoryMapEntry) : Nat :=
  if b = .i386 then
    pageAlignDown ((e.base + e.length) % 2 ^ 64) - max (pageAlignUp 64 e.base) mem4GB
  else 0

/-- An entry above 4 GB that rounding turns upside down. -/
def Inverted (b : Build) (e : MemoryMapEntry) : Prop :=
  b = .i386 ∧ mem4GB ≤ pageAlignUp 64 e.base ∧
    pageAlignDown ((e.base + e.length) % 2 ^ 64) < pageAlignUp 64 e.base

instance : Decidable (Inverted b e) := inferInstanceAs (Decidable (_ ∧ _ ∧ _))

theorem rangeStop_lt : rangeStop b e < 2 ^ 64 := by
  have hmod : (e.base + e.length) % 2 ^ 64 < 2 ^ 64 := Nat.mod_lt _ (Nat.two_pow_pos _)
  have hdown := Nat.div_mul_le_self ((e.base + e.length) % 2 ^ 64) pageSize
  simp only [rangeStop, pageAlignDown]
  split <;> omega

/-- The tests of the non-PAE i386 build in a round of the loop. -/
def PmmInit.limit (b : Build) (e : MemoryMapEntry) (p : PmmInit) : PmmInit :=
  let start := pageAlignUp 64 e.base
  let stop := pageAlignDown ((e.base + e.length) % 2 ^ 64)
  if b = .i386 then
    if start ≥ mem4GB then p.addUnavailable stop start
    else if stop > mem4GB then p.addUnavailable stop mem4GB
    else p
  else p

theorem PmmInit.entry_eq : p.entry b mem1GB kernelEnd e =
    let p := PmmInit.limit b e { p with pmmSystemMemory := add64 p.pmmSystemMemory e.length }
    if rangeStart kernelEnd e < rangeStop b e then
      p.addFree b (rangeStart kernelEnd e) (rangeStop b e)
    else p := by
  by_cases hb : b = .i386
  · have hstop : rangeStop b e = min (pageAlignDown ((e.base + e.length) % 2 ^ 64)) mem4GB := by
      rw [rangeStop, if_pos hb]
    simp only [PmmInit.entry, PmmInit.limit, if_pos hb]
    by_cases hhigh : pageAlignUp 64 e.base ≥ mem4GB
    · have hnot : ¬ rangeStart kernelEnd e < rangeStop b e := by
        rw [hstop, rangeStart]
        omega
      rw [if_pos hhigh, if_pos hhigh, if_neg hnot]
    · rw [if_neg hhigh, if_neg hhigh]
      split
      · rw [addRange_entry]
        rw [hstop]
        omega
      · rw [addRange_entry]
        rw [hstop]
        omega
  · simp only [PmmInit.entry, PmmInit.limit, if_neg hb]
    rw [addRange_entry (rangeStop_of_not hb).symm]

section Limit

@[simp] theorem limit_system : (PmmInit.limit b e p).pmmSystemMemory = p.pmmSystemMemory := by
  simp only [PmmInit.limit]
  split <;> (try split) <;> (try split) <;> rfl

@[simp] theorem limit_ranges : (PmmInit.limit b e p).sFreeMemory = p.sFreeMemory := by
  simp only [PmmInit.limit]
  split <;> (try split) <;> (try split) <;> rfl

@[simp] theorem limit_free : (PmmInit.limit b e p).pmmFreeMemory = p.pmmFreeMemory := by
  simp only [PmmInit.limit]
  split <;> (try split) <;> (try split) <;> rfl

@[simp] theorem addFree_system : (p.addFree b start stop).pmmSystemMemory = p.pmmSystemMemory := rfl

@[simp] theorem addFree_ranges :
    (p.addFree b start stop).sFreeMemory = p.sFreeMemory ++ [storedRange b (start, stop)] := rfl

@[simp] theorem addFree_free :
    (p.addFree b start stop).pmmFreeMemory = add64 p.pmmFreeMemory (sub64 stop start) := rfl

@[simp] theorem addFree_unavailable :
    (p.addFree b start stop).pmmUnavailableMemory = p.pmmUnavailableMemory := rfl

@[simp] theorem addFree_subtractions :
    (p.addFree b start stop).subtractions = (stop, start) :: p.subtractions := rfl

end Limit

theorem add64_eq (x y : Nat) : add64 x y = (x + y) % 2 ^ 64 := by
  unfold add64
  rw [Nat.add_comm]

theorem entry_system :
    (p.entry b mem1GB kernelEnd e).pmmSystemMemory = (p.pmmSystemMemory + e.length) % 2 ^ 64 := by
  rw [PmmInit.entry_eq]
  dsimp only
  split <;> simp only [addFree_system, limit_system, add64_eq]

theorem entry_ranges : (p.entry b mem1GB kernelEnd e).sFreeMemory =
    p.sFreeMemory ++ (entryRange b kernelEnd e).map (storedRange b) := by
  rw [PmmInit.entry_eq, entryRange]
  dsimp only
  split <;> simp

theorem entry_free (hp : p.pmmFreeMemory < 2 ^ 64) : (p.entry b mem1GB kernelEnd e).pmmFreeMemory =
    (p.pmmFreeMemory + (rangeStop b e - rangeStart kernelEnd e)) % 2 ^ 64 := by
  rw [PmmInit.entry_eq]
  dsimp only
  split
  · rename_i hlt
    rw [addFree_free, limit_free, sub64_of_le hlt.le rangeStop_lt, add64_eq]
  · rename_i hnot
    rw [limit_free, Nat.sub_eq_zero_of_le (Nat.le_of_not_lt hnot), Nat.add_zero, Nat.mod_eq_of_lt hp]

theorem pageAlignDown_lt (x : Nat) : pageAlignDown (x % 2 ^ 64) < 2 ^ 64 :=
  (Nat.div_mul_le_self _ _).trans_lt (Nat.mod_lt _ (Nat.two_pow_pos _))

theorem limit_unavailable (hinv : ¬ Inverted b e) (hp : p.pmmUnavailableMemory < 2 ^ 64) :
    (PmmInit.limit b e p).pmmUnavailableMemory =
      (p.pmmUnavailableMemory + unavailableSize b e) % 2 ^ 64 := by
  have hlt := pageAlignDown_lt (e.base + e.length)
  by_cases hb : b = .i386
  · simp only [PmmInit.limit, unavailableSize, if_pos hb]
    by_cases hhigh : pageAlignUp 64 e.base ≥ mem4GB
    · have hle : pageAlignUp 64 e.base ≤ pageAlignDown ((e.base + e.length) % 2 ^ 64) :=
        Nat.le_of_not_lt fun hlt => hinv ⟨hb, hhigh, hlt⟩
      rw [if_pos hhigh, PmmInit.addUnavailable, sub64_of_le hle hlt, add64_eq, max_eq_left hhigh]
    · rw [if_neg hhigh, max_eq_right (Nat.le_of_not_le hhigh)]
      split
      · rename_i hgt
        rw [PmmInit.addUnavailable, sub64_of_le (Nat.le_of_lt hgt) hlt, add64_eq]
      · rename_i hnot
        rw [Nat.sub_eq_zero_of_le (Nat.le_of_not_lt hnot), Nat.add_zero, Nat.mod_eq_of_lt hp]
  · rw [PmmInit.limit, unavailableSize, if_neg hb, if_neg hb, Nat.add_zero, Nat.mod_eq_of_lt hp]

theorem entry_unavailable (hinv : ¬ Inverted b e) (hp : p.pmmUnavailableMemory < 2 ^ 64) :
    (p.entry b mem1GB kernelEnd e).pmmUnavailableMemory =
      (p.pmmUnavailableMemory + unavailableSize b e) % 2 ^ 64 := by
  rw [PmmInit.entry_eq]
  dsimp only
  split
  · rw [addFree_unavailable, limit_unavailable hinv]
    exact hp
  · rw [limit_unavailable hinv]
    exact hp

theorem limit_subtractions (q : Nat × Nat) : q ∈ (PmmInit.limit b e p).subtractions ↔
    q ∈ p.subtractions ∨ b = .i386 ∧
      (mem4GB ≤ pageAlignUp 64 e.base ∨ mem4GB < pageAlignDown ((e.base + e.length) % 2 ^ 64)) ∧
      q = (pageAlignDown ((e.base + e.length) % 2 ^ 64), max (pageAlignUp 64 e.base) mem4GB) := by
  simp only [PmmInit.limit]
  generalize pageAlignDown ((e.base + e.length) % 2 ^ 64) = stop
  generalize pageAlignUp 64 e.base = start
  by_cases hb : b = .i386
  · rw [if_pos hb]
    by_cases hhigh : mem4GB ≤ start
    · rw [if_pos hhigh, PmmInit.addUnavailable, max_eq_left hhigh, List.mem_cons]
      simp [hb, hhigh, or_comm]
    · rw [if_neg hhigh, max_eq_right (Nat.le_of_not_le hhigh)]
      by_cases hgt : mem4GB < stop
      · rw [if_pos hgt, PmmInit.addUnavailable, List.mem_cons]
        simp [hb, hgt, or_comm]
      · rw [if_neg hgt]
        simp [hhigh, hgt]
  · simp [hb]

/-- The subtractions of a round wrap exactly for an entry that rounding turns upside down. -/
theorem entry_subtractions : (∀ q ∈ (p.entry b mem1GB kernelEnd e).subtractions, q.2 ≤ q.1) ↔
    (∀ q ∈ p.subtractions, q.2 ≤ q.1) ∧ ¬ Inverted b e := by
  have hlimit : (∀ q ∈ (PmmInit.limit b e { p with
      pmmSystemMemory := add64 p.pmmSystemMemory e.length }).subtractions, q.2 ≤ q.1) ↔
      (∀ q ∈ p.subtractions, q.2 ≤ q.1) ∧ ¬ Inverted b e := by
    constructor
    · intro h
      refine ⟨fun q hq => h q ((limit_subtractions q).mpr (Or.inl hq)), ?_⟩
      rintro ⟨hb, hhigh, hlt⟩
      have hle := h _ ((limit_subtractions _).mpr (Or.inr ⟨hb, Or.inl hhigh, rfl⟩))
      dsimp only at hle
      omega
    · rintro ⟨hold, hinv⟩ q hq
      rcases (limit_subtractions q).mp hq with hq | ⟨hb, hcase, rfl⟩
      · exact hold q hq
      · dsimp only
        by_contra hlt
        exact hinv ⟨hb, by omega, by omega⟩
  rw [PmmInit.entry_eq]
  dsimp only
  split
  · rename_i hlt
    rw [addFree_subtractions, List.forall_mem_cons, hlimit]
    exact and_iff_right hlt.le
  · exact hlimit

end Kiznix.Memory
