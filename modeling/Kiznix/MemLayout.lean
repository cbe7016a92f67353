import Kiznix.MemModel
import Mathlib.Tactic.IntervalCases

/-! Addresses of the three builds: the windows `vmm_page_mappings_k`, the free-page stack and the heap as
paths in the tree of page tables. -/

namespace Kiznix.Memory

open RadixTree

namespace Build

variable {b : Build} {va va' : Nat}

/-- The addresses that the hardware looks up in the tree under the top table: on PAE those of the
gigabyte of kernel space, on x86_64 the canonical ones. -/
def InTree : Build → Nat → Prop
  | .i386, va => va < 2 ^ 32
  | .pae, va => 0xC0000000 ≤ va ∧ va < 2 ^ 32
  | .x86_64, va => va < 2 ^ 47 ∨ 2 ^ 64 - 2 ^ 47 ≤ va ∧ va < 2 ^ 64

instance : Decidable (b.InTree va) := by
  cases b <;> unfold InTree <;> infer_instance

/-- The addresses of the windows through which the tables are seen. -/
def InWindow (b : Build) (va : Nat) : Prop := (b.path va).head? = some b.recursiveIndex

instance : Decidable (b.InWindow va) := inferInstanceAs (Decidable (_ = _))

/-- `i_k`, the index into `vmm_page_mappings_k`. -/
def index : Build → Nat → Nat → Nat
  | .i386, 1, va => (va >>> 12) &&& 0xFFFFF
  | .i386, _, va => (va >>> 22) &&& 0x3FF
  | .pae, 1, va => (va >>> 12) &&& 0xFFFFF
  | .pae, _, va => (va >>> 21) &&& 0x7FF
  | .x86_64, 1, va => (va >>> 12) &&& 0xFFFFFFFFF
  | .x86_64, 2, va => (va >>> 21) &&& 0x7FFFFFF
  | .x86_64, 3, va => (va >>> 30) &&& 0x3FFFF
  | .x86_64, _, va => (va >>> 39) &&& 0x1FF

/-- The virtual address of the entry of level `k` that the walk of `va` uses. -/
def entryVa (b : Build) (k va : Nat) : Nat := b.entryAddress k (b.index k va)

/-- The virtual address of the table that this entry refers to. -/
def tableVa (b : Build) (k va : Nat) : Nat := b.vmmPageMappings (k - 1) + (b.index k va <<< 12)

theorem and_mask (n x : Nat) : x &&& (2 ^ n - 1) = x % 2 ^ n := Nat.and_two_pow_sub_one_eq_mod x n

theorem index_eq (k va : Nat) : b.index k va =
    match b, k with
    | .i386, 1 => va / 2 ^ 12 % 2 ^ 20
    | .i386, _ => va / 2 ^ 22 % 2 ^ 10
    | .pae, 1 => va / 2 ^ 12 % 2 ^ 20
    | .pae, _ => va / 2 ^ 21 % 2 ^ 11
    | .x86_64, 1 => va / 2 ^ 12 % 2 ^ 36
    | .x86_64, 2 => va / 2 ^ 21 % 2 ^ 27
    | .x86_64, 3 => va / 2 ^ 30 % 2 ^ 18
    | .x86_64, _ => va / 2 ^ 39 % 2 ^ 9 := by
  have h20 := and_mask 20
  have h10 := and_mask 10
  have h11 := and_mask 11
  have h36 := and_mask 36
  have h27 := and_mask 27
  have h18 := and_mask 18
  have h9 := and_mask 9
  norm_num at h20 h10 h11 h36 h27 h18 h9
  unfold index
  split <;> simp only [Nat.shiftRight_eq_div_pow, h20, h10, h11, h36, h27, h18, h9] <;> norm_num

theorem path_length : (b.path va).length = b.levels := by
  cases b <;> rfl

theorem levels_pos : 0 < b.levels := by
  cases b <;> decide

theorem path_page : b.path (pageAlignDown va) = b.path va := by
  cases b <;> simp only [path, pageAlignDown, pageSize, List.cons.injEq, and_true] <;> omega

theorem page_eq_of_path (h : b.InTree va) (h' : b.InTree va') (hpath : b.path va = b.path va') :
    va / pageSize = va' / pageSize := by
  cases b <;> simp only [path, InTree, pageSize, List.cons.injEq, and_true] at h h' hpath ⊢ <;> omega

theorem path_entryVa {d : Nat} (hd : d < b.levels) (h : b.InTree va) :
    b.path (b.entryVa (b.levels - d) va) =
      List.replicate (b.levels - d) b.recursiveIndex ++ (b.path va).take d := by
  cases b <;> simp only [levels, InTree] at hd h ⊢ <;> interval_cases d <;>
    simp [entryVa, entryAddress, index_eq, path, vmmPageMappings, entrySize, recursiveIndex,
      List.replicate_succ] <;> omega

theorem inTree_entryVa {d : Nat} (hd : d < b.levels) (h : b.InTree va) :
    b.InTree (b.entryVa (b.levels - d) va) := by
  cases b <;> simp only [levels, InTree] at hd h ⊢ <;> interval_cases d <;>
    simp [entryVa, entryAddress, index_eq, vmmPageMappings, entrySize] <;> omega

theorem wordIndex_entryVa {d : Nat} (hd : d < b.levels) (h : b.InTree va) :
    b.wordIndex (b.entryVa (b.levels - d) va) = (b.path va).getD d 0 := by
  cases b <;> simp only [levels, InTree] at hd h ⊢ <;> interval_cases d <;>
    simp [wordIndex, pageSize, entryVa, entryAddress, index_eq, path, vmmPageMappings, entrySize] <;> omega

theorem path_tableVa {d : Nat} (hd : d + 1 < b.levels) (h : b.InTree va) :
    b.path (b.tableVa (b.levels - d) va) =
      List.replicate (b.levels - (d + 1)) b.recursiveIndex ++ (b.path va).take (d + 1) := by
  replace hd : d < b.levels - 1 := by omega
  cases b <;> simp only [levels, InTree] at hd h ⊢ <;> interval_cases d <;>
    simp [tableVa, index_eq, path, vmmPageMappings, recursiveIndex, List.replicate_succ,
      Nat.shiftLeft_eq] <;> omega

theorem inTree_tableVa {d : Nat} (hd : d + 1 < b.levels) (h : b.InTree va) :
    b.InTree (b.tableVa (b.levels - d) va) := by
  replace hd : d < b.levels - 1 := by omega
  cases b <;> simp only [levels, InTree] at hd h ⊢ <;> interval_cases d <;>
    simp [tableVa, index_eq, vmmPageMappings, Nat.shiftLeft_eq] <;> omega

/-! ### The free-page stack -/

/-- Page `j` of the stack window. -/
def stackPage (b : Build) (j : Nat) : Nat := b.pmmStackVma + pageSize * j

/-- Slot `k` of the stack. -/
def slotVa (b : Build) (k : Nat) : Nat := b.pmmStackVma + b.entrySize * k

def stackPages (b : Build) : Nat := b.pmmStackSize / pageSize

theorem entrySize_mul_entries : b.entrySize * b.entries = pageSize := by
  cases b <;> rfl

theorem pageAlignDown_slotVa (k : Nat) : pageAlignDown (b.slotVa k) = b.stackPage (k / b.entries) := by
  cases b <;> simp only [pageAlignDown, slotVa, stackPage, pmmStackVma, entrySize, entries, pageSize] <;>
    omega

theorem path_slotVa (k : Nat) : b.path (b.slotVa k) = b.path (b.stackPage (k / b.entries)) := by
  rw [← path_page, pageAlignDown_slotVa]

theorem wordIndex_slotVa (k : Nat) : b.wordIndex (b.slotVa k) = k % b.entries := by
  cases b <;> simp only [wordIndex, slotVa, pmmStackVma, entrySize, entries, pageSize] <;> omega

theorem slotVa_mod (k : Nat) : b.slotVa k % pageSize = 0 ↔ k % b.entries = 0 := by
  cases b <;> simp only [slotVa, pmmStackVma, entrySize, entries, pageSize] <;> omega

theorem inTree_stackPage {j : Nat} (hj : j ≤ b.stackPages) : b.InTree (b.stackPage j) := by
  cases b <;>
    simp [stackPages, pmmStackSize, pageSize, InTree, stackPage, pmmStackVma] at hj ⊢ <;> omega

theorem not_inWindow_stackPage {j : Nat} (hj : j ≤ b.stackPages) : ¬ b.InWindow (b.stackPage j) := by
  cases b <;> simp [stackPages, pmmStackSize, pageSize, InWindow, path, stackPage, pmmStackVma,
    recursiveIndex] at hj ⊢ <;> omega

/-- The window of the free-page stack. -/
def InStack (b : Build) (va : Nat) : Prop := b.pmmStackVma ≤ va ∧ va < b.pmmStackVma + b.pmmStackSize

instance : Decidable (b.InStack va) := inferInstanceAs (Decidable (_ ∧ _))

theorem stackPage_ne_of_not_inStack {j : Nat} (hva : ¬ b.InStack va) (hj : j < b.stackPages) :
    b.stackPage j / pageSize ≠ va / pageSize := by
  intro hpage
  refine hva ?_
  cases b <;> simp only [InStack, stackPages, stackPage, pmmStackVma, pmmStackSize, pageSize] at * <;>
    omega

/-- The addresses that only the allocator and the page tables use. -/
def Internal (b : Build) (va : Nat) : Prop := b.InWindow va ∨ b.InStack va

theorem internal_page : b.Internal (pageSize * (va / pageSize)) ↔ b.Internal va := by
  have hpath : b.path (pageSize * (va / pageSize)) = b.path va := by
    rw [Nat.mul_comm]
    exact path_page
  rw [Internal, Internal, InWindow, InWindow, hpath]
  refine or_congr_right ?_
  cases b <;> simp only [InStack, pmmStackVma, pmmStackSize, pageSize] <;> omega

theorem internal_entryVa {d : Nat} (hd : d < b.levels) (h : b.InTree va) :
    b.Internal (b.entryVa (b.levels - d) va) := by
  refine Or.inl ?_
  obtain ⟨m, hm⟩ : ∃ m, b.levels - d = m + 1 := ⟨b.levels - d - 1, by omega⟩
  rw [InWindow, path_entryVa hd h, hm, List.replicate_succ]
  rfl

theorem internal_tableVa {d : Nat} (hd : d + 1 < b.levels) (h : b.InTree va) :
    b.Internal (b.tableVa (b.levels - d) va) := by
  refine Or.inl ?_
  obtain ⟨m, hm⟩ : ∃ m, b.levels - (d + 1) = m + 1 := ⟨b.levels - (d + 1) - 1, by omega⟩
  rw [InWindow, path_tableVa hd h, hm, List.replicate_succ]
  rfl

theorem internal_slotVa {k : Nat} (hk : k < b.stackPages * b.entries) : b.Internal (b.slotVa k) := by
  refine Or.inr ?_
  cases b <;> simp only [InStack, stackPages, slotVa, pmmStackVma, pmmStackSize, pageSize, entrySize,
    entries] at * <;> omega

theorem stackPage_inj {i j : Nat} (h : b.stackPage i / pageSize = b.stackPage j / pageSize) : i = j := by
  cases b <;> simp only [stackPage, pmmStackVma, pageSize] at h <;> omega

end Build

end Kiznix.Memory
