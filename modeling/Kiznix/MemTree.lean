import Kiznix.MemLayout

/-! The page tables of the machine as a tree that refers to itself. The entry and table addresses of
`vmm.c` translate to the tables that the walk of an address passes. -/

namespace Kiznix.Memory

open RadixTree

variable {b : Build} {s s' : Machine} {va va' f g t i x w n : Nat}

/-! ### Entries -/

theorem present_iff {entry : Nat} : Present entry ↔ entry % 2 = 1 := by
  have hand : entry &&& pagePresent = entry % 2 := Build.and_mask 1 entry
  rw [Present, hand]
  omega

theorem lor_flags {page flags : Nat} (hpage : page % pageSize = 0) (hflags : flags < pageSize) :
    page ||| flags = page + flags := by
  have hdiv : page = 2 ^ 12 * (page / pageSize) := by
    rw [pageSize] at hpage ⊢
    omega
  rw [hdiv]
  exact (Nat.two_pow_add_eq_or_of_lt hflags _).symm

/-- The entry that the code makes for a page. -/
theorem entry_eq {page : Nat} (hpage : page % pageSize = 0) :
    page ||| pageWrite ||| pagePresent = page + 3 := by
  rw [Nat.or_assoc]
  exact lor_flags hpage (by decide)

theorem entry_global_eq {page : Nat} (hpage : page % pageSize = 0) :
    page ||| pageWrite ||| pagePresent ||| pageGlobal = page + 0x103 := by
  rw [Nat.or_assoc, Nat.or_assoc]
  exact lor_flags hpage (by decide)

theorem entryFrame_add {page flags : Nat} (hpage : page % pageSize = 0) (hflags : flags < pageSize)
    (hodd : flags % 2 = 1) : entryFrame (page + flags) = some (page / pageSize) := by
  rw [pageSize] at hpage hflags
  have hpresent : Present (page + flags) := present_iff.mpr (by omega)
  rw [entryFrame, if_pos hpresent, pageSize]
  congr 1
  omega

theorem entryFrame_of_not (h : ¬ Present w) : entryFrame w = none := if_neg h

theorem entryFrame_eq_none : entryFrame w = none ↔ ¬ Present w := by
  rw [entryFrame]
  split <;> simp [*]

theorem not_present_zero : ¬ Present 0 := by decide

theorem not_present_allocated : ¬ Present pageAllocated := by decide

/-! ### Updates -/

namespace Machine

theorem write_same : (s.write f i w).mem f i = w := if_pos ⟨rfl, rfl⟩

theorem write_of_ne (h : ¬ (g = f ∧ x = i)) : (s.write f i w).mem g x = s.mem g x := if_neg h

theorem write_zero (h : s.mem g x = 0) : (s.write f i 0).mem g x = 0 := by
  by_cases hne : g = f ∧ x = i
  · exact if_pos hne
  · rw [write_of_ne hne, h]

theorem zero_same : (s.zero f).mem f i = 0 := if_pos rfl

theorem zero_of_ne (h : g ≠ f) : (s.zero f).mem g i = s.mem g i := if_neg h

theorem next_write : (s.write t x w).next = setEntry s.next t x (entryFrame w) := by
  funext f i
  by_cases h : f = t ∧ i = x
  · rw [next, h.1, h.2, write_same, setEntry_same]
  · rw [next, write_of_ne h, setEntry_of_ne h, next]

theorem next_zero : (s.zero g).next = clear s.next g := by
  funext f i
  by_cases h : f = g
  · rw [next, h, zero_same, clear_same, entryFrame_of_not not_present_zero]
  · rw [next, zero_of_ne h, clear_of_ne h, next]

/-- A table is linked first and emptied afterwards. -/
theorem next_link (hw : entryFrame w = some g) (hgt : g ≠ t) :
    ((s.write t x w).zero g).next = link s.next t x g := by
  rw [next_zero, next_write, hw]
  funext f i
  by_cases hf : f = g
  · rw [hf, clear_same, link, setEntry_of_ne fun h => hgt h.1, clear_same]
  · by_cases h : f = t ∧ i = x
    · rw [clear_of_ne hf, link, h.1, h.2, setEntry_same, setEntry_same]
    · rw [clear_of_ne hf, link, setEntry_of_ne h, setEntry_of_ne h, clear_of_ne hf]

end Machine

/-! ### The tree -/

/-- The frame of the top table. -/
def Machine.root (b : Build) (s : Machine) : Nat :=
  match b with
  | .pae => s.pdpte 3 / pageSize
  | _ => s.cr3 / pageSize

/-- PAE: the page directory of kernel space is the only one that the processor knows. -/
def Machine.KernelDirectory (b : Build) (s : Machine) : Prop :=
  b = .pae → Present (s.pdpte 3) ∧ (∀ i, i < 3 → ¬ Present (s.pdpte i)) ∧ Present (s.bootPdpt 3)

/-- The table at depth `d` on the walk of an address. -/
def Machine.tableAt (b : Build) (s : Machine) (va d : Nat) : Option Nat :=
  follow s.next (s.root b) ((b.path va).take d)

def Machine.IsTable (b : Build) (s : Machine) (f : Nat) : Prop :=
  RadixTree.IsTable s.next (s.root b) b.levels f

structure Machine.Tree (b : Build) (s : Machine) : Prop where
  directory : s.KernelDirectory b
  tree : RecursiveTree s.next (s.root b) b.recursiveIndex b.levels

theorem Machine.KernelDirectory.top (h : s.KernelDirectory b) (va : Nat) :
    s.top b va = if b.InTree va then some (s.root b) else none := by
  cases b with
  | i386 => rfl
  | x86_64 => rfl
  | pae =>
      obtain ⟨hthree, hlow, -⟩ := h rfl
      by_cases hva : Build.pae.InTree va
      · have hindex : va / 2 ^ 30 = 3 := by
          rw [Build.InTree.eq_def] at hva
          dsimp only at hva
          omega
        rw [if_pos hva, Machine.top, if_pos hva.2, hindex, entryFrame, if_pos hthree, Machine.root]
      · rw [if_neg hva, Machine.top]
        split
        · refine entryFrame_of_not (hlow _ ?_)
          rw [Build.InTree.eq_def] at hva
          dsimp only at hva
          omega
        · rfl

theorem Machine.KernelDirectory.translate (h : s.KernelDirectory b) (hva : b.InTree va) :
    s.translate b va = follow s.next (s.root b) (b.path va) := by
  rw [Machine.translate, h.top, if_pos hva]
  rfl

namespace Machine.Tree

theorem translate_eq (h : s.Tree b) (hva : b.InTree va) :
    s.translate b va = follow s.next (s.root b) (b.path va) :=
  h.directory.translate hva

theorem translate_of_not (h : s.Tree b) (hva : ¬ b.InTree va) : s.translate b va = none := by
  rw [translate, h.directory.top, if_neg hva]
  rfl

theorem translate_inTree (h : s.Tree b) (hf : s.translate b va = some f) : b.InTree va := by
  by_contra hva
  rw [h.translate_of_not hva] at hf
  cases hf

theorem translate_eq_tableAt (h : s.Tree b) (hva : b.InTree va) :
    s.translate b va = s.tableAt b va b.levels := by
  rw [h.translate_eq hva, tableAt, List.take_of_length_le b.path_length.le]

/-- The address of an entry of `vmm_page_mappings_k` shows the table that the walk passes there. -/
theorem translate_entryVa (h : s.Tree b) {d : Nat} (hd : d < b.levels) (hva : b.InTree va) :
    s.translate b (b.entryVa (b.levels - d) va) = s.tableAt b va d := by
  rw [h.translate_eq (Build.inTree_entryVa hd hva), Build.path_entryVa hd hva,
    follow_replicate h.tree.recursive, tableAt]

theorem translate_tableVa (h : s.Tree b) {d : Nat} (hd : d + 1 < b.levels) (hva : b.InTree va) :
    s.translate b (b.tableVa (b.levels - d) va) = s.tableAt b va (d + 1) := by
  rw [h.translate_eq (Build.inTree_tableVa hd hva), Build.path_tableVa hd hva,
    follow_replicate h.tree.recursive, tableAt]

theorem translate_leafVa (h : s.Tree b) (hva : b.InTree va) :
    s.translate b (b.entryVa 1 va) = s.tableAt b va (b.levels - 1) := by
  have hsub : b.levels - (b.levels - 1) = 1 := Nat.sub_sub_self b.levels_pos
  rw [← h.translate_entryVa (Nat.sub_lt b.levels_pos Nat.one_pos) hva, hsub]

end Machine.Tree

theorem take_succ_path {d : Nat} (hd : d < b.levels) :
    (b.path va).take (d + 1) = (b.path va).take d ++ [(b.path va).getD d 0] := by
  rw [List.take_add_one, List.getD_eq_getElem?_getD,
    List.getElem?_eq_getElem (by rwa [Build.path_length])]
  rfl

theorem tableAt_succ {d : Nat} (hd : d < b.levels) :
    s.tableAt b va (d + 1) = (s.tableAt b va d).bind fun t => s.next t ((b.path va).getD d 0) := by
  rw [Machine.tableAt, take_succ_path hd, follow_concat, Machine.tableAt]

theorem tableAt_isTable {d : Nat} (hd : d < b.levels) (ht : s.tableAt b va d = some t) : s.IsTable b t :=
  ⟨(b.path va).take d, (List.length_take_le _ _).trans_lt hd, ht⟩

end Kiznix.Memory
