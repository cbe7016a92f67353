import Kiznix.MemInvariant

/-! What code may do that takes frames from the free frames and builds page tables with them: the
translations stay, but for stack pages that are given back, and so does the contents of frames that are
neither tables nor taken. -/

namespace Kiznix.Memory

open RadixTree

variable {b : Build} {pool held : List Nat} {s s' s₁ : Machine} {va va' f g t w j k m n d : Nat}
  {taken taken' : List Nat}

/-- Every translation that may be cached is the one of the page tables. -/
def Coherent (b : Build) (s : Machine) : Prop := ∀ e ∈ s.tlb, s.translate b (pageSize * e.1) = some e.2

/-- The next `n` frames come without the first slot of a stack page, whose page is unmapped. -/
def Quiet (b : Build) (n : Nat) (s : Machine) : Prop :=
  b = .i386 ∨ s.stackCount b = 0 ∨ n ≤ (s.stackCount b - 1) % b.entries

/-- The page was in use by the stack and is so no more. -/
def Dropped (b : Build) (s s' : Machine) (va : Nat) : Prop :=
  ∃ j, va / pageSize = b.stackPage j / pageSize ∧ s'.stackCount b ≤ j * b.entries ∧
    j * b.entries < s.stackCount b

/-- `pmm_free_memory` is the size of the free frames. -/
def Accounted (b : Build) (s : Machine) : Prop :=
  s.pmmFreeMemory = pageSize * (s.freeFrames b).length ∧ s.pmmFreeMemory < 2 ^ 64

structure Taken (b : Build) (taken : List Nat) (s s' : Machine) : Prop where
  free : s.freeFrames b = taken ++ s'.freeFrames b
  out : s'.handedOut = taken.reverse ++ s.handedOut
  table : ∀ va d t, d < b.levels → s.tableAt b va d = some t → s'.tableAt b va d = some t
  isTable : ∀ f, s'.IsTable b f → s.IsTable b f ∨ f ∈ taken
  isTable_mono : ∀ f, s.IsTable b f → s'.IsTable b f
  mem : ∀ f, ¬ s.IsTable b f → f ∉ taken → s'.mem f = s.mem f
  last : ∀ va, ¬ b.InWindow va → s'.lastEntry b va = s.lastEntry b va ∨
    s'.lastEntry b va = some 0 ∧ (s.lastEntry b va = none ∨ Dropped b s s' va)
  dropped : ∀ va, b.InTree va → ¬ b.InWindow va → Dropped b s s' va → s'.lastEntry b va = some 0
  count : s'.stackCount b = s.stackCount b - taken.length
  nextAlloc : s'.nextAlloc = s.nextAlloc
  bootPdpt : s'.bootPdpt = s.bootPdpt
  root : s'.root b = s.root b
  accounted : Accounted b s → Accounted b s'
  tlb : ∀ e ∈ s'.tlb, e ∈ s.tlb ∨ b.Internal (pageSize * e.1)
  quiet : ∀ n, Quiet b (taken.length + n) s → Quiet b n s'
  coherent : Quiet b taken.length s → Coherent b s → Coherent b s'

theorem Quiet.mono (h : Quiet b n s) (hle : m ≤ n) : Quiet b m s := by
  rcases h with h | h | h
  · exact Or.inl h
  · exact Or.inr (Or.inl h)
  · exact Or.inr (Or.inr (hle.trans h))

theorem Quiet.zero : Quiet b 0 s := Or.inr (Or.inr (Nat.zero_le _))

theorem Dropped.mono_left (h : Dropped b s₁ s' va) (hle : s₁.stackCount b ≤ s.stackCount b) :
    Dropped b s s' va := by
  obtain ⟨j, hva, hlow, hhigh⟩ := h
  exact ⟨j, hva, hlow, hhigh.trans_le hle⟩

theorem Dropped.mono_right (h : Dropped b s s₁ va) (hle : s'.stackCount b ≤ s₁.stackCount b) :
    Dropped b s s' va := by
  obtain ⟨j, hva, hlow, hhigh⟩ := h
  exact ⟨j, hva, hle.trans hlow, hhigh⟩

theorem not_dropped (hcount : s'.stackCount b = s.stackCount b) : ¬ Dropped b s s' va := by
  rintro ⟨j, -, hlow, hhigh⟩
  omega

theorem Taken.count_le (h : Taken b taken s s') : s'.stackCount b ≤ s.stackCount b := by
  rw [h.count]
  exact Nat.sub_le _ _

theorem Taken.trans (h : Taken b taken s s₁) (h' : Taken b taken' s₁ s') :
    Taken b (taken ++ taken') s s' where
  free := by rw [h.free, h'.free, List.append_assoc]
  out := by rw [h'.out, h.out, List.reverse_append, List.append_assoc]
  table va d t hd ht := h'.table va d t hd (h.table va d t hd ht)
  isTable f hf := by
    rcases h'.isTable f hf with hf | hf
    · exact (h.isTable f hf).imp_right (List.mem_append_left _)
    · exact Or.inr (List.mem_append_right _ hf)
  isTable_mono f hf := h'.isTable_mono f (h.isTable_mono f hf)
  mem f hf hnot := by
    rw [List.mem_append, not_or] at hnot
    rw [h'.mem f (fun htable => (h.isTable f htable).elim hf hnot.1) hnot.2, h.mem f hf hnot.1]
  last va hva := by
    rcases h'.last va hva with heq | ⟨hzero, hcause⟩
    · rw [heq]
      exact (h.last va hva).imp_right fun ⟨hzero, hcause⟩ =>
        ⟨hzero, hcause.imp_right fun hdropped => hdropped.mono_right h'.count_le⟩
    · rcases h.last va hva with heq | ⟨hzero', hcause'⟩
      · rw [heq] at hcause
        exact Or.inr ⟨hzero, hcause.imp_right fun hdropped => hdropped.mono_left h.count_le⟩
      · exact Or.inr ⟨hzero, hcause'.imp_right fun hdropped => hdropped.mono_right h'.count_le⟩
  dropped va hva hwindow hdropped := by
    obtain ⟨j, hpage, hlow, hhigh⟩ := hdropped
    by_cases hj : j * b.entries < s₁.stackCount b
    · exact h'.dropped va hva hwindow ⟨j, hpage, hlow, hj⟩
    · have hzero := h.dropped va hva hwindow ⟨j, hpage, Nat.le_of_not_lt hj, hhigh⟩
      rcases h'.last va hwindow with heq | ⟨hzero', -⟩
      · rw [heq, hzero]
      · exact hzero'
  count := by rw [h'.count, h.count, List.length_append, Nat.sub_sub]
  nextAlloc := h'.nextAlloc.trans h.nextAlloc
  bootPdpt := h'.bootPdpt.trans h.bootPdpt
  root := h'.root.trans h.root
  accounted ha := h'.accounted (h.accounted ha)
  tlb e he := (h'.tlb e he).elim (h.tlb e) Or.inr
  quiet n hn := by
    rw [List.length_append, Nat.add_assoc] at hn
    exact h'.quiet n (h.quiet _ hn)
  coherent hn hc := by
    rw [List.length_append] at hn
    exact h'.coherent (h.quiet _ hn) (h.coherent (hn.mono (Nat.le_add_right _ _)) hc)

theorem translate_page_mul : s.translate b (pageSize * (va / pageSize)) = s.translate b va := by
  rw [Nat.mul_comm]
  exact Build.translate_page

end Kiznix.Memory
