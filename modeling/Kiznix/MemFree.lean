import Kiznix.MemRegion
import Mathlib.Data.List.Nodup

/-! `pmm_free_page`: the frame that is freed becomes the next slot of the free-page stack, and the page of
the stack itself where a new one is begun. -/

namespace Kiznix.Memory

open RadixTree

variable {b : Build} {pool held held' : List Nat} {s s' s₁ : Machine} {resolve : Nat → M Nat}
  {va va' f g t w i j k m n d e page : Nat} {taken : List Nat}

/-! ### A slot -/

/-- Different slots hold different frames. -/
theorem MemInv.slot_inj (h : MemInv b pool held s) (hi : i < s.stackCount b) (hj : j < s.stackCount b)
    (heq : s.slot b i / pageSize = s.slot b j / pageSize) : i = j := by
  have hnodup : ((List.range (s.stackCount b)).map fun k => s.slot b k / pageSize).Nodup :=
    List.nodup_reverse.mp h.free_nodup.of_append_left
  exact List.inj_on_of_nodup_map hnodup (List.mem_range.mpr hi) (List.mem_range.mpr hj) heq

/-- The page of the next slot was begun before. -/
theorem div_mul_lt (hmod : n % m ≠ 0) : n / m * m < n := by
  have hdiv := Nat.div_add_mod n m
  rw [Nat.mul_comm] at hdiv
  omega

/-- The machine after `pmm_free_page` has written the slot at the top of the stack. -/
def Machine.pushed (b : Build) (s : Machine) (f page : Nat) : Machine :=
  ({ (s.cache (b.slotVa (s.stackCount b)) f).write f (s.stackCount b % b.entries) page with
    pmmStackTop := b.slotVa (s.stackCount b) + b.entrySize } : Machine).freed page

section Push

variable (h : MemInv b pool held s) (hF : page / pageSize ∈ held)
  (hf : s.translate b (b.slotVa (s.stackCount b)) = some f)
  (hfirst : s.stackCount b % b.entries = 0 → f = page / pageSize)

include h hf hfirst

/-- The frame of the slot is free or the one that is freed. -/
theorem MemInv.push_frame : f ∈ s.freeFrames b ∧ s.stackCount b % b.entries ≠ 0 ∨
    f = page / pageSize ∧ s.stackCount b % b.entries = 0 := by
  by_cases hmod : s.stackCount b % b.entries = 0
  · exact Or.inr ⟨hfirst hmod, hmod⟩
  · refine Or.inl ⟨?_, hmod⟩
    rw [Build.translate_slotVa] at hf
    exact h.stackPage_free (div_mul_lt hmod) hf

include hF

theorem MemInv.push_data : ¬ s.IsTable b f := by
  rcases h.push_frame hf hfirst with ⟨hfree, -⟩ | ⟨rfl, -⟩
  · exact fun htable => h.tables_used f htable hfree
  · exact h.held_data _ hF

/-- No slot in use is overwritten. -/
theorem MemInv.push_slot (hi : i < s.stackCount b) :
    ¬ ((s.translate b (b.slotVa i)).getD 0 = f ∧ i % b.entries = s.stackCount b % b.entries) := by
  rintro ⟨hframe, hindex⟩
  obtain ⟨f', hf', -, hbacking⟩ := h.slot_eq hi
  rw [← Build.translate_slotVa] at hf'
  rw [hf', Option.getD_some] at hframe
  subst hframe
  rcases h.push_frame hf hfirst with ⟨-, hmod⟩ | ⟨heq, -⟩
  · have hbacked := h.backed (s.stackCount b / b.entries) (div_mul_lt hmod)
    rw [← Build.translate_slotVa, hf, hbacking] at hbacked
    have hpage := h.slot_inj ((Nat.div_mul_le_self i b.entries).trans_lt hi) (div_mul_lt hmod)
      (Option.some.inj hbacked)
    have hdiv := Nat.div_add_mod' (s.stackCount b) b.entries
    have hdivi := Nat.div_add_mod' i b.entries
    omega
  · have hfree : f' ∈ s.freeFrames b := by
      rw [hbacking]
      exact slot_mem_free ((Nat.div_mul_le_self i b.entries).trans_lt hi)
    exact h.free_not_held hfree (heq ▸ hF)

end Push

/-- The end of `pmm_free_page`. -/
def pushSlot (b : Build) (resolve : Nat → M Nat) (page : Nat) : M Unit := do
  let s ← get
  store b resolve s.pmmStackTop page
  modify fun s => { s with pmmStackTop := s.pmmStackTop + b.entrySize }.freed page

theorem pushSlot_ok (htop : s.pmmStackTop = b.slotVa (s.stackCount b)) (hres : Resolves b resolve)
    (hf : s.translate b (b.slotVa (s.stackCount b)) = some f) :
    pushSlot b resolve page s = .ok (⟨⟩, s.pushed b f page) := by
  have hstore := store_ok (w := page) hres hf
  rw [Build.wordIndex_slotVa, ← htop] at hstore
  show (store b resolve s.pmmStackTop page >>= fun _ => modify fun s =>
    { s with pmmStackTop := s.pmmStackTop + b.entrySize }.freed page) s = _
  rw [bind_of_ok hstore, Machine.pushed, ← htop]
  rfl

section Push

variable (h : MemInv b pool held s) (hF : page / pageSize ∈ held)
  (hf : s.translate b (b.slotVa (s.stackCount b)) = some f)
  (hfirst : s.stackCount b % b.entries = 0 → f = page / pageSize)

theorem pushed_mem (hg : g ≠ f) : (s.pushed b f page).mem g = s.mem g :=
  funext fun _ => Machine.write_of_ne fun heq => hg heq.1

theorem pushed_count : (s.pushed b f page).stackCount b = s.stackCount b + 1 :=
  Build.stackCount_slotVa Build.slotVa_succ.symm

include h hF hf hfirst

theorem MemInv.pushed_tables : (s.pushed b f page).Tree b ∧
    (∀ g, (s.pushed b f page).IsTable b g ↔ s.IsTable b g) ∧
      ∀ va, (s.pushed b f page).lastEntry b va = s.lastEntry b va := by
  have hdirectory : (s.pushed b f page).KernelDirectory b := h.tree.directory
  refine h.tree.of_data rfl hdirectory fun g i hg => ?_
  rw [pushed_mem fun heq : g = f => h.push_data hF hf hfirst (heq ▸ hg)]

theorem MemInv.pushed_old (hi : i < s.stackCount b) : (s.pushed b f page).slot b i = s.slot b i := by
  obtain ⟨-, -, hlast⟩ := h.pushed_tables hF hf hfirst
  rw [Machine.slot, translate_congr (hlast _), Machine.slot]
  exact Machine.write_of_ne (h.push_slot hF hf hfirst hi)

theorem MemInv.pushed_new : (s.pushed b f page).slot b (s.stackCount b) = page := by
  obtain ⟨-, -, hlast⟩ := h.pushed_tables hF hf hfirst
  rw [Machine.slot, translate_congr (hlast _), hf, Option.getD_some]
  exact Machine.write_same

theorem MemInv.pushed_free : (s.pushed b f page).freeFrames b = page / pageSize :: s.freeFrames b := by
  rw [Machine.freeFrames, Machine.stackFrames, pushed_count, List.range_succ, List.map_append, List.map_singleton,
    h.pushed_new hF hf hfirst, List.reverse_append, List.reverse_singleton, List.singleton_append, List.cons_append,
    Machine.freeFrames, Machine.stackFrames]
  show _ :: (_ ++ s.rangeFrames b) = _
  congr 3
  exact List.map_congr_left fun i hi => by rw [h.pushed_old hF hf hfirst (List.mem_range.mp hi)]

/-- The pages of the stack are still its own slots' frames. -/
theorem MemInv.pushed_backed (hj : j * b.entries < s.stackCount b + 1) :
    (s.pushed b f page).translate b (b.stackPage j) =
      some ((s.pushed b f page).slot b (j * b.entries) / pageSize) := by
  obtain ⟨-, -, hlast⟩ := h.pushed_tables hF hf hfirst
  rw [translate_congr (hlast _)]
  rcases Nat.lt_or_ge (j * b.entries) (s.stackCount b) with hlt | hge
  · rw [h.pushed_old hF hf hfirst hlt, h.backed j hlt]
  · have heq : j * b.entries = s.stackCount b := by omega
    have hslot : b.stackPage j = b.stackPage (s.stackCount b / b.entries) := by
      rw [← heq, Nat.mul_div_cancel _ b.entries_pos]
    rw [heq, h.pushed_new hF hf hfirst, hslot, ← Build.translate_slotVa, hf]
    exact congrArg some (hfirst (by rw [← heq, Nat.mul_mod_left]))

end Push

/-- The effect of the write of a slot. -/
structure Pushed (b : Build) (page : Nat) (s s' : Machine) : Prop where
  free : s'.freeFrames b = page / pageSize :: s.freeFrames b
  isTable : ∀ f, s'.IsTable b f ↔ s.IsTable b f
  tableAt : ∀ va d, d < b.levels → s'.tableAt b va d = s.tableAt b va d
  last : ∀ va, s'.lastEntry b va = s.lastEntry b va
  count : s'.stackCount b = s.stackCount b + 1
  mem : ∀ f, f ∉ s'.freeFrames b → s'.mem f = s.mem f

theorem MemInv.push (h : MemInv b pool held s) (hpage : page % pageSize = 0) (hF : page / pageSize ∈ held)
    (hheld : ∀ f ∈ held', f ∈ held ∧ f ≠ page / pageSize)
    (hlt : s.stackCount b < b.stackPages * b.entries)
    (hf : s.translate b (b.slotVa (s.stackCount b)) = some f)
    (hfirst : s.stackCount b % b.entries = 0 → f = page / pageSize) :
    MemInv b pool held' (s.pushed b f page) ∧ Pushed b page s (s.pushed b f page) := by
  have hdata := h.push_data hF hf hfirst
  have hcount : (s.pushed b f page).stackCount b = s.stackCount b + 1 := pushed_count
  have hfree := h.pushed_free hF hf hfirst
  obtain ⟨htree, htables, hlast⟩ := h.pushed_tables hF hf hfirst
  have hout : page / pageSize ∈ s.handedOut := h.held_out _ hF
  refine ⟨⟨htree, ?_, ?_, fun j hj => ?_, fun i hi => ?_, h.ranges, ?_, h.nodup, fun g hg hmem => ?_,
    fun g hg => ?_, fun g hg => ?_⟩, hfree, htables, fun va d hd => ?_, hlast, hcount, fun g hg => ?_⟩
  · rw [hcount]
    exact Build.slotVa_succ.symm
  · rw [hcount]
    exact hlt
  · rw [hcount] at hj
    exact h.pushed_backed hF hf hfirst hj
  · rw [hcount] at hi
    rcases Nat.lt_succ_iff_lt_or_eq.mp hi with hlt | rfl
    · rw [h.pushed_old hF hf hfirst hlt, h.aligned i hlt]
    · rw [h.pushed_new hF hf hfirst, hpage]
  · rw [hfree]
    show (page / pageSize :: s.freeFrames b ++ s.handedOut.erase (page / pageSize)).Perm pool
    refine List.perm_middle.symm.trans ?_
    exact ((List.perm_cons_erase hout).symm.append_left _).trans h.partition
  · rw [htables] at hg
    rw [hfree] at hmem
    rcases List.mem_cons.mp hmem with rfl | hmem
    · exact h.held_data _ hF hg
    · exact h.tables_used g hg hmem
  · obtain ⟨hg, hne⟩ := hheld g hg
    exact (List.mem_erase_of_ne hne).mpr (h.held_out g hg)
  · rw [htables]
    exact h.held_data g (hheld g hg).1
  · refine follow_of_tables (fun g i hg => ?_) ((List.length_take_le _ _).trans hd.le)
    rw [Machine.next, Machine.next, pushed_mem fun heq : g = f => hdata (heq ▸ hg)]
  · refine pushed_mem fun heq => hg ?_
    rw [hfree, heq]
    rcases h.push_frame hf hfirst with ⟨hmem, -⟩ | ⟨heq, -⟩
    · exact List.mem_cons_of_mem _ hmem
    · rw [heq]
      exact List.mem_cons_self

/-! ### The end of the stack -/

/-- On PAE and x86_64 the stack never grows past the pages of its first page table: the page after them has
no page table, or is mapped although no slot of it is in use. -/
def Limit (b : Build) (s : Machine) : Prop :=
  b = .i386 ∨ s.stackCount b ≤ b.entries * b.entries ∧
    ∀ w, s.lastEntry b (b.stackPage b.entries) = some w → Present w

theorem Build.entries_le_stackPages : b.entries ≤ b.stackPages := by
  cases b <;> decide

theorem Build.levels_lt_entries : b.levels < b.entries := by
  cases b <;> decide

/-- The first page table of the stack window does not reach its page `entries`. -/
theorem Build.stackPage_table_ne (hb : b ≠ .i386) (hj : j < b.entries) :
    (b.path (b.stackPage b.entries)).take (b.levels - 1) ≠ (b.path (b.stackPage j)).take (b.levels - 1) := by
  cases b with
  | i386 => exact absurd rfl hb
  | pae =>
      simp only [entries, stackPage, pmmStackVma, pageSize, path, levels, List.take_succ_cons] at hj ⊢
      intro heq
      injection heq with heq
      omega
  | x86_64 =>
      simp only [entries, stackPage, pmmStackVma, pageSize, path, levels, List.take_succ_cons] at hj ⊢
      intro heq
      injection heq with _ heq
      injection heq with _ heq
      injection heq with heq
      omega

theorem missing_le : missing b s va d ≤ d := by
  induction d with
  | zero => exact le_rfl
  | succ d ih =>
      rw [missing]
      split <;> omega

theorem stackCount_le_free : s.stackCount b ≤ (s.freeFrames b).length := by
  rw [Machine.freeFrames, List.length_append, Machine.stackFrames, List.length_reverse, List.length_map,
    List.length_range]
  exact Nat.le_add_right _ _

theorem MemInv.free_lt_pool (h : MemInv b pool held s) (hf : f ∈ held) :
    (s.freeFrames b).length < pool.length := by
  have hlength := h.partition.length_eq
  rw [List.length_append] at hlength
  have hpos : 0 < s.handedOut.length := List.length_pos_of_mem (h.held_out f hf)
  omega

/-! ### `pmm_free_page` -/

/-- The effect of `pmm_free_page`: where a page of the stack begins it is mapped first, to the frame that is
freed; then the slot is written. -/
structure Freed (b : Build) (pool held : List Nat) (page : Nat) (taken : List Nat) (s s₁ s' : Machine) :
    Prop where
  grown : s.stackCount b % b.entries ≠ 0 ∧ taken = [] ∧ s₁ = s ∨
    s.stackCount b % b.entries = 0 ∧ Mapped b page (b.slotVa (s.stackCount b)) taken s s₁
  inv : MemInv b pool held s₁
  frame : ∃ f, s₁.translate b (b.slotVa (s₁.stackCount b)) = some f ∧ s' = s₁.pushed b f page
  pushed : Pushed b page s₁ s'

/-- Why `pmm_free_page` stops. -/
def FreeFails (b : Build) (s : Machine) (e : Fatal) : Prop :=
  s.stackCount b % b.entries = 0 ∧ MapFails b (b.slotVa (s.stackCount b)) s e

theorem Mapped.stackCount (h : Mapped b page va taken s s₁) :
    s₁.stackCount b = s.stackCount b - taken.length := by
  obtain ⟨s₂, hbuilt, -, hleaf, -, -⟩ := h
  rw [Machine.stackCount, hleaf.pmmStackTop, ← Machine.stackCount, hbuilt.effect.count]

theorem Mapped.length_le (h : Mapped b page va taken s s₁) : taken.length < b.levels := by
  rw [h.length]
  exact missing_le.trans_lt levels_sub_lt

theorem Mapped.last (h : Mapped b page va taken s s₁) (hpage : va' / pageSize = va / pageSize) :
    s₁.lastEntry b va' = some (page ||| pageWrite ||| pagePresent) := by
  obtain ⟨s₂, -, -, hleaf, -, -⟩ := h
  exact hleaf.last va' hpage

theorem MemInv.top_frame (h : MemInv b pool held s) (hmod : s.stackCount b % b.entries ≠ 0) :
    ∃ f, s.translate b (b.slotVa (s.stackCount b)) = some f := by
  have hbacked := h.backed (s.stackCount b / b.entries) (div_mul_lt hmod)
  rw [← Build.translate_slotVa] at hbacked
  exact ⟨_, hbacked⟩

theorem eq_mul_succ (hmod : n % m = 0) (hpos : 0 < n) : ∃ q, n = m * (q + 1) := by
  obtain ⟨q, rfl⟩ := Nat.dvd_of_mod_eq_zero hmod
  obtain ⟨q, rfl⟩ := Nat.exists_eq_add_one_of_ne_zero (Nat.pos_of_mul_pos_left hpos).ne'
  exact ⟨q, rfl⟩

section Grown

variable (hgrown : Mapped b page (b.slotVa (s.stackCount b)) taken s s₁)
  (hmod : s.stackCount b % b.entries = 0)

include hgrown hmod

/-- The frames for page tables come from the ranges while the stack is empty, and from the page below
otherwise. -/
theorem Mapped.count_cases : s₁.stackCount b = s.stackCount b ∨
    0 < s.stackCount b ∧ taken ≠ [] ∧ s₁.stackCount b < s.stackCount b ∧
      s₁.stackCount b % b.entries ≠ 0 := by
  have hcount := hgrown.stackCount
  have hlength := hgrown.length_le
  have hlevels := b.levels_lt_entries
  rcases Nat.eq_zero_or_pos (s.stackCount b) with hzero | hpos
  · left
    omega
  · rcases Nat.eq_zero_or_pos taken.length with hnil | htaken
    · left
      omega
    · obtain ⟨q, hq⟩ := eq_mul_succ hmod hpos
      have hsub : s₁.stackCount b = b.entries * q + (b.entries - taken.length) := by
        rw [hcount, hq, Nat.mul_succ]
        omega
      refine Or.inr ⟨hpos, List.length_pos_iff.mp htaken, by omega, ?_⟩
      rw [hsub, Nat.mul_add_mod, Nat.mod_eq_of_lt (by omega)]
      omega

theorem Mapped.quiet : Quiet b taken.length s := by
  rcases Nat.eq_zero_or_pos (s.stackCount b) with hzero | hpos
  · exact Or.inr (Or.inl hzero)
  · refine Or.inr (Or.inr ?_)
    have hlength := hgrown.length_le
    have hlevels := b.levels_lt_entries
    have hlast : (s.stackCount b - 1) % b.entries = b.entries - 1 := by
      obtain ⟨q, hq⟩ := eq_mul_succ hmod hpos
      have hsub : s.stackCount b - 1 = b.entries * q + (b.entries - 1) := by
        rw [hq, Nat.mul_succ]
        omega
      rw [hsub, Nat.mul_add_mod, Nat.mod_eq_of_lt (by omega)]
    rw [hlast]
    omega

/-- The slot that is written next is mapped. -/
theorem Mapped.top_frame (h₁ : MemInv b pool held s₁) (hpage : page % pageSize = 0) :
    ∃ f, s₁.translate b (b.slotVa (s₁.stackCount b)) = some f ∧
      (s₁.stackCount b % b.entries = 0 → f = page / pageSize) := by
  rcases hgrown.count_cases hmod with heq | ⟨hpos, -, hlt, hne⟩
  · refine ⟨page / pageSize, ?_, fun _ => rfl⟩
    rw [heq, translate_of_last (hgrown.last rfl), entryFrame_table hpage]
  · obtain ⟨f, hf⟩ := h₁.top_frame hne
    exact ⟨f, hf, fun hzero => absurd hzero hne⟩

end Grown

theorem present_table (hpage : page % pageSize = 0) : Present (page ||| pageWrite ||| pagePresent) := by
  rw [entry_eq hpage, present_iff]
  rw [pageSize] at hpage
  omega

theorem missing_pos (hnone : s.tableAt b va (b.levels - 1) = none) : 0 < missing b s va (b.levels - 1) := by
  obtain ⟨d, hd⟩ : ∃ d, b.levels - 1 = d + 1 := ⟨b.levels - 2, levels_sub_two.symm⟩
  rw [hd] at hnone ⊢
  rw [missing, if_pos hnone]
  exact Nat.succ_pos _

theorem not_dropped_limit (hle : s.stackCount b ≤ b.entries * b.entries) :
    ¬ Dropped b s s' (b.stackPage b.entries) := by
  rintro ⟨j, hpage, -, hj⟩
  rw [← Build.stackPage_inj hpage] at hj
  omega

/-- The limit stays when the table of the page after it and the entry of this page do. -/
theorem Limit.keep (hlimit : Limit b s) (h : s.Tree b) (h' : s'.Tree b) (hcount : s'.stackCount b ≤ s.stackCount b)
    (htable : b ≠ .i386 → s'.tableAt b (b.stackPage b.entries) (b.levels - 1) =
      s.tableAt b (b.stackPage b.entries) (b.levels - 1))
    (hlast : b ≠ .i386 → s'.lastEntry b (b.stackPage b.entries) = s.lastEntry b (b.stackPage b.entries) ∨
      s'.lastEntry b (b.stackPage b.entries) = some 0 ∧
        (s.lastEntry b (b.stackPage b.entries) = none ∨ Dropped b s s' (b.stackPage b.entries))) :
    Limit b s' := by
  by_cases hb : b = .i386
  · exact Or.inl hb
  obtain ⟨hle, hpresent⟩ := hlimit.resolve_left hb
  have htree := Build.inTree_stackPage (b.entries_le_stackPages)
  refine Or.inr ⟨hcount.trans hle, fun w hsome => ?_⟩
  rcases hlast hb with hsame | ⟨-, hnone | hdropped⟩
  · rw [hsame] at hsome
    exact hpresent w hsome
  · rw [lastEntry_eq h htree, ← htable hb, Option.map_eq_none_iff] at hnone
    rw [lastEntry_eq h' htree, hnone] at hsome
    cases hsome
  · exact absurd hdropped (not_dropped_limit hle)

/-- `vmm_map_page` maps no page that is mapped. -/
theorem Mapped.not_mapped (h : Mapped b page va taken s s₁) (hwindow : ¬ b.InWindow va)
    (hpresent : Present w) (hlast : s.lastEntry b va = some w) (hdropped : ∀ s', ¬ Dropped b s s' va) :
    False := by
  obtain ⟨s₂, hbuilt, hnone, -⟩ := h
  rcases hbuilt.effect.last va hwindow with hsame | ⟨-, hbefore | hdrop⟩
  · rw [hlast] at hsame
    exact (translate_eq_none_iff hsame).mp hnone hpresent
  · rw [hlast] at hbefore
    cases hbefore
  · exact hdropped _ hdrop

section Free

variable (h : MemInv b pool held s) (hlimit : Limit b s)
  (hpool : b = .i386 → pool.length ≤ b.stackPages * b.entries) (hpage : page % pageSize = 0)
  (hF : page / pageSize ∈ held)

/-- The page at the end of the stack, where a page begins, is one of the window. -/
theorem stackPage_top (hmod : s.stackCount b % b.entries = 0) :
    b.slotVa (s.stackCount b) = b.stackPage (s.stackCount b / b.entries) := by
  have hdiv := Nat.div_mul_cancel (Nat.dvd_of_mod_eq_zero hmod)
  rw [Build.slotVa, Build.stackPage, ← Build.entrySize_mul_entries (b := b)]
  congr 1
  rw [Nat.mul_assoc, Nat.mul_comm b.entries, hdiv]

include hlimit hpage in
/-- The limit stays when a page is begun below it; at the limit the page is mapped for nothing. -/
theorem Limit.mapped (h : MemInv b pool held s) (h₁ : MemInv b pool held s₁)
    (hgrown : Mapped b page (b.slotVa (s.stackCount b)) taken s s₁)
    (hmod : s.stackCount b % b.entries = 0) : b = .i386 ∨ s₁.stackCount b < b.entries * b.entries ∧
      ∀ w, s₁.lastEntry b (b.stackPage b.entries) = some w → Present w := by
  by_cases hb : b = .i386
  · exact Or.inl hb
  obtain ⟨hle, hlast⟩ := hlimit.resolve_left hb
  have hwindow := Build.not_inWindow_stackPage (b.entries_le_stackPages)
  have htree := Build.inTree_stackPage (b.entries_le_stackPages)
  have hw := hgrown.written_const
  refine Or.inr ?_
  rw [stackPage_top hmod] at hgrown hw
  rcases Nat.lt_or_eq_of_le hle with hlt | heq
  · have hj : s.stackCount b / b.entries < b.entries := Nat.div_lt_of_lt_mul hlt
    have hne : b.stackPage b.entries / pageSize ≠ b.stackPage (s.stackCount b / b.entries) / pageSize := by
      intro heq
      exact absurd (Build.stackPage_inj heq) (Nat.ne_of_gt hj)
    have hkeep := hlimit.keep h.tree h₁.tree hw.count_le
      (fun hb => hw.others (b.stackPage b.entries) (b.levels - 1) levels_sub_lt hwindow fun va hva => by
        rw [List.mem_singleton.mp hva]
        exact Build.stackPage_table_ne hb hj)
      (fun _ => hw.last _ hwindow fun va hva => by rwa [List.mem_singleton.mp hva])
    exact ⟨hw.count_le.trans_lt hlt, (hkeep.resolve_left hb).2⟩
  · have hdiv : s.stackCount b / b.entries = b.entries := by
      rw [heq, Nat.mul_div_cancel _ b.entries_pos]
    rw [hdiv] at hgrown
    have htable : s.tableAt b (b.stackPage b.entries) (b.levels - 1) = none := by
      by_contra hsome
      obtain ⟨t, ht⟩ := Option.ne_none_iff_exists'.mp hsome
      have hentry := lastEntry_of_tableAt h.tree htree ht
      exact hgrown.not_mapped hwindow (hlast _ hentry) hentry fun _ => not_dropped_limit heq.le
    refine ⟨?_, fun w hsome => ?_⟩
    · have hlength := hgrown.length
      have hpos := missing_pos htable
      have hcount := hgrown.stackCount
      have hentries := Nat.mul_pos b.entries_pos b.entries_pos
      omega
    · rw [hgrown.last rfl] at hsome
      rw [← Option.some.inj hsome]
      exact present_table hpage

include hpage hF

theorem pushSlot_spec (hlimit : s₁.stackCount b < b.entries * b.entries ∧
      (∀ w, s₁.lastEntry b (b.stackPage b.entries) = some w → Present w) ∨
      b = .i386 ∧ pool.length ≤ b.stackPages * b.entries)
    (hres : Resolves b resolve) (hheld : ∀ f ∈ held', f ∈ held ∧ f ≠ page / pageSize)
    (h₁ : MemInv b pool held s₁)
    (hframe : ∃ f, s₁.translate b (b.slotVa (s₁.stackCount b)) = some f ∧
      (s₁.stackCount b % b.entries = 0 → f = page / pageSize))
    (hgrown : s.stackCount b % b.entries ≠ 0 ∧ taken = [] ∧ s₁ = s ∨
      s.stackCount b % b.entries = 0 ∧ Mapped b page (b.slotVa (s.stackCount b)) taken s s₁) :
    wp (pushSlot b resolve page) s₁
      (fun _ s' => MemInv b pool held' s' ∧ Limit b s' ∧ Freed b pool held page taken s s₁ s')
      fun _ => False := by
  obtain ⟨f, hf, hfirst⟩ := hframe
  have hlt : s₁.stackCount b < b.stackPages * b.entries := by
    rcases hlimit with ⟨hlt, -⟩ | ⟨-, hle⟩
    · exact hlt.trans_le (Nat.mul_le_mul_right _ Build.entries_le_stackPages)
    · have hcount := stackCount_le_free (b := b) (s := s₁)
      have hlt := h₁.free_lt_pool hF
      omega
  obtain ⟨hinv, hpushed⟩ := h₁.push hpage hF hheld hlt hf hfirst
  rw [wp_of_ok (pushSlot_ok h₁.top hres hf)]
  refine ⟨hinv, ?_, hgrown, h₁, ⟨f, hf, rfl⟩, hpushed⟩
  rcases hlimit with ⟨hlt, hlast⟩ | ⟨hb, -⟩
  · refine Or.inr ⟨?_, fun w hw => ?_⟩
    · rw [hpushed.count]
      exact hlt
    · rw [hpushed.last] at hw
      exact hlast w hw
  · exact Or.inl hb

include h hlimit hpool

theorem pmmFreePage_spec (hheld : ∀ f ∈ held', f ∈ held ∧ f ≠ page / pageSize) :
    wp (pmmFreePage b (resolveWrite b (n + 1)) page) s
      (fun _ s' => MemInv b pool held' s' ∧ Limit b s' ∧ ∃ taken s₁, Freed b pool held page taken s s₁ s')
      (FreeFails b s) := by
  have hres := resolveWrite_resolves (b := b) n
  show wp (get >>= fun s => if s.pmmStackTop % pageSize = 0 then
    vmmMapPage b (resolveWrite b (n + 1)) page s.pmmStackTop >>= fun result =>
      if result ≠ 0 then (throw .failedToMapPage >>= fun _ => pushSlot b (resolveWrite b (n + 1)) page)
      else pushSlot b (resolveWrite b (n + 1)) page
    else pushSlot b (resolveWrite b (n + 1)) page) s _ _
  rw [wp_bind, wp_get, wp_ite]
  constructor
  · intro hmod
    rw [h.top, Build.slotVa_mod] at hmod
    have hroom : s.stackCount b / b.entries ≤ b.stackPages := by
      rw [← Nat.mul_div_cancel b.stackPages b.entries_pos]
      exact Nat.div_le_div_right h.count_le
    have htree : b.InTree (b.slotVa (s.stackCount b)) := by
      rw [stackPage_top hmod]
      exact Build.inTree_stackPage hroom
    have hwindow : ¬ b.InWindow (b.slotVa (s.stackCount b)) := by
      rw [stackPage_top hmod]
      exact Build.not_inWindow_stackPage hroom
    rw [wp_bind, h.top]
    refine (vmmMapPage_spec h hres htree hwindow).mono ?_ fun e he => ⟨hmod, he⟩
    rintro r s₁ ⟨rfl, h₁, taken, hgrown⟩
    rw [wp_ite]
    refine ⟨fun hne => absurd rfl hne, fun _ => ?_⟩
    have hlimit₁ := (hlimit.mapped hpage h h₁ hgrown hmod).symm.imp_right fun hb => And.intro hb (hpool hb)
    refine (pushSlot_spec hpage hF hlimit₁ hres hheld h₁ (hgrown.top_frame hmod h₁ hpage)
      (Or.inr ⟨hmod, hgrown⟩)).mono ?_ fun _ => False.elim
    exact fun _ s' ⟨hinv, hlimit', hfreed⟩ => ⟨hinv, hlimit', taken, s₁, hfreed⟩
  · intro hmod
    rw [h.top, Build.slotVa_mod] at hmod
    obtain ⟨f, hf⟩ := h.top_frame hmod
    have hlimit₁ : s.stackCount b < b.entries * b.entries ∧
        (∀ w, s.lastEntry b (b.stackPage b.entries) = some w → Present w) ∨
        b = .i386 ∧ pool.length ≤ b.stackPages * b.entries := by
      rcases hlimit with hb | ⟨hle, hlast⟩
      · exact Or.inr ⟨hb, hpool hb⟩
      · refine Or.inl ⟨Nat.lt_of_le_of_ne hle fun heq => hmod ?_, hlast⟩
        rw [heq, Nat.mul_mod_left]
    refine (pushSlot_spec hpage hF hlimit₁ hres hheld h ⟨f, hf, fun hzero => absurd hzero hmod⟩
      (Or.inl ⟨hmod, rfl, rfl⟩)).mono ?_ fun _ => False.elim
    exact fun _ s' ⟨hinv, hlimit', hfreed⟩ => ⟨hinv, hlimit', [], s, hfreed⟩

end Free

namespace Freed

variable (hfreed : Freed b pool held page taken s s₁ s')

include hfreed

theorem grown_free : s.freeFrames b = taken ++ s₁.freeFrames b := by
  rcases hfreed.grown with ⟨-, rfl, rfl⟩ | ⟨-, hmapped⟩
  · rfl
  · exact hmapped.written_const.free

/-- The frame that was freed is the next one to be taken. -/
theorem free_eq : s'.freeFrames b = page / pageSize :: s₁.freeFrames b := hfreed.pushed.free

theorem accounted (hheld : page / pageSize ∈ held) (hpool : pageSize * pool.length < 2 ^ 64)
    (hacc : Accounted b s) : Accounted b s' := by
  have hacc₁ : Accounted b s₁ := by
    rcases hfreed.grown with ⟨-, -, rfl⟩ | ⟨-, hmapped⟩
    · exact hacc
    · exact hmapped.written_const.accounted hacc
  obtain ⟨f, -, rfl⟩ := hfreed.frame
  have hlt := hfreed.inv.free_lt_pool hheld
  have hadd : (s₁.pushed b f page).pmmFreeMemory = add64 s₁.pmmFreeMemory pageSize := rfl
  have hbound : pageSize * (s₁.freeFrames b).length + pageSize ≤ pageSize * pool.length :=
    Nat.mul_le_mul_left pageSize hlt
  obtain ⟨heq, -⟩ := hacc₁
  have hsum : add64 s₁.pmmFreeMemory pageSize = s₁.pmmFreeMemory + pageSize := by
    unfold add64
    omega
  rw [Accounted, hadd, hsum, hfreed.free_eq, List.length_cons, heq, Nat.mul_succ]
  exact ⟨rfl, hbound.trans_lt hpool⟩

theorem coherent (hc : Coherent b s) : Coherent b s' := by
  have hc₁ : Coherent b s₁ := by
    rcases hfreed.grown with ⟨-, -, rfl⟩ | ⟨hmod, hmapped⟩
    · exact hc
    · exact hmapped.coherent (hmapped.quiet hmod) hc
  obtain ⟨f, hf, rfl⟩ := hfreed.frame
  intro e he
  rw [translate_congr (hfreed.pushed.last _)]
  exact hc₁.cache hf e he

theorem nextAlloc : s'.nextAlloc = s.nextAlloc := by
  obtain ⟨f, -, rfl⟩ := hfreed.frame
  rcases hfreed.grown with ⟨-, -, rfl⟩ | ⟨-, hmapped⟩
  · rfl
  · exact hmapped.nextAlloc

end Freed

end Kiznix.Memory
