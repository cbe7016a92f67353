import Kiznix.MemMapPage

/-! Page faults: the handler puts in a missing page table through the window it faults on, or a zeroed page
where `vmm_alloc` left its mark. -/

namespace Kiznix.Memory

open RadixTree

variable {b : Build} {pool held : List Nat} {s s' s₁ : Machine} {resolve : Nat → M Nat}
  {va va' f g t w j k m n d e pa page : Nat} {taken taken' : List Nat}

/-! ### Data -/

/-- A change of frames that are neither tables nor free. -/
structure DataChange (b : Build) (s s' : Machine) : Prop where
  free : s'.freeFrames b = s.freeFrames b
  isTable : ∀ f, s'.IsTable b f ↔ s.IsTable b f
  tableAt : ∀ va d, d < b.levels → s'.tableAt b va d = s.tableAt b va d
  last : ∀ va, s'.lastEntry b va = s.lastEntry b va
  same : s' = { s with mem := s'.mem, tlb := s'.tlb }

theorem DataChange.coherent (h : DataChange b s s')
    (htlb : ∀ e ∈ s'.tlb, e ∈ s.tlb ∨ s.translate b (pageSize * e.1) = some e.2) (hc : Coherent b s) :
    Coherent b s' := by
  intro e he
  rw [translate_congr (h.last _)]
  exact (htlb e he).elim (hc e) id

theorem MemInv.data_change (h : MemInv b pool held s) (s' : Machine)
    (hs' : s' = { s with mem := s'.mem, tlb := s'.tlb })
    (hmem : ∀ f, s.IsTable b f ∨ f ∈ s.freeFrames b → s'.mem f = s.mem f) :
    MemInv b pool held s' ∧ DataChange b s s' := by
  have hroot : s'.root b = s.root b := by rw [hs']; rfl
  have hdirectory : s'.KernelDirectory b := by
    rw [hs']
    exact h.tree.directory
  have hnext : ∀ f i, RadixTree.IsTable s.next (s.root b) b.levels f → s'.next f i = s.next f i := by
    intro f i hf
    rw [Machine.next, Machine.next, hmem f (Or.inl hf)]
  obtain ⟨htree, htables, hlast⟩ := h.tree.of_data hroot hdirectory fun f i hf => by rw [hmem f (Or.inl hf)]
  obtain ⟨hinv, hfree⟩ := h.update htree (by rw [hs']) (by rw [hs']) (by rw [hs'])
    (fun j _ => translate_congr (hlast _)) (fun f hf => hmem f (Or.inr hf))
    (fun f hf => h.tables_used f ((htables f).mp hf)) (fun f hf htable => h.held_data f hf ((htables f).mp htable))
  refine ⟨hinv, hfree, htables, fun va d hd => ?_, hlast, hs'⟩
  rw [Machine.tableAt, hroot]
  exact follow_of_tables hnext ((List.length_take_le _ _).trans hd.le)

/-! ### Missing page tables -/

theorem levels_two_le : 2 ≤ b.levels := by
  cases b <;> decide

theorem levels_sub_two : b.levels - 2 + 1 = b.levels - 1 := by
  have := levels_two_le (b := b)
  omega

namespace Build

theorem index_one (va : Nat) : (va >>> 12) &&& b.pageMask = b.index 1 va := by
  cases b <;> rfl

theorem pageAlignDown_entryVa (h : b.InTree va) : pageAlignDown (b.entryVa 1 va) = b.tableVa 2 va := by
  cases b <;> simp only [InTree] at h <;>
    simp [pageAlignDown, pageSize, entryVa, tableVa, entryAddress, index_eq, vmmPageMappings, entrySize,
      Nat.shiftLeft_eq] <;> omega

/-- The entry of a page table's own window page. -/
theorem entryVa_tableVa (h : b.InTree va) : b.entryVa 1 (b.tableVa 2 va) = b.entryVa 2 va := by
  cases b <;> simp only [InTree] at h <;>
    simp [entryVa, tableVa, entryAddress, index_eq, vmmPageMappings, entrySize, Nat.shiftLeft_eq] <;> omega

theorem tableVa_window (h : b.InTree va) :
    b.pageTableStart ≤ b.tableVa 2 va ∧ b.tableVa 2 va ≤ b.pageTableEnd := by
  cases b <;> simp only [InTree] at h <;>
    simp [tableVa, index_eq, vmmPageMappings, pageTableStart, pageTableEnd, Nat.shiftLeft_eq] <;> omega

end Build

/-- The entry that the handler makes for an address. -/
def handlerEntry (b : Build) (address page : Nat) : Nat :=
  if b.kernelSpace ≤ address then page ||| pageWrite ||| pagePresent ||| pageGlobal
  else page ||| pageWrite ||| pagePresent

theorem entryFrame_handlerEntry (address : Nat) {page : Nat} (hpage : page % pageSize = 0) :
    entryFrame (handlerEntry b address page) = some (page / pageSize) := by
  rw [handlerEntry]
  split
  · rw [entry_global_eq hpage]
    exact entryFrame_add hpage (by decide) rfl
  · exact entryFrame_table hpage

theorem handler_eq (va : Nat) : vmmPageFaultHandler b resolve va pageFaultWrite = (do
    let entry ← load b (b.entryVa 1 (pageAlignDown va))
    if entry &&& pageAllocated ≠ 0 ∨
        b.pageTableStart ≤ pageAlignDown va ∧ pageAlignDown va ≤ b.pageTableEnd then
      install b resolve (b.entryVa 1 (pageAlignDown va)) (pageAlignDown va)
        (handlerEntry b (pageAlignDown va))
      return 1
    else throw (.unhandledPageFault (pageAlignDown va))) := by
  unfold vmmPageFaultHandler Build.entryVa install
  rw [if_pos rfl, Build.index_one]
  simp only [bind_assoc]
  rfl

/-- A write fault on the entry of an address whose page table is missing, but no table above it. -/
theorem handler_link (h : MemInv b pool held s) (hres : Resolves b resolve) (hva : b.InTree va)
    (hwindow : ¬ b.InWindow va) (ht : s.tableAt b va (b.levels - 2) = some t)
    (hnone : s.tableAt b va (b.levels - 1) = none) :
    wp (vmmPageFaultHandler b resolve (b.entryVa 1 va) pageFaultWrite) s
      (fun r s' => r = 1 ∧ MemInv b pool held s' ∧ ∃ g, Ensured b va (b.levels - 2) [g] s s')
      (fun e => e = .outOfPhysicalMemory ∧ s.freeFrames b = []) := by
  have htwo := levels_two_le (b := b)
  have hlevel : b.levels - (b.levels - 2) = 2 := by omega
  have hd : b.levels - 2 < b.levels := by omega
  have hentry : s.translate b (b.entryVa 2 va) = some t := by
    rw [← hlevel, h.tree.translate_entryVa hd hva, ht]
  rw [← levels_sub_two] at hnone
  rw [handler_eq, Build.pageAlignDown_entryVa hva, Build.entryVa_tableVa hva, wp_bind,
    wp_of_ok (load_ok hentry), wp_ite]
  refine ⟨fun _ => ?_, fun hnot => absurd (Or.inr (Build.tableVa_window hva)) hnot⟩
  have hcached : MemInv b pool held (s.cache (b.entryVa 2 va) t) := h.cache
  have hinstall := install_table hcached hres hva hwindow (by omega) ht
    hnone (handlerEntry b (b.tableVa 2 va)) fun _ => entryFrame_handlerEntry _
  rw [hlevel] at hinstall
  rw [wp_bind]
  refine hinstall.mono ?_ fun e he => he
  rintro - s' ⟨hinv, g, hensured⟩
  rw [wp_pure]
  exact ⟨rfl, hinv, g, hensured.of_cache hentry (hlevel ▸ Build.internal_entryVa hd hva)⟩

/-! ### Missing pages -/

/-- The address `va` got the zeroed frame of `page`, by the last-level entry `w`. -/
structure PagedIn (b : Build) (va page w : Nat) (s s' : Machine) : Prop where
  aligned : page % pageSize = 0
  free : s.freeFrames b = page / pageSize :: s'.freeFrames b
  out : s'.handedOut = page / pageSize :: s.handedOut
  tableAt : ∀ va d, d < b.levels → s'.tableAt b va d = s.tableAt b va d
  isTable : ∀ f, s'.IsTable b f ↔ s.IsTable b f
  mem : ∀ f, ¬ s.IsTable b f → f ≠ page / pageSize → s'.mem f = s.mem f
  zero : ∀ i, s'.mem (page / pageSize) i = 0
  last : ∀ va', va' / pageSize = va / pageSize → s'.lastEntry b va' = some w
  last_of_ne : ∀ va', va' / pageSize ≠ va / pageSize → ¬ b.InWindow va' →
    s'.lastEntry b va' = s.lastEntry b va' ∨ s'.lastEntry b va' = some 0 ∧ Dropped b s s' va'
  count : s'.stackCount b = s.stackCount b - 1
  nextAlloc : s'.nextAlloc = s.nextAlloc
  root : s'.root b = s.root b
  accounted : Accounted b s → Accounted b s'
  quiet : ∀ n, Quiet b (1 + n) s → Quiet b n s'
  coherent : Quiet b 1 s → Coherent b s → Coherent b s'

theorem PagedIn.of_cache (hp : PagedIn b va page w (s.cache va' f) s') (hf : s.translate b va' = some f) :
    PagedIn b va page w s s' :=
  { hp with coherent := fun hquiet hc => hp.coherent hquiet (hc.cache hf) }

theorem Allocated.last (ha : Allocated b page s s₁) (h : s.Tree b) (h₁ : s₁.Tree b) (va : Nat)
    (hwindow : ¬ b.InWindow va) :
    s₁.lastEntry b va = s.lastEntry b va ∨ s₁.lastEntry b va = some 0 ∧ Dropped b s s₁ va := by
  rcases ha.taken.last va hwindow with heq | ⟨hzero, hnone | hdropped⟩
  · exact Or.inl heq
  · by_cases hva : b.InTree va
    · rw [lastEntry_eq h hva, ← ha.tableAt va _ levels_sub_lt, Option.map_eq_none_iff] at hnone
      rw [lastEntry_eq h₁ hva, hnone] at hzero
      cases hzero
    · rw [lastEntry_of_not h₁ hva] at hzero
      cases hzero
  · exact Or.inr ⟨hzero, hdropped⟩

theorem translate_of_last (h : s.lastEntry b va = some w) : s.translate b va = entryFrame w := by
  rw [translate_eq_leafEntry, Machine.leafEntry, h, Option.filter_some, entryFrame]
  by_cases hw : Present w <;> simp [hw]

/-- A frame is allocated, entered and cleared. -/
theorem PagedIn.of_steps {s₂ : Machine} (h : s.Tree b) (h₁ : s₁.Tree b) (ha : Allocated b page s s₁)
    (hleaf : LeafSet b va w s₁ s₂) (hdata : DataChange b s₂ s')
    (hmem : ∀ f, f ≠ page / pageSize → s'.mem f = s₂.mem f) (hzero : ∀ i, s'.mem (page / pageSize) i = 0)
    (hcoherent : Coherent b s₁ → Coherent b s') : PagedIn b va page w s s' := by
  have hsame : s' = { s₁ with mem := s'.mem, tlb := s'.tlb } := by
    rw [hdata.same, hleaf.same]
  have hfree : s'.freeFrames b = s₁.freeFrames b := by rw [hdata.free, hleaf.free]
  refine ⟨ha.aligned, ?_, ?_, fun va' d hd => ?_, fun f => ?_, fun f hf hne => ?_, hzero, fun va' hpage => ?_,
    fun va' hpage hwindow' => ?_, ?_, ?_, ?_, fun hacc => ?_, fun n hn => ?_, fun hquiet hc => ?_⟩
  · rw [hfree]
    exact ha.taken.free
  · rw [hsame]
    exact ha.taken.out
  · rw [hdata.tableAt va' d hd, hleaf.tableAt va' d hd, ha.tableAt va' d hd]
  · rw [hdata.isTable, hleaf.isTable, ha.isTable_iff]
  · have hf₁ : ¬ s₁.IsTable b f := by rwa [ha.isTable_iff]
    rw [hmem f hne, hleaf.mem f hf₁, ha.taken.mem f hf (by simpa using hne)]
  · rw [hdata.last, hleaf.last va' hpage]
  · have hcount : s'.stackCount b = s₁.stackCount b := by rw [hsame]; rfl
    rw [hdata.last, hleaf.last_of_ne va' hpage hwindow']
    exact (ha.last h h₁ va' hwindow').imp_right (And.imp_right fun hdropped => hdropped.mono_right hcount.le)
  · rw [hsame]
    exact ha.taken.count
  · rw [hsame]
    exact ha.taken.nextAlloc
  · rw [hsame]
    exact ha.taken.root
  · have hacc₁ := ha.taken.accounted hacc
    have hmemory : s'.pmmFreeMemory = s₁.pmmFreeMemory := by rw [hsame]
    rwa [Accounted, hfree, hmemory]
  · rw [hsame]
    exact ha.taken.quiet n hn
  · exact hcoherent (ha.taken.coherent hquiet hc)

theorem install_page (h : MemInv b pool held s) (hres : Resolves b resolve) (hva : b.InTree va)
    (hwindow : ¬ b.InWindow va) (ht : s.tableAt b va (b.levels - 1) = some t)
    (hnone : s.translate b va = none) (entryOf : Nat → Nat)
    (hentryOf : ∀ page, page % pageSize = 0 → entryFrame (entryOf page) = some (page / pageSize)) :
    wp (install b resolve (b.entryVa 1 va) (pageAlignDown va) entryOf) s
      (fun _ s' => MemInv b pool held s' ∧ ∃ page, PagedIn b va page (entryOf page) s s')
      (fun e => e = .outOfPhysicalMemory ∧ s.freeFrames b = []) := by
  rw [install, wp_bind]
  refine (pmmAllocPage_spec h hres).mono ?_ fun e he => he
  rintro page s₁ ⟨h₁, ha⟩
  have hnone₁ : s₁.translate b va = none := by
    rcases ha.last h.tree h₁.tree va hwindow with heq | ⟨hzero, -⟩
    · rw [translate_congr heq, hnone]
    · rw [translate_of_last hzero]
      rfl
  have ht₁ : s₁.tableAt b va (b.levels - 1) = some t := by rw [ha.tableAt va _ levels_sub_lt, ht]
  have hentry₁ : s₁.translate b (b.entryVa 1 va) = some t := by rw [h₁.tree.translate_leafVa hva, ht₁]
  have hw := hentryOf page ha.aligned
  have hstore := store_ok (w := entryOf page) hres hentry₁
  rw [wordIndex_leafVa hva] at hstore
  rw [wp_bind, wp_of_ok hstore, vmmInvalidate, wp_bind, wp_modify]
  have hdown : pageAlignDown va / pageSize = va / pageSize := Nat.mul_div_cancel _ (by decide)
  obtain ⟨h₂, hleaf⟩ := h₁.set_leaf (w := entryOf page) hva hwindow ht₁ (fun j hj hpage => by
      have hbacked := h₁.backed j hj
      rw [Build.translate_of_page hpage, hnone₁] at hbacked
      cases hbacked)
    (((s₁.cache (b.entryVa 1 va) t).write t ((b.path va).getLastD 0) (entryOf page)).invlpg
      (pageAlignDown va)) rfl
  have hcoherent := hleaf.coherent fun e he => by
    have he : e ∈ ((b.entryVa 1 va / pageSize, t) :: s₁.tlb).filter
        fun e => e.1 ≠ pageAlignDown va / pageSize := he
    refine Or.inl ⟨?_, Or.inr hnone₁⟩
    rcases List.mem_cons.mp (List.mem_of_mem_filter he) with rfl | he
    · exact Or.inr (translate_page_mul.trans hentry₁)
    · exact Or.inl he
  have htranslate := translate_of_last (hleaf.last (pageAlignDown va) hdown)
  rw [hw] at htranslate
  rw [wp_of_ok (clearPage_ok hres htranslate)]
  -- The frame is neither a table nor free: it is cleared as data.
  have hg : ¬ s₁.IsTable b (page / pageSize) := ha.not_table h
  have hnodup := h.free_nodup
  rw [ha.taken.free] at hnodup
  have hfree : page / pageSize ∉ s₁.freeFrames b := (List.nodup_cons.mp hnodup).1
  obtain ⟨hinv, hdata⟩ := h₂.data_change
    (((((s₁.cache (b.entryVa 1 va) t).write t ((b.path va).getLastD 0) (entryOf page)).invlpg
      (pageAlignDown va)).cache (pageAlignDown va) (page / pageSize)).zero (page / pageSize)) rfl
    (by
      rintro f (hf | hf)
      · exact funext fun i => Machine.zero_of_ne fun heq => hg (heq ▸ (hleaf.isTable f).mp hf)
      · exact funext fun i => Machine.zero_of_ne fun heq => hfree (heq ▸ hleaf.free ▸ hf))
  refine ⟨hinv, page, .of_steps h.tree h₁.tree ha hleaf hdata
    (fun f hne => funext fun i => Machine.zero_of_ne hne) (fun i => Machine.zero_same) fun hc => ?_⟩
  refine hdata.coherent (fun e he => ?_) (hcoherent hc)
  rcases List.mem_cons.mp he with rfl | he
  · exact Or.inr (translate_page_mul.trans htranslate)
  · exact Or.inl he

theorem entryVa_page : b.entryVa 1 (pageAlignDown va) = b.entryVa 1 va := by
  have hdown : pageAlignDown va = va / 4096 * 4096 := rfl
  cases b <;> simp only [Build.entryVa, Build.entryAddress, Build.index_eq, hdown] <;> congr 2 <;> omega

theorem exists_table_of_last (h : s.Tree b) (hlast : s.lastEntry b va = some w) :
    b.InTree va ∧ ∃ t, s.tableAt b va (b.levels - 1) = some t ∧ s.mem t ((b.path va).getLastD 0) = w := by
  by_cases hva : b.InTree va
  · rw [lastEntry_eq h hva] at hlast
    exact ⟨hva, Option.map_eq_some_iff.mp hlast⟩
  · rw [lastEntry_of_not h hva] at hlast
    cases hlast

/-- A write fault on a page whose page table is there. -/
theorem handler_page (h : MemInv b pool held s) (hres : Resolves b resolve) (hwindow : ¬ b.InWindow va)
    (hlast : s.lastEntry b va = some w) (hempty : ¬ Present w) :
    wp (vmmPageFaultHandler b resolve va pageFaultWrite) s
      (fun r s' => r = 1 ∧ MemInv b pool held s' ∧
        ∃ page, PagedIn b va page (handlerEntry b (pageAlignDown va) page) s s')
      (fun e => e = .outOfPhysicalMemory ∧ s.freeFrames b = [] ∨
        e = .unhandledPageFault (pageAlignDown va) ∧ w &&& pageAllocated = 0) := by
  obtain ⟨hva, t, ht, hw⟩ := exists_table_of_last h.tree hlast
  have hnone := (translate_eq_none_iff hlast).mpr hempty
  have hentry : s.translate b (b.entryVa 1 va) = some t := by rw [h.tree.translate_leafVa hva, ht]
  rw [handler_eq, entryVa_page, wp_bind, wp_of_ok (load_ok hentry), wordIndex_leafVa hva, hw, wp_ite]
  constructor
  · intro _
    rw [wp_bind]
    have hcached : MemInv b pool held (s.cache (b.entryVa 1 va) t) := h.cache
    refine (install_page hcached hres hva hwindow ht hnone _ fun _ =>
      entryFrame_handlerEntry _).mono ?_ fun e he => Or.inl he
    rintro - s' ⟨hinv, page, hpaged⟩
    rw [wp_pure]
    exact ⟨rfl, hinv, page, hpaged.of_cache hentry⟩
  · intro hnot
    rw [wp_throw]
    exact Or.inr ⟨rfl, not_not.mp fun hne => hnot (Or.inl hne)⟩

end Kiznix.Memory
