import Kiznix.MemMapRange

/-! `vmm_unmap` takes back what `vmm_map` mapped, also after further calls of `vmm_map` and `vmm_alloc`. -/

namespace Kiznix.Memory

open RadixTree

variable {b : Build} {pool held : List Nat} {s s' s₁ s₂ : Machine} {va va' n m p r t w pa length : Nat}
  {image : KernelImage b} {map : List MemoryMapEntry} {c c' c₁ : Callers} {vas : List Nat}

/-! ### The loop of `vmm_unmap` over pages whose tables are there -/

/-- A page table is not what a window shows at the depth of the page tables. -/
theorem window_not_table (h : s.Tree b) (hwindow : ¬ b.InWindow va) (hwindow' : b.InWindow va')
    (ht : s.tableAt b va (b.levels - 1) = some t) : s.tableAt b va' (b.levels - 1) ≠ some t := by
  intro ht'
  have hlt := levels_two_le (b := b)
  obtain ⟨q, hq⟩ : ∃ q, (b.path va').take (b.levels - 1) = List.replicate 1 b.recursiveIndex ++ q := by
    obtain ⟨i, q, hpath⟩ := List.exists_cons_of_ne_nil (path_ne_nil : b.path va' ≠ [])
    rw [Build.InWindow, hpath, List.head?_cons, Option.some.injEq] at hwindow'
    obtain ⟨k, hk⟩ := Nat.exists_eq_add_of_le' (show 1 ≤ b.levels - 1 by omega)
    exact ⟨q.take k, by rw [hpath, hk, List.take_succ_cons, hwindow']; rfl⟩
  have hlength : q.length + 1 = b.levels - 1 := by
    have := congrArg List.length hq
    rwa [length_take_path levels_sub_lt.le, List.length_append, List.length_replicate, Nat.add_comm, eq_comm] at this
  rw [Machine.tableAt, hq, follow_replicate h.tree.recursive, ← follow_strip h.tree.recursive] at ht'
  have hshort : (strip b.recursiveIndex q).length ≤ q.length := strip_length_le
  have hsame := h.tree.unique _ _ t (by omega) (by rw [length_take_path levels_sub_lt.le]; omega) strip_head
    (leaf_entry hwindow ht).head ht' ht
  have hlength' := congrArg List.length hsame
  rw [length_take_path levels_sub_lt.le] at hlength'
  omega

/-- A change of a last-level entry changes no other, those of the windows included. -/
theorem lastEntry_write_leaf_other (h : s.Tree b) (hva : b.InTree va) (hwindow : ¬ b.InWindow va)
    (ht : s.tableAt b va (b.levels - 1) = some t) (hpage : va' / pageSize ≠ va / pageSize) :
    (s.write t ((b.path va).getLastD 0) w).lastEntry b va' = s.lastEntry b va' := by
  by_cases hwindow' : b.InWindow va'
  · by_cases hva' : b.InTree va'
    · rw [lastEntry_eq (h.write_leaf hwindow ht) hva', lastEntry_eq h hva',
        tableAt_write_leaf h hwindow ht levels_sub_lt]
      cases ht' : s.tableAt b va' (b.levels - 1) with
      | none => rfl
      | some t' =>
          rw [Option.map_some, Option.map_some, Machine.write_of_ne]
          rintro ⟨rfl, -⟩
          exact window_not_table h hwindow hwindow' ht ht'
    · rw [lastEntry_of_not (h.write_leaf hwindow ht) hva', lastEntry_of_not h hva']
  · exact lastEntry_write_leaf_of_ne h hwindow ht hva hpage hwindow'

/-- The entries of pages are empty, and no other entry has changed. -/
structure PagesUnmapped (b : Build) (vas : List Nat) (s s' : Machine) : Prop where
  here : ∀ va ∈ vas, ∀ va', va' / pageSize = va / pageSize → s'.lastEntry b va' = some 0
  others : ∀ va', (∀ va ∈ vas, va' / pageSize ≠ va / pageSize) → s'.lastEntry b va' = s.lastEntry b va'

theorem PagesUnmapped.cons (h : PagesUnmapped b [va] s s₁) (h' : PagesUnmapped b vas s₁ s') :
    PagesUnmapped b (va :: vas) s s' := by
  refine ⟨fun va₁ hva₁ va' hpage => ?_, fun va' hne => ?_⟩
  · by_cases hlater : ∃ va₂ ∈ vas, va' / pageSize = va₂ / pageSize
    · obtain ⟨va₂, hva₂, hpage₂⟩ := hlater
      exact h'.here va₂ hva₂ va' hpage₂
    · push Not at hlater
      have hhead : va₁ = va := (List.mem_cons.mp hva₁).resolve_right fun hmem => hlater va₁ hmem hpage
      rw [h'.others va' hlater]
      exact h.here va List.mem_cons_self va' (hhead ▸ hpage)
  · rw [h'.others va' fun va₂ hva₂ => hne va₂ (List.mem_cons_of_mem _ hva₂),
      h.others va' fun va₂ hva₂ => hne va₂ (List.mem_cons.mpr (Or.inl (List.mem_singleton.mp hva₂)))]

theorem pagesUnmapped_unmapped (h : s.Tree b) (hva : b.InTree va) (hwindow : ¬ b.InWindow va)
    (ht : s.tableAt b va (b.levels - 1) = some t) : PagesUnmapped b [va] s (s.unmapped b va t) := by
  refine ⟨fun va₁ hva₁ va' hpage => ?_, fun va' hne => ?_⟩
  · rw [List.mem_singleton.mp hva₁] at hpage
    exact lastEntry_write_leaf h hwindow ht hpage (inTree_of_page hpage hva)
  · exact lastEntry_write_leaf_other h hva hwindow ht (hne va (List.mem_singleton_self va))

theorem vmmUnmapPages_ok (m p : Nat) (h : s.Tree b)
    (hvas : ∀ va ∈ regionPages b p m, b.Ordinary va ∧ s.tableAt b va (b.levels - 1) ≠ none) :
    ∃ s', vmmUnmapPages b (resolveWrite b (n + 1)) m p s = .ok (⟨⟩, s') ∧
      PagesUnmapped b (regionPages b p m) s s' := by
  induction m generalizing s p with
  | zero => exact ⟨s, rfl, nofun, fun _ _ => rfl⟩
  | succ m ih =>
      obtain ⟨hordinary, htable⟩ := hvas p List.mem_cons_self
      obtain ⟨t, ht⟩ := Option.ne_none_iff_exists'.mp htable
      have hwindow := hordinary.not_inWindow
      have hrun := vmmUnmapPage_ok h (resolveWrite_resolves n) hordinary.1 ht
      have htree : (s.unmapped b p t).Tree b := ⟨h.directory, (h.write_leaf hwindow ht).tree⟩
      obtain ⟨s', hrest, hunmapped⟩ := ih ((p + pageSize) % 2 ^ b.wordBits) htree fun va hva => by
        rw [Nat.add_comm] at hva
        obtain ⟨hord, hsome⟩ := hvas va (List.mem_cons_of_mem _ hva)
        refine ⟨hord, ?_⟩
        have hsame : (s.unmapped b p t).tableAt b va (b.levels - 1) = s.tableAt b va (b.levels - 1) :=
          tableAt_write_leaf (s := s) h hwindow ht levels_sub_lt
        rwa [hsame]
      refine ⟨s', ?_, ?_⟩
      · rw [vmmUnmapPages, bind_of_ok hrun, hrest]
      · rw [Nat.add_comm] at hunmapped
        exact (pagesUnmapped_unmapped h hordinary.1 hwindow ht).cons hunmapped

/-! ### Further calls -/

/-- `s'` is a later state in which the heap was extended and nothing below changed. -/
structure Extended (b : Build) (s s' : Machine) : Prop where
  next_le : s.nextAlloc ≤ s'.nextAlloc
  table : TablesKept b s s'
  outside : ∀ va, ¬ b.Internal va → (va < s.nextAlloc ∨ s'.nextAlloc ≤ va) → s'.leafEntry b va = s.leafEntry b va

theorem Extended.refl (s : Machine) : Extended b s s :=
  ⟨le_rfl, fun _ _ _ _ ht => ht, fun _ _ _ => rfl⟩

theorem Extended.trans (h : Extended b s s₁) (h' : Extended b s₁ s') : Extended b s s' := by
  refine ⟨h.next_le.trans h'.next_le, h.table.trans h'.table, fun va hva hout => ?_⟩
  have hle := h.next_le
  have hle' := h'.next_le
  rw [h'.outside va hva (by omega), h.outside va hva (by omega)]

/-- A call of `vmm_alloc` or `vmm_map` whose region fits in what is left of the heap. -/
def AllocatesInHeap (b : Build) (c : Callers) : Op → Prop
  | .vmmAlloc length => Fits b c.machine length
  | .vmmMap pa length => pa < 2 ^ b.physBits ∧ Fits b c.machine (mapSize b pa length)
  | _ => False

section Step

variable (h : HeapInv b pool held s)

include h

theorem HeapInv.alloc_extends (hfits : Fits b s length) : wp (vmmAlloc b (resolveWrite b (n + 2)) length) s
    (fun _ s' => HeapInv b pool held s' ∧ Extended b s s') fun _ => True := by
  obtain ⟨-, -, hend⟩ := h.allocPages_bounds hfits
  refine (h.vmmAlloc_spec hfits).mono ?_ fun _ _ => trivial
  rintro r s' ⟨-, hheap, hnext, taken, hw, -⟩
  refine ⟨hheap, ?_, hw.table, fun va hva hout => ?_⟩
  · rw [hnext]
    exact Nat.le_add_right _ _
  · rw [hnext] at hout
    exact hw.outside h.inv (fun va' hva' => (mem_heapRegion hend).mp hva') h.next_mod hva hout

theorem HeapInv.map_extends (hpa : pa < 2 ^ b.physBits) (hfits : Fits b s (mapSize b pa length)) :
    wp (vmmMap b (resolveWrite b (n + 2)) pa length) s
      (fun _ s' => HeapInv b pool held s' ∧ Extended b s s') fun _ => True := by
  have hlt := b.kernelHeapEnd_lt
  have hdvd := mapSize_mod (b := b) pa length
  set m := mapSize b pa length / pageSize with hm
  have hmul : pageSize * m = mapSize b pa length := Nat.mul_div_cancel' (Nat.dvd_of_mod_eq_zero hdvd)
  have hend : s.nextAlloc + pageSize * m ≤ b.kernelHeapEnd := by rwa [hmul]
  rw [Fits] at hfits
  have hmem : ∀ va ∈ regionPages b s.nextAlloc m, ∃ k < m, va = s.nextAlloc + pageSize * k :=
    fun va hva => (mem_heapRegion hend).mp hva
  refine (Memory.vmmMap_spec pa length h.inv hpa h.next_lt h.next_mod (by omega) fun va hva =>
    (heapRegion_inHeap h.next_ge hend hva).ordinary).mono ?_ fun _ _ => trivial
  rintro r s' ⟨hinv, ⟨s₂, ⟨h₂, taken, hw₁, -⟩, entry, vas, hw, hvas⟩, hnext, -⟩
  rw [heapRegion_end hend] at hnext
  have hkept : TablesKept b s s' := TablesKept.trans hw₁.table hw.table
  have hge := h.next_ge
  have hmod := h.next_mod
  refine ⟨⟨hinv, h.table.mono hkept, ?_, ?_, ?_⟩, ?_, hkept, fun va hva hout => ?_⟩
  · rw [hnext, pageSize] at *
    omega
  · omega
  · omega
  · omega
  · rw [hnext] at hout
    rw [hw.outside h₂ (fun va' hva' => hmem va' (hvas va' hva')) hmod hva hout, hw₁.outside h.inv hmem hmod hva hout]

end Step

/-- What calls of `vmm_alloc` and `vmm_map` leave as it was. -/
theorem Run.extends (hrun : Run b (n + 2) (AllocatesInHeap b) c c') (h : HeapInv b pool held c.machine) :
    HeapInv b pool held c'.machine ∧ Extended b c.machine c'.machine := by
  refine hrun.invariant (P := fun d => HeapInv b pool held d.machine ∧ Extended b c.machine d.machine)
    ⟨h, .refl _⟩ fun d d' op ⟨hd, hextended⟩ hop hexec => ?_
  cases op with
  | vmmAlloc length =>
      obtain ⟨r, s', hcall, rfl⟩ := map_ok hexec
      obtain ⟨hd', hextended'⟩ := (hd.alloc_extends hop).ok hcall
      exact ⟨hd', hextended.trans hextended'⟩
  | vmmMap pa length =>
      obtain ⟨r, s', hcall, rfl⟩ := map_ok hexec
      obtain ⟨hd', hextended'⟩ := (hd.map_extends hop.1 hop.2).ok hcall
      exact ⟨hd', hextended.trans hextended'⟩
  | _ => exact hop.elim

/-! ### The pages of a range -/

/-- The region that was reserved shows the physical pages from `pa` on, and no other translation has changed. -/
structure RegionShows (b : Build) (pa : Nat) (s s' : Machine) : Prop where
  pages : ∀ j, s.nextAlloc + pageSize * j < s'.nextAlloc →
    s'.translate b (s.nextAlloc + pageSize * j) = some (pa / pageSize + j)
  others : ∀ va, ¬ b.Internal va → (va < s.nextAlloc ∨ s'.nextAlloc ≤ va) → s'.leafEntry b va = s.leafEntry b va

section Range

variable (h : HeapInv b pool held s) (hend : pa + length ≤ b.physicalSpace) (hpa : pa < 2 ^ b.physBits)
  (hfits : Fits b s (mapSize b pa length))

include hend hpa

/-- On i386 a range that fills the address space rounds to nothing. -/
theorem mapSize_cases : mapSize b pa length = pageSize * rangePages pa length ∨
    mapSize b pa length = 0 ∧ unmapPages b (pa % pageSize) length = [] := by
  cases b with
  | i386 =>
      by_cases hsize : pageSize * rangePages pa length < 2 ^ Build.i386.wordBits
      · exact Or.inl (mapSize_eq hend hsize)
      · have hnone : pagesBetween 32 (pageAlignDown (pa % pageSize)) (pageAlignUp 32 ((pa % pageSize + length) % 2 ^ 32)) =
            0 := by
          simp only [rangePages, pagesBetween, pageAlignUp, pageAlignDown, pageSize, Build.physicalSpace,
            Build.wordBits] at *
          omega
        refine Or.inr ⟨?_, ?_⟩
        · simp only [mapSize, rangePages, pageAlignUp, pageAlignDown, pageSize, Build.physicalSpace, Build.physBits,
            Build.wordBits] at *
          omega
        · rw [unmapPages, Build.wordBits, hnone]
          rfl
  | pae =>
      refine Or.inl ?_
      simp only [mapSize, rangePages, pageAlignUp, pageAlignDown, pageSize, Build.physicalSpace, Build.physBits] at *
      omega
  | x86_64 =>
      refine Or.inl ?_
      simp only [mapSize, rangePages, pageAlignUp, pageAlignDown, pageSize, Build.physicalSpace, Build.physBits] at *
      omega

include h hfits

/-- `vmm_unmap` finds the pages that `vmm_map` had reserved. -/
theorem unmapPages_mapped : unmapPages b (mapBase b pa length s.nextAlloc + pa % pageSize) length =
    regionPages b s.nextAlloc (mapSize b pa length / pageSize) := by
  rcases mapSize_cases hend hpa with hsize | ⟨hzero, hnone⟩
  · have hmod := h.next_mod
    have hrange := rangePages_eq pa length
    rw [Fits, hsize] at hfits
    rw [mapBase, hsize, Nat.mul_div_cancel_left _ (by decide)]
    split
    · rename_i hzero
      have hoffset : rangePages pa length = 0 ∧ pa % pageSize = 0 ∧ length = 0 := by
        rw [pageSize] at *
        omega
      have hnone : pagesBetween b.wordBits (pageAlignDown 0) (pageAlignUp b.wordBits (0 % 2 ^ b.wordBits)) = 0 := by
        cases b <;> decide
      rw [hoffset.1, hoffset.2.1, hoffset.2.2, Nat.add_zero, unmapPages, Nat.add_zero, hnone, regionPages, regionPages]
    · have hstart : pageAlignDown (s.nextAlloc + pa % pageSize) = s.nextAlloc := by
        rw [pageAlignDown, pageSize] at *
        omega
      have hcount : pagesBetween b.wordBits s.nextAlloc (pageAlignUp b.wordBits
          ((s.nextAlloc + pa % pageSize + length) % 2 ^ b.wordBits)) = rangePages pa length := by
        rw [hrange] at hfits ⊢
        cases b <;> simp only [pagesBetween, pageAlignUp, pageAlignDown, pageSize, Build.wordBits,
          Build.kernelHeapEnd] at * <;> omega
      rw [unmapPages, hstart, hcount]
  · rw [mapBase, if_pos hzero, Nat.zero_add, hnone, hzero, Nat.zero_div, regionPages]

/-- What `vmm_map` has done when it returns. -/
theorem HeapInv.mapped (hmap : vmmMap b (resolveWrite b (n + 2)) pa length s = .ok (r, s₁)) :
    r = mapBase b pa length s.nextAlloc + pa % pageSize ∧ s₁.nextAlloc = s.nextAlloc + mapSize b pa length ∧
      RegionShows b pa s s₁ ∧ HeapInv b pool held s₁ := by
  obtain ⟨hheap, hextended⟩ := (h.map_extends hpa hfits).ok hmap
  rcases mapSize_cases hend hpa with hsize | ⟨hzero, -⟩
  · rw [Fits, hsize] at hfits
    obtain ⟨hmapped, -⟩ := (h.vmmMap_spec hend hfits hpa).ok hmap
    refine ⟨?_, by rw [hmapped.next, hsize], ⟨fun j hj => hmapped.pages j ?_, hextended.outside⟩, hheap⟩
    · rw [hmapped.result, mapBase_eq hsize]
    · rw [hmapped.next, pageSize] at hj
      omega
  · have hlt := h.next_lt
    obtain ⟨hr, -, hnext, -⟩ := (Memory.vmmMap_full (n := n) pa length h.inv hpa hlt h.next_mod
      (by rw [hzero]; exact Nat.two_pow_pos _) (by rw [hzero]; exact fun _ hva => absurd hva List.not_mem_nil)).ok hmap
    rw [hzero, Nat.zero_div] at hnext
    refine ⟨?_, by rw [hzero, hnext]; rfl, ⟨fun j hj => ?_, hextended.outside⟩, hheap⟩
    · rw [hr, pageAlignDown, pageSize]
      omega
    · rw [hnext, regionEnd] at hj
      omega

end Range

/-- The pages from `lo` to `hi`, mapped until then, are not present, and no other entry has changed. -/
structure RangeUnmapped (b : Build) (lo hi : Nat) (s s' : Machine) : Prop where
  here : ∀ va, lo ≤ va → va < hi → s.translate b va ≠ none ∧ s'.lastEntry b va = some 0
  others : ∀ va, va < lo ∨ hi ≤ va → s'.lastEntry b va = s.lastEntry b va

section Unmap

variable (h : HeapInv b pool held s) (hend : pa + length ≤ b.physicalSpace) (hpa : pa < 2 ^ b.physBits)
  (hfits : Fits b s (mapSize b pa length))
  (hmap : vmmMap b (resolveWrite b (n + 2)) pa length s = .ok (r, s₁)) (hextended : Extended b s₁ s₂)

include h hend hpa hfits hmap hextended

/-- A page of the region, in a later state. -/
theorem HeapInv.mapped_later (hva : va ∈ regionPages b s.nextAlloc (mapSize b pa length / pageSize)) :
    b.InHeap va ∧ s₂.translate b va ≠ none := by
  have hdvd := Nat.mul_div_cancel' (Nat.dvd_of_mod_eq_zero (mapSize_mod (b := b) pa length))
  rw [Fits, ← hdvd] at hfits
  have hheap := heapRegion_inHeap h.next_ge hfits hva
  obtain ⟨-, hnext, hshows, -⟩ := h.mapped hend hpa (by rwa [Fits, ← hdvd]) hmap
  obtain ⟨j, hj, rfl⟩ := (mem_heapRegion hfits).mp hva
  have hbelow : s.nextAlloc + pageSize * j < s₁.nextAlloc := by
    rw [hnext, ← hdvd, pageSize] at *
    omega
  refine ⟨hheap, ?_⟩
  rw [translate_eq_leafEntry, hextended.outside _ hheap.ordinary.2 (Or.inl hbelow), ← translate_eq_leafEntry,
    hshows.pages j hbelow]
  exact Option.some_ne_none _

theorem HeapInv.unmaps (h₂ : HeapInv b pool held s₂) :
    ∃ s', vmmUnmap b (resolveWrite b (n + 2)) r length s₂ = .ok (0, s') ∧
      RangeUnmapped b s.nextAlloc s₁.nextAlloc s₂ s' := by
  obtain ⟨hr, hnext, -, -⟩ := h.mapped hend hpa hfits hmap
  have hlater : ∀ va ∈ regionPages b s.nextAlloc (mapSize b pa length / pageSize),
      b.InHeap va ∧ s₂.translate b va ≠ none := fun va hva => h.mapped_later hend hpa hfits hmap hextended hva
  have hdvd := Nat.mul_div_cancel' (Nat.dvd_of_mod_eq_zero (mapSize_mod (b := b) pa length))
  have hpages := unmapPages_mapped h hend hpa hfits
  rw [← hr] at hpages
  generalize mapSize b pa length / pageSize = m at hlater hdvd hpages
  rw [Fits, ← hdvd] at hfits
  rw [← hdvd] at hnext
  obtain ⟨s', hrun, hunmapped⟩ := vmmUnmapPages_ok (n := n + 1) (pagesBetween b.wordBits (pageAlignDown r)
      (pageAlignUp b.wordBits ((r + length) % 2 ^ b.wordBits))) (pageAlignDown r) h₂.inv.tree fun va hva => by
    obtain ⟨hheap, hsome⟩ := hlater va (hpages ▸ hva)
    obtain ⟨f, hf⟩ := Option.ne_none_iff_exists'.mp hsome
    obtain ⟨t, ht⟩ := exists_table h₂.inv.tree hf
    exact ⟨hheap.ordinary, by rw [ht]; exact Option.some_ne_none t⟩
  replace hunmapped : PagesUnmapped b (unmapPages b r length) s₂ s' := hunmapped
  rw [hpages] at hunmapped
  have hmod := h.next_mod
  refine ⟨s', by rw [vmmUnmap, bind_of_ok hrun]; rfl, fun va hlo hhi => ?_, fun va hout => ?_⟩
  · rw [hnext] at hhi
    obtain ⟨j, hj, hpage⟩ : ∃ j < m, va / pageSize = (s.nextAlloc + pageSize * j) / pageSize := by
      refine ⟨(va - s.nextAlloc) / pageSize, ?_, ?_⟩ <;> rw [pageSize] at * <;> omega
    have hva := (mem_heapRegion hfits).mpr ⟨j, hj, rfl⟩
    refine ⟨?_, hunmapped.here _ hva va hpage⟩
    rw [Build.translate_of_page hpage]
    exact (hlater _ hva).2
  · refine hunmapped.others va fun va' hva' hpage => ?_
    obtain ⟨j, hj, rfl⟩ := (mem_heapRegion hfits).mp hva'
    rw [hnext] at hout
    have hle : pageSize * (j + 1) ≤ pageSize * m := Nat.mul_le_mul_left _ hj
    rw [pageSize] at *
    omega

end Unmap

/-- `vmm_map`, then calls of `vmm_alloc` and `vmm_map`, all of whose regions fit in the heap, then `vmm_unmap`:
the pages that the first call has mapped are mapped no more, and no other entry has changed, in particular
none that the calls in between have made. -/
theorem vmmUnmap_undoes {s₀ : Machine} (hbase : LowMap map) (hdisjoint : DisjointMap map)
    (hstart : Started b image map n s₀) (hrun : Run b (n + 2) (Permitted b) (Callers.start s₀) c)
    (hge : b.kernelHeapBegin ≤ c.machine.nextAlloc) (hpa : pa < 2 ^ b.physBits) (hend : pa + length ≤ b.physicalSpace)
    (hfits : Fits b c.machine (mapSize b pa length))
    (hmap : vmmMap b (resolveWrite b (n + 2)) pa length c.machine = .ok (r, s₁))
    (hfurther : Run b (n + 2) (AllocatesInHeap b) ⟨s₁, c.held⟩ c') :
    (r = mapBase b pa length c.machine.nextAlloc + pa % pageSize ∧
      s₁.nextAlloc = c.machine.nextAlloc + mapSize b pa length ∧ RegionShows b pa c.machine s₁) ∧
    ∃ s', vmmUnmap b (resolveWrite b (n + 2)) r length c'.machine = .ok (0, s') ∧
      RangeUnmapped b c.machine.nextAlloc s₁.nextAlloc c'.machine s' ∧
      ∀ d pa' length' r' s₂, Run b (n + 2) (AllocatesInHeap b) ⟨s₁, c.held⟩ d →
        AllocatesInHeap b d (.vmmMap pa' length') →
        vmmMap b (resolveWrite b (n + 2)) pa' length' d.machine = .ok (r', s₂) →
        Run b (n + 2) (AllocatesInHeap b) ⟨s₂, d.held⟩ c' →
        ∀ va, d.machine.nextAlloc ≤ va → va < s₂.nextAlloc → s'.leafEntry b va = s₂.leafEntry b va := by
  obtain ⟨hinv, htable⟩ := hrun.heapTable hbase hdisjoint hstart fun _ _ hop => hop
  have h := hinv.heapInv htable hge (Nat.le_of_add_right_le hfits)
  obtain ⟨hr, hnext, hshows, h₁⟩ := h.mapped hend hpa hfits hmap
  obtain ⟨h', hextended⟩ := hfurther.extends h₁
  obtain ⟨s', hunmap, hunmapped⟩ := h.unmaps hend hpa hfits hmap hextended h'
  refine ⟨⟨hr, hnext, hshows⟩, s', hunmap, hunmapped, fun d pa' length' r' s₂ hbefore hop hcall hafter va hlo hhi => ?_⟩
  obtain ⟨hd, hextended₁⟩ := hbefore.extends h₁
  obtain ⟨h₂, -⟩ := (hd.map_extends hop.1 hop.2).ok hcall
  obtain ⟨-, hextended₂⟩ := hafter.extends h₂
  have hheap : b.InHeap va := ⟨hd.next_ge.trans hlo, hhi.trans_le h₂.next_le⟩
  rw [leafEntry_congr (hunmapped.others va (Or.inr (hextended₁.next_le.trans hlo))),
    hextended₂.outside va hheap.ordinary.2 (Or.inl hhi)]

/-- The first page of the heap on i386 is mapped; it took one frame, for its page table. -/
structure FirstMapping (s₀ s₁ : Machine) : Prop where
  started : Started .i386 (smallImage .i386) smallMap 0 s₀
  returned : vmmMap .i386 (resolveWrite .i386 2) 0x800000 0x1000 s₀ = .ok (0xE0000000, s₁)
  mapped : RangeMapped .i386 0x800000 0x1000 s₀ 0xE0000000 s₁
  heap : HeapInv .i386 ((smallImage .i386).pool smallMap) [] s₁
  next : s₁.nextAlloc = 0xE0001000
  empty : s₁.stackCount .i386 = 0
  free : 255 ≤ (s₁.freeFrames .i386).length

theorem vmmMap_first : ∃ s₀ s₁, FirstMapping s₀ s₁ := by
  obtain ⟨s₀, hstart⟩ := started_small .i386 0
  have hstate := started_state smallMap_low smallMap_disjoint hstart
  have hnext := hstate.nextAlloc
  have hfree := congrArg List.length hstate.free
  rw [smallMap_length] at hfree
  have hcard := card_missingTables_le (b := .i386) s₀ (regionPages .i386 s₀.nextAlloc 1)
  rw [regionPages_length] at hcard
  have hone : rangePages 0x800000 0x1000 = 1 := by decide
  have hsize : mapSize .i386 0x800000 0x1000 = 0x1000 := by decide
  have hfits : s₀.nextAlloc + pageSize * rangePages 0x800000 0x1000 ≤ Build.i386.kernelHeapEnd := by
    rw [hnext]
    decide
  obtain ⟨r, s₁, hmap, hmapped, h₁, -⟩ := ((hstate.heapInv.vmmMap_spec (n := 0) (by decide) hfits
    (by decide)).mono (fun _ _ hq => hq) fun e he => by
      rw [hone] at he
      rcases he with hmet | hlt
      · exact hmet nofun
      · omega).returns
  obtain rfl : r = 0xE0000000 := by
    rw [hmapped.result, hnext]
    decide
  obtain ⟨-, -, -, ⟨s', k, ⟨-, taken, hw, hlength⟩, -, -, hw'⟩, -⟩ := (Memory.vmmMap_full (n := 0) 0x800000 0x1000
    hstate.inv (by decide) hstate.heapInv.next_lt hstate.heapInv.next_mod (by rw [hsize]; decide)
    (by
      rw [hsize, hnext]
      exact fun va hva => (heapRegion_inHeap (m := 1) le_rfl (by decide) hva).ordinary)).ok hmap
  refine ⟨s₀, s₁, hstart, hmap, hmapped, h₁, ?_, ?_, ?_⟩
  · rw [hmapped.next, hnext]
    decide
  · rw [hw'.count, hw.count, hstate.stackCount, Nat.zero_sub, Nat.zero_sub]
  · rw [show mapSize .i386 0x800000 0x1000 / pageSize = 1 from rfl] at hlength
    rw [hw.free, hw'.free, List.nil_append, List.length_append, hlength] at hfree
    omega

/-- Two pages are allocated between the two calls. -/
theorem vmmUnmap_undoes_first : ∃ s₀ s₁ s₂ s', FirstMapping s₀ s₁ ∧
    vmmAlloc .i386 (resolveWrite .i386 2) 0x2000 s₁ = .ok (0xE0001000, s₂) ∧
    vmmUnmap .i386 (resolveWrite .i386 2) 0xE0000000 0x1000 s₂ = .ok (0, s') ∧
    s'.lastEntry .i386 0xE0000000 = some 0 ∧ s'.leafEntry .i386 0xE0001000 = s₂.leafEntry .i386 0xE0001000 := by
  obtain ⟨s₀, s₁, h⟩ := vmmMap_first
  have hnext := (started_state smallMap_low smallMap_disjoint h.started).nextAlloc
  have hfits : Fits .i386 s₁ 0x2000 := by
    rw [Fits, h.next]
    decide
  have hpages : allocPages .i386 0x2000 = 2 := by decide
  have hfree := h.free
  obtain ⟨s₂, hcall, -⟩ := h.heap.served (n := 0) hfits (by omega)
  rw [if_neg (by decide), h.next] at hcall
  have hfurther : Run .i386 2 (AllocatesInHeap .i386) ⟨s₁, []⟩ ⟨s₂, []⟩ :=
    .step .start (show AllocatesInHeap .i386 ⟨s₁, []⟩ (.vmmAlloc 0x2000) from hfits)
      (by rw [exec, Callers.run, hcall]; rfl)
  obtain ⟨-, s', hrun, hunmapped, -⟩ := vmmUnmap_undoes (c := Callers.start s₀) smallMap_low smallMap_disjoint h.started
    .start (by rw [Callers.start, hnext]) (by decide) (by decide)
    (by rw [Callers.start, Fits, hnext]; decide) h.returned hfurther
  refine ⟨s₀, s₁, s₂, s', h, hcall, hrun, (hunmapped.here 0xE0000000 ?_ ?_).2, ?_⟩
  · rw [Callers.start, hnext]
    decide
  · rw [h.next]
    decide
  · exact leafEntry_congr (hunmapped.others 0xE0001000 (Or.inr h.next.le))

/-! ### Past the end of the heap on i386 -/

/-- `vmm_alloc` has come to `p`, above the heap, with an empty stack and a frame for each table that it may
still need below the window. -/
structure Overrun (pool held : List Nat) (s : Machine) (p : Nat) : Prop where
  inv : MemInv .i386 pool held s
  empty : s.stackCount .i386 = 0
  next : s.nextAlloc = p
  table : p % 2 ^ 22 ≠ 0 → s.tableAt .i386 p 1 ≠ none
  free : 1023 ≤ (p + 2 ^ 22 - 1) / 2 ^ 22 + (s.freeFrames .i386).length

theorem path_next_page {p : Nat} (hp : p % 4096 = 0) (hne : (p + pageSize) % 2 ^ 22 ≠ 0) :
    (Build.i386.path (p + pageSize)).take 1 = (Build.i386.path p).take 1 := by
  rw [pageSize] at *
  simp only [Build.path, List.take_succ_cons, List.take_zero, List.cons.injEq, and_true]
  omega

/-- One more page is marked. -/
theorem Overrun.next_page {p : Nat} {taken : List Nat} (h : Overrun pool held s p) (hp : p % 4096 = 0)
    (hw : Written .i386 (fun _ => pageAllocated) [s.nextAlloc] taken s s')
    (hlength : taken.length = if s.tableAt .i386 s.nextAlloc 1 = none then 1 else 0) (hinv : MemInv .i386 pool held s')
    (hnext : s'.nextAlloc = p + pageSize) : Overrun pool held s' (p + pageSize) := by
  have hsome := hw.table_some hinv List.mem_cons_self
  rw [h.next] at hlength hsome
  refine ⟨hinv, ?_, hnext, fun hne => ?_, ?_⟩
  · rw [hw.count, h.empty, Nat.zero_sub]
  · have hsame : s'.tableAt .i386 (p + pageSize) 1 = s'.tableAt .i386 p 1 := tableAt_of_take (path_next_page hp hne)
    rw [hsame]
    exact hsome
  · have hcount := h.free
    have htable := h.table
    rw [hw.free, List.length_append, hlength] at hcount
    rw [pageSize]
    split at hcount
    · rename_i hnone
      have hmod : p % 2 ^ 22 = 0 := not_not.mp fun hne => htable hne hnone
      omega
    · omega

/-- There is a frame for the page table of the next page. -/
theorem Overrun.frame {p : Nat} (h : Overrun pool held s p) (hend : p < 0xFFC00000)
    (hnone : s.tableAt .i386 s.nextAlloc 1 = none) : s.freeFrames .i386 ≠ [] := by
  intro hfree
  have htable := h.table
  have hcount := h.free
  rw [h.next] at hnone
  rw [hfree, List.length_nil] at hcount
  have hmod : p % 2 ^ 22 = 0 := not_not.mp fun hne => htable hne hnone
  omega

/-- Nothing stops `vmm_alloc` at the end of the heap. -/
theorem vmmAllocPages_overrun (m : Nat) {p : Nat} (h : Overrun pool held s p) (hp : p % pageSize = 0)
    (hend : p + pageSize * m ≤ 0xFFC00000) :
    wp (vmmAllocPages .i386 (resolveWrite .i386 (n + 2)) m) s
      (fun _ s' => Overrun pool held s' (p + pageSize * m)) fun _ => False := by
  induction m generalizing s p with
  | zero => exact h
  | succ m ih =>
      rw [pageSize] at hp hend
      have hva : Build.i386.InTree s.nextAlloc := by
        rw [h.next, Build.InTree]
        omega
      have hwindow : ¬ Build.i386.InWindow s.nextAlloc := by
        rw [h.next]
        simp only [Build.InWindow, Build.path, Build.recursiveIndex, List.head?_cons, Option.some.injEq]
        omega
      rw [vmmAllocPages_eq, wp_bind, wp_get, wp_bind]
      refine (store_entry h.inv hva hwindow (Or.inr h.empty)).mono ?_ ?_
      · rintro - s₂ ⟨h₂, taken, s₁, h₁, hwritten⟩
        have hnext : s₂.nextAlloc = p := by rw [hwritten.leaf.nextAlloc, hwritten.ensured.effect.nextAlloc, h.next]
        have hlast : p + pageSize * (m + 1) = p + pageSize + pageSize * m := by
          rw [Nat.mul_succ]
          omega
        have hsum : (pageSize + p) % 2 ^ Build.i386.wordBits = p + pageSize := by
          rw [Build.wordBits, pageSize]
          omega
        rw [wp_bind, wp_modify, wp_bind, wp_modify, hlast]
        set s₃ : Machine := { s₂.invlpg s₂.nextAlloc with
          nextAlloc := (pageSize + s₂.nextAlloc) % 2 ^ Build.i386.wordBits } with hs₃
        have hnext₃ : s₃.nextAlloc = p + pageSize := by rw [hs₃, ← hsum, ← hnext]
        have hw : Written .i386 (fun _ => pageAllocated) [s.nextAlloc] taken s s₃ :=
          (hwritten.written hva rfl).invlpg.setNextAlloc _
        have hover := h.next_page hp hw hwritten.length ((MemInv.invlpg h₂).setNextAlloc _) hnext₃
        exact ih hover (by rw [pageSize]; omega) (by rw [pageSize]; omega)
      · rintro e ⟨hnone, ⟨-, hfree⟩ | hroot⟩
        · exact h.frame (by omega) hnone hfree
        · cases hroot

/-- The page directory refers to itself, and `next_alloc` is the page at which the window shows page table `k`. -/
structure InDirectory (s : Machine) (k : Nat) : Prop where
  self : s.next (s.root .i386) 1023 = some (s.root .i386)
  next : s.nextAlloc = 0xFFC00000 + pageSize * k

theorem translate_directory (hself : s.next (s.root .i386) 1023 = some (s.root .i386)) {i : Nat} (hi : i < 1024) :
    s.translate .i386 (0xFFFFF000 + 4 * i) = some (s.root .i386) := by
  have hpath : Build.i386.path (0xFFFFF000 + 4 * i) = [1023, 1023] := by
    simp only [Build.path, List.cons.injEq, and_true]
    omega
  have htop : s.top .i386 (0xFFFFF000 + 4 * i) = some (s.root .i386) := if_pos (by omega)
  rw [Machine.translate, htop, hpath, Option.bind_some, follow, hself, Option.bind_some, follow, hself]
  rfl

theorem InDirectory.step {k : Nat} (h : InDirectory s k) (hk : k < 1024) (m : Nat) :
    ∃ s', vmmAllocPages .i386 (resolveWrite .i386 (n + 1)) (m + 1) s =
        vmmAllocPages .i386 (resolveWrite .i386 (n + 1)) m s' ∧
      s'.root .i386 = s.root .i386 ∧ s'.nextAlloc = (0xFFC00000 + pageSize * (k + 1)) % 2 ^ 32 ∧
      s'.next = setEntry s.next (s.root .i386) k none := by
  have hentry : Build.i386.entryVa 1 s.nextAlloc = 0xFFFFF000 + 4 * k := by
    rw [h.next, Build.entryVa, Build.index_eq]
    simp only [Build.entryAddress, Build.vmmPageMappings, Build.entrySize, pageSize]
    omega
  have hword : Build.i386.wordIndex (0xFFFFF000 + 4 * k) = k := by
    rw [Build.wordIndex, pageSize, Build.entrySize]
    omega
  have hstore := store_ok (w := pageAllocated) (resolveWrite_resolves n) (translate_directory h.self hk)
  rw [hword] at hstore
  refine ⟨{ (((s.cache (0xFFFFF000 + 4 * k) (s.root .i386)).write (s.root .i386) k pageAllocated).invlpg s.nextAlloc) with
    nextAlloc := (pageSize + s.nextAlloc) % 2 ^ 32 }, ?_, rfl, ?_, ?_⟩
  · rw [vmmAllocPages_eq, bind_of_ok rfl, hentry, bind_of_ok hstore]
    rfl
  · show (pageSize + s.nextAlloc) % 2 ^ 32 = _
    rw [h.next, pageSize]
    omega
  · show ((s.cache _ _).write _ _ _).next = _
    rw [Machine.next_write, entryFrame_of_not not_present_allocated]
    rfl

/-- The last entry that the loop writes is the one through which the directory is seen. -/
theorem vmmAllocPages_directory (m : Nat) {k : Nat} (h : InDirectory s k) (hk : k + m = 1023) :
    ∃ s', vmmAllocPages .i386 (resolveWrite .i386 (n + 1)) (m + 1) s = .ok (⟨⟩, s') ∧
      s'.next (s'.root .i386) 1023 = none := by
  induction m generalizing s k with
  | zero =>
      obtain ⟨s', hrun, hroot, -, hnext⟩ := h.step (n := n) (by omega) 0
      refine ⟨s', hrun, ?_⟩
      rw [hnext, hroot, ← hk]
      exact setEntry_same
  | succ m ih =>
      obtain ⟨s₁, hrun, hroot, hnext, hentries⟩ := h.step (n := n) (by omega) (m + 1)
      have hself : s₁.next (s₁.root .i386) 1023 = some (s₁.root .i386) := by
        rw [hentries, hroot, setEntry_of_ne (by omega), h.self]
      have hbelow : s₁.nextAlloc = 0xFFC00000 + pageSize * (k + 1) := by
        rw [hnext, pageSize]
        omega
      obtain ⟨s', hrest, hnone⟩ := ih ⟨hself, hbelow⟩ (by omega)
      exact ⟨s', hrun.trans hrest, hnone⟩

theorem vmmAllocPages_add {resolve : Nat → M Nat} (m k : Nat) :
    vmmAllocPages b resolve (m + k) = vmmAllocPages b resolve m >>= fun _ => vmmAllocPages b resolve k := by
  induction m with
  | zero => rw [Nat.zero_add, vmmAllocPages, pure_bind]
  | succ m ih =>
      rw [Nat.succ_add, vmmAllocPages, vmmAllocPages, ih]
      simp only [bind_assoc]

/-- Without the directory no entry can be written. -/
theorem store_undirected (hnone : s.next (s.root .i386) 1023 = none) (va w : Nat) :
    ∃ e, store .i386 (resolveWrite .i386 (n + 1)) (Build.i386.entryVa 1 va) w s = .error e := by
  have hwindow : ∀ va, s.translate .i386 (Build.i386.entryVa 1 va) = none := by
    intro va
    have hpath : (Build.i386.path (Build.i386.entryVa 1 va)).head? = some 1023 := by
      rw [Build.entryVa, Build.index_eq]
      simp only [Build.path, Build.entryAddress, Build.vmmPageMappings, Build.entrySize, List.head?_cons,
        Option.some.injEq]
      omega
    obtain ⟨q, hq⟩ := List.head?_eq_some_iff.mp hpath
    rw [Machine.translate, hq]
    cases htop : s.top .i386 (Build.i386.entryVa 1 va) with
    | none => rfl
    | some top =>
        have hroot : top = s.root .i386 := by
          rw [Machine.top] at htop
          split at htop
          · exact (Option.some.inj htop).symm
          · cases htop
        rw [Option.bind_some, follow, hroot, hnone, Option.bind_none]
  have hresolve : ∃ e, resolveWrite .i386 (n + 1) (Build.i386.entryVa 1 va) s = .error e := by
    rw [resolveWrite_none n (hwindow va), handler_eq]
    exact ⟨_, bind_of_error (bind_of_error (load_error (hwindow _)))⟩
  obtain ⟨e, he⟩ := hresolve
  exact ⟨e, bind_of_error he⟩

/-- `vmm_alloc` runs past the heap into the window of the page tables and overwrites the page directory; the page
that `vmm_map` has mapped can no longer be unmapped. -/
theorem vmmUnmap_lost : ∃ s₀ s₁ s₂, Started .i386 (smallImage .i386) smallMap 0 s₀ ∧
    vmmMap .i386 (resolveWrite .i386 2) 0x800000 0x1000 s₀ = .ok (0xE0000000, s₁) ∧
    vmmAlloc .i386 (resolveWrite .i386 2) 0x1FFFF000 s₁ = .ok (0xE0001000, s₂) ∧
    ¬ ∃ r s', vmmUnmap .i386 (resolveWrite .i386 2) 0xE0000000 0x1000 s₂ = .ok (r, s') := by
  obtain ⟨s₀, s₁, h⟩ := vmmMap_first
  have hnext := (started_state smallMap_low smallMap_disjoint h.started).nextAlloc
  have hover : Overrun ((smallImage .i386).pool smallMap) [] s₁ 0xE0001000 := by
    refine ⟨h.heap.inv, h.empty, h.next, fun _ => ?_, ?_⟩
    · have hpage := h.mapped.pages 0 (by decide)
      rw [hnext, Nat.mul_zero, Nat.add_zero] at hpage
      obtain ⟨t, ht⟩ := exists_table h.heap.inv.tree hpage
      have hsame : s₁.tableAt .i386 0xE0001000 1 = s₁.tableAt .i386 Build.i386.kernelHeapBegin 1 :=
        tableAt_of_take (by decide)
      rw [hsame, show s₁.tableAt .i386 Build.i386.kernelHeapBegin 1 = some t from ht]
      exact Option.some_ne_none t
    · have hfree := h.free
      omega
  -- `vmm_alloc` comes to the window, and through it.
  obtain ⟨u, s₂, hrun₁, hover₂⟩ := (vmmAllocPages_overrun (n := 0) 130047 hover (by decide) (by decide)).returns
  have hdirectory : InDirectory s₂ 0 := ⟨hover₂.inv.tree.tree.recursive, hover₂.next⟩
  obtain ⟨s₃, hrun₂, hnone⟩ := vmmAllocPages_directory (n := 1) 1023 hdirectory (by decide)
  have halloc : vmmAlloc .i386 (resolveWrite .i386 2) 0x1FFFF000 s₁ = .ok (0xE0001000, s₃) := by
    have hpages : pagesBetween Build.i386.wordBits s₁.nextAlloc
        ((s₁.nextAlloc + pageAlignUp Build.i386.wordBits 0x1FFFF000) % 2 ^ Build.i386.wordBits) = 130047 + 1024 := by
      rw [h.next]
      decide
    unfold vmmAlloc
    rw [if_neg (by decide), bind_of_ok rfl, hpages, vmmAllocPages_add, bind_assoc, bind_of_ok hrun₁, bind_of_ok hrun₂,
      h.next]
    rfl
  refine ⟨s₀, s₁, s₃, h.started, h.returned, halloc, fun ⟨r, s', hunmap⟩ => ?_⟩
  obtain ⟨e, hstore⟩ := store_undirected (n := 1) hnone 0xE0000000 0
  have hpages : pagesBetween Build.i386.wordBits (pageAlignDown 0xE0000000)
      (pageAlignUp Build.i386.wordBits ((0xE0000000 + 0x1000) % 2 ^ Build.i386.wordBits)) = 1 := by decide
  have herror : vmmUnmapPages .i386 (resolveWrite .i386 2) 1 (pageAlignDown 0xE0000000) s₃ = .error e := by
    rw [vmmUnmapPages, vmmUnmapPage_eq]
    exact bind_of_error (bind_of_error hstore)
  unfold vmmUnmap at hunmap
  rw [hpages, bind_of_error herror] at hunmap
  cases hunmap

end Kiznix.Memory
