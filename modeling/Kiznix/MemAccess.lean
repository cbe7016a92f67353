import Kiznix.MemTaken

/-! Accesses that raise no page fault, and `pmm_alloc_page`. -/

namespace Kiznix.Memory

open RadixTree

variable {b : Build} {pool held : List Nat} {s s' : Machine} {resolve : Nat → M Nat}
  {va va' f g t w j k m n d : Nat}

/-- A write to a page that is mapped goes to its frame. -/
def Resolves (b : Build) (resolve : Nat → M Nat) : Prop :=
  ∀ s va f, s.translate b va = some f → resolve va s = .ok (f, s.cache va f)

theorem resolveWrite_resolves (n : Nat) : Resolves b (resolveWrite b (n + 1)) := by
  intro s va f h
  rw [resolveWrite, bind_of_ok (show (get : M Machine) s = .ok (s, s) from rfl), h]
  rfl

theorem load_ok (h : s.translate b va = some f) :
    load b va s = .ok (s.mem f (b.wordIndex va), s.cache va f) := by
  rw [load, bind_of_ok (show (get : M Machine) s = .ok (s, s) from rfl), h]
  rfl

theorem load_error (h : s.translate b va = none) :
    load b va s = .error (.unhandledPageFault (pageAlignDown va)) := by
  rw [load, bind_of_ok (show (get : M Machine) s = .ok (s, s) from rfl), h]
  rfl

theorem store_ok (hres : Resolves b resolve) (h : s.translate b va = some f) :
    store b resolve va w s = .ok (⟨⟩, (s.cache va f).write f (b.wordIndex va) w) := by
  unfold store
  rw [bind_of_ok (hres s va f h)]
  rfl

theorem clearPage_ok (hres : Resolves b resolve) (h : s.translate b va = some f) :
    clearPage resolve va s = .ok (⟨⟩, (s.cache va f).zero f) := by
  unfold clearPage
  rw [bind_of_ok (hres s va f h)]
  rfl

/-! ### Coherence -/

theorem Coherent.cache (h : Coherent b s) (hf : s.translate b va = some f) : Coherent b (s.cache va f) := by
  intro e he
  rcases List.mem_cons.mp he with rfl | he
  · exact translate_page_mul.trans hf
  · exact h e he

theorem Coherent.invlpg (h : Coherent b s) : Coherent b (s.invlpg va) :=
  fun e he => h e (List.mem_of_mem_filter he)

theorem Coherent.mono (h : Coherent b s) (htlb : s'.tlb = s.tlb)
    (hmono : ∀ va f, s.translate b va = some f → s'.translate b va = some f) : Coherent b s' := by
  intro e he
  rw [htlb] at he
  exact hmono _ _ (h e he)

theorem internal_cache (hva : b.Internal va) (e : Nat × Nat) (he : e ∈ (s.cache va f).tlb) :
    e ∈ s.tlb ∨ b.Internal (pageSize * e.1) := by
  rcases List.mem_cons.mp he with rfl | he
  · exact Or.inr (Build.internal_page.mpr hva)
  · exact Or.inl he

/-! ### `vmm_unmap_page` -/

/-- The machine after `vmm_unmap_page`: only the i386 build invalidates the page. -/
def Machine.unmapped (b : Build) (s : Machine) (va t : Nat) : Machine :=
  let s := (s.cache (b.entryVa 1 va) t).write t ((b.path va).getLastD 0) 0
  { s with tlb := if b = .i386 then (s.invlpg va).tlb else s.tlb }

theorem vmmUnmapPage_ok (h : s.Tree b) (hres : Resolves b resolve) (hva : b.InTree va)
    (ht : s.tableAt b va (b.levels - 1) = some t) :
    vmmUnmapPage b resolve va s = .ok (⟨⟩, s.unmapped b va t) := by
  have hentry : s.translate b (b.entryVa 1 va) = some t := by rw [h.translate_leafVa hva, ht]
  have hstore := store_ok (w := 0) hres hentry
  rw [wordIndex_leafVa hva] at hstore
  cases b with
  | i386 =>
      show (store .i386 resolve (Build.i386.entryVa 1 va) 0 >>= fun _ => vmmInvalidate va) s = _
      rw [bind_of_ok hstore]
      rfl
  | pae => exact hstore
  | x86_64 => exact hstore

theorem Coherent.unmapped (hc : Coherent b s) (h : s.Tree b) (hva : b.InTree va)
    (hwindow : ¬ b.InWindow va) (ht : s.tableAt b va (b.levels - 1) = some t)
    (hcached : b = .i386 ∨ ∀ e ∈ s.tlb, e.1 ≠ va / pageSize) : Coherent b (s.unmapped b va t) := by
  have hentry : s.translate b (b.entryVa 1 va) = some t := by rw [h.translate_leafVa hva, ht]
  have hcache := hc.cache hentry
  have hne : ∀ e ∈ (s.unmapped b va t).tlb, e.1 ≠ va / pageSize ∧ e ∈ (s.cache (b.entryVa 1 va) t).tlb := by
    intro e he
    rcases hcached with rfl | hcached
    · have he := List.mem_filter.mp he
      exact ⟨by simpa using he.2, he.1⟩
    · have he : e ∈ (s.cache (b.entryVa 1 va) t).tlb := by
        rw [Machine.unmapped] at he
        dsimp only at he
        split at he
        · have he : e ∈ (s.cache (b.entryVa 1 va) t).tlb.filter fun e => e.1 ≠ va / pageSize := he
          exact List.mem_of_mem_filter he
        · exact he
      refine ⟨?_, he⟩
      rcases List.mem_cons.mp he with rfl | he
      · exact leafVa_page_ne hva hwindow
      · exact hcached e he
  intro e he
  obtain ⟨hpage, hmem⟩ := hne e he
  rw [← hcache e hmem]
  refine translate_write_leaf_of_ne h hwindow ht hva ?_
  rwa [Nat.mul_div_cancel_left _ (by decide : 0 < pageSize)]

theorem unmapped_tlb (hva : b.InTree va) (e : Nat × Nat) (he : e ∈ (s.unmapped b va t).tlb) :
    e ∈ s.tlb ∨ b.Internal (pageSize * e.1) := by
  have he : e ∈ (s.cache (b.entryVa 1 va) t).tlb := by
    rw [Machine.unmapped] at he
    dsimp only at he
    split at he
    · have he : e ∈ (s.cache (b.entryVa 1 va) t).tlb.filter fun e => e.1 ≠ va / pageSize := he
      exact List.mem_of_mem_filter he
    · exact he
  have hsub : b.levels - (b.levels - 1) = 1 := Nat.sub_sub_self b.levels_pos
  exact internal_cache (hsub ▸ Build.internal_entryVa levels_sub_lt hva) e he

/-! ### `pmm_alloc_page` -/

structure Allocated (b : Build) (page : Nat) (s s' : Machine) : Prop where
  aligned : page % pageSize = 0
  taken : Taken b [page / pageSize] s s'
  isTable_iff : ∀ f, s'.IsTable b f ↔ s.IsTable b f
  zeros : ∀ f i, s.mem f i = 0 → s'.mem f i = 0
  tableAt : ∀ va d, d < b.levels → s'.tableAt b va d = s.tableAt b va d

theorem Allocated.free_length (h : Allocated b page s s') :
    (s'.freeFrames b).length + 1 = (s.freeFrames b).length := by
  rw [h.taken.free, List.singleton_append, List.length_cons]

/-- From the ranges alone. -/
theorem Allocated.count_zero (h : Allocated b page s s') (hcount : s.stackCount b = 0) : s'.stackCount b = 0 := by
  rw [h.taken.count, hcount, Nat.zero_sub]

theorem MemInv.stackCount_ne (h : MemInv b pool held s) (hne : s.pmmStackTop ≠ b.pmmStackVma) :
    ∃ k, s.stackCount b = k + 1 ∧ s.pmmStackTop - b.entrySize = b.slotVa k := by
  cases hcount : s.stackCount b with
  | zero =>
      refine absurd ?_ hne
      rw [h.top, hcount, Build.slotVa_zero]
  | succ k =>
      refine ⟨k, rfl, ?_⟩
      rw [h.top, hcount, Build.slotVa_succ, Nat.add_sub_cancel]

theorem quiet_pop (hcount : s.stackCount b = k + 1) (hcount' : s'.stackCount b = k)
    (h : Quiet b (1 + n) s) : Quiet b n s' := by
  rcases h with h | h | h
  · exact Or.inl h
  · rw [hcount] at h
    cases h
  · rw [hcount, Nat.add_sub_cancel] at h
    rw [Quiet, hcount']
    have hpos := b.entries_pos
    have hmod : (k - 1) % b.entries = k % b.entries - 1 := by
      have hk : k - 1 = b.entries * (k / b.entries) + (k % b.entries - 1) := by
        have := Nat.div_add_mod k b.entries
        omega
      rw [hk, Nat.mul_add_mod, Nat.mod_eq_of_lt]
      have := Nat.mod_lt k hpos
      omega
    exact Or.inr (Or.inr (by omega))

theorem Accounted.take (h : Accounted b s) (hfree : s.freeFrames b = g :: s'.freeFrames b)
    (hmemory : s'.pmmFreeMemory = sub64 s.pmmFreeMemory pageSize) : Accounted b s' := by
  obtain ⟨heq, hlt⟩ := h
  rw [hfree, List.length_cons] at heq
  have hsub : sub64 s.pmmFreeMemory pageSize = s.pmmFreeMemory - pageSize := by
    unfold sub64
    rw [pageSize] at heq ⊢
    omega
  rw [Accounted, hmemory, hsub]
  exact ⟨by rw [heq, Nat.mul_succ, Nat.add_sub_cancel], (Nat.sub_le _ _).trans_lt hlt⟩

/-- A slot is taken and its page stays. -/
theorem MemInv.alloc_slot (h : MemInv b pool held s) (hcount : s.stackCount b = k + 1)
    (hmod : k % b.entries ≠ 0) (hf : s.translate b (b.slotVa k) = some f) :
    let s' := (({ s with pmmStackTop := b.slotVa k } : Machine).cache (b.slotVa k) f).allocated (s.slot b k)
    MemInv b pool held s' ∧ Allocated b (s.slot b k) s s' := by
  intro s'
  have hcount' : s'.stackCount b = k := Build.stackCount_slotVa rfl
  obtain ⟨hinv, hfree⟩ := h.pop hcount (show s'.Tree b from ⟨h.tree.directory, h.tree.tree⟩) rfl rfl rfl
    (fun _ _ => rfl) (fun _ _ => rfl) (fun _ => Iff.rfl)
  have hlt : k < b.stackPages * b.entries := Nat.lt_of_lt_of_le (by omega) h.count_le
  refine ⟨hinv, h.aligned k (by omega), ⟨hfree, rfl, fun _ _ _ _ ht => ht, fun _ hf => Or.inl hf,
    fun _ hf => hf, fun _ _ _ => rfl, fun _ _ => Or.inl rfl, fun va _ _ hdropped => ?_,
    by rw [hcount', hcount]; rfl, rfl, rfl, rfl, fun hacc => hacc.take hfree rfl,
    fun e he => internal_cache (Build.internal_slotVa hlt) e he,
    fun n hn => quiet_pop hcount hcount' hn, fun _ hc => ?_⟩, fun _ => Iff.rfl, fun _ _ hzero => hzero,
    fun _ _ _ => rfl⟩
  · obtain ⟨j, -, hlow, hhigh⟩ := hdropped
    have hfirst : j * b.entries = k := by omega
    exact absurd (by rw [← hfirst, Nat.mul_mod_left]) hmod
  · exact hc.cache hf

theorem not_quiet_first (hcount : s.stackCount b = k + 1) (hmod : k % b.entries = 0) (h : Quiet b 1 s) :
    b = .i386 := by
  rcases h with h | h | h
  · exact h
  · rw [hcount] at h
    cases h
  · rw [hcount, Nat.add_sub_cancel, hmod] at h
    cases h

/-- The first slot of a page is taken and the page is unmapped. -/
theorem MemInv.alloc_page (h : MemInv b pool held s) (hcount : s.stackCount b = k + 1)
    (hmod : k % b.entries = 0) (hf : s.translate b (b.slotVa k) = some f)
    (ht : s.tableAt b (b.slotVa k) (b.levels - 1) = some t) :
    let s' := ((({ s with pmmStackTop := b.slotVa k } : Machine).cache (b.slotVa k) f).unmapped b
      (b.slotVa k) t).allocated (s.slot b k)
    MemInv b pool held s' ∧ Allocated b (s.slot b k) s s' := by
  intro s'
  have hdiv : k / b.entries * b.entries = k := Nat.div_mul_cancel (Nat.dvd_of_mod_eq_zero hmod)
  have hj : k / b.entries < b.stackPages := h.stackPage_lt (by omega)
  have hva : b.InTree (b.slotVa k) := h.tree.translate_inTree hf
  have hwindow : ¬ b.InWindow (b.slotVa k) := by
    rw [Build.InWindow, Build.path_slotVa]
    exact Build.not_inWindow_stackPage hj.le
  have hcount' : s'.stackCount b = k := Build.stackCount_slotVa rfl
  have htable := tableAt_isTable levels_sub_lt ht
  have hother : ∀ i, i ≠ k / b.entries →
      s'.translate b (b.stackPage i) = s.translate b (b.stackPage i) := by
    refine fun i hi => translate_write_leaf_of_ne h.tree hwindow ht hva fun hpage => hi ?_
    rw [Build.stackPage_page] at hpage
    exact Build.stackPage_inj hpage
  have hiff : ∀ f, s'.IsTable b f ↔ s.IsTable b f :=
    fun f => isTable_write_leaf (s := s) h.tree hwindow ht
  have htableAt : ∀ va d, d < b.levels → s'.tableAt b va d = s.tableAt b va d :=
    fun va d hd => tableAt_write_leaf (s := s) h.tree hwindow ht hd
  obtain ⟨hinv, hfree⟩ := h.pop hcount
    (show s'.Tree b from ⟨h.tree.directory, (h.tree.write_leaf hwindow ht).tree⟩) rfl rfl rfl
    (fun i hi => hother i fun heq => by rw [heq, hdiv] at hi; exact lt_irrefl k hi)
    (fun f hf => funext fun i => Machine.write_of_ne fun heq => h.tables_used t htable (heq.1 ▸ hf))
    hiff
  refine ⟨hinv, h.aligned k (by omega), ⟨hfree, rfl, fun va d t hd ht' => ?_,
    fun f hf => Or.inl ((hiff f).mp hf), fun f hf => (hiff f).mpr hf, fun f hf _ => ?_, fun va' hva' => ?_,
    fun va' hva' hwindow' hdropped => ?_, by rw [hcount', hcount]; rfl, rfl, rfl, rfl,
    fun hacc => hacc.take hfree rfl, fun e he => ?_, fun n hn => quiet_pop hcount hcount' hn,
    fun hquiet hc => ?_⟩,
    hiff, fun f i hzero => Machine.write_zero hzero, htableAt⟩
  · rw [htableAt va d hd, ht']
  · exact funext fun i => Machine.write_of_ne fun heq => hf (heq.1 ▸ htable)
  · by_cases hpage : va' / pageSize = b.slotVa k / pageSize
    · by_cases hin : b.InTree va'
      · refine Or.inr ⟨lastEntry_write_leaf h.tree hwindow ht hpage hin, Or.inr ⟨k / b.entries, ?_, ?_, ?_⟩⟩
        · rw [hpage, Build.stackPage_page]
        · rw [hcount', hdiv]
        · rw [hcount, hdiv]
          exact Nat.lt_succ_self k
      · refine Or.inl ?_
        rw [lastEntry_of_not hinv.tree hin, lastEntry_of_not h.tree hin]
    · exact Or.inl (lastEntry_write_leaf_of_ne h.tree hwindow ht hva hpage hva')
  · obtain ⟨j, hpage, hlow, hhigh⟩ := hdropped
    have hfirst : j * b.entries = k := by omega
    have hj : j = k / b.entries := by rw [← hfirst, Nat.mul_div_cancel _ b.entries_pos]
    rw [hj, ← Build.stackPage_page] at hpage
    exact lastEntry_write_leaf h.tree hwindow ht hpage hva'
  · have hlt : k < b.stackPages * b.entries := Nat.lt_of_lt_of_le (by omega) h.count_le
    rcases unmapped_tlb (s := ({ s with pmmStackTop := b.slotVa k } : Machine).cache (b.slotVa k) f)
      hva e he with he | he
    · exact internal_cache (s := s) (Build.internal_slotVa hlt) e he
    · exact Or.inr he
  · have hunmapped := Coherent.unmapped
      (s := ({ s with pmmStackTop := b.slotVa k } : Machine).cache (b.slotVa k) f)
      (hc.cache hf) ⟨h.tree.directory, h.tree.tree⟩ hva hwindow ht
      (Or.inl (not_quiet_first hcount hmod hquiet))
    exact fun e he => hunmapped e he

/-- A frame is taken from the ranges. -/
theorem MemInv.alloc_range (h : MemInv b pool held s) (hcount : s.stackCount b = 0) {page : Nat}
    {ranges : List FreeMemory} (htake : takeFreeMemory b s.sFreeMemory = some (page, ranges)) :
    let s' := ({ s with sFreeMemory := ranges } : Machine).allocated page
    MemInv b pool held s' ∧ Allocated b page s s' := by
  intro s'
  obtain ⟨haligned, hranges, hflat⟩ := takeFreeMemory_some h.ranges htake
  have hcount' : s'.stackCount b = 0 := hcount
  have hfree : s.freeFrames b = page / pageSize :: s'.freeFrames b := by
    rw [Machine.freeFrames, Machine.stackFrames, hcount, Machine.freeFrames, Machine.stackFrames, hcount']
    exact hflat
  refine ⟨⟨⟨h.tree.directory, h.tree.tree⟩, h.top, h.count_le, h.backed, h.aligned, hranges, ?_, h.nodup,
    fun f hf hmem => ?_, fun f hf => List.mem_cons_of_mem _ (h.held_out f hf), h.held_data⟩, haligned,
    ⟨hfree, rfl, fun _ _ _ _ ht => ht, fun _ hf => Or.inl hf, fun _ hf => hf, fun _ _ _ => rfl,
      fun _ _ => Or.inl rfl, fun _ _ _ hdropped => absurd hdropped (not_dropped (hcount'.trans hcount.symm)),
      by rw [hcount', hcount, Nat.zero_sub], rfl, rfl, rfl,
      fun hacc => hacc.take hfree rfl, fun _ => Or.inl,
      fun n hn => Or.inr (Or.inl hcount'), fun _ hc => ?_⟩,
    fun _ => Iff.rfl, fun _ _ hzero => hzero, fun _ _ _ => rfl⟩
  · refine List.perm_middle.trans ?_
    rw [← List.cons_append, ← hfree]
    exact h.partition
  · refine h.tables_used f hf ?_
    rw [hfree]
    exact List.mem_cons_of_mem _ hmem
  · exact fun e he => hc e he

/-- `pmm_alloc_page` returns the first free frame, or stops when there is none. -/
theorem pmmAllocPage_spec (h : MemInv b pool held s) (hres : Resolves b resolve) :
    wp (pmmAllocPage b resolve) s (fun page s' => MemInv b pool held s' ∧ Allocated b page s s')
      (fun e => e = .outOfPhysicalMemory ∧ s.freeFrames b = []) := by
  unfold pmmAllocPage
  rw [wp_bind, wp_get, wp_ite]
  constructor
  · intro hne
    obtain ⟨k, hcount, htop⟩ := h.stackCount_ne hne
    obtain ⟨f, hf, hslot, -⟩ := h.slot_eq (k := k) (by omega)
    rw [← Build.translate_slotVa] at hf
    have hload : load b (b.slotVa k) ({ s with pmmStackTop := b.slotVa k } : Machine) =
        .ok (s.slot b k, ({ s with pmmStackTop := b.slotVa k } : Machine).cache (b.slotVa k) f) := by
      rw [hslot, ← Build.wordIndex_slotVa]
      exact load_ok (s := { s with pmmStackTop := b.slotVa k }) hf
    rw [htop, wp_bind, wp_set, wp_bind, wp_of_ok hload, wp_ite]
    constructor
    · intro hmod
      rw [Build.slotVa_mod] at hmod
      obtain ⟨t, ht⟩ : ∃ t, s.tableAt b (b.slotVa k) (b.levels - 1) = some t := by
        rw [h.tree.translate_eq_tableAt (h.tree.translate_inTree hf), ← Nat.sub_add_cancel b.levels_pos,
          tableAt_succ levels_sub_lt] at hf
        exact (Option.bind_eq_some_iff.mp hf).imp fun _ ht => ht.1
      have hunmap := vmmUnmapPage_ok
        (s := ({ s with pmmStackTop := b.slotVa k } : Machine).cache (b.slotVa k) f)
        ⟨h.tree.directory, h.tree.tree⟩ hres (h.tree.translate_inTree hf) ht
      rw [wp_bind, wp_of_ok hunmap, wp_bind, wp_modify, wp_pure]
      exact h.alloc_page hcount hmod hf ht
    · intro hmod
      rw [Build.slotVa_mod] at hmod
      rw [wp_bind, wp_modify, wp_pure]
      exact h.alloc_slot hcount hmod hf
  · intro hne
    have hcount : s.stackCount b = 0 := by
      refine Build.stackCount_slotVa ?_
      rw [Build.slotVa_zero]
      exact not_not.mp hne
    cases htake : takeFreeMemory b s.sFreeMemory with
    | none =>
        rw [wp_throw]
        refine ⟨rfl, ?_⟩
        rw [Machine.freeFrames, Machine.stackFrames, hcount, Machine.rangeFrames, takeFreeMemory_none htake]
        rfl
    | some taken =>
        rw [wp_bind, wp_set, wp_pure]
        exact h.alloc_range hcount htake

end Kiznix.Memory
