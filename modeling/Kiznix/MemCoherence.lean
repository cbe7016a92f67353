import Kiznix.MemPageMap

/-! Cached translations over whole runs: they are those of the page tables as long as nothing is unmapped
that is cached. -/

namespace Kiznix.Memory

open RadixTree

variable {b : Build} {pool : List Nat} {s s' : Machine} {va n : Nat} {image : KernelImage b}
  {map : List MemoryMapEntry} {c c' : Callers} {op : Op}

theorem Coherent.uncached (h : Coherent b s) (hnone : s.translate b va = none) : Uncached s va := by
  intro e he hpage
  have hcached := h e he
  rw [hpage, translate_page_mul, hnone] at hcached
  cases hcached

/-- The steps that leave no old translation behind. -/
def Careful (b : Build) (c : Callers) (op : Op) : Prop := Permitted b c op ∧ Invalidated b c op

theorem Run.coherent (hbase : LowMap map) (hdisjoint : DisjointMap map) (hstart : Started b image map n s)
    (hrun : Run b (n + 2) (Careful b) (Callers.start s) c) :
    RunInv b (image.pool map) c ∧ Coherent b c.machine := by
  have hstate := started_state hbase hdisjoint hstart
  refine hrun.invariant (P := fun c => RunInv b (image.pool map) c ∧ Coherent b c.machine)
    ⟨hstate.runInv, hstate.coherent⟩ fun c c' op ⟨hinv, hc⟩ ⟨hop, hinvalidated⟩ hexec => ?_
  obtain ⟨hinv', hc'⟩ := hinv.step (pool_fits hbase hdisjoint) hop hexec
  exact ⟨hinv', hc' hinvalidated hc⟩

/-- No address that was just unmapped is cached, and no page that the stack just gave back. -/
structure Flushed (b : Build) (n : Nat) (c : Callers) : Prop where
  coherent : Coherent b c.machine
  unmapped : ∀ address length c', Careful b c (.vmmUnmap address length) →
    exec b n c (.vmmUnmap address length) = .ok c' → ∀ va ∈ unmapPages b address length, Uncached c'.machine va
  dropped : ∀ c', Careful b c .pmmAllocPage → exec b n c .pmmAllocPage = .ok c' →
    ∀ va, Dropped b c.machine c'.machine va → Uncached c'.machine va

theorem translations_coherent (hbase : LowMap map) (hdisjoint : DisjointMap map)
    (hstart : Started b image map n s) (hrun : Run b (n + 2) (Careful b) (Callers.start s) c) :
    Flushed b (n + 2) c := by
  obtain ⟨hinv, hcoherent⟩ := hrun.coherent hbase hdisjoint hstart
  refine ⟨hcoherent, fun address length c' hop hexec va hva => ?_, fun c' hop hexec va hdropped => ?_⟩
  · have hcoherent' := ((hrun.step hop hexec).coherent hbase hdisjoint hstart).2
    obtain ⟨r, s', hexec', rfl⟩ := map_ok hexec
    obtain ⟨-, ⟨-, taken, hw, -⟩, -⟩ := (vmmUnmap_spec address length hinv.inv hop.1).ok hexec'
    refine hcoherent'.uncached ?_
    rw [translate_of_last (hw.set va hva va rfl)]
    rfl
  · have hcoherent' := ((hrun.step hop hexec).coherent hbase hdisjoint hstart).2
    obtain ⟨page, s', hexec', rfl⟩ := map_ok hexec
    obtain ⟨hinv', ha⟩ := (pmmAllocPage_spec hinv.inv (resolveWrite_resolves (n + 1))).ok hexec'
    refine hcoherent'.uncached ?_
    obtain ⟨j, hpage, -, hhigh⟩ := id hdropped
    have hj := (hinv.inv.stackPage_lt hhigh).le
    have hwindow : ¬ b.InWindow va := by
      rw [Build.InWindow, path_of_page hpage]
      exact Build.not_inWindow_stackPage hj
    rw [translate_of_last (ha.taken.dropped va (inTree_of_page hpage (Build.inTree_stackPage hj)) hwindow hdropped)]
    rfl

/-! ### A page that is mapped, accessed and unmapped -/

/-- The state after a page was mapped and its translation cached. -/
def accessed (s₁ : Machine) (va : Nat) : Machine := s₁.cache va (0x800000 / pageSize)

/-- The run from the start on: `s₁` is the state with the page mapped, and `t` its page table. -/
structure PageRun (b : Build) (s s₁ : Machine) (va t : Nat) : Prop where
  started : Started b (smallImage b) smallMap 0 s
  ordinary : b.Ordinary va
  map : exec b 2 (Callers.start s) (.vmmMapPage 0x800000 va) = .ok ⟨s₁, []⟩
  inv : MemInv b ((smallImage b).pool smallMap) [] s₁
  mapped : s₁.translate b va = some (0x800000 / pageSize)
  fill : exec b 2 ⟨s₁, []⟩ (.fill va) = .ok ⟨accessed s₁ va, []⟩
  table : (accessed s₁ va).tableAt b va (b.levels - 1) = some t
  unmap : exec b 2 ⟨accessed s₁ va, []⟩ (.vmmUnmapPage va) = .ok ⟨(accessed s₁ va).unmapped b va t, []⟩
  free : ((accessed s₁ va).unmapped b va t).freeFrames b ≠ []

theorem exists_pageRun (b : Build) : ∃ s s₁ va t, PageRun b s s₁ va t := by
  obtain ⟨s, hstart⟩ := started_small b 0
  have hstate := started_state smallMap_low smallMap_disjoint hstart
  have hva := b.inHeap_begin
  have hordinary := hva.ordinary
  generalize b.kernelHeapBegin = va at hva hordinary
  have hnone := hstate.translate_none hordinary.1 hordinary.not_inWindow hva.not_inKernel
  have hmissing : missing b s va (b.levels - 1) ≤ b.levels - 1 := missing_le
  have hlevels : b.levels ≤ 4 := by
    cases b <;> decide
  have hlength := congrArg List.length hstate.free
  rw [smallMap_length] at hlength
  have hspec : wp (vmmMapPage b (resolveWrite b 2) 0x800000 va) s _ _ :=
    vmmMapPage_spec hstate.inv (resolveWrite_resolves 1) hordinary.1 hordinary.not_inWindow
  obtain ⟨r, s₁, hrun₁, -, h₁, taken, hpage⟩ := (hspec.mono (fun _ _ hq => hq) fun e hfails => by
    rcases hfails with ⟨-, hlow⟩ | ⟨-, hmapped⟩
    · omega
    · exact hmapped hnone).returns
  have hmapped : s₁.translate b va = some (0x800000 / pageSize) := by
    rw [translate_of_last (hpage.last rfl)]
    rfl
  have hcached : MemInv b ((smallImage b).pool smallMap) [] (accessed s₁ va) := h₁.cache
  obtain ⟨t, ht⟩ : ∃ t, (accessed s₁ va).tableAt b va (b.levels - 1) = some t :=
    exists_table hcached.tree hmapped
  have hunmap := vmmUnmapPage_ok hcached.tree (resolveWrite_resolves 1) hordinary.1 ht
  obtain ⟨-, -, taken', hwritten, hlength', -⟩ := (vmmUnmapPage_spec hcached hordinary).ok hunmap
  refine ⟨s, s₁, va, t, hstart, hordinary, ?_, h₁, hmapped, ?_, ht, ?_, fun hnil => ?_⟩
  · rw [exec, Callers.run, Callers.start, hrun₁]
    rfl
  · rw [exec, hmapped]
    rfl
  · rw [exec, Callers.run, hunmap]
    rfl
  · rw [if_neg (by rw [ht]; simp)] at hlength'
    have hfrees := congrArg List.length hpage.written_const.free
    have hsame : (s₁.freeFrames b).length = (accessed s₁ va |>.freeFrames b).length := rfl
    rw [List.length_append, hpage.length, hsame, hwritten.free, hnil, List.length_append, hlength'] at hfrees
    simp only [List.length_nil] at hfrees
    omega

/-- On i386 `vmm_unmap_page` invalidates what it unmaps. -/
theorem careful_i386 {c : Callers} (h : Permitted .i386 c op) : Careful .i386 c op := by
  refine ⟨h, ?_⟩
  cases op with
  | pmmAllocPage | vmmMapPage _ _ | vmmAlloc _ | vmmMap _ _ => exact Or.inl rfl
  | vmmUnmapPage _ | vmmUnmap _ _ => exact ⟨Or.inl rfl, Or.inl rfl⟩
  | access _ => exact fun _ => Or.inl rfl
  | pmmFreePage _ | fill _ | write _ _ _ => trivial

/-- On i386 the page is mapped, accessed and unmapped, and then a frame is allocated. -/
theorem translations_coherent_allocated : ∃ s s₁ va t c, PageRun .i386 s s₁ va t ∧
    exec .i386 2 ⟨(accessed s₁ va).unmapped .i386 va t, []⟩ .pmmAllocPage = .ok c ∧
    Run .i386 2 (Careful .i386) (Callers.start s) c ∧ c.held ≠ [] ∧ Flushed .i386 2 c := by
  obtain ⟨s, s₁, va, t, h⟩ := exists_pageRun .i386
  have hmap : Permitted .i386 (Callers.start s) (.vmmMapPage 0x800000 va) := h.ordinary
  have hfill : Permitted .i386 ⟨s₁, []⟩ (.fill va) := trivial
  have hunmap : Permitted .i386 ⟨accessed s₁ va, []⟩ (.vmmUnmapPage va) := h.ordinary
  have hrun : Run .i386 2 (Careful .i386) (Callers.start s) ⟨(accessed s₁ va).unmapped .i386 va t, []⟩ :=
    .step (.step (.step .start (careful_i386 hmap) h.map) (careful_i386 hfill) h.fill) (careful_i386 hunmap) h.unmap
  have hinv := (hrun.coherent smallMap_low smallMap_disjoint h.started).1
  obtain ⟨page, s₄, halloc, -⟩ := hinv.exec_alloc (n := 0) h.free
  have hrun₄ : Run .i386 2 (Careful .i386) (Callers.start s) _ :=
    .step hrun (careful_i386 (show Permitted .i386 _ .pmmAllocPage from trivial)) halloc
  exact ⟨s, s₁, va, t, _, h, halloc, hrun₄, List.cons_ne_nil _ _,
    translations_coherent smallMap_low smallMap_disjoint h.started hrun₄⟩

/-- A run after which the processor still has a translation that `vmm_unmap_page` removed. -/
def StaleTranslation (b : Build) : Prop :=
  ∃ s c, Started b (smallImage b) smallMap 0 s ∧ Run b 2 (Permitted b) (Callers.start s) c ∧ ¬ Coherent b c.machine

theorem staleTranslation (hb : b ≠ .i386) : StaleTranslation b := by
  obtain ⟨s, s₁, va, t, h⟩ := exists_pageRun b
  have hrun : Run b 2 (Permitted b) (Callers.start s) ⟨(accessed s₁ va).unmapped b va t, []⟩ := by
    refine .step (.step (.step .start ?_ h.map) ?_ h.fill) ?_ h.unmap
    · exact h.ordinary
    · trivial
    · exact h.ordinary
  refine ⟨s, _, h.started, hrun, fun hc => ?_⟩
  have hcached : MemInv b ((smallImage b).pool smallMap) [] (accessed s₁ va) := h.inv.cache
  have htlb : (va / pageSize, 0x800000 / pageSize) ∈ ((accessed s₁ va).unmapped b va t).tlb := by
    rw [Machine.unmapped]
    dsimp only
    rw [if_neg hb]
    exact List.mem_cons_of_mem _ List.mem_cons_self
  have hunmapped := (pageChanged_unmapped hcached.tree h.ordinary.1 h.ordinary.not_inWindow h.table).here va rfl
  have hold := hc _ htlb
  rw [translate_page_mul, translate_eq_leafEntry, hunmapped] at hold
  cases hold

/-- On PAE and x86_64 the processor may go on using a page that is unmapped. -/
theorem translation_stale : StaleTranslation .pae ∧ StaleTranslation .x86_64 :=
  ⟨staleTranslation (by decide), staleTranslation (by decide)⟩

end Kiznix.Memory
