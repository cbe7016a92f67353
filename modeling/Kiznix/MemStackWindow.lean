import Kiznix.MemPool

/-! The window of the free-page stack over runs: when `pmm_free_page` needs memory itself, and which pages of
the window are mapped. -/

namespace Kiznix.Memory

variable {b : Build} {image : KernelImage b} {map : List MemoryMapEntry} {pool held : List Nat}
  {s s' s₁ : Machine} {c c' : Callers} {n f j k page : Nat} {taken : List Nat} {op : Op}

/-! ### Freeing -/

/-- `pmm_free_page` begins a page of the stack that is mapped already, or whose missing page tables need more
memory than is free. -/
def FreeStops (b : Build) (s : Machine) : Prop :=
  s.stackCount b % b.entries = 0 ∧
    (s.pmmFreeMemory < pageSize * missing b s (b.slotVa (s.stackCount b)) (b.levels - 1) ∨
      s.translate b (b.slotVa (s.stackCount b)) ≠ none)

theorem MemInv.top_not_inWindow (h : MemInv b pool held s) : ¬ b.InWindow (b.slotVa (s.stackCount b)) := by
  rw [Build.InWindow, Build.path_slotVa]
  refine Build.not_inWindow_stackPage (Nat.div_le_of_le_mul ?_)
  rw [Nat.mul_comm]
  exact h.count_le

/-- `vmm_map_page` returned, so the page that was begun was not mapped. -/
theorem Mapped.top_unmapped (hmapped : Mapped b page (b.slotVa (s.stackCount b)) taken s s₁)
    (h : MemInv b pool held s) (hmod : s.stackCount b % b.entries = 0) :
    s.translate b (b.slotVa (s.stackCount b)) = none := by
  obtain ⟨s₂, hbuilt, hnone, -⟩ := hmapped
  rcases hbuilt.effect.last _ h.top_not_inWindow with hsame | ⟨-, hbefore | ⟨j, hpage, -, hlt⟩⟩
  · rw [← translate_congr hsame, hnone]
  · rw [translate_eq_leafEntry, Machine.leafEntry, hbefore]
    rfl
  · rw [Build.stackPage_page] at hpage
    rw [← Build.stackPage_inj hpage, Nat.div_mul_cancel (Nat.dvd_of_mod_eq_zero hmod)] at hlt
    exact absurd hlt (lt_irrefl _)

section Freeing

variable (h : RunInv b pool c) (hpool : PoolFits b pool) (hpage : page % pageSize = 0)
  (hheld : page / pageSize ∈ c.held)

include h hpool hpage hheld

theorem RunInv.free_ok (hgoes : ¬ FreeStops b c.machine) :
    ∃ s', pmmFreePage b (resolveWrite b (n + 1)) page c.machine = .ok (⟨⟩, s') ∧
      MemInv b pool (c.held.filter (· ≠ page / pageSize)) s' ∧ Limit b s' ∧
      ∃ taken s₁, Freed b pool c.held page taken c.machine s₁ s' := by
  have hspec := (h.free_spec hpool hpage hheld (n := n)).mono (fun _ _ hq => hq) fun e ⟨hmod, hfails⟩ => by
    refine hgoes ⟨hmod, hfails.imp (fun ⟨_, hlt⟩ => ?_) fun ⟨_, hmapped⟩ => hmapped⟩
    rw [h.counted]
    exact Nat.mul_lt_mul_of_pos_left hlt (by decide)
  obtain ⟨⟨⟩, s', hrun, hs'⟩ := hspec.returns
  exact ⟨s', hrun, hs'⟩

/-- `pmm_free_page` returns and the frame is the next to be allocated, unless it stops for want of memory or
because of the page it maps. -/
theorem RunInv.free_then_alloc :
    (∃ s', pmmFreePage b (resolveWrite b (n + 2)) page c.machine = .ok (⟨⟩, s') ∧
      ∃ s'', pmmAllocPage b (resolveWrite b (n + 2)) s' = .ok (page, s'')) ↔ ¬ FreeStops b c.machine := by
  constructor
  · rintro ⟨s', hrun, -⟩ ⟨hmod, hlow | hmapped⟩
    · have hstop := (h.free_exhausted hpool hpage hheld (n := n + 1)).mpr ⟨hmod, hlow⟩
      rw [hstop] at hrun
      cases hrun
    · obtain ⟨-, -, taken, s₁, hfreed⟩ := (h.free_spec hpool hpage hheld (n := n + 1)).ok hrun
      obtain ⟨hne, -⟩ | ⟨-, hgrown⟩ := hfreed.grown
      · exact hne hmod
      · exact hmapped (hgrown.top_unmapped h.inv hmod)
  · intro hgoes
    obtain ⟨s', hrun, hinv, -, taken, s₁, hfreed⟩ := h.free_ok hpool hpage hheld (n := n + 1) hgoes
    have hfree := hfreed.free_eq
    obtain ⟨page', s'', halloc, -, ha⟩ := hinv.alloc_ok (n := n) (by rw [hfree]; exact List.cons_ne_nil _ _)
    have hframe : page' / pageSize = page / pageSize := by
      have htaken := ha.taken.free
      rw [hfree] at htaken
      exact (List.cons.inj htaken).1.symm
    have haligned := ha.aligned
    have heq : page' = page := by
      rw [pageSize] at *
      omega
    exact ⟨s', hrun, s'', heq ▸ halloc⟩

end Freeing

/-! ### The pages of the window -/

/-- No page of the window is mapped beyond the slots in use. -/
def Clean (b : Build) (s : Machine) : Prop :=
  ∀ k < b.stackPages, s.stackCount b ≤ k * b.entries → s.translate b (b.stackPage k) = none

/-- While a frame is held the stack has room for it in its window. -/
theorem RunInv.count_lt_window (h : RunInv b pool c) (hpool : PoolFits b pool) (hheld : f ∈ c.held) :
    c.machine.stackCount b < b.stackPages * b.entries := by
  by_cases hb : b = .i386
  · exact (stackCount_le_free.trans_lt (h.inv.free_lt_pool hheld)).trans_le (hpool.room hb)
  · have hpages : b.entries * b.entries < b.stackPages * b.entries := by
      cases b
      · exact absurd rfl hb
      · decide
      · decide
    exact (h.limit.resolve_left hb).1.trans_lt hpages

/-- A page is begun that the first page table of the window reaches. -/
theorem RunInv.count_lt (h : RunInv b pool c) (hpool : PoolFits b pool) (hheld : f ∈ c.held)
    (hbelow : b = .i386 ∨ c.machine.stackCount b ≠ b.entries * b.entries) :
    c.machine.stackCount b < b.entries * b.entries := by
  by_cases hb : b = .i386
  · subst hb
    exact h.count_lt_window hpool hheld
  · exact Nat.lt_of_le_of_ne (h.limit.resolve_left hb).1 (hbelow.resolve_left hb)

/-- The first `entries` pages of the window share one page table. -/
theorem Build.stackPage_table (hj : j < b.entries) :
    (b.path (b.stackPage j)).take (b.levels - 1) = (b.path (b.stackPage 0)).take (b.levels - 1) := by
  cases b <;> simp only [entries, stackPage, pmmStackVma, pageSize, path, levels, List.take_succ_cons,
    List.take_zero, List.cons.injEq, and_true] at hj ⊢ <;> omega

/-- Where a page is begun above others, its page table is there. -/
theorem MemInv.top_table (h : MemInv b pool held s) (hlt : s.stackCount b < b.entries * b.entries)
    (hmod : s.stackCount b % b.entries = 0) (hpos : 0 < s.stackCount b) :
    s.tableAt b (b.slotVa (s.stackCount b)) (b.levels - 1) ≠ none := by
  have hj : s.stackCount b / b.entries < b.entries := Nat.div_lt_of_lt_mul hlt
  have hbacked := h.backed 0 (by rwa [Nat.zero_mul])
  obtain ⟨t, ht⟩ := exists_table h.tree hbacked
  rw [stackPage_top hmod, tableAt_of_take (Build.stackPage_table hj), ht]
  exact Option.some_ne_none t

section Freed

variable (hfreed : Freed b pool held page taken s s₁ s') (h : MemInv b pool held s)
  (hlt : s.stackCount b < b.entries * b.entries)

include hfreed h hlt

/-- Below the end of the first page table no frame is taken off the stack while one is pushed. -/
theorem Freed.count_succ : s'.stackCount b = s.stackCount b + 1 := by
  rw [hfreed.pushed.count]
  rcases hfreed.grown with ⟨-, -, rfl⟩ | ⟨hmod, hgrown⟩
  · rfl
  rcases hgrown.count_cases hmod with heq | ⟨hpos, htaken, -, -⟩
  · rw [heq]
  · have hlength := hgrown.length
    rw [missing_of_table (h.top_table hlt hmod hpos), List.length_eq_zero_iff] at hlength
    exact absurd hlength htaken

theorem Freed.clean (hclean : Clean b s) : Clean b s' := by
  intro k hk hle
  rw [hfreed.count_succ h hlt] at hle
  rw [translate_congr (hfreed.pushed.last _)]
  rcases hfreed.grown with ⟨-, -, rfl⟩ | ⟨hmod, hgrown⟩
  · exact hclean k hk (by omega)
  · have hold := hclean k hk (by omega)
    have hne : b.stackPage k / pageSize ≠ b.slotVa (s.stackCount b) / pageSize := by
      rw [Build.stackPage_page]
      intro hpage
      rw [Build.stackPage_inj hpage, Nat.div_mul_cancel (Nat.dvd_of_mod_eq_zero hmod)] at hle
      omega
    rcases hgrown.written_const.last _ (Build.not_inWindow_stackPage hk.le) (fun va hva => by
      rwa [List.mem_singleton.mp hva]) with hsame | ⟨hzero, -⟩
    · rw [translate_congr hsame, hold]
    · rw [translate_of_last hzero]
      rfl

end Freed

theorem Allocated.clean (ha : Allocated b page s s') (hclean : Clean b s) : Clean b s' := by
  intro k hk hle
  have htree := Build.inTree_stackPage hk.le
  have hwindow := Build.not_inWindow_stackPage hk.le
  by_cases hused : s.stackCount b ≤ k * b.entries
  · rcases ha.taken.last _ hwindow with hsame | ⟨hzero, -⟩
    · rw [translate_congr hsame, hclean k hk hused]
    · rw [translate_of_last hzero]
      rfl
  · have hzero := ha.taken.dropped _ htree hwindow ⟨k, rfl, hle, Nat.lt_of_not_le hused⟩
    rw [translate_of_last hzero]
    rfl

/-- A page of the window is mapped if and only if a slot of it is in use. -/
theorem MemInv.mapped_iff (h : MemInv b pool held s) (hclean : Clean b s) (hk : k < b.stackPages) :
    s.translate b (b.stackPage k) ≠ none ↔ k * b.entries < s.stackCount b := by
  constructor
  · intro hmapped
    by_contra hle
    exact hmapped (hclean k hk (Nat.le_of_not_lt hle))
  · intro hlt
    rw [h.backed k hlt]
    exact Option.some_ne_none _

/-- The operations of the allocator, and what the processor and the owners of frames do between them. -/
def Op.isPmm : Op → Bool
  | .pmmAllocPage | .pmmFreePage _ | .fill _ | .write _ _ _ => true
  | _ => false

/-- Frames are allocated and freed by their holders. -/
structure PmmRun (b : Build) (c : Callers) (op : Op) : Prop where
  permitted : Permitted b c op
  pmm : op.isPmm = true

/-- Besides, `pmm_free_page` does not begin the first page of the window that the first page table of the
window does not reach. -/
structure PmmRunBelow (b : Build) (c : Callers) (op : Op) : Prop where
  run : PmmRun b c op
  below : ∀ page, op = .pmmFreePage page → b = .i386 ∨ c.machine.stackCount b ≠ b.entries * b.entries

/-- The invariant of these runs. -/
structure WindowInv (b : Build) (pool : List Nat) (c : Callers) : Prop where
  run : RunInv b pool c
  clean : Clean b c.machine

theorem WindowInv.step (h : WindowInv b pool c) (hpool : PoolFits b pool) (hop : PmmRunBelow b c op)
    (hexec : exec b (n + 2) c op = .ok c') : WindowInv b pool c' := by
  refine ⟨(h.run.step hpool hop.run.permitted hexec).1, ?_⟩
  cases op with
  | pmmAllocPage =>
      obtain ⟨page, s', hrun, rfl⟩ := map_ok hexec
      obtain ⟨-, ha⟩ := (pmmAllocPage_spec h.run.inv (resolveWrite_resolves (n + 1))).ok hrun
      exact ha.clean h.clean
  | pmmFreePage page =>
      obtain ⟨u, s', hrun, rfl⟩ := map_ok hexec
      obtain ⟨hpage, hheld⟩ := hop.run.permitted
      obtain ⟨-, -, taken, s₁, hfreed⟩ := (h.run.free_spec hpool hpage hheld).ok hrun
      exact hfreed.clean h.run.inv (h.run.count_lt hpool hheld (hop.below page rfl)) h.clean
  | fill va =>
      obtain rfl := Except.ok.inj hexec
      cases hf : c.machine.translate b va with
      | none => exact h.clean
      | some f => exact h.clean
  | write f i w =>
      obtain rfl := Except.ok.inj hexec
      have hf : f ∈ c.held := hop.run.permitted
      obtain ⟨-, hdata⟩ := h.run.inv.data_change (c.machine.write f i w) rfl fun g hg => by
        refine funext fun j => Machine.write_of_ne ?_
        rintro ⟨rfl, -⟩
        exact hg.elim (h.run.inv.held_data g hf) fun hfree => h.run.inv.free_not_held hfree hf
      intro k hk hle
      rw [translate_congr (hdata.last _)]
      exact h.clean k hk hle
  | _ => cases hop.run.pmm

theorem StartState.clean (h : StartState b image map s) : Clean b s := by
  intro k hk hle
  have hkernel : ¬ b.InKernel (b.stackPage k) := by
    cases b <;> simp only [Build.InKernel, Build.stackPage, Build.stackPages, Build.pmmStackVma,
      Build.pmmStackSize, Build.kernelVirtualBase, pageSize] at hk ⊢ <;> omega
  have hlast := h.last _ (Build.inTree_stackPage hk.le) (Build.not_inWindow_stackPage hk.le)
  rw [if_neg hkernel] at hlast
  rw [translate_eq_leafEntry, Machine.leafEntry, hlast]
  rfl

theorem slot_below_top (h : MemInv b pool held s) :
    (∃ i, i / b.entries = k ∧ b.slotVa i < s.pmmStackTop) ↔ k * b.entries < s.stackCount b := by
  have hslot : ∀ i, b.slotVa i < s.pmmStackTop ↔ i < s.stackCount b := by
    intro i
    rw [h.top, Build.slotVa, Build.slotVa, Nat.add_lt_add_iff_left, Nat.mul_lt_mul_left Build.entrySize_pos]
  constructor
  · rintro ⟨i, rfl, hi⟩
    exact (Nat.div_mul_le_self i b.entries).trans_lt ((hslot i).mp hi)
  · intro hlt
    exact ⟨k * b.entries, Nat.mul_div_cancel k b.entries_pos, (hslot _).mpr hlt⟩

/-! ### Runs that allocate, then free -/

/-- So many frames are held, and so many are on the stack. -/
structure Holding (b : Build) (pool : List Nat) (j k : Nat) (c : Callers) : Prop where
  inv : WindowInv b pool c
  nodup : c.held.Nodup
  length : c.held.length = j
  count : c.machine.stackCount b = k

/-- Frames are allocated from the start on: none goes to page tables. -/
theorem run_allocs (hstate : StartState b image map s) (hpool : PoolFits b (image.pool map))
    (hj : j ≤ (image.pool map).length) :
    ∃ c, Run b (n + 2) (PmmRunBelow b) (Callers.start s) c ∧ Holding b (image.pool map) j 0 c ∧
      (c.machine.freeFrames b).length + j = (image.pool map).length ∧
      c.machine.tableAt b (b.slotVa 0) (b.levels - 1) = s.tableAt b (b.slotVa 0) (b.levels - 1) := by
  induction j with
  | zero =>
      exact ⟨_, .start, ⟨⟨hstate.runInv, hstate.clean⟩, List.nodup_nil, rfl, hstate.stackCount⟩,
        congrArg List.length hstate.free, rfl⟩
  | succ j ih =>
      obtain ⟨c, hrun, hc, hlength, htable⟩ := ih (Nat.le_of_succ_le hj)
      have hfree : c.machine.freeFrames b ≠ [] := fun hnil => by
        rw [hnil, List.length_nil] at hlength
        omega
      obtain ⟨page, s', hexec, -, ha⟩ := hc.inv.run.exec_alloc (n := n) hfree
      have hop : PmmRunBelow b c .pmmAllocPage := ⟨⟨trivial, rfl⟩, nofun⟩
      refine ⟨_, .step hrun hop hexec, ⟨hc.inv.step hpool hop hexec, ?_, ?_, ?_⟩, ?_, ?_⟩
      · exact List.nodup_cons.mpr ⟨hc.inv.run.inv.free_not_held ha.fresh_free, hc.nodup⟩
      · rw [List.length_cons, hc.length]
      · exact ha.count_zero hc.count
      · have hfrees := ha.free_length
        show (s'.freeFrames b).length + (j + 1) = _
        omega
      · rw [ha.tableAt _ _ levels_sub_lt, htable]

theorem WindowInv.free_goes (h : WindowInv b pool c) (hpool : PoolFits b pool) (hheld : f ∈ c.held)
    (hroom : c.machine.stackCount b = 0 → b.levels - 1 ≤ (c.machine.freeFrames b).length) :
    ¬ FreeStops b c.machine := by
  rintro ⟨hmod, hlow | hmapped⟩
  · have hmissing : missing b c.machine (b.slotVa (c.machine.stackCount b)) (b.levels - 1) ≤ b.levels - 1 :=
      missing_le
    rw [h.run.counted, Nat.mul_lt_mul_left (by decide)] at hlow
    rcases Nat.eq_zero_or_pos (c.machine.stackCount b) with hzero | hpos
    · exact absurd (hmissing.trans (hroom hzero)) (Nat.not_le_of_lt hlow)
    · have hentries := Nat.le_of_dvd hpos (Nat.dvd_of_mod_eq_zero hmod)
      have hlevels := b.levels_lt_entries
      have hcount : c.machine.stackCount b ≤ (c.machine.freeFrames b).length := stackCount_le_free
      omega
  · rw [stackPage_top hmod] at hmapped
    have hlt := h.run.count_lt_window hpool hheld
    refine hmapped (h.clean _ (Nat.div_lt_of_lt_mul (by rwa [Nat.mul_comm])) ?_)
    rw [Nat.div_mul_cancel (Nat.dvd_of_mod_eq_zero hmod)]

/-- One of the frames is freed. -/
theorem Holding.exec_free (h : Holding b pool (j + 1) k c) (hpool : PoolFits b pool)
    (hroom : k = 0 → b.levels - 1 ≤ (c.machine.freeFrames b).length) :
    ∃ page s', Permitted b c (.pmmFreePage page) ∧
      exec b (n + 2) c (.pmmFreePage page) = .ok ⟨s', c.held.filter (· ≠ page / pageSize)⟩ ∧
      (c.held.filter (· ≠ page / pageSize)).length = j ∧
      Limit b s' ∧ ∃ taken s₁, Freed b pool c.held page taken c.machine s₁ s' := by
  obtain ⟨f, hf⟩ : ∃ f, f ∈ c.held := by
    refine List.exists_mem_of_length_pos ?_
    rw [h.length]
    exact Nat.succ_pos j
  have hframe : pageSize * f / pageSize = f := Nat.mul_div_cancel_left f (by decide)
  have hpage : pageSize * f % pageSize = 0 := Nat.mul_mod_right _ _
  have hheld : pageSize * f / pageSize ∈ c.held := by rwa [hframe]
  obtain ⟨s', hrun, -, hlimit, hfreed⟩ := h.inv.run.free_ok hpool hpage hheld (n := n + 1)
    (h.inv.free_goes hpool hheld fun hzero => hroom (h.count ▸ hzero))
  refine ⟨pageSize * f, s', ⟨hpage, hheld⟩, by rw [exec, hrun]; rfl, ?_, hlimit, hfreed⟩
  have hfilter : c.held.filter (· ≠ pageSize * f / pageSize) = c.held.erase (pageSize * f / pageSize) := by
    rw [h.nodup.erase_eq_filter]
    exact List.filter_congr fun g _ => by simp [bne, beq_eq_decide]
  rw [hfilter, List.length_erase_of_mem hheld, h.length, Nat.add_sub_cancel]

/-- Frames are freed while the first page table of the window reaches their slots. -/
theorem Holding.run_frees {start : Callers} (hrun : Run b (n + 2) (PmmRunBelow b) start c)
    (h : Holding b pool (j + k) 0 c) (hpool : PoolFits b pool) (hk : k ≤ b.entries * b.entries)
    (hroom : b.levels - 1 ≤ (c.machine.freeFrames b).length) :
    ∃ c', Run b (n + 2) (PmmRunBelow b) start c' ∧ Holding b pool j k c' ∧
      (k = 0 → b.levels - 1 ≤ (c'.machine.freeFrames b).length) := by
  induction k generalizing j with
  | zero => exact ⟨c, hrun, h, fun _ => hroom⟩
  | succ k ih =>
      obtain ⟨c', hrun', h', hroom'⟩ := ih (j := j + 1) (by rwa [Nat.add_right_comm]) (Nat.le_of_succ_le hk)
      obtain ⟨page, s', hpermitted, hexec, hlength, -, taken, s₁, hfreed⟩ :=
        h'.exec_free (n := n) hpool hroom'
      have hlt : c'.machine.stackCount b < b.entries * b.entries := by rwa [h'.count]
      have hop : PmmRunBelow b c' (.pmmFreePage page) := ⟨⟨hpermitted, rfl⟩, fun _ _ => Or.inr (Nat.ne_of_lt hlt)⟩
      refine ⟨_, .step hrun' hop hexec, ⟨h'.inv.step hpool hop hexec, h'.nodup.filter _, hlength, ?_⟩, nofun⟩
      rw [hfreed.count_succ h'.inv.run.inv hlt, h'.count]

/-! ### The results -/

/-- In every run a held frame can be freed and is allocated next, exactly when `pmm_free_page` does not begin a
page of the stack that it cannot map. -/
theorem free_completes (hbase : LowMap map) (hdisjoint : DisjointMap map) (hstart : Started b image map n s)
    (hrun : Run b (n + 2) (Permitted b) (Callers.start s) c) (hpage : page % pageSize = 0)
    (hheld : page / pageSize ∈ c.held) :
    (∃ s', pmmFreePage b (resolveWrite b (n + 2)) page c.machine = .ok (⟨⟩, s') ∧
      ∃ s'', pmmAllocPage b (resolveWrite b (n + 2)) s' = .ok (page, s'')) ↔ ¬ FreeStops b c.machine :=
  (hrun.runInv hbase hdisjoint hstart fun _ _ hop => hop).free_then_alloc (pool_fits hbase hdisjoint) hpage hheld

theorem free_completes_allocated : ∃ s c page, Started .i386 (smallImage .i386) smallMap 0 s ∧
    Run .i386 2 (Permitted .i386) (Callers.start s) c ∧ page % pageSize = 0 ∧ page / pageSize ∈ c.held ∧
    ((∃ s', pmmFreePage .i386 (resolveWrite .i386 2) page c.machine = .ok (⟨⟩, s') ∧
      ∃ s'', pmmAllocPage .i386 (resolveWrite .i386 2) s' = .ok (page, s'')) ↔ ¬ FreeStops .i386 c.machine) := by
  obtain ⟨s, -, -, c, -, hstart, -, -, -, -, hrun, hheld⟩ := run_reuse .i386
  obtain ⟨f, hf⟩ := List.exists_mem_of_ne_nil _ hheld
  have hframe : pageSize * f / pageSize = f := Nat.mul_div_cancel_left f (by decide)
  have hpage : pageSize * f % pageSize = 0 := Nat.mul_mod_right _ _
  rw [← hframe] at hf
  exact ⟨s, c, pageSize * f, hstart, hrun, hpage, hf,
    free_completes smallMap_low smallMap_disjoint hstart hrun hpage hf⟩

/-- A run after which a frame that is held cannot be freed: nothing is free and the stack is empty. -/
def FreeStuck (b : Build) : Prop :=
  ∃ s c page, Started b (smallImage b) smallMap 0 s ∧ Run b 2 (Permitted b) (Callers.start s) c ∧
    Permitted b c (.pmmFreePage page) ∧ c.machine.pmmFreeMemory = 0 ∧
    c.machine.pmmStackTop = b.pmmStackVma ∧
    pmmFreePage b (resolveWrite b 2) page c.machine = .error .outOfPhysicalMemory

/-- Every frame is allocated; the page table of the window is still missing. -/
theorem exists_free_stuck (b : Build) : FreeStuck b := by
  obtain ⟨s, hstart⟩ := started_small b 0
  have hstate := started_state smallMap_low smallMap_disjoint hstart
  have hpool : PoolFits b ((smallImage b).pool smallMap) := pool_fits smallMap_low smallMap_disjoint
  obtain ⟨c, hrun, hc, hlength, htable⟩ := run_allocs (n := 0) hstate hpool le_rfl
  have hmemory : c.machine.pmmFreeMemory = 0 := by
    have hnone : (c.machine.freeFrames b).length = 0 := by omega
    rw [hc.inv.run.counted, hnone, Nat.mul_zero]
  have hmissing : c.machine.tableAt b (b.slotVa 0) (b.levels - 1) = none := by
    have hkernel : ¬ b.InKernel (b.stackPage 0) := by cases b <;> decide
    have htree : b.InTree (b.stackPage 0) := Build.inTree_stackPage (Nat.zero_le _)
    have hlast := hstate.last _ htree (Build.not_inWindow_stackPage (Nat.zero_le _))
    rw [if_neg hkernel, lastEntry_eq hstate.inv.tree htree, Option.map_eq_none_iff] at hlast
    rw [htable]
    exact hlast
  obtain ⟨f, hf⟩ : ∃ f, f ∈ c.held := by
    refine List.exists_mem_of_length_pos ?_
    rw [hc.length, smallMap_length]
    decide
  have hframe : pageSize * f / pageSize = f := Nat.mul_div_cancel_left f (by decide)
  have hheld : pageSize * f / pageSize ∈ c.held := by rwa [hframe]
  have hpage : pageSize * f % pageSize = 0 := Nat.mul_mod_right _ _
  refine ⟨s, c, pageSize * f, hstart, hrun.mono fun _ _ hop => hop.run.permitted, ⟨hpage, hheld⟩, hmemory, ?_, ?_⟩
  · rw [hc.inv.run.inv.top, hc.count, Build.slotVa_zero]
  · refine (hc.inv.run.free_exhausted hpool hpage hheld).mpr ⟨by rw [hc.count, Nat.zero_mod], ?_⟩
    rw [hmemory, hc.count]
    exact Nat.mul_pos (by decide) (missing_pos hmissing)

theorem free_stuck : FreeStuck .i386 ∧ FreeStuck .pae ∧ FreeStuck .x86_64 :=
  ⟨exists_free_stuck _, exists_free_stuck _, exists_free_stuck _⟩

/-- The pages of the window that are mapped are those with a slot in use; so `pmm_free_page` never finds its
page mapped, and a frame that is allocated is mapped nowhere in the window. -/
structure WindowMapped (b : Build) (n : Nat) (c : Callers) : Prop where
  mapped : ∀ k < b.stackPages, c.machine.translate b (b.stackPage k) ≠ none ↔
    ∃ i, i / b.entries = k ∧ b.slotVa i < c.machine.pmmStackTop
  free : ∀ page, Permitted b c (.pmmFreePage page) →
    pmmFreePage b (resolveWrite b n) page c.machine ≠ .error .alreadyMapped
  alloc : ∀ page s', pmmAllocPage b (resolveWrite b n) c.machine = .ok (page, s') →
    ∀ k < b.stackPages, s'.translate b (b.stackPage k) ≠ some (page / pageSize)

theorem WindowInv.windowMapped (h : WindowInv b pool c) (hpool : PoolFits b pool) :
    WindowMapped b (n + 2) c := by
  refine ⟨fun k hk => ?_, fun page ⟨hpage, hheld⟩ hrun => ?_, fun page s' hrun k hk hmapped => ?_⟩
  · rw [h.run.inv.mapped_iff h.clean hk, slot_below_top h.run.inv]
  · obtain ⟨hmod, ⟨heq, -⟩ | ⟨-, hmapped⟩⟩ := (h.run.free_spec hpool hpage hheld (n := n + 1)).error hrun
    · cases heq
    have hroom : c.machine.stackCount b / b.entries < b.stackPages := by
      refine Nat.div_lt_of_lt_mul ?_
      rw [Nat.mul_comm]
      exact h.run.count_lt_window hpool hheld
    rw [stackPage_top hmod] at hmapped
    refine hmapped (h.clean _ hroom ?_)
    rw [Nat.div_mul_cancel (Nat.dvd_of_mod_eq_zero hmod)]
  · obtain ⟨hinv, ha⟩ := (pmmAllocPage_spec h.run.inv (resolveWrite_resolves (n + 1))).ok hrun
    by_cases hlt : k * b.entries < s'.stackCount b
    · refine hinv.free_not_out (hinv.stackPage_free hlt hmapped) ?_
      rw [ha.taken.out]
      exact List.mem_cons_self
    · rw [ha.clean h.clean k hk (Nat.le_of_not_lt hlt)] at hmapped
      cases hmapped

/-- So it is in every run that does not begin a page of the window where its first page table ends. -/
theorem window_mapped (hbase : LowMap map) (hdisjoint : DisjointMap map) (hstart : Started b image map n s)
    (hrun : Run b (n + 2) (PmmRunBelow b) (Callers.start s) c) : WindowMapped b (n + 2) c := by
  have hstate := started_state hbase hdisjoint hstart
  have hpool : PoolFits b (image.pool map) := pool_fits hbase hdisjoint
  have hinv : WindowInv b (image.pool map) c := hrun.invariant ⟨hstate.runInv, hstate.clean⟩
    fun _ _ op hinv hop hexec => hinv.step hpool hop hexec
  exact hinv.windowMapped hpool

/-- Two frames are allocated and one of them is freed. -/
theorem window_mapped_freed : ∃ s c, Started .pae (smallImage .pae) smallMap 0 s ∧
    Run .pae 2 (PmmRunBelow .pae) (Callers.start s) c ∧ c.machine.stackCount .pae = 1 ∧ WindowMapped .pae 2 c := by
  obtain ⟨s, hstart⟩ := started_small .pae 0
  have hstate := started_state smallMap_low smallMap_disjoint hstart
  have hpool : PoolFits .pae ((smallImage .pae).pool smallMap) := pool_fits smallMap_low smallMap_disjoint
  have hlength := smallMap_length (b := .pae)
  obtain ⟨c, hrun, hc, hfree, -⟩ := run_allocs (n := 0) (j := 2) hstate hpool (by omega)
  have hlevels : Build.pae.levels = 2 := rfl
  obtain ⟨c', hrun', hc', -⟩ :=
    hc.run_frees (j := 1) (k := 1) hrun hpool (by decide) (by omega)
  exact ⟨s, c', hstart, hrun', hc'.count, window_mapped smallMap_low smallMap_disjoint hstart hrun'⟩

/-- Two gigabytes of memory. -/
def largeMap : List MemoryMapEntry := [⟨0x400000, 0x80000000, fourMebibytes_lt, by decide⟩]

theorem largeMap_low : LowMap largeMap := by
  intro e he
  rw [List.mem_singleton.mp he]
  decide

theorem largeMap_disjoint : DisjointMap largeMap := List.pairwise_singleton _ _

theorem largeMap_pool : ((smallImage b).pool largeMap).length = 0x80000 := by
  have hranges : bootRanges b (kernelEndOf b (smallImage b).imageEnd) largeMap = [(0x400000, 0x80400000)] := by
    cases b <;> decide
  rw [KernelImage.pool, bootFrames, hranges, List.flatMap_singleton, framesOf, List.length_map, List.length_range]
  rfl

/-- A run that leaves a page of the window mapped none of whose slots is in use. -/
def StackPageLeft (b : Build) : Prop :=
  ∃ s c, Started b (smallImage b) largeMap 0 s ∧ Run b 2 (PmmRun b) (Callers.start s) c ∧
    ∃ k < b.stackPages, c.machine.translate b (b.stackPage k) ≠ none ∧
      ¬ ∃ i, i / b.entries = k ∧ b.slotVa i < c.machine.pmmStackTop

/-- Frames fill the pages of the first page table of the window, and one more is freed. -/
theorem exists_stack_page_left (hb : b ≠ .i386) : StackPageLeft b := by
  have hsize : b.entries * b.entries = 0x40000 ∧ b.levels ≤ 4 ∧ b.entries < b.stackPages := by
    cases b
    · exact absurd rfl hb
    · decide
    · decide
  have hlength := largeMap_pool (b := b)
  have hpool : PoolFits b ((smallImage b).pool largeMap) := pool_fits largeMap_low largeMap_disjoint
  have hne : (smallImage b).pool largeMap ≠ [] := fun hnil => by
    rw [hnil] at hlength
    cases hlength
  obtain ⟨s, hstart⟩ := exists_started largeMap_low largeMap_disjoint bootMachine_atKernelEarly hne 0
  have hstate := started_state largeMap_low largeMap_disjoint hstart
  obtain ⟨c, hrun, hc, hfree, -⟩ :=
    run_allocs (n := 0) (j := 1 + b.entries * b.entries) hstate hpool (by omega)
  obtain ⟨c', hrun', hc', -⟩ := hc.run_frees hrun hpool le_rfl (by omega)
  obtain ⟨page, s', hpermitted, hexec, -, hlimit, taken, s₁, hfreed⟩ :=
    hc'.exec_free (n := 0) hpool fun hzero => by omega
  have hmod : c'.machine.stackCount b % b.entries = 0 := by rw [hc'.count, Nat.mul_mod_left]
  have hgrown := (hfreed.grown.resolve_left fun hnot => hnot.1 hmod).2
  have hinv := (hc'.inv.run.step hpool hpermitted hexec).1.inv
  have htop : b.slotVa (c'.machine.stackCount b) = b.stackPage b.entries := by
    rw [stackPage_top hmod, hc'.count, Nat.mul_div_cancel _ b.entries_pos]
  refine ⟨s, _, hstart, .step (hrun'.mono fun _ _ hop => hop.run) ⟨hpermitted, rfl⟩ hexec, b.entries, hsize.2.2,
    ?_, ?_⟩
  · have hlast : s₁.lastEntry b (b.stackPage b.entries) = some (page ||| pageWrite ||| pagePresent) :=
      hgrown.last (by rw [htop])
    rw [translate_congr (hfreed.pushed.last _), translate_of_last hlast, entryFrame_table hpermitted.1]
    exact Option.some_ne_none _
  · rw [slot_below_top hinv]
    exact Nat.not_lt_of_le (hlimit.resolve_left hb).1

theorem stack_page_left : StackPageLeft .pae ∧ StackPageLeft .x86_64 :=
  ⟨exists_stack_page_left (by decide), exists_stack_page_left (by decide)⟩

end Kiznix.Memory
