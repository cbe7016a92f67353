import Kiznix.MemRun

/-! The frames of the pool over runs: each is on the free-page stack, in a range, or handed out, and
`pmm_free_memory` counts those that are free. -/

namespace Kiznix.Memory

variable {b : Build} {image : KernelImage b} {map : List MemoryMapEntry} {pool : List Nat} {s s' : Machine}
  {c : Callers} {n f page : Nat}

/-! ### Exclusivity -/

/-- The frames on the stack, those left in the ranges and those handed out share the pool between them, and
the slots of the stack are in none that is handed out. -/
structure Exclusive (b : Build) (n : Nat) (pool : List Nat) (c : Callers) : Prop where
  partition : (c.machine.stackFrames b ++ c.machine.rangeFrames b ++ c.machine.handedOut).Perm pool
  distinct : (c.machine.stackFrames b ++ c.machine.rangeFrames b ++ c.machine.handedOut).Nodup
  held : ∀ f ∈ c.held, f ∈ c.machine.handedOut
  tables : ∀ f, c.machine.IsTable b f → f ∈ pool → f ∈ c.machine.handedOut
  slots : ∀ k, k < c.machine.stackCount b →
    ∃ f, c.machine.translate b (b.slotVa k) = some f ∧ f ∉ c.machine.handedOut
  fresh : ∀ page s', pmmAllocPage b (resolveWrite b n) c.machine = .ok (page, s') →
    page % pageSize = 0 ∧ page / pageSize ∈ pool ∧ page / pageSize ∉ c.machine.handedOut
  writes : ∀ f ∈ c.machine.handedOut, ¬ c.machine.IsTable b f → ∀ i w,
    (c.machine.write f i w).stackFrames b = c.machine.stackFrames b ∧
      (c.machine.write f i w).rangeFrames b = c.machine.rangeFrames b

theorem MemInv.mem_pool {held : List Nat} (h : MemInv b pool held s) :
    f ∈ pool ↔ f ∈ s.freeFrames b ∨ f ∈ s.handedOut := by
  rw [← h.partition.mem_iff, List.mem_append]

theorem RunInv.exclusive (h : RunInv b pool c) : Exclusive b (n + 2) pool c := by
  have hinv := h.inv
  refine ⟨hinv.partition, hinv.nodup_frames, hinv.held_out, fun f htable hf => ?_, fun k hk => ?_,
    fun page s' hrun => ?_, fun f hf htable i w => ?_⟩
  · exact (hinv.mem_pool.mp hf).resolve_left (hinv.tables_used f htable)
  · obtain ⟨f, hf, -, -⟩ := hinv.slot_eq hk
    refine ⟨f, by rwa [Build.translate_slotVa], ?_⟩
    exact hinv.free_not_out (hinv.stackPage_free ((Nat.div_mul_le_self k b.entries).trans_lt hk) hf)
  · obtain ⟨-, ha⟩ := (pmmAllocPage_spec hinv (resolveWrite_resolves (n + 1))).ok hrun
    have hfree : page / pageSize ∈ c.machine.freeFrames b := by
      rw [ha.taken.free]
      exact List.mem_cons_self
    exact ⟨ha.aligned, hinv.mem_pool.mpr (Or.inl hfree), hinv.free_not_out hfree⟩
  · obtain ⟨-, hdata⟩ := hinv.data_change (c.machine.write f i w) rfl fun g hg => by
      refine funext fun j => Machine.write_of_ne ?_
      rintro ⟨rfl, -⟩
      exact hg.elim htable fun hfree => hinv.free_not_out hfree hf
    exact ⟨List.append_cancel_right (hdata.free : _ ++ c.machine.rangeFrames b = _), rfl⟩

/-- In every run from a map of disjoint entries the frames of the pool are shared in this way. -/
theorem frames_exclusive (hbase : LowMap map) (hdisjoint : DisjointMap map) (hstart : Started b image map n s)
    (hrun : Run b (n + 2) (Permitted b) (Callers.start s) c) : Exclusive b (n + 2) (image.pool map) c :=
  (hrun.runInv hbase hdisjoint hstart fun _ _ hop => hop).exclusive

/-- `pmm_free_page` returns where the next slot of the stack is not mapped yet and enough frames are free. -/
theorem RunInv.exec_free (h : RunInv b pool c) (hpool : PoolFits b pool) (hpage : page % pageSize = 0)
    (hheld : page / pageSize ∈ c.held) (hfree : b.levels ≤ (c.machine.freeFrames b).length)
    (hnone : c.machine.translate b (b.slotVa (c.machine.stackCount b)) = none) :
    ∃ s', exec b (n + 2) c (.pmmFreePage page) = .ok ⟨s', c.held.filter (· ≠ page / pageSize)⟩ ∧
      s'.freeFrames b ≠ [] := by
  have hspec : wp (pmmFreePage b (resolveWrite b (n + 2)) page) c.machine _ _ := h.free_spec hpool hpage hheld
  obtain ⟨r, s', hrun, -, -, taken, s₁, hfreed⟩ := (hspec.mono (fun _ _ hq => hq) fun e ⟨_, hfails⟩ => by
    rcases hfails with ⟨-, hlow⟩ | ⟨-, hmapped⟩
    · have hle : missing b c.machine (b.slotVa (c.machine.stackCount b)) (b.levels - 1) ≤ _ := missing_le
      omega
    · exact hmapped hnone).returns
  refine ⟨s', by rw [exec, hrun]; rfl, ?_⟩
  rw [hfreed.pushed.free]
  exact List.cons_ne_nil _ _

/-- A run in which two frames are allocated, and one of them is freed and allocated again. -/
theorem run_reuse (b : Build) : ∃ s c₁ c₂ c page, Started b (smallImage b) smallMap 0 s ∧
    Run b 2 (Permitted b) (Callers.start s) c₁ ∧ Permitted b c₁ (.pmmFreePage page) ∧
    exec b 2 c₁ (.pmmFreePage page) = .ok c₂ ∧ exec b 2 c₂ .pmmAllocPage = .ok c ∧
    Run b 2 (Permitted b) (Callers.start s) c ∧ c.held ≠ [] := by
  obtain ⟨s, hstart⟩ := started_small b 0
  have hstate := started_state smallMap_low smallMap_disjoint hstart
  have hpool : PoolFits b ((smallImage b).pool smallMap) := pool_fits smallMap_low smallMap_disjoint
  have hlength := congrArg List.length hstate.free
  rw [smallMap_length] at hlength
  have halloc : ∀ c, Permitted b c .pmmAllocPage := fun _ => trivial
  obtain ⟨p, s₁, hexec₁, -, ha₁⟩ := hstate.runInv.exec_alloc (n := 0) (List.ne_nil_of_length_eq_add_one hlength)
  have h₁ := (hstate.runInv.step hpool (halloc _) hexec₁).1
  have hlength₁ : (s₁.freeFrames b).length = 255 := Nat.succ_inj.mp (ha₁.free_length.trans hlength)
  obtain ⟨page, s₂, hexec₂, -, ha₂⟩ := h₁.exec_alloc (n := 0) (List.ne_nil_of_length_eq_add_one hlength₁)
  have h₂ := (h₁.step hpool (halloc _) hexec₂).1
  have hlength₂ : (s₂.freeFrames b).length = 254 := Nat.succ_inj.mp (ha₂.free_length.trans hlength₁)
  have hcount₁ : s₁.stackCount b = 0 := ha₁.count_zero hstate.stackCount
  have hcount₂ : s₂.stackCount b = 0 := ha₂.count_zero hcount₁
  have hslot : ¬ b.InWindow (b.slotVa 0) ∧ b.InTree (b.slotVa 0) ∧ ¬ b.InKernel (b.slotVa 0) := by
    cases b <;> decide
  have hnone₁ : s₁.translate b (b.slotVa 0) = none := ha₁.taken.translate_none hslot.1
    (hstate.translate_none hslot.2.1 hslot.1 hslot.2.2)
  have hnone₂ : s₂.translate b (b.slotVa (s₂.stackCount b)) = none := by
    rw [hcount₂]
    exact ha₂.taken.translate_none hslot.1 hnone₁
  have hrun : Run b 2 (Permitted b) (Callers.start s) ⟨s₂, page / pageSize :: p / pageSize :: []⟩ :=
    .step (.step .start (halloc _) hexec₁) (halloc _) hexec₂
  have hpermitted : Permitted b ⟨s₂, page / pageSize :: p / pageSize :: []⟩ (.pmmFreePage page) :=
    ⟨ha₂.aligned, List.mem_cons_self⟩
  have hlevels : b.levels ≤ 254 := by
    cases b <;> decide
  obtain ⟨s₃, hexec₃, hfree₃⟩ := h₂.exec_free (n := 0) hpool hpermitted.1 hpermitted.2
    (hlevels.trans_eq hlength₂.symm) hnone₂
  have h₃ := (h₂.step hpool hpermitted hexec₃).1
  obtain ⟨page', s₄, hexec₄, -⟩ := h₃.exec_alloc (n := 0) hfree₃
  exact ⟨s, _, _, _, page, hstart, hrun, hpermitted, hexec₃, hexec₄,
    .step (.step hrun hpermitted hexec₃) (halloc _) hexec₄, List.cons_ne_nil _ _⟩

theorem frames_exclusive_allocated : ∃ s c₁ c₂ c page, Started .x86_64 (smallImage .x86_64) smallMap 0 s ∧
    Run .x86_64 2 (Permitted .x86_64) (Callers.start s) c₁ ∧ exec .x86_64 2 c₁ (.pmmFreePage page) = .ok c₂ ∧
    exec .x86_64 2 c₂ .pmmAllocPage = .ok c ∧ c.held ≠ [] ∧
      Exclusive .x86_64 2 ((smallImage .x86_64).pool smallMap) c := by
  obtain ⟨s, c₁, c₂, c, page, hstart, hrun₁, -, hfree, halloc, hrun, hheld⟩ := run_reuse .x86_64
  exact ⟨s, c₁, c₂, c, page, hstart, hrun₁, hfree, halloc, hheld,
    frames_exclusive smallMap_low smallMap_disjoint hstart hrun⟩

/-- `PAGE_ALIGN_UP` of the first base wraps to 0. -/
def wrappedMap : List MemoryMapEntry :=
  [⟨0xFFFFFFFFFFFFF800, 0x400, by decide, by decide⟩, ⟨0x400000, 0x1000, fourMebibytes_lt, by decide⟩]

theorem wrappedMap_disjoint : DisjointMap wrappedMap := by
  refine List.pairwise_pair.mpr fun x hlow hhigh hlow' => ?_
  dsimp only at *
  omega

/-- The range of the first entry covers that of the second. -/
theorem frames_shared : DisjointMap wrappedMap ∧ ∃ s, Started .x86_64 (smallImage .x86_64) wrappedMap 0 s ∧
    ¬ (s.stackFrames .x86_64 ++ s.rangeFrames .x86_64 ++ s.handedOut).Nodup := by
  have hfree : (pmmInitState .x86_64 (smallImage .x86_64).imageEnd wrappedMap).pmmFreeMemory ≠ 0 := by
    rw [pmmInitState_recorded.free]
    decide
  have hboot : AtKernelEarly .x86_64 (smallImage .x86_64) _ := bootMachine_atKernelEarly
  obtain ⟨s, hstart, -, hranges, -⟩ := exists_started_of_free hboot hfree 0
  refine ⟨wrappedMap_disjoint, s, hstart, fun hnodup => ?_⟩
  have hstored : s.sFreeMemory = [⟨0x120000, 0xFFFFFFFFFFFFF000⟩, ⟨0x400000, 0x401000⟩] := by
    rw [hranges, pmmInitState_recorded.ranges]
    decide
  have hnodup := hnodup.of_append_left.of_append_right
  rw [Machine.rangeFrames, hstored, List.flatMap_cons] at hnodup
  have hfirst : 1024 ∈ FreeMemory.frames .x86_64 ⟨0x120000, 0xFFFFFFFFFFFFF000⟩ :=
    List.mem_map.mpr ⟨736, List.mem_range.mpr (by decide), rfl⟩
  exact List.disjoint_of_nodup_append hnodup hfirst (by decide)

/-! ### Accounting -/

/-- `pmm_free_memory` is the size of the free frames, no subtraction from it wraps, and memory runs out when it
is 0. In a call of `pmm_free_page` that returns, `m` frames were allocated for page tables. -/
structure Balanced (b : Build) (n : Nat) (c : Callers) : Prop where
  counted : c.machine.pmmFreeMemory = pageSize * (c.machine.stackCount b + (c.machine.rangeFrames b).length)
  alloc : ∀ page s', pmmAllocPage b (resolveWrite b n) c.machine = .ok (page, s') →
    s'.pmmFreeMemory + pageSize = c.machine.pmmFreeMemory
  exhausted : pmmAllocPage b (resolveWrite b n) c.machine = .error .outOfPhysicalMemory ↔
    c.machine.pmmFreeMemory = 0
  free : ∀ page s', Permitted b c (.pmmFreePage page) →
    pmmFreePage b (resolveWrite b n) page c.machine = .ok (⟨⟩, s') →
    ∃ m, s'.handedOut.length + 1 = c.machine.handedOut.length + m ∧
      pageSize * m ≤ c.machine.pmmFreeMemory ∧
      s'.pmmFreeMemory = c.machine.pmmFreeMemory - pageSize * m + pageSize
  exhausted_free : ∀ page, Permitted b c (.pmmFreePage page) →
    (pmmFreePage b (resolveWrite b n) page c.machine = .error .outOfPhysicalMemory ↔
      c.machine.stackCount b % b.entries = 0 ∧ c.machine.pmmFreeMemory <
        pageSize * missing b c.machine (b.slotVa (c.machine.stackCount b)) (b.levels - 1))

theorem freeFrames_length : (s.freeFrames b).length = s.stackCount b + (s.rangeFrames b).length := by
  rw [Machine.freeFrames, List.length_append, Machine.stackFrames, List.length_reverse, List.length_map,
    List.length_range]

theorem missing_of_mapped {va : Nat} (h : s.Tree b) (hmapped : s.translate b va ≠ none) :
    missing b s va (b.levels - 1) = 0 := by
  obtain ⟨f, hf⟩ := Option.ne_none_iff_exists'.mp hmapped
  obtain ⟨t, ht⟩ := exists_table h hf
  exact missing_of_table (by rw [ht]; exact Option.some_ne_none t)

section Balanced

variable (h : RunInv b pool c)

include h

theorem RunInv.counted : c.machine.pmmFreeMemory = pageSize * (c.machine.freeFrames b).length := h.accounted.1

theorem RunInv.alloc_counted {page : Nat} (hrun : pmmAllocPage b (resolveWrite b (n + 2)) c.machine = .ok (page, s')) :
    s'.pmmFreeMemory + pageSize = c.machine.pmmFreeMemory := by
  obtain ⟨-, ha⟩ := (pmmAllocPage_spec h.inv (resolveWrite_resolves (n + 1))).ok hrun
  have hafter := (ha.taken.accounted h.accounted).1
  rw [hafter, h.counted, ha.taken.free, List.singleton_append, List.length_cons, Nat.mul_succ]

theorem RunInv.alloc_exhausted :
    pmmAllocPage b (resolveWrite b (n + 2)) c.machine = .error .outOfPhysicalMemory ↔ c.machine.pmmFreeMemory = 0 := by
  have hspec := pmmAllocPage_spec h.inv (resolveWrite_resolves (b := b) (n + 1))
  rw [h.counted, Nat.mul_eq_zero, List.length_eq_zero_iff]
  constructor
  · intro hrun
    exact Or.inr (hspec.error hrun).2
  · rintro (hzero | hnil)
    · cases hzero
    cases hrun : pmmAllocPage b (resolveWrite b (n + 2)) c.machine with
    | ok r =>
        obtain ⟨-, ha⟩ := hspec.ok hrun
        have hfree := ha.taken.free
        rw [hnil] at hfree
        cases hfree
    | error e => rw [(hspec.error hrun).1]

variable (hpool : PoolFits b pool) (hpage : page % pageSize = 0) (hheld : page / pageSize ∈ c.held)

include hpool hpage hheld

theorem RunInv.free_counted (hrun : pmmFreePage b (resolveWrite b (n + 1)) page c.machine = .ok (⟨⟩, s')) :
    ∃ m, s'.handedOut.length + 1 = c.machine.handedOut.length + m ∧ pageSize * m ≤ c.machine.pmmFreeMemory ∧
      s'.pmmFreeMemory = c.machine.pmmFreeMemory - pageSize * m + pageSize := by
  obtain ⟨-, -, taken, s₁, hfreed⟩ := (h.free_spec hpool hpage hheld).ok hrun
  have hout : s₁.handedOut = taken.reverse ++ c.machine.handedOut := by
    rcases hfreed.grown with ⟨-, rfl, rfl⟩ | ⟨-, hmapped⟩
    · rfl
    · exact hmapped.written_const.out
  have herased : s'.handedOut = s₁.handedOut.erase (page / pageSize) := by
    obtain ⟨f, -, rfl⟩ := hfreed.frame
    rfl
  have hmem : page / pageSize ∈ s₁.handedOut := by
    rw [hout]
    exact List.mem_append_right _ (h.inv.held_out _ hheld)
  have hlength := congrArg List.length hout
  have hpos := List.length_pos_of_mem hmem
  have hafter := (hfreed.accounted hheld hpool.size h.accounted).1
  rw [List.length_append, List.length_reverse] at hlength
  rw [hfreed.free_eq, List.length_cons, Nat.mul_succ] at hafter
  refine ⟨taken.length, ?_, ?_, ?_⟩
  · rw [herased, List.length_erase_of_mem hmem]
    omega
  · rw [h.counted, hfreed.grown_free, List.length_append]
    exact Nat.mul_le_mul_left _ (Nat.le_add_right _ _)
  · rw [hafter, h.counted, hfreed.grown_free, List.length_append, Nat.mul_add, Nat.add_sub_cancel_left]

theorem RunInv.free_exhausted :
    pmmFreePage b (resolveWrite b (n + 1)) page c.machine = .error .outOfPhysicalMemory ↔
      c.machine.stackCount b % b.entries = 0 ∧ c.machine.pmmFreeMemory <
        pageSize * missing b c.machine (b.slotVa (c.machine.stackCount b)) (b.levels - 1) := by
  have hspec := h.free_spec hpool hpage hheld (n := n)
  rw [h.counted, Nat.mul_lt_mul_left (by decide)]
  constructor
  · intro hrun
    obtain ⟨hmod, ⟨-, hlt⟩ | ⟨heq, -⟩⟩ := hspec.error hrun
    · exact ⟨hmod, hlt⟩
    · cases heq
  · rintro ⟨hmod, hlt⟩
    cases hrun : pmmFreePage b (resolveWrite b (n + 1)) page c.machine with
    | ok r =>
        obtain ⟨-, -, taken, s₁, hfreed⟩ := hspec.ok hrun
        obtain ⟨hne, -⟩ | ⟨-, hmapped⟩ := hfreed.grown
        · exact absurd hmod hne
        · rw [hfreed.grown_free, List.length_append, hmapped.length] at hlt
          omega
    | error e =>
        obtain ⟨-, ⟨rfl, -⟩ | ⟨-, hmapped⟩⟩ := hspec.error hrun
        · rfl
        · rw [missing_of_mapped h.inv.tree hmapped] at hlt
          exact absurd hlt (Nat.not_lt_zero _)

omit hpage hheld in
theorem RunInv.balanced : Balanced b (n + 2) c := by
  refine ⟨?_, fun page s' => h.alloc_counted, h.alloc_exhausted,
    fun page s' hop => h.free_counted hpool hop.1 hop.2, fun page hop => h.free_exhausted hpool hop.1 hop.2⟩
  rw [h.counted, freeFrames_length]

end Balanced

/-- In every run from a map of disjoint entries the counter is that of the free frames. -/
theorem free_memory_balanced (hbase : LowMap map) (hdisjoint : DisjointMap map)
    (hstart : Started b image map n s) (hrun : Run b (n + 2) (Permitted b) (Callers.start s) c) :
    Balanced b (n + 2) c :=
  (hrun.runInv hbase hdisjoint hstart fun _ _ hop => hop).balanced (pool_fits hbase hdisjoint)

theorem free_memory_balanced_allocated : ∃ s c₁ c₂ c page, Started .i386 (smallImage .i386) smallMap 0 s ∧
    Run .i386 2 (Permitted .i386) (Callers.start s) c₁ ∧ exec .i386 2 c₁ (.pmmFreePage page) = .ok c₂ ∧
    exec .i386 2 c₂ .pmmAllocPage = .ok c ∧ c.held ≠ [] ∧ Balanced .i386 2 c := by
  obtain ⟨s, c₁, c₂, c, page, hstart, hrun₁, -, hfree, halloc, hrun, hheld⟩ := run_reuse .i386
  exact ⟨s, c₁, c₂, c, page, hstart, hrun₁, hfree, halloc, hheld,
    free_memory_balanced smallMap_low smallMap_disjoint hstart hrun⟩

/-- Both bases wrap to 0, so that the memory from the end of the kernel on is found twice. -/
def wrappedTwiceMap : List MemoryMapEntry :=
  [⟨0xFFFFFFFFFFFFF800, 0x400, by decide, by decide⟩, ⟨0xFFFFFFFFFFFFFC00, 0x200, by decide, by decide⟩]

theorem wrappedTwiceMap_disjoint : DisjointMap wrappedTwiceMap := by
  refine List.pairwise_pair.mpr fun x hlow hhigh hlow' => ?_
  dsimp only at *
  omega

/-- The counter does not hold the size of what was found. -/
theorem free_memory_wrapped : DisjointMap wrappedTwiceMap ∧
    ∃ s, Started .x86_64 (smallImage .x86_64) wrappedTwiceMap 0 s ∧
      s.pmmFreeMemory ≠ pageSize * (s.stackCount .x86_64 + (s.rangeFrames .x86_64).length) := by
  have hfree : (pmmInitState .x86_64 (smallImage .x86_64).imageEnd wrappedTwiceMap).pmmFreeMemory =
      0xFFFFFFFFFFDBE000 := by
    rw [pmmInitState_recorded.free]
    decide
  have hne : (pmmInitState .x86_64 (smallImage .x86_64).imageEnd wrappedTwiceMap).pmmFreeMemory ≠ 0 := by
    rw [hfree]
    decide
  have hboot : AtKernelEarly .x86_64 (smallImage .x86_64) _ := bootMachine_atKernelEarly
  obtain ⟨s, hstart, -, hranges, hmemory⟩ := exists_started_of_free hboot hne 0
  refine ⟨wrappedTwiceMap_disjoint, s, hstart, fun heq => ?_⟩
  have hstored : s.sFreeMemory = [⟨0x120000, 0xFFFFFFFFFFFFF000⟩, ⟨0x120000, 0xFFFFFFFFFFFFF000⟩] := by
    rw [hranges, pmmInitState_recorded.ranges]
    decide
  have hlength : (s.rangeFrames .x86_64).length = 2 * 0xFFFFFFFFFFEDF := by
    rw [Machine.rangeFrames, hstored]
    simp [FreeMemory.frames, pagesBetween, Build.physBits, pageSize]
  rw [hmemory, hfree, hlength, pageSize] at heq
  omega

end Kiznix.Memory
