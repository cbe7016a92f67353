import Kiznix.MemRun

/-! The heap of `vmm_alloc`: its addresses belong to nobody else, and the table above their page tables is
the kernel's. -/

namespace Kiznix.Memory

open RadixTree

variable {b : Build} {pool held : List Nat} {s s' s₁ : Machine} {va va' f t n k m p length : Nat}
  {image : KernelImage b} {map : List MemoryMapEntry} {entry : Nat → Nat} {vas taken : List Nat}

namespace Build

def InHeap (b : Build) (va : Nat) : Prop := b.kernelHeapBegin ≤ va ∧ va < b.kernelHeapEnd

instance : Decidable (b.InHeap va) := inferInstanceAs (Decidable (_ ∧ _))

theorem InHeap.ordinary (h : b.InHeap va) : b.Ordinary va := by
  rw [Ordinary, Internal]
  cases b <;> simp [InHeap, kernelHeapBegin, kernelHeapEnd, InTree, InWindow, path, recursiveIndex, InStack,
    pmmStackVma, pmmStackSize] at h ⊢ <;> omega

theorem InHeap.not_inKernel (h : b.InHeap va) : ¬ b.InKernel va := by
  cases b <;> simp [InHeap, kernelHeapBegin, kernelHeapEnd, InKernel, kernelVirtualBase] at h ⊢ <;> omega

theorem inHeap_begin : b.InHeap b.kernelHeapBegin := by
  cases b <;> decide

end Build

/-! ### The table above the page tables -/

/-- The table that refers to the page tables of the heap is there. -/
def HeapTable (b : Build) (s : Machine) : Prop := ∀ va, b.InHeap va → s.tableAt b va (b.levels - 2) ≠ none

theorem StartState.heapTable (h : StartState b image map s) : HeapTable b s := by
  intro va hva
  cases b with
  | i386 => exact fun hnone => nomatch hnone
  | pae => exact fun hnone => nomatch hnone
  | x86_64 =>
      have hpath : (Build.x86_64.path va).take 2 = tablePath .x86_64 2 := by
        simp [Build.InHeap, Build.kernelHeapBegin, Build.kernelHeapEnd, Build.path, tablePath] at hva ⊢
        omega
      have htable : s.tableAt .x86_64 va 2 = some (image.tables + 2) := by
        rw [Machine.tableAt, hpath, h.tables 2 (by decide)]
      intro hnone
      rw [show Build.x86_64.levels - 2 = 2 from rfl, htable] at hnone
      cases hnone

/-- No table is removed. -/
def TablesKept (b : Build) (s s' : Machine) : Prop :=
  ∀ va d t, d < b.levels → s.tableAt b va d = some t → s'.tableAt b va d = some t

theorem TablesKept.trans (h : TablesKept b s s₁) (h' : TablesKept b s₁ s') : TablesKept b s s' :=
  fun va d t hd ht => h' va d t hd (h va d t hd ht)

theorem TablesKept.of_eq (h : ∀ va d, d < b.levels → s'.tableAt b va d = s.tableAt b va d) : TablesKept b s s' :=
  fun va d t hd ht => by rw [h va d hd, ht]

theorem HeapTable.mono (h : HeapTable b s) (hkept : TablesKept b s s') : HeapTable b s' := by
  intro va hva
  obtain ⟨t, ht⟩ := Option.ne_none_iff_exists'.mp (h va hva)
  have hlt := levels_two_le (b := b)
  rw [hkept va _ t (by omega) ht]
  exact Option.some_ne_none t

section Step

variable {c c' : Callers} {op : Op} (h : RunInv b pool c)

include h

theorem RunInv.tablesKept (hpool : PoolFits b pool) (hop : Permitted b c op)
    (hexec : exec b (n + 2) c op = .ok c') : TablesKept b c.machine c'.machine := by
  cases op with
  | pmmAllocPage =>
      obtain ⟨page, s', hrun, rfl⟩ := map_ok hexec
      exact ((pmmAllocPage_spec h.inv (resolveWrite_resolves (n + 1))).ok hrun).2.taken.table
  | pmmFreePage page =>
      obtain ⟨u, s', hrun, rfl⟩ := map_ok hexec
      obtain ⟨-, -, taken, s₁, hfreed⟩ := (h.free_spec hpool hop.1 hop.2).ok hrun
      have hpushed : TablesKept b s₁ s' := .of_eq hfreed.pushed.tableAt
      rcases hfreed.grown with ⟨-, -, rfl⟩ | ⟨-, hmapped⟩
      · exact hpushed
      · have hmapped : TablesKept b c.machine s₁ := hmapped.written_const.table
        exact hmapped.trans hpushed
  | vmmMapPage pa va =>
      obtain ⟨r, s', hrun, rfl⟩ := map_ok hexec
      obtain ⟨-, -, taken, hmapped⟩ :=
        (vmmMapPage_spec h.inv (resolveWrite_resolves (n + 1)) hop.1 hop.not_inWindow).ok hrun
      exact hmapped.written_const.table
  | vmmUnmapPage va =>
      obtain ⟨r, s', hrun, rfl⟩ := map_ok hexec
      obtain ⟨-, -, taken, hw, -⟩ := (vmmUnmapPage_spec h.inv hop).ok hrun
      exact hw.table
  | vmmAlloc length =>
      obtain ⟨r, s', hrun, rfl⟩ := map_ok hexec
      obtain ⟨-, ⟨-, taken, hw, -⟩, -⟩ := (vmmAlloc_spec length h.inv h.nextAlloc_lt hop).ok hrun
      exact hw.table
  | vmmMap pa length =>
      obtain ⟨r, s', hrun, rfl⟩ := map_ok hexec
      obtain ⟨-, ⟨s₁, ⟨-, taken, hw, -⟩, entry, vas, hmapped, -⟩, -⟩ :=
        (vmmMap_spec pa length h.inv hop.1 h.nextAlloc_lt h.nextAlloc_mod (h.mapSize_lt hop.2) hop.2).ok hrun
      exact TablesKept.trans hw.table hmapped.table
  | vmmUnmap address length =>
      obtain ⟨r, s', hrun, rfl⟩ := map_ok hexec
      obtain ⟨-, ⟨-, taken, hw, -⟩, -⟩ := (vmmUnmap_spec address length h.inv hop).ok hrun
      exact hw.table
  | access va =>
      obtain ⟨f, s', hrun, rfl⟩ := map_ok hexec
      obtain ⟨s₁, -, haccessed, -, rfl⟩ := (access_spec h.inv hop).ok hrun
      rcases haccessed with ⟨-, rfl⟩ | ⟨w, page, -, -, hpaged⟩
      · exact .of_eq fun _ _ _ => rfl
      · exact .of_eq hpaged.tableAt
  | fill va =>
      obtain rfl := Except.ok.inj hexec
      dsimp only
      cases c.machine.translate b va <;> exact .of_eq fun _ _ _ => rfl
  | write f i w =>
      obtain rfl := Except.ok.inj hexec
      obtain ⟨-, hdata⟩ := h.inv.data_change (c.machine.write f i w) rfl fun g hg => by
        refine funext fun j => Machine.write_of_ne ?_
        rintro ⟨rfl, -⟩
        exact hg.elim (h.inv.held_data g hop) fun hfree => h.inv.free_not_held hfree hop
      exact .of_eq hdata.tableAt

end Step

/-- In every run the heap keeps its table. -/
theorem Run.heapTable {c : Callers} {allowed : Callers → Op → Prop} (hbase : LowMap map) (hdisjoint : DisjointMap map)
    (hstart : Started b image map n s) (hallowed : ∀ c op, allowed c op → Permitted b c op)
    (hrun : Run b (n + 2) allowed (Callers.start s) c) :
    RunInv b (image.pool map) c ∧ HeapTable b c.machine := by
  have hstate := started_state hbase hdisjoint hstart
  refine hrun.invariant (P := fun c => RunInv b (image.pool map) c ∧ HeapTable b c.machine)
    ⟨hstate.runInv, hstate.heapTable⟩ fun c c' op ⟨hinv, htable⟩ hop hexec => ?_
  have hpool : PoolFits b (image.pool map) := pool_fits hbase hdisjoint
  exact ⟨(hinv.step hpool (hallowed _ op hop) hexec).1,
    htable.mono (hinv.tablesKept hpool (hallowed _ op hop) hexec)⟩

/-! ### Regions of the heap -/

theorem Build.kernelHeapEnd_lt : b.kernelHeapEnd < 2 ^ b.wordBits := by
  cases b <;> decide

section Region

variable (hbegin : b.kernelHeapBegin ≤ p) (hend : p + pageSize * m ≤ b.kernelHeapEnd)

include hend

theorem mem_heapRegion : va ∈ regionPages b p m ↔ ∃ k < m, va = p + pageSize * k := by
  have hlt := b.kernelHeapEnd_lt
  rw [mem_regionPages (by omega)]
  refine exists_congr fun k => and_congr_right fun hk => ?_
  have hle : pageSize * k ≤ pageSize * m := Nat.mul_le_mul_left _ hk.le
  rw [Nat.mod_eq_of_lt (by omega)]

theorem heapRegion_end : regionEnd b p m = p + pageSize * m := by
  have hlt := b.kernelHeapEnd_lt
  rw [regionEnd_eq (by omega), Nat.mod_eq_of_lt (by omega)]

include hbegin

theorem heapRegion_inHeap (hva : va ∈ regionPages b p m) : b.InHeap va := by
  obtain ⟨k, hk, rfl⟩ := (mem_heapRegion hend).mp hva
  have hle : pageSize * (k + 1) ≤ pageSize * m := Nat.mul_le_mul_left _ hk
  rw [pageSize] at hle hend ⊢
  exact ⟨by omega, by omega⟩

end Region

theorem regionPages_length (p m : Nat) : (regionPages b p m).length = m := by
  induction m generalizing p with
  | zero => rfl
  | succ m ih => rw [regionPages, List.length_cons, ih]

theorem card_missingTables_le (s : Machine) (vas : List Nat) : (missingTables b s vas).card ≤ vas.length := by
  refine (List.toFinset_card_le _).trans ?_
  rw [List.length_map]
  exact List.length_filter_le _ _

/-! ### `vmm_alloc` in the heap -/

/-- The request fits in what is left of the heap. -/
def Fits (b : Build) (s : Machine) (length : Nat) : Prop := s.nextAlloc + length ≤ b.kernelHeapEnd

/-- What `vmm_alloc` relies on as long as requests fit. -/
structure HeapInv (b : Build) (pool held : List Nat) (s : Machine) : Prop where
  inv : MemInv b pool held s
  table : HeapTable b s
  next_mod : s.nextAlloc % pageSize = 0
  next_ge : b.kernelHeapBegin ≤ s.nextAlloc
  next_le : s.nextAlloc ≤ b.kernelHeapEnd

theorem StartState.heapInv (h : StartState b image map s) : HeapInv b (image.pool map) [] s := by
  refine ⟨h.inv, h.heapTable, ?_, ?_, ?_⟩ <;> rw [h.nextAlloc] <;> cases b <;> decide

section Alloc

variable (h : HeapInv b pool held s) (hfits : Fits b s length)

include h

theorem HeapInv.next_lt : s.nextAlloc < 2 ^ b.wordBits := h.next_le.trans_lt b.kernelHeapEnd_lt

include hfits

theorem HeapInv.allocPages_bounds : length ≤ pageSize * allocPages b length ∧
    pageSize * allocPages b length < length + pageSize ∧
      s.nextAlloc + pageSize * allocPages b length ≤ b.kernelHeapEnd := by
  have hge := h.next_ge
  have hmod := h.next_mod
  rw [Fits] at hfits
  cases b <;> simp only [allocPages, pageAlignUp, pageAlignDown, pageSize, Build.wordBits, Build.kernelHeapBegin,
    Build.kernelHeapEnd] at * <;> omega

theorem HeapInv.regionPages_inHeap (hva : va ∈ regionPages b s.nextAlloc (allocPages b length)) : b.InHeap va :=
  heapRegion_inHeap h.next_ge (h.allocPages_bounds hfits).2.2 hva

/-- The page of an address of the region. -/
theorem HeapInv.page_mem {address : Nat} (hge : s.nextAlloc ≤ address) (hlt : address < s.nextAlloc + length) :
    pageAlignDown address ∈ regionPages b s.nextAlloc (allocPages b length) := by
  obtain ⟨hle, -, hend⟩ := h.allocPages_bounds hfits
  have hmod := h.next_mod
  rw [mem_heapRegion hend]
  rw [pageAlignDown, pageSize] at *
  exact ⟨(address - s.nextAlloc) / 4096, by omega, by omega⟩

/-- A request that fits is served unless page tables run out of frames. -/
theorem HeapInv.vmmAlloc_spec : wp (vmmAlloc b (resolveWrite b (n + 2)) length) s
    (fun r s' => r = (if length = 0 then 0 else s.nextAlloc) ∧ HeapInv b pool held s' ∧
      s'.nextAlloc = s.nextAlloc + pageSize * allocPages b length ∧
      ∃ taken, Written b (fun _ => pageAllocated) (regionPages b s.nextAlloc (allocPages b length)) taken s s' ∧
        taken.length ≤ allocPages b length)
    (fun e => e = .outOfPhysicalMemory ∧ (s.freeFrames b).length <
      (missingTables b s (regionPages b s.nextAlloc (allocPages b length))).card) := by
  obtain ⟨hle, -, hend⟩ := h.allocPages_bounds hfits
  have hheap : ∀ va ∈ regionPages b s.nextAlloc (allocPages b length), b.InHeap va :=
    fun va hva => h.regionPages_inHeap hfits hva
  refine (Memory.vmmAlloc_spec length h.inv h.next_lt fun va hva => (hheap va hva).ordinary).mono ?_ ?_
  · rintro r s' ⟨hr, ⟨hinv, taken, hw, htaken⟩, hnext, -⟩
    have hnext' : s'.nextAlloc = s.nextAlloc + pageSize * allocPages b length := by rw [hnext, heapRegion_end hend]
    have hcard := card_missingTables_le (b := b) s (regionPages b s.nextAlloc (allocPages b length))
    rw [regionPages_length, ← htaken] at hcard
    have hmod := h.next_mod
    have hge := h.next_ge
    refine ⟨hr, ⟨hinv, h.table.mono hw.table, ?_, ?_, ?_⟩, hnext', taken, hw, hcard⟩ <;> rw [hnext']
    · rw [pageSize] at *
      omega
    · omega
    · exact hend
  · rintro e (hmemory | ⟨va, hva, hnone⟩)
    · exact hmemory
    · exact absurd hnone (h.table va (hheap va hva))

/-- So it is if a frame is free for every page. -/
theorem HeapInv.served (hfree : allocPages b length ≤ (s.freeFrames b).length) :
    ∃ s', vmmAlloc b (resolveWrite b (n + 2)) length s = .ok (if length = 0 then 0 else s.nextAlloc, s') ∧
      HeapInv b pool held s' ∧ s'.nextAlloc = s.nextAlloc + pageSize * allocPages b length ∧
      (s.freeFrames b).length ≤ (s'.freeFrames b).length + allocPages b length := by
  obtain ⟨r, s', hcall, rfl, h', hnext, taken, hw, hcard⟩ := ((h.vmmAlloc_spec (n := n) hfits).mono
    (fun _ _ hq => hq) fun e he => by
      have hle := card_missingTables_le (b := b) s (regionPages b s.nextAlloc (allocPages b length))
      rw [regionPages_length] at hle
      omega).returns
  refine ⟨s', hcall, h', hnext, ?_⟩
  rw [hw.free, List.length_append]
  omega

end Alloc

end Kiznix.Memory
