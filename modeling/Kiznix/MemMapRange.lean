import Kiznix.MemPageMap

/-! `vmm_map`: the region that it returns shows the physical range byte by byte. -/

namespace Kiznix.Memory

open RadixTree

variable {b : Build} {pool held : List Nat} {s s' s₁ : Machine} {va n m p r pa length : Nat}
  {image : KernelImage b} {map : List MemoryMapEntry} {entry : Nat → Nat} {vas taken : List Nat} {c : Callers}

/-- The size of the physical address space. -/
def Build.physicalSpace : Build → Nat
  | .i386 => 2 ^ 32
  | .pae => 2 ^ 36
  | .x86_64 => 2 ^ 52

/-- The number of pages from the start of a range, rounded down, to its end, rounded up. -/
def rangePages (pa length : Nat) : Nat := (pa + length + pageSize - 1) / pageSize - pa / pageSize

/-- The physical address that the hardware walk gives for an address. -/
def Machine.physical (b : Build) (s : Machine) (va : Nat) : Option Nat :=
  (s.translate b va).map fun f => pageSize * f + va % pageSize

/-- A physical range was mapped by the pages that cover it, in a region reserved at `next_alloc`. -/
structure RangeMapped (b : Build) (pa length : Nat) (s : Machine) (r : Nat) (s' : Machine) : Prop where
  result : r = (if rangePages pa length = 0 then 0 else s.nextAlloc) + pa % pageSize
  bytes : ∀ k < length, s'.physical b (r + k) = some (pa + k)
  inside : 0 < length → s.nextAlloc ≤ r ∧ r + length ≤ s'.nextAlloc
  next : s'.nextAlloc = s.nextAlloc + pageSize * rangePages pa length
  pages : ∀ j < rangePages pa length, s'.translate b (s.nextAlloc + pageSize * j) = some (pa / pageSize + j)
  others : ∀ va, ¬ b.Internal va → (va < s.nextAlloc ∨ s'.nextAlloc ≤ va) → s'.leafEntry b va = s.leafEntry b va

/-- The end of the range, rounded up, is an address that the loop of `vmm_map` can meet. -/
def EndMet (b : Build) (pa length : Nat) : Prop :=
  b = .pae → pageAlignDown (pa + length + pageSize - 1) < 2 ^ 32

/-! ### The sizes -/

theorem rangePages_eq (pa length : Nat) : rangePages pa length = (pa % pageSize + length + pageSize - 1) / pageSize := by
  rw [rangePages, pageSize]
  omega

section Size

variable (hpa : pa < 2 ^ b.physBits) (hend : pa + length ≤ b.physicalSpace)
  (hsize : pageSize * rangePages pa length < 2 ^ b.wordBits)

include hend hsize

theorem mapSize_eq : mapSize b pa length = pageSize * rangePages pa length := by
  cases b <;> simp only [mapSize, rangePages, pageAlignUp, pageAlignDown, pageSize, Build.physBits,
    Build.physicalSpace, Build.wordBits] at * <;> omega

include hpa

/-- The loop of `vmm_map` meets its end after all pages of the range. -/
theorem loop_meets {k : Nat} (hk : k ≤ rangePages pa length) :
    (pageAlignDown pa % 2 ^ b.wordBits + pageSize * k) % 2 ^ b.wordBits =
      pageAlignUp b.physBits ((pa + length) % 2 ^ b.physBits) ↔ k = rangePages pa length ∧ EndMet b pa length := by
  cases b <;> simp only [rangePages, pageAlignUp, pageAlignDown, pageSize, EndMet, Build.physBits,
    Build.physicalSpace, Build.wordBits, reduceCtorEq, false_implies, and_true, forall_const] at * <;> omega

end Size

theorem mapBase_le (b : Build) (pa length next : Nat) : mapBase b pa length next ≤ next := by
  rw [mapBase]
  split
  · exact Nat.zero_le _
  · exact le_rfl

section Base

variable (hsize : mapSize b pa length = pageSize * rangePages pa length) (next : Nat)

include hsize

theorem mapBase_eq : mapBase b pa length next = if rangePages pa length = 0 then 0 else next := by
  rw [mapBase, hsize]
  refine if_congr ?_ rfl rfl
  rw [pageSize]
  omega

theorem regionPages_mapBase : regionPages b (mapBase b pa length next) (rangePages pa length) =
    regionPages b next (rangePages pa length) := by
  rw [mapBase_eq hsize]
  split
  · rename_i hzero
    rw [hzero]
    rfl
  · rfl

end Base

/-! ### The region -/

theorem heapRegion_nodup (hend : p + pageSize * m ≤ b.kernelHeapEnd) :
    ((regionPages b p m).map (· / pageSize)).Nodup := by
  have hlt := b.kernelHeapEnd_lt
  induction m generalizing p with
  | zero => exact List.nodup_nil
  | succ m ih =>
      have hnext : (pageSize + p) % 2 ^ b.wordBits = p + pageSize := by
        rw [Nat.add_comm, Nat.mod_eq_of_lt]
        rw [pageSize] at *
        omega
      have hrest : p + pageSize + pageSize * m ≤ b.kernelHeapEnd := by
        rw [Nat.mul_succ] at hend
        omega
      rw [regionPages, List.map_cons, List.nodup_cons, hnext]
      refine ⟨fun hmem => ?_, ih hrest⟩
      obtain ⟨va, hva, hpage⟩ := List.mem_map.mp hmem
      obtain ⟨k, -, rfl⟩ := (mem_heapRegion hrest).mp hva
      rw [pageSize] at hpage
      omega

theorem physical_of_page {f k : Nat} (hf : s.translate b p = some f) (hp : p % pageSize = 0) (hk : k < pageSize) :
    s.physical b (p + k) = some (pageSize * f + k) := by
  have hpage : (p + k) / pageSize = p / pageSize := by
    rw [pageSize] at *
    omega
  have hoffset : (p + k) % pageSize = k := by
    rw [pageSize] at *
    omega
  rw [Machine.physical, Build.translate_of_page hpage, hf, Option.map_some, hoffset]

/-- The translations of addresses outside a region are not changed by writes to its entries. -/
theorem Written.outside (hw : Written b entry vas taken s s') (h : MemInv b pool held s)
    (hmem : ∀ va ∈ vas, ∃ k < m, va = p + pageSize * k) (hp : p % pageSize = 0) (hva : ¬ b.Internal va)
    (hout : va < p ∨ p + pageSize * m ≤ va) : s'.leafEntry b va = s.leafEntry b va := by
  refine leafEntry_same h hva (hw.last va (fun hwindow => hva (Or.inl hwindow)) fun va' hva' hpage => ?_)
  obtain ⟨k, hk, rfl⟩ := hmem va' hva'
  have hle : pageSize * (k + 1) ≤ pageSize * m := Nat.mul_le_mul_left _ hk
  rw [pageSize] at *
  omega

section Map

variable (h : HeapInv b pool held s) (hend : pa + length ≤ b.physicalSpace)
  (hfits : s.nextAlloc + pageSize * rangePages pa length ≤ b.kernelHeapEnd)

include h hend hfits

theorem mapEntry_region {j : Nat} (hj : j < rangePages pa length) (hmet : EndMet b pa length) :
    mapEntry b (pageAlignDown pa) s.nextAlloc ((s.nextAlloc + pageSize * j) / pageSize) =
      pageSize * (pa / pageSize + j) ||| pageWrite ||| pagePresent := by
  have hmod := h.next_mod
  have hlt := b.kernelHeapEnd_lt
  have haddress : (pageAlignDown pa + ((s.nextAlloc + pageSize * j) / pageSize * pageSize + 2 ^ b.wordBits -
      s.nextAlloc)) % 2 ^ b.wordBits = pageSize * (pa / pageSize + j) := by
    rw [EndMet] at hmet
    cases b <;> simp only [rangePages, pageAlignDown, pageSize, Build.physicalSpace, Build.wordBits,
      forall_const] at * <;> omega
  rw [mapEntry, haddress]

theorem RegionWritten.rangeMapped (hmet : EndMet b pa length)
    (hregion : RegionWritten b pool held (fun _ => pageAllocated)
      (regionPages b s.nextAlloc (rangePages pa length)) s s₁)
    (hw : Written b (mapEntry b (pageAlignDown pa) s.nextAlloc)
      (regionPages b s.nextAlloc (rangePages pa length)) [] s₁ s')
    (hnext : s'.nextAlloc = s.nextAlloc + pageSize * rangePages pa length) :
    RangeMapped b pa length s ((if rangePages pa length = 0 then 0 else s.nextAlloc) + pa % pageSize) s' := by
  have hmod := h.next_mod
  have hpages : ∀ j < rangePages pa length,
      s'.translate b (s.nextAlloc + pageSize * j) = some (pa / pageSize + j) := by
    intro j hj
    have hset := hw.set _ ((mem_heapRegion hfits).mpr ⟨j, hj, rfl⟩) _ rfl
    rw [mapEntry_region h hend hfits hj hmet] at hset
    rw [translate_eq_leafEntry, leafEntry_of_last hset, if_pos (present_mapped (Nat.mul_mod_right _ _)),
      Option.map_some, entry_eq (Nat.mul_mod_right _ _)]
    rw [pageSize]
    congr 1
    omega
  have hcover := rangePages_eq pa length
  refine ⟨rfl, fun k hk => ?_, fun hpos => ?_, hnext, hpages, fun va hva hout => ?_⟩
  · obtain ⟨j, o, ho, hsplit⟩ : ∃ j o, o < pageSize ∧ pa % pageSize + k = pageSize * j + o :=
      ⟨_, _, Nat.mod_lt _ (by decide), (Nat.div_add_mod _ _).symm⟩
    have hj : j < rangePages pa length := by
      rw [pageSize] at *
      omega
    have hbyte := physical_of_page (hpages j hj) (by rw [pageSize] at *; omega) ho
    have haddress : s.nextAlloc + pa % pageSize + k = s.nextAlloc + pageSize * j + o := by omega
    rw [if_neg (by omega), haddress, hbyte]
    rw [pageSize] at *
    congr 1
    omega
  · rw [if_neg (by rw [pageSize] at *; omega), hnext]
    rw [pageSize] at *
    omega
  · rw [hnext] at hout
    obtain ⟨h₁, taken, hw₁, -⟩ := hregion
    have hmem : ∀ va ∈ regionPages b s.nextAlloc (rangePages pa length), ∃ k < rangePages pa length,
        va = s.nextAlloc + pageSize * k := fun va hva => (mem_heapRegion hfits).mp hva
    rw [hw.outside h₁ hmem hmod hva hout, hw₁.outside h.inv hmem hmod hva hout]

/-- `vmm_map` of a range that fits in the heap. -/
theorem HeapInv.vmmMap_spec (hpa : pa < 2 ^ b.physBits) : wp (vmmMap b (resolveWrite b (n + 2)) pa length) s
    (fun r s' => RangeMapped b pa length s r s' ∧ HeapInv b pool held s' ∧ EndMet b pa length ∧
      (missingTables b s (regionPages b s.nextAlloc (rangePages pa length))).card ≤ (s.freeFrames b).length)
    (fun _ => ¬ EndMet b pa length ∨ (s.freeFrames b).length <
      (missingTables b s (regionPages b s.nextAlloc (rangePages pa length))).card) := by
  have hlt := b.kernelHeapEnd_lt
  have hmod := h.next_mod
  have hge := h.next_ge
  have hsize : pageSize * rangePages pa length < 2 ^ b.wordBits := by omega
  have hmap := mapSize_eq hend hsize
  have hpages : mapSize b pa length / pageSize = rangePages pa length := by
    rw [hmap, Nat.mul_div_cancel_left _ (by decide)]
  have hmem : ∀ va ∈ regionPages b s.nextAlloc (rangePages pa length), b.InHeap va :=
    fun va hva => heapRegion_inHeap hge hfits hva
  have hbase := mapBase_eq hmap s.nextAlloc
  have hsame := regionPages_mapBase hmap s.nextAlloc
  have hfull := Memory.vmmMap_full (n := n) pa length h.inv hpa h.next_lt hmod (by rwa [hmap])
    (by rw [hpages]; exact fun va hva => (hmem va hva).ordinary)
  rw [hpages, hsame] at hfull
  refine hfull.mono ?_ ?_
  · rintro r s' ⟨rfl, hinv, hnext, ⟨s₂, k, hregion, hk, hstop, hw⟩, -⟩
    obtain ⟨rfl, hmet⟩ := (loop_meets hpa hend hsize hk).mp hstop
    rw [heapRegion_end hfits] at hnext
    rw [hsame] at hw
    have hw' : Written b (mapEntry b (pageAlignDown pa) s.nextAlloc)
        (regionPages b s.nextAlloc (rangePages pa length)) [] s₂ s' := by
      by_cases hzero : rangePages pa length = 0
      · rw [hzero] at hw ⊢
        exact { hw with set := fun _ hva => absurd hva List.not_mem_nil }
      · rwa [hbase, if_neg hzero] at hw
    have hoffset : pa - pageAlignDown pa = pa % pageSize := by
      rw [pageAlignDown, pageSize]
      omega
    rw [hbase, hoffset]
    refine ⟨hregion.rangeMapped h hend hfits hmet hw' hnext, ⟨hinv, ?_, ?_, ?_, ?_⟩, hmet, ?_⟩
    · obtain ⟨-, taken, hw₁, -⟩ := hregion
      exact (h.table.mono hw₁.table).mono hw.table
    · rw [hnext, pageSize] at *
      omega
    · omega
    · omega
    · obtain ⟨-, taken, hw₁, hlength⟩ := hregion
      rw [hw₁.free, ← hlength, List.length_append]
      exact Nat.le_add_right _ _
  · rintro e ((hmemory | ⟨va, hva, hnone⟩) | ⟨-, hover⟩ | ⟨s₂, ⟨h₂, taken, hw₁, -⟩, hloop⟩)
    · exact Or.inr hmemory.2
    · exact absurd hnone (h.table va (hmem va hva))
    · have hle := Nat.mod_le (mapBase b pa length s.nextAlloc + mapSize b pa length) (2 ^ b.physBits)
      have hbound := mapBase_le b pa length s.nextAlloc
      omega
    · rcases hloop with hmiss | ⟨va, hva, hmapped⟩ | hdouble
      · exact Or.inl fun hmet => hmiss _ le_rfl ((loop_meets hpa hend hsize le_rfl).mpr ⟨rfl, hmet⟩)
      · refine absurd ?_ hmapped
        rw [translate_eq_none_iff (hw₁.set va hva va rfl)]
        exact not_present_allocated
      · exact absurd (heapRegion_nodup hfits) hdouble

end Map

theorem HeapInv.vmmMap_iff (h : HeapInv b pool held s) (hend : pa + length ≤ b.physicalSpace)
    (hfits : s.nextAlloc + pageSize * rangePages pa length ≤ b.kernelHeapEnd) (hpa : pa < 2 ^ b.physBits) :
    (∃ r s', vmmMap b (resolveWrite b (n + 2)) pa length s = .ok (r, s') ∧ RangeMapped b pa length s r s') ↔
      EndMet b pa length ∧ (missingTables b s (regionPages b s.nextAlloc (rangePages pa length))).card ≤
        (s.freeFrames b).length := by
  have hspec := h.vmmMap_spec (n := n) hend hfits hpa
  constructor
  · rintro ⟨r, s', hrun, -⟩
    exact (hspec.ok hrun).2.2
  · rintro ⟨hmet, hfree⟩
    obtain ⟨r, s', hrun, hmapped, -⟩ := (hspec.mono (fun _ _ hq => hq) fun e he => by
      rcases he with hnot | hlt
      · exact hnot hmet
      · omega).returns
    exact ⟨r, s', hrun, hmapped⟩

/-! ### Runs -/

theorem RunInv.heapInv (h : RunInv b pool c) (htable : HeapTable b c.machine)
    (hge : b.kernelHeapBegin ≤ c.machine.nextAlloc) (hle : c.machine.nextAlloc ≤ b.kernelHeapEnd) :
    HeapInv b pool c.held c.machine :=
  ⟨h.inv, htable, h.nextAlloc_mod, hge, hle⟩

/-- In every state in which the range fits in what is left of the heap, `vmm_map` maps it byte by byte,
exactly when its loop can meet the end and the page tables that are missing find frames. -/
theorem vmmMap_translates (hbase : LowMap map) (hdisjoint : DisjointMap map) (hstart : Started b image map n s)
    (hrun : Run b (n + 2) (Permitted b) (Callers.start s) c) (hge : b.kernelHeapBegin ≤ c.machine.nextAlloc)
    (hpa : pa < 2 ^ b.physBits) (hend : pa + length ≤ b.physicalSpace)
    (hfits : c.machine.nextAlloc + pageSize * rangePages pa length ≤ b.kernelHeapEnd) :
    (∃ r s', vmmMap b (resolveWrite b (n + 2)) pa length c.machine = .ok (r, s') ∧
        RangeMapped b pa length c.machine r s') ↔
      EndMet b pa length ∧
        (missingTables b c.machine (regionPages b c.machine.nextAlloc (rangePages pa length))).card ≤
          (c.machine.freeFrames b).length := by
  obtain ⟨hinv, htable⟩ := hrun.heapTable hbase hdisjoint hstart fun _ _ hop => hop
  exact (hinv.heapInv htable hge (Nat.le_of_add_right_le hfits)).vmmMap_iff hend hfits hpa

/-- The last two kilobytes below 4 GB. -/
theorem vmmMap_translates_top : ∃ s s', Started .i386 (smallImage .i386) smallMap 0 s ∧
    vmmMap .i386 (resolveWrite .i386 2) 0xFFFFF800 0x800 s = .ok (0xE0000800, s') ∧
      s'.physical .i386 0xE0000FFF = some 0xFFFFFFFF := by
  obtain ⟨s, hstart⟩ := started_small .i386 0
  have hstate := started_state smallMap_low smallMap_disjoint hstart
  have hrange : rangePages 0xFFFFF800 0x800 = 1 := by decide
  have hnext := hstate.nextAlloc
  have hfits : s.nextAlloc + pageSize * rangePages 0xFFFFF800 0x800 ≤ Build.i386.kernelHeapEnd := by
    rw [hnext]
    decide
  have hfree : (missingTables .i386 s (regionPages .i386 s.nextAlloc (rangePages 0xFFFFF800 0x800))).card ≤
      (s.freeFrames .i386).length := by
    refine (card_missingTables_le _ _).trans ?_
    rw [regionPages_length, hrange, hstate.free, smallMap_length]
    decide
  obtain ⟨r, s', hrun, hmapped⟩ := (vmmMap_translates smallMap_low smallMap_disjoint hstart .start
    (by rw [Callers.start, hnext]) (by decide) (by decide) hfits).mpr ⟨nofun, hfree⟩
  have hr : r = 0xE0000800 := by
    rw [hmapped.result, hrange, Callers.start, hnext]
    decide
  subst hr
  exact ⟨s, s', hstart, hrun, hmapped.bytes 0x7FF (by decide)⟩

/-- On PAE the loop counter has 32 bits: it never meets an end at 4 GB. -/
theorem vmmMap_endless : ∃ s, Started .pae (smallImage .pae) smallMap 0 s ∧
    ¬ ∃ r s', vmmMap .pae (resolveWrite .pae 2) 0xFFFFF000 0x1000 s = .ok (r, s') := by
  obtain ⟨s, hstart⟩ := started_small .pae 0
  have hstate := started_state smallMap_low smallMap_disjoint hstart
  refine ⟨s, hstart, fun ⟨r, s', hrun⟩ => ?_⟩
  have hfits : s.nextAlloc + pageSize * rangePages 0xFFFFF000 0x1000 ≤ Build.pae.kernelHeapEnd := by
    rw [hstate.nextAlloc]
    decide
  have hmet := ((hstate.heapInv.vmmMap_spec (by decide) hfits (by decide)).ok hrun).2.2.1 rfl
  exact absurd hmet (by decide)

end Kiznix.Memory
