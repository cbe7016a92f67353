import Kiznix.MemHeap
import Kiznix.RunLog
import Kiznix.WordBytes

/-! The regions of `vmm_alloc` as their owners see them: bytes that are 0 until they are written, although the page
fault handler puts the frames in at the first write. -/

namespace Kiznix.Demand

open Memory RunLog WordBytes

/-! ### Accesses to bytes -/

/-- The byte of a frame at the offset of an address. -/
def byteAt (b : Build) (s : Machine) (f va : Nat) : Nat := byteOf (s.mem f (b.wordIndex va)) (va % b.entrySize)

def putByte (b : Build) (s : Machine) (f va v : Nat) : Machine :=
  s.write f (b.wordIndex va) (setByte (s.mem f (b.wordIndex va)) (va % b.entrySize) v)

def readByte (b : Build) (va : Nat) : M Nat := do
  let w ← load b va
  return byteOf w (va % b.entrySize)

/-- A write, whose page fault `resolve` handles. -/
def writeByte (b : Build) (resolve : Nat → M Nat) (va v : Nat) : M Unit := do
  let f ← resolve va
  modify fun s => putByte b s f va v

/-! ### Runs -/

inductive Request where
  | alloc (length : Nat)
  | write (va v : Nat)
  | read (va : Nat)

inductive Event where
  | allocated (start length : Nat)
  | wrote (va v : Nat)
  | returned (va v : Nat)
  deriving DecidableEq

def reply {α : Type} (x : M α) (s : Machine) (event : α → Event) : Option (Machine × List Event) :=
  match x s with
  | .ok (r, s') => some (s', [event r])
  | .error _ => none

/-- There is no step when the kernel stops. -/
def step (b : Build) (n : Nat) (s : Machine) : Request → Option (Machine × List Event)
  | .alloc length => reply (vmmAlloc b (resolveWrite b n) length) s fun r => .allocated r length
  | .write va v => reply (writeByte b (resolveWrite b n) va v) s fun _ => .wrote va v
  | .read va => reply (readByte b va) s fun v => .returned va v

/-- The address is in a region that was returned. -/
def InRegion (log : List Event) (va : Nat) : Prop :=
  ∃ start length, .allocated start length ∈ log ∧ start ≤ va ∧ va < start + length

/-- The page of the address was written. -/
def Touched (log : List Event) (va : Nat) : Prop := ∃ va' v, .wrote va' v ∈ log ∧ va' / pageSize = va / pageSize

/-- Requests fit in the heap, accesses are to the regions, and the first access to a page is a write. -/
def Allowed (b : Build) (s : Machine) (log : List Event) : Request → Prop
  | .alloc length => Fits b s length
  | .write va v => InRegion log va ∧ v < 256
  | .read va => InRegion log va ∧ Touched log va

/-- There are frames for the page tables or the page that the request needs. -/
def Enough (b : Build) (s : Machine) : Request → Prop
  | .alloc length =>
      (missingTables b s (regionPages b s.nextAlloc (allocPages b length))).card ≤ (s.freeFrames b).length
  | .write va _ => s.translate b va = none → s.freeFrames b ≠ []
  | .read _ => True

/-- Memory that is 0 at first, after the writes of a run. -/
def contents : List Event → Nat → Nat
  | [] => fun _ => 0
  | .wrote va v :: log => Function.update (contents log) va v
  | .allocated _ _ :: log | .returned _ _ :: log => contents log

variable {b : Build} {image : KernelImage b} {map : List MemoryMapEntry} {pool held : List Nat} {s₀ s s' s₁ : Machine}
  {log : List Event} {va va' f v w n page : Nat}

theorem contents_of_not_written (h : ∀ v, .wrote va v ∉ log) : contents log va = 0 := by
  induction log with
  | nil => rfl
  | cons e log ih =>
      have hrest := ih fun v hmem => h v (List.mem_cons_of_mem _ hmem)
      cases e with
      | wrote va' v =>
          have hne : va ≠ va' := by
            rintro rfl
            exact h v List.mem_cons_self
          rw [contents, Function.update_of_ne hne, hrest]
      | allocated _ _ | returned _ _ => exact hrest

/-! ### Bytes of frames -/

theorem byteAt_congr (h : s'.mem f = s.mem f) : byteAt b s' f va = byteAt b s f va := by
  rw [byteAt, byteAt, h]

theorem byteAt_zero (h : ∀ i, s.mem f i = 0) : byteAt b s f va = 0 := by
  rw [byteAt, h, byteOf_zero]

theorem byteAt_offset (h : va' % pageSize = va % pageSize) : byteAt b s f va' = byteAt b s f va := by
  have hbyte : va' % b.entrySize = va % b.entrySize := by
    cases b <;> simp only [Build.entrySize, pageSize] at * <;> omega
  rw [byteAt, byteAt, Build.wordIndex, h, hbyte]
  rfl

theorem byteAt_putByte_same (hv : v < 256) : byteAt b (putByte b s f va v) f va = v := by
  rw [byteAt, putByte, Machine.write_same]
  exact byteOf_setByte_same hv

/-- The other bytes of the page. -/
theorem byteAt_putByte_of_ne (hv : v < 256) (hpage : va' / pageSize = va / pageSize) (hne : va' ≠ va) :
    byteAt b (putByte b s f va v) f va' = byteAt b s f va' := by
  rw [byteAt, putByte]
  by_cases hword : b.wordIndex va' = b.wordIndex va
  · rw [hword, Machine.write_same, byteOf_setByte_of_ne hv, byteAt, hword]
    intro hbyte
    refine hne ?_
    cases b <;> simp only [Build.wordIndex, Build.entrySize, pageSize] at * <;> omega
  · rw [Machine.write_of_ne fun h => hword h.2, byteAt]

theorem mem_putByte_of_ne {g : Nat} (hne : g ≠ f) : (putByte b s f va v).mem g = s.mem g :=
  funext fun _ => Machine.write_of_ne fun h => hne h.1

/-! ### Invariant -/

/-- Translations outside the windows, while the free-page stack is empty. -/
theorem translate_kept (hcount : s.stackCount b = 0) (h : s'.lastEntry b va = s.lastEntry b va ∨
    s'.lastEntry b va = some 0 ∧ (s.lastEntry b va = none ∨ Dropped b s s' va)) :
    s'.translate b va = s.translate b va := by
  rcases h with heq | ⟨hzero, hnone | ⟨j, -, -, hlt⟩⟩
  · exact translate_congr heq
  · rw [translate_of_last hzero, translate_eq_leafEntry, Machine.leafEntry, hnone]
    rfl
  · omega

theorem inHeap_of_page (hva : b.InHeap va) (hpage : va' / pageSize = va / pageSize) : b.InHeap va' := by
  cases b <;> simp only [Build.InHeap, Build.kernelHeapBegin, Build.kernelHeapEnd, pageSize] at * <;> omega

structure Inv (b : Build) (pool : List Nat) (s₀ s : Machine) (log : List Event) : Prop where
  heap : HeapInv b pool [] s
  stackCount : s.stackCount b = 0
  coherent : Coherent b s
  isTable : ∀ f, s.IsTable b f → f ∈ pool ∨ s₀.IsTable b f
  outside : ∀ va, ¬ b.InWindow va → ¬ b.InHeap va → s.translate b va = s₀.translate b va
  regions : ∀ start length, .allocated start length ∈ log →
    length = 0 ∨ b.kernelHeapBegin ≤ start ∧ start + length ≤ s.nextAlloc
  /-- Pages of the regions that were not written yet. -/
  marked : ∀ va, b.InHeap va → va < s.nextAlloc → s.translate b va = none → s.lastEntry b va = some pageAllocated
  beyond : ∀ va, b.InHeap va → s.nextAlloc ≤ va → s.translate b va = none
  data : ∀ va f, b.InHeap va → s.translate b va = some f → f ∈ s.handedOut ∧ ¬ s.IsTable b f
  unique : ∀ va va' f, b.InHeap va → b.InHeap va' → s.translate b va = some f → s.translate b va' = some f →
    va' / pageSize = va / pageSize
  contents : ∀ va f, b.InHeap va → s.translate b va = some f → byteAt b s f va = contents log va
  written : ∀ va v, .wrote va v ∈ log → b.InHeap va ∧ s.translate b va ≠ none

theorem start_inv (h : StartState b image map s₀) : Inv b (image.pool map) s₀ s₀ [] := by
  have hnone : ∀ va, b.InHeap va → s₀.translate b va = none := by
    intro va hva
    have hlast := h.last va hva.ordinary.1 hva.ordinary.not_inWindow
    rw [if_neg hva.not_inKernel] at hlast
    rw [translate_eq_leafEntry, Machine.leafEntry, hlast]
    rfl
  refine ⟨h.heapInv, h.stackCount, h.coherent, fun _ => Or.inr, fun _ _ _ => rfl,
    fun _ _ hmem => absurd hmem List.not_mem_nil, fun va hva hlt => ?_, fun va hva _ => hnone va hva,
    fun va f hva hf => ?_, fun va _ f hva _ hf => ?_, fun va f hva hf => ?_,
    fun _ _ hmem => absurd hmem List.not_mem_nil⟩
  · have hge := hva.1
    rw [h.nextAlloc] at hlt
    omega
  all_goals
    rw [hnone va hva] at hf
    cases hf

section PagedIn

variable {w : Nat} (hp : PagedIn b va page w s s₁)

include hp

theorem PagedIn.translate_same (hw : entryFrame w = some (page / pageSize)) (hpage : va' / pageSize = va / pageSize) :
    s₁.translate b va' = some (page / pageSize) := by
  rw [translate_of_last (hp.last va' hpage), hw]

theorem PagedIn.translate_of_ne (hcount : s.stackCount b = 0) (hpage : va' / pageSize ≠ va / pageSize)
    (hwindow : ¬ b.InWindow va') : s₁.translate b va' = s.translate b va' :=
  translate_kept hcount ((hp.last_of_ne va' hpage hwindow).imp_right (And.imp_right Or.inr))

/-- A page is the new one, or it is as before. -/
theorem PagedIn.translate_cases (hw : entryFrame w = some (page / pageSize)) (hcount : s.stackCount b = 0)
    (hwindow : ¬ b.InWindow va') (hf : s₁.translate b va' = some f) :
    va' / pageSize = va / pageSize ∧ f = page / pageSize ∨
      va' / pageSize ≠ va / pageSize ∧ s.translate b va' = some f := by
  by_cases hpage : va' / pageSize = va / pageSize
  · rw [PagedIn.translate_same hp hw hpage] at hf
    exact Or.inl ⟨hpage, (Option.some.inj hf).symm⟩
  · rw [PagedIn.translate_of_ne hp hcount hpage hwindow] at hf
    exact Or.inr ⟨hpage, hf⟩

end PagedIn

section Heap

variable (h : Inv b pool s₀ s log)

include h

theorem Inv.not_free (hva : b.InHeap va) (hf : s.translate b va = some f) : f ∉ s.freeFrames b :=
  fun hfree => h.heap.inv.free_not_out hfree (h.data va f hva hf).1

theorem Inv.inHeap_of_region (hva : InRegion log va) : b.InHeap va ∧ va < s.nextAlloc := by
  obtain ⟨start, length, hmem, hge, hlt⟩ := hva
  have hle := h.heap.next_le
  obtain hzero | ⟨hbegin, hend⟩ := h.regions start length hmem
  · omega
  · exact ⟨⟨hbegin.trans hge, by omega⟩, by omega⟩

/-- A page that was written is there. -/
theorem Inv.touched (hva : Touched log va) : s.translate b va ≠ none := by
  obtain ⟨va', v, hmem, hpage⟩ := hva
  rw [← Build.translate_of_page hpage]
  exact (h.written va' v hmem).2

theorem Inv.contents_of_none (hnone : s.translate b va = none) : Demand.contents log va = 0 :=
  contents_of_not_written fun v hmem => (h.written va v hmem).2 hnone

/-! ### Steps -/

/-- The page of an address gets a frame. -/
theorem Inv.paged_in {w : Nat} (hva : b.InHeap va) (hnext : va < s.nextAlloc) (hnone : s.translate b va = none)
    (hinv : MemInv b pool [] s₁) (hp : PagedIn b va page w s s₁) (hw : entryFrame w = some (page / pageSize)) :
    Inv b pool s₀ s₁ log := by
  have hquiet : Quiet b 1 s := Or.inr (Or.inl h.stackCount)
  have hfree : page / pageSize ∈ s.freeFrames b := by
    rw [hp.free]
    exact List.mem_cons_self
  have hnot_out : page / pageSize ∉ s.handedOut := h.heap.inv.free_not_out hfree
  have hold : ∀ va', va' / pageSize ≠ va / pageSize → ¬ b.InWindow va' → s₁.translate b va' = s.translate b va' :=
    fun _ => PagedIn.translate_of_ne hp h.stackCount
  have hcases : ∀ va' f, b.InHeap va' → s₁.translate b va' = some f → _ :=
    fun _ _ hva' => PagedIn.translate_cases hp hw h.stackCount hva'.ordinary.not_inWindow
  -- What is not mapped is not on the new page.
  have hunmapped : ∀ va', s₁.translate b va' = none → va' / pageSize ≠ va / pageSize := by
    intro va' hnone' hpage
    rw [PagedIn.translate_same hp hw hpage] at hnone'
    cases hnone'
  refine ⟨⟨hinv, h.heap.table.mono (.of_eq hp.tableAt), ?_, ?_, ?_⟩, ?_, hp.coherent hquiet h.coherent, fun f hf => ?_,
    fun va' hwindow hheap => ?_, ?_, fun va' hva' hlt hnone' => ?_, fun va' hva' hge => ?_, fun va' f hva' hf => ?_,
    fun va₁ va₂ f hva₁ hva₂ hf₁ hf₂ => ?_, fun va' f hva' hf => ?_, fun va' v hmem => ?_⟩
  · rw [hp.nextAlloc]
    exact h.heap.next_mod
  · rw [hp.nextAlloc]
    exact h.heap.next_ge
  · rw [hp.nextAlloc]
    exact h.heap.next_le
  · rw [hp.count, h.stackCount]
  · exact h.isTable f ((hp.isTable f).mp hf)
  · rw [hold va' (fun hpage => hheap (inHeap_of_page hva hpage)) hwindow, h.outside va' hwindow hheap]
  · rw [hp.nextAlloc]
    exact h.regions
  · have hpage := hunmapped va' hnone'
    rw [hold va' hpage hva'.ordinary.not_inWindow] at hnone'
    rw [hp.nextAlloc] at hlt
    rcases hp.last_of_ne va' hpage hva'.ordinary.not_inWindow with heq | ⟨-, j, -, -, hcount⟩
    · rw [heq, h.marked va' hva' hlt hnone']
    · have hzero := h.stackCount
      omega
  · have hmod := h.heap.next_mod
    rw [hp.nextAlloc] at hge
    have hpage : va' / pageSize ≠ va / pageSize := by
      rw [pageSize] at *
      omega
    rw [hold va' hpage hva'.ordinary.not_inWindow, h.beyond va' hva' hge]
  · rw [hp.out, hp.isTable]
    rcases hcases va' f hva' hf with ⟨-, rfl⟩ | ⟨-, hf⟩
    · exact ⟨List.mem_cons_self, fun htable => h.heap.inv.tables_used _ htable hfree⟩
    · exact ⟨List.mem_cons_of_mem _ (h.data va' f hva' hf).1, (h.data va' f hva' hf).2⟩
  · rcases hcases va₁ f hva₁ hf₁ with ⟨hpage₁, rfl⟩ | ⟨-, hf₁⟩
    · rcases hcases va₂ _ hva₂ hf₂ with ⟨hpage₂, -⟩ | ⟨-, hf₂⟩
      · rw [hpage₁, hpage₂]
      · exact absurd (h.data va₂ _ hva₂ hf₂).1 hnot_out
    · rcases hcases va₂ f hva₂ hf₂ with ⟨-, rfl⟩ | ⟨-, hf₂⟩
      · exact absurd (h.data va₁ _ hva₁ hf₁).1 hnot_out
      · exact h.unique va₁ va₂ f hva₁ hva₂ hf₁ hf₂
  · rcases hcases va' f hva' hf with ⟨hpage, rfl⟩ | ⟨-, hf⟩
    · rw [byteAt_zero hp.zero, h.contents_of_none (by rw [Build.translate_of_page hpage, hnone])]
    · obtain ⟨hout, htable⟩ := h.data va' f hva' hf
      rw [byteAt_congr (hp.mem f htable fun heq => hnot_out (heq ▸ hout)), h.contents va' f hva' hf]
  · obtain ⟨hva', hmapped⟩ := h.written va' v hmem
    refine ⟨hva', fun hnone' => hmapped ?_⟩
    rwa [hold va' (hunmapped va' hnone') hva'.ordinary.not_inWindow] at hnone'

/-- The contents of frames that are neither tables nor free may change, and translations may be cached. -/
theorem Inv.of_data {log' : List Event} (hs' : s' = { s with mem := s'.mem, tlb := s'.tlb })
    (hmem : ∀ f, s.IsTable b f ∨ f ∈ s.freeFrames b → s'.mem f = s.mem f)
    (htlb : ∀ e ∈ s'.tlb, e ∈ s.tlb ∨ s.translate b (pageSize * e.1) = some e.2)
    (hregions : ∀ start length, .allocated start length ∈ log' → .allocated start length ∈ log)
    (hwritten : ∀ va v, .wrote va v ∈ log' → .wrote va v ∈ log ∨ b.InHeap va ∧ s.translate b va ≠ none)
    (hcontents : ∀ va f, b.InHeap va → s.translate b va = some f → byteAt b s' f va = Demand.contents log' va) :
    Inv b pool s₀ s' log' := by
  obtain ⟨hinv, hdata⟩ := h.heap.inv.data_change s' hs' hmem
  have hnext : s'.nextAlloc = s.nextAlloc := by rw [hs']
  have hout : s'.handedOut = s.handedOut := by rw [hs']
  have hsame : ∀ va, s'.translate b va = s.translate b va := fun va => translate_congr (hdata.last va)
  refine ⟨⟨hinv, h.heap.table.mono (.of_eq hdata.tableAt), ?_, ?_, ?_⟩, ?_, hdata.coherent htlb h.coherent,
    fun f hf => ?_, fun va hwindow hheap => ?_, fun start length hmem' => ?_, fun va hva hlt hnone => ?_,
    fun va hva hge => ?_, fun va f hva hf => ?_, fun va₁ va₂ f hva₁ hva₂ hf₁ hf₂ => ?_, fun va f hva hf => ?_,
    fun va v hmem' => ?_⟩
  · rw [hnext]
    exact h.heap.next_mod
  · rw [hnext]
    exact h.heap.next_ge
  · rw [hnext]
    exact h.heap.next_le
  · rw [hs']
    exact h.stackCount
  · exact h.isTable f ((hdata.isTable f).mp hf)
  · rw [hsame, h.outside va hwindow hheap]
  · rw [hnext]
    exact h.regions start length (hregions start length hmem')
  · rw [hsame] at hnone
    rw [hnext] at hlt
    rw [hdata.last, h.marked va hva hlt hnone]
  · rw [hnext] at hge
    rw [hsame, h.beyond va hva hge]
  · rw [hsame] at hf
    rw [hout, hdata.isTable]
    exact h.data va f hva hf
  · rw [hsame] at hf₁ hf₂
    exact h.unique va₁ va₂ f hva₁ hva₂ hf₁ hf₂
  · rw [hsame] at hf
    exact hcontents va f hva hf
  · rw [hsame]
    exact (hwritten va v hmem').elim (h.written va v) id

theorem Inv.put_mem {g : Nat} (hva : b.InHeap va) (hf : s.translate b va = some f)
    (hg : s.IsTable b g ∨ g ∈ s.freeFrames b) : (putByte b (s.cache va f) f va v).mem g = s.mem g := by
  refine mem_putByte_of_ne ?_
  rintro rfl
  exact hg.elim (h.data va g hva hf).2 (h.not_free hva hf)

theorem Inv.put_translate (hva : b.InHeap va) (hf : s.translate b va = some f) (va' : Nat) :
    (putByte b (s.cache va f) f va v).translate b va' = s.translate b va' :=
  translate_congr ((h.heap.inv.data_change _ rfl fun _ hg => h.put_mem hva hf hg).2.last va')

/-- A byte of a page that is there is written. -/
theorem Inv.put (hva : b.InHeap va) (hf : s.translate b va = some f) (hv : v < 256) :
    Inv b pool s₀ (putByte b (s.cache va f) f va v) (.wrote va v :: log) := by
  refine h.of_data rfl (fun g hg => h.put_mem hva hf hg) (fun e he => ?_) (fun start length hmem => ?_)
    (fun va' v' hmem => ?_) fun va' g hva' hg => ?_
  · rcases List.mem_cons.mp he with rfl | he
    · exact Or.inr (translate_page_mul.trans hf)
    · exact Or.inl he
  · exact (List.mem_cons.mp hmem).resolve_left nofun
  · rcases List.mem_cons.mp hmem with heq | hmem
    · obtain ⟨rfl, rfl⟩ := Event.wrote.inj heq
      exact Or.inr ⟨hva, by rw [hf]; exact Option.some_ne_none f⟩
    · exact Or.inl hmem
  · rw [Demand.contents]
    by_cases heq : va' = va
    · subst heq
      obtain rfl := Option.some.inj (hf.symm.trans hg)
      rw [Function.update_self, byteAt_putByte_same hv]
    · rw [Function.update_of_ne heq, ← h.contents va' g hva' hg]
      by_cases hframe : g = f
      · subst hframe
        exact byteAt_putByte_of_ne hv (h.unique va va' g hva hva' hf hg) heq
      · exact byteAt_congr (mem_putByte_of_ne hframe)

/-- A byte of a page that is there is read. -/
theorem Inv.get (hf : s.translate b va = some f) : Inv b pool s₀ (s.cache va f) (.returned va v :: log) := by
  refine h.of_data rfl (fun _ _ => rfl) (fun e he => ?_) (fun start length hmem => ?_) (fun va' v' hmem => ?_)
    fun va' g hva' hg => h.contents va' g hva' hg
  · rcases List.mem_cons.mp he with rfl | he
    · exact Or.inr (translate_page_mul.trans hf)
    · exact Or.inl he
  · exact (List.mem_cons.mp hmem).resolve_left nofun
  · exact Or.inl ((List.mem_cons.mp hmem).resolve_left nofun)

end Heap

/-! ### Regions -/

section Alloc

variable {length start : Nat} {taken : List Nat} (h : Inv b pool s₀ s log) (hfits : Fits b s length)
  (hnext : s'.nextAlloc = s.nextAlloc + pageSize * allocPages b length)
  (hw : Written b (fun _ => pageAllocated) (regionPages b s.nextAlloc (allocPages b length)) taken s s')

include h hfits hnext hw

/-- The pages of the new region are marked. -/
theorem Inv.region_marked (hlow : s.nextAlloc ≤ va) (hhigh : va < s'.nextAlloc) :
    s'.lastEntry b va = some pageAllocated := by
  obtain ⟨-, -, hend⟩ := h.heap.allocPages_bounds hfits
  have hmod := h.heap.next_mod
  rw [hnext] at hhigh
  refine hw.set (pageAlignDown va) ((mem_heapRegion hend).mpr ⟨(va - s.nextAlloc) / pageSize, ?_, ?_⟩) va ?_
  · rw [pageSize] at *
    omega
  · rw [pageAlignDown, pageSize] at *
    omega
  · rw [pageAlignDown, Nat.mul_div_cancel _ (by decide)]

theorem Inv.region_unmapped (hlow : s.nextAlloc ≤ va) (hhigh : va < s'.nextAlloc) : s'.translate b va = none := by
  rw [translate_of_last (h.region_marked hfits hnext hw hlow hhigh)]
  exact if_neg not_present_allocated

theorem Inv.region_last (hwindow : ¬ b.InWindow va) (hout : va < s.nextAlloc ∨ s'.nextAlloc ≤ va) :
    s'.lastEntry b va = s.lastEntry b va ∨
      s'.lastEntry b va = some 0 ∧ (s.lastEntry b va = none ∨ Dropped b s s' va) := by
  obtain ⟨-, -, hend⟩ := h.heap.allocPages_bounds hfits
  have hmod := h.heap.next_mod
  refine hw.last va hwindow fun va' hmem hpage => ?_
  obtain ⟨k, hk, rfl⟩ := (mem_heapRegion hend).mp hmem
  rw [hnext] at hout
  rw [pageSize] at *
  omega

theorem Inv.region_outside (hwindow : ¬ b.InWindow va) (hout : va < s.nextAlloc ∨ s'.nextAlloc ≤ va) :
    s'.translate b va = s.translate b va :=
  translate_kept h.stackCount (h.region_last hfits hnext hw hwindow hout)

/-- Nothing in the heap is mapped anew. -/
theorem Inv.region_back (hva : b.InHeap va) (hf : s'.translate b va = some f) : s.translate b va = some f := by
  by_cases hregion : s.nextAlloc ≤ va ∧ va < s'.nextAlloc
  · rw [h.region_unmapped hfits hnext hw hregion.1 hregion.2] at hf
    cases hf
  · rwa [h.region_outside hfits hnext hw hva.ordinary.not_inWindow (by omega)] at hf

/-- What was mapped stays mapped. -/
theorem Inv.region_kept (hwindow : ¬ b.InWindow va) (hf : s.translate b va = some f) :
    s'.translate b va = some f := by
  obtain ⟨-, -, hend⟩ := h.heap.allocPages_bounds hfits
  have hout : va < s.nextAlloc ∨ s'.nextAlloc ≤ va := by
    by_contra hregion
    have hbegin := h.heap.next_ge
    have hva : b.InHeap va := ⟨by omega, by omega⟩
    rw [h.beyond va hva (by omega)] at hf
    cases hf
  rw [h.region_outside hfits hnext hw hwindow hout, hf]

omit hfits hnext in
theorem Inv.region_data (hva : b.InHeap va) (hf : s.translate b va = some f) :
    f ∉ taken ∧ ¬ s'.IsTable b f := by
  have htaken : f ∉ taken := fun hmem => h.not_free hva hf (by rw [hw.free]; exact List.mem_append_left _ hmem)
  exact ⟨htaken, fun htable => (hw.isTable f htable).elim (h.data va f hva hf).2 htaken⟩

theorem Inv.alloc (hstart : start = if length = 0 then 0 else s.nextAlloc) (h' : HeapInv b pool [] s')
    (hcoherent : Coherent b s') : Inv b pool s₀ s' (.allocated start length :: log) := by
  obtain ⟨hle, -, hend⟩ := h.heap.allocPages_bounds hfits
  have hbegin := h.heap.next_ge
  refine ⟨h', ?_, hcoherent, fun f hf => ?_, fun va hwindow hheap => ?_, fun start' length' hmem => ?_,
    fun va hva hlt hnone => ?_, fun va hva hge => ?_, fun va f hva hf => ?_,
    fun va₁ va₂ f hva₁ hva₂ hf₁ hf₂ => ?_, fun va f hva hf => ?_, fun va v hmem => ?_⟩
  · rw [hw.count, h.stackCount, Nat.zero_sub]
  · refine (hw.isTable f hf).elim (h.isTable f) fun htaken => Or.inl ?_
    refine h.heap.inv.partition.mem_iff.mp (List.mem_append_left _ ?_)
    rw [hw.free]
    exact List.mem_append_left _ htaken
  · rw [h.region_outside hfits hnext hw hwindow, h.outside va hwindow hheap]
    rw [Build.InHeap] at hheap
    omega
  · rcases List.mem_cons.mp hmem with heq | hmem
    · obtain ⟨rfl, rfl⟩ := Event.allocated.inj heq
      by_cases hzero : length' = 0
      · exact Or.inl hzero
      · rw [if_neg hzero] at hstart
        exact Or.inr ⟨hstart ▸ hbegin, by omega⟩
    · exact (h.regions start' length' hmem).imp_right (And.imp_right fun hbelow => by omega)
  · by_cases hlow : s.nextAlloc ≤ va
    · exact h.region_marked hfits hnext hw hlow hlt
    · have hwindow := hva.ordinary.not_inWindow
      rw [h.region_outside hfits hnext hw hwindow (by omega)] at hnone
      have hmark := h.marked va hva (by omega) hnone
      rcases h.region_last hfits hnext hw hwindow (by omega) with heq | ⟨-, hnone' | ⟨j, -, -, hcount⟩⟩
      · rw [heq, hmark]
      · rw [hmark] at hnone'
        cases hnone'
      · have hzero := h.stackCount
        omega
  · rw [h.region_outside hfits hnext hw hva.ordinary.not_inWindow (Or.inr hge), h.beyond va hva (by omega)]
  · have hf := h.region_back hfits hnext hw hva hf
    rw [hw.out]
    exact ⟨List.mem_append_right _ (h.data va f hva hf).1, (h.region_data hw hva hf).2⟩
  · exact h.unique va₁ va₂ f hva₁ hva₂ (h.region_back hfits hnext hw hva₁ hf₁) (h.region_back hfits hnext hw hva₂ hf₂)
  · have hf := h.region_back hfits hnext hw hva hf
    rw [byteAt_congr (hw.mem f (h.data va f hva hf).2 (h.region_data hw hva hf).1), h.contents va f hva hf]
    rfl
  · have hold := List.mem_of_ne_of_mem Event.noConfusion hmem
    obtain ⟨hva, hmapped⟩ := h.written va v hold
    obtain ⟨f, hf⟩ := Option.ne_none_iff_exists'.mp hmapped
    rw [h.region_kept hfits hnext hw hva.ordinary.not_inWindow hf]
    exact ⟨hva, Option.some_ne_none f⟩

end Alloc

/-! ### Requests -/

section Requests

variable {events : List Event} (h : Inv b pool s₀ s log)

include h

/-- A region, unless page tables run out of frames. -/
theorem Inv.alloc_spec {length : Nat} (hfits : Fits b s length) : wp (vmmAlloc b (resolveWrite b (n + 2)) length) s
    (fun r s' => r = (if length = 0 then 0 else s.nextAlloc) ∧ Inv b pool s₀ s' (.allocated r length :: log) ∧
      ∃ taken, s'.nextAlloc = s.nextAlloc + pageSize * allocPages b length ∧
        Written b (fun _ => pageAllocated) (regionPages b s.nextAlloc (allocPages b length)) taken s s' ∧
        taken.length = (missingTables b s (regionPages b s.nextAlloc (allocPages b length))).card)
    (fun e => e = .outOfPhysicalMemory ∧ ¬ Enough b s (.alloc length)) := by
  have hquiet : ∀ n, Quiet b n s := fun n => Or.inr (Or.inl h.stackCount)
  have hheap := h.heap.vmmAlloc_spec (n := n) hfits
  have hregion := Memory.vmmAlloc_spec (n := n) length h.heap.inv h.heap.next_lt
    fun va hva => (h.heap.regionPages_inHeap hfits hva).ordinary
  refine (hheap.and hregion).mono ?_ fun e he => ⟨he.1, Nat.not_le.mpr he.2⟩
  rintro r s' ⟨⟨hr, h', hnext, -⟩, -, ⟨-, taken, hw, hlength⟩, -, hcoherent⟩
  exact ⟨hr, h.alloc hfits hnext hw hr h' (hcoherent (hquiet _) h.coherent), taken, hnext, hw, hlength⟩

/-- A write, unless the page needs a frame and there is none. -/
theorem Inv.write_spec (hva : InRegion log va) : wp (writeByte b (resolveWrite b (n + 2)) va v) s
    (fun _ s' => ∃ s₁ f, (s₁ = s ∨ s.translate b va = none ∧ ∃ page,
        PagedIn b va page (handlerEntry b (pageAlignDown va) page) s s₁) ∧
      Inv b pool s₀ s₁ log ∧ s₁.translate b va = some f ∧ s' = putByte b (s₁.cache va f) f va v)
    (fun e => e = .outOfPhysicalMemory ∧ ¬ Enough b s (.write va v)) := by
  obtain ⟨hheap, hnext⟩ := h.inHeap_of_region hva
  rw [writeByte, wp_bind]
  refine (access_spec h.heap.inv hheap.ordinary).mono ?_ ?_
  · rintro f s' ⟨s₁, hinv, haccessed, hf, rfl⟩
    rw [wp_modify]
    rcases haccessed with ⟨-, rfl⟩ | ⟨w, page, hlast, hempty, hp⟩
    · exact ⟨s₁, f, Or.inl rfl, h, hf, rfl⟩
    · have hnone := (translate_eq_none_iff hlast).mpr hempty
      have h₁ := h.paged_in hheap hnext hnone hinv hp (entryFrame_handlerEntry _ hp.aligned)
      exact ⟨s₁, f, Or.inr ⟨hnone, page, hp⟩, h₁, hf, rfl⟩
  · rintro e ⟨hnone, ⟨rfl, hfree⟩ | ⟨-, hmark⟩⟩
    · exact ⟨rfl, fun henough => henough hnone hfree⟩
    · exact absurd (hmark _ (h.marked va hheap hnext hnone)) (by decide)

theorem Inv.read_eq (hva : InRegion log va) (htouched : Touched log va) :
    ∃ f, s.translate b va = some f ∧
      Demand.step b n s (.read va) = some (s.cache va f, [.returned va (Demand.contents log va)]) := by
  obtain ⟨f, hf⟩ := Option.ne_none_iff_exists'.mp (h.touched htouched)
  refine ⟨f, hf, ?_⟩
  have hread : readByte b va s = .ok (Demand.contents log va, s.cache va f) := by
    rw [readByte, bind_of_ok (load_ok hf), ← h.contents va f (h.inHeap_of_region hva).1 hf]
    rfl
  rw [Demand.step, reply, hread]

end Requests

theorem reply_some {α : Type} {x : M α} {event : α → Event} {events : List Event}
    (h : reply x s event = some (s', events)) : ∃ r, x s = .ok (r, s') ∧ events = [event r] := by
  rw [reply] at h
  split at h
  · rename_i r s₁ hx
    obtain ⟨rfl, rfl⟩ := Prod.mk.inj (Option.some.inj h)
    exact ⟨r, hx, rfl⟩
  · cases h

theorem Inv.step {r : Request} {events : List Event} (h : Inv b pool s₀ s log) (hallowed : Allowed b s log r)
    (hstep : step b (n + 2) s r = some (s', events)) : Inv b pool s₀ s' (events ++ log) := by
  cases r with
  | alloc length =>
      obtain ⟨r, hrun, rfl⟩ := reply_some hstep
      exact ((h.alloc_spec hallowed).ok hrun).2.1
  | write va v =>
      obtain ⟨_, hrun, rfl⟩ := reply_some hstep
      obtain ⟨s₁, f, -, h₁, hf, rfl⟩ := (h.write_spec hallowed.1).ok hrun
      exact h₁.put (h.inHeap_of_region hallowed.1).1 hf hallowed.2
  | read va =>
      obtain ⟨f, hf, heq⟩ := h.read_eq (n := n + 2) hallowed.1 hallowed.2
      obtain ⟨rfl, rfl⟩ := Prod.mk.inj (Option.some.inj (heq.symm.trans hstep))
      exact h.get hf

theorem run_inv (hstart : StartState b image map s₀)
    (h : Reachable s₀ (step b (n + 2)) (Allowed b) s log) : Inv b (image.pool map) s₀ s log :=
  h.invariant (start_inv hstart) fun _ _ _ _ _ _ hinv hallowed hstep => hinv.step hallowed hstep

/-! ### What a request leaves alone -/

/-- The address that a request writes. -/
def Request.Writes : Request → Nat → Prop
  | .write va _, va' => va' = va
  | .alloc _, _ | .read _, _ => False

/-- Pages outside the windows, those of the heap and those that map no frame of the pool, stay and keep their bytes
but the one that is written. -/
def Kept (b : Build) (pool : List Nat) (r : Request) (s s' : Machine) : Prop :=
  ∀ va f, ¬ b.InWindow va → s.translate b va = some f → f ∉ pool ∨ b.InHeap va →
    s'.translate b va = some f ∧ (¬ r.Writes va → byteAt b s' f va = byteAt b s f va)

section Kept

variable {r : Request} {events : List Event} (hstart : StartState b image map s₀)
  (h : Inv b (image.pool map) s₀ s log)

include hstart h

/-- Such a page has a frame that is neither a table nor free. -/
theorem Inv.watched (hwindow : ¬ b.InWindow va) (hf : s.translate b va = some f)
    (hwatched : f ∉ image.pool map ∨ b.InHeap va) : ¬ s.IsTable b f ∧ f ∉ s.freeFrames b := by
  by_cases hheap : b.InHeap va
  · exact ⟨(h.data va f hheap hf).2, h.not_free hheap hf⟩
  · have hpool := hwatched.resolve_right hheap
    refine ⟨fun htable => ?_, fun hfree => hpool (h.heap.inv.partition.mem_iff.mp (List.mem_append_left _ hfree))⟩
    have hboot := (hstart.isTable f).mp ((h.isTable f htable).resolve_left hpool)
    rw [h.outside va hwindow hheap] at hf
    -- The boot code's page tables are not mapped.
    have hlast := hstart.last va (hstart.inv.tree.translate_inTree hf) hwindow
    by_cases hkernel : b.InKernel va
    · rw [if_pos hkernel] at hlast
      rw [translate_of_last hlast] at hf
      split at hf
      · cases hf
      · rename_i hout
        rw [entryFrame_bootEntry] at hf
        exact hout (Option.some.inj hf ▸ hboot)
    · rw [if_neg hkernel] at hlast
      rw [translate_eq_leafEntry, Machine.leafEntry, hlast] at hf
      cases hf

theorem Inv.alloc_kept {length : Nat} {taken : List Nat} (hfits : Fits b s length)
    (hnext : s'.nextAlloc = s.nextAlloc + pageSize * allocPages b length)
    (hw : Written b (fun _ => pageAllocated) (regionPages b s.nextAlloc (allocPages b length)) taken s s') :
    Kept b (image.pool map) (.alloc length) s s' := by
  intro va f hwindow hf hwatched
  obtain ⟨htable, hfree⟩ := h.watched hstart hwindow hf hwatched
  have htaken : f ∉ taken := fun hmem => hfree (by rw [hw.free]; exact List.mem_append_left _ hmem)
  exact ⟨h.region_kept hfits hnext hw hwindow hf, fun _ => byteAt_congr (hw.mem f htable htaken)⟩

omit hstart in
theorem Inv.put_kept (hva : b.InHeap va) (hf : s.translate b va = some f) (hv : v < 256) :
    Kept b (image.pool map) (.write va v) s (putByte b (s.cache va f) f va v) := by
  intro va' g hwindow hg hwatched
  refine ⟨by rw [h.put_translate hva hf, hg], fun hne => ?_⟩
  by_cases hframe : g = f
  · subst hframe
    have hpool : g ∈ image.pool map :=
      h.heap.inv.partition.mem_iff.mp (List.mem_append_right _ (h.data va g hva hf).1)
    have hheap := hwatched.resolve_left (not_not.mpr hpool)
    exact byteAt_putByte_of_ne hv (h.unique va va' g hva hheap hf hg) hne
  · exact byteAt_congr (mem_putByte_of_ne hframe)

theorem Inv.paged_in_kept {w : Nat} (hnone : s.translate b va = none) (hp : PagedIn b va page w s s₁) :
    Kept b (image.pool map) (.write va v) s s₁ := by
  intro va' g hwindow hg hwatched
  obtain ⟨htable, hfree⟩ := h.watched hstart hwindow hg hwatched
  have hpage : va' / pageSize ≠ va / pageSize := fun hpage => by
    rw [Build.translate_of_page hpage, hnone] at hg
    cases hg
  have hne : g ≠ page / pageSize := by
    rintro rfl
    rw [hp.free] at hfree
    exact hfree List.mem_cons_self
  refine ⟨?_, fun _ => byteAt_congr (hp.mem g htable hne)⟩
  rw [PagedIn.translate_of_ne hp h.stackCount hpage hwindow, hg]

theorem Inv.kept (hallowed : Allowed b s log r) (hstep : Demand.step b (n + 2) s r = some (s', events)) :
    Kept b (image.pool map) r s s' := by
  cases r with
  | alloc length =>
      obtain ⟨r, hrun, rfl⟩ := reply_some hstep
      obtain ⟨-, -, taken, hnext, hw, -⟩ := (h.alloc_spec hallowed).ok hrun
      exact h.alloc_kept hstart hallowed hnext hw
  | write va v =>
      obtain ⟨_, hrun, rfl⟩ := reply_some hstep
      obtain ⟨s₁, f, hfirst, h₁, hf, rfl⟩ := (h.write_spec hallowed.1).ok hrun
      have hlast := h₁.put_kept (h.inHeap_of_region hallowed.1).1 hf hallowed.2
      rcases hfirst with rfl | ⟨hnone, page, hp⟩
      · exact hlast
      · -- The page comes in first, then the byte is written.
        intro va' g hwindow hg hwatched
        obtain ⟨hg₁, hbyte₁⟩ := h.paged_in_kept (v := v) hstart hnone hp va' g hwindow hg hwatched
        obtain ⟨hg', hbyte⟩ := hlast va' g hwindow hg₁ hwatched
        exact ⟨hg', fun hne => (hbyte hne).trans (hbyte₁ hne)⟩
  | read va =>
      obtain ⟨f, hf, heq⟩ := h.read_eq (n := n + 2) hallowed.1 hallowed.2
      obtain ⟨rfl, rfl⟩ := Prod.mk.inj (Option.some.inj (heq.symm.trans hstep))
      exact fun va' g _ hg _ => ⟨hg, fun _ => rfl⟩

end Kept

/-! ### Demand paging -/

theorem handler_one {resolve : Nat → M Nat} {error r : Nat}
    (h : vmmPageFaultHandler b resolve va error s = .ok (r, s')) : r = 1 := by
  have hspec : wp (vmmPageFaultHandler b resolve va error) s (fun r _ => r = 1) fun _ => True := by
    unfold vmmPageFaultHandler
    dsimp only
    rw [wp_ite]
    refine ⟨fun _ => ?_, fun _ => trivial⟩
    rw [wp_bind]
    refine wp.of_all (fun entry s₁ => ?_) fun _ => trivial
    rw [wp_ite]
    refine ⟨fun _ => ?_, fun _ => trivial⟩
    rw [wp_bind]
    refine wp.of_all (fun page s₂ => ?_) fun _ => trivial
    rw [wp_bind]
    refine wp.of_all (fun _ s₃ => ?_) fun _ => trivial
    rw [wp_bind]
    refine wp.of_all (fun _ s₄ => ?_) fun _ => trivial
    rw [wp_bind]
    exact wp.of_all (fun _ _ => rfl) fun _ => trivial
  exact hspec.ok h

/-- What holds in a state of a run. -/
structure Served (b : Build) (n : Nat) (pool : List Nat) (s : Machine) (log : List Event) : Prop where
  completes : ∀ r, Allowed b s log r → Enough b s r → step b (n + 2) s r ≠ none
  reads : ∀ va, Allowed b s log (.read va) →
    ∃ s', step b (n + 2) s (.read va) = some (s', [.returned va (contents log va)])
  /-- The handler serves the first write to a page. -/
  pageFault : ∀ va, InRegion log va → s.translate b va = none → s.freeFrames b ≠ [] →
    ∃ s', vmmPageFaultHandler b (resolveWrite b (n + 1)) va pageFaultWrite s = .ok (1, s')
  /-- And a write of `vmm_alloc` to the entry of a page whose page table is missing. -/
  tableFault : ∀ va, b.InHeap va → s.tableAt b va (b.levels - 1) = none → s.freeFrames b ≠ [] →
    ∃ s', vmmPageFaultHandler b (resolveWrite b (n + 1)) (b.entryVa 1 va) pageFaultWrite s = .ok (1, s')
  kept : ∀ r s' events, Allowed b s log r → step b (n + 2) s r = some (s', events) → Kept b pool r s s'
  /-- A frame in the heap is neither free nor a table, and has one page. -/
  frame : ∀ va f, b.InHeap va → s.translate b va = some f → f ∈ pool ∧ f ∉ s.freeFrames b ∧ ¬ s.IsTable b f
  unique : ∀ va va' f, b.InHeap va → b.InHeap va' → s.translate b va = some f → s.translate b va' = some f →
    va' / pageSize = va / pageSize
  /-- A page table is used in one place. -/
  tables : ∀ va va' d d' t, ¬ b.InWindow va → ¬ b.InWindow va' → d < b.levels → d' < b.levels →
    s.tableAt b va d = some t → s.tableAt b va' d' = some t → (b.path va).take d = (b.path va').take d'
  coherent : Coherent b s

theorem Inv.served (hstart : StartState b image map s₀) (h : Inv b (image.pool map) s₀ s log) :
    Served b n (image.pool map) s log := by
  refine ⟨fun r hallowed henough => ?_, fun va hallowed => ?_, fun va hva hnone hfree => ?_,
    fun va hva hnone hfree => ?_, fun r s' events hallowed hstep => h.kept hstart hallowed hstep,
    fun va f hva hf => ?_, h.unique, fun va va' d d' t hwindow hwindow' hd hd' ht ht' =>
      h.heap.inv.tree.table_unique hd hd' hwindow hwindow' ht ht', h.coherent⟩
  · cases r with
    | alloc length =>
        obtain ⟨r, s', hrun, -⟩ :=
          ((h.alloc_spec (n := n) hallowed).mono (fun _ _ hq => hq) fun e he => he.2 henough).returns
        simp only [Demand.step, reply, hrun]
        nofun
    | write va v =>
        obtain ⟨r, s', hrun, -⟩ :=
          ((h.write_spec (n := n) hallowed.1).mono (fun _ _ hq => hq) fun e he => he.2 henough).returns
        simp only [Demand.step, reply, hrun]
        nofun
    | read va =>
        obtain ⟨f, -, heq⟩ := h.read_eq (n := n + 2) hallowed.1 hallowed.2
        rw [heq]
        nofun
  · obtain ⟨f, -, heq⟩ := h.read_eq (n := n + 2) hallowed.1 hallowed.2
    exact ⟨_, heq⟩
  · obtain ⟨hheap, hnext⟩ := h.inHeap_of_region hva
    have hlast := h.marked va hheap hnext hnone
    have hspec := handler_page h.heap.inv (resolveWrite_resolves n) hheap.ordinary.not_inWindow hlast
      not_present_allocated
    obtain ⟨r, s', hrun, rfl, -⟩ := (hspec.mono (fun _ _ hq => hq) fun e he =>
      he.elim (fun hempty => hfree hempty.2) fun hmark => absurd hmark.2 (by decide)).returns
    exact ⟨s', hrun⟩
  · obtain ⟨t, ht⟩ := Option.ne_none_iff_exists'.mp (h.heap.table va hva)
    have hspec := handler_link h.heap.inv (resolveWrite_resolves n) hva.ordinary.1 hva.ordinary.not_inWindow ht hnone
    obtain ⟨r, s', hrun, rfl, -⟩ := (hspec.mono (fun _ _ hq => hq) fun e he => hfree he.2).returns
    exact ⟨s', hrun⟩
  · refine ⟨?_, h.not_free hva hf, (h.data va f hva hf).2⟩
    exact h.heap.inv.partition.mem_iff.mp (List.mem_append_right _ (h.data va f hva hf).1)

/-- In every run from the boot on, the regions are memory that is 0 until it is written, and every call of the handler
that returns, returns 1. -/
theorem demand_paging (hbase : LowMap map) (hdisjoint : DisjointMap map) (hstarted : Started b image map n s₀)
    (h : Reachable s₀ (step b (n + 2)) (Allowed b) s log) :
    Served b n (image.pool map) s log ∧ ∀ resolve va error s₁ s₂ r,
      vmmPageFaultHandler b resolve va error s₁ = .ok (r, s₂) → r = 1 := by
  have hstart := started_state hbase hdisjoint hstarted
  exact ⟨(run_inv hstart h).served hstart, fun _ _ _ _ _ _ => handler_one⟩

/-- A page of the heap is allocated and its first byte written. -/
theorem first_write (hstart : StartState b image map s₀) (hpool : 2 ≤ (image.pool map).length) (hv : v < 256) :
    ∃ s, Reachable s₀ (step b 2) (Allowed b) s
      [.wrote b.kernelHeapBegin v, .allocated b.kernelHeapBegin 4096] := by
  have h₀ := start_inv hstart
  have hfits : Fits b s₀ 4096 := by
    rw [Fits, hstart.nextAlloc]
    cases b <;> decide
  have hone : allocPages b 4096 = 1 := by cases b <;> decide
  have hcard : (missingTables b s₀ (regionPages b s₀.nextAlloc (allocPages b 4096))).card ≤ 1 := by
    have hle := card_missingTables_le (b := b) s₀ (regionPages b s₀.nextAlloc (allocPages b 4096))
    rw [regionPages_length] at hle
    exact hle.trans hone.le
  have henough : Enough b s₀ (.alloc 4096) := by
    rw [Enough, hstart.free]
    omega
  obtain ⟨r, s₁, hrun, hr, h₁, taken, -, hw, htaken⟩ :=
    ((h₀.alloc_spec (n := 0) hfits).mono (fun _ _ hq => hq) fun e he => he.2 henough).returns
  rw [if_neg (by decide), hstart.nextAlloc] at hr
  subst hr
  have hfree : s₁.freeFrames b ≠ [] := by
    intro hempty
    have hlength := congrArg List.length hw.free
    rw [hempty, hstart.free, List.length_append, List.length_nil] at hlength
    omega
  have hregion : InRegion [.allocated b.kernelHeapBegin 4096] b.kernelHeapBegin :=
    ⟨_, _, List.mem_cons_self, Nat.le_refl _, by omega⟩
  obtain ⟨_, s₂, hwrite, -⟩ :=
    ((h₁.write_spec (n := 0) (v := v) hregion).mono (fun _ _ hq => hq) fun e he => he.2 fun _ => hfree).returns
  have hstep₁ : step b 2 s₀ (.alloc 4096) = some (s₁, [.allocated b.kernelHeapBegin 4096]) := by
    simp only [step, reply, hrun]
  have hstep₂ : step b 2 s₁ (.write b.kernelHeapBegin v) = some (s₂, [.wrote b.kernelHeapBegin v]) := by
    simp only [step, reply, hwrite]
  exact ⟨s₂, .step (.step .init hfits hstep₁) ⟨hregion, hv⟩ hstep₂⟩

theorem demand_paging_first : ∃ s₀ s, Started .x86_64 (smallImage .x86_64) smallMap 0 s₀ ∧
    Served .x86_64 0 ((smallImage .x86_64).pool smallMap) s
      [.wrote 0xFFFFFFFFE0000000 7, .allocated 0xFFFFFFFFE0000000 4096] := by
  obtain ⟨s₀, hstarted⟩ := started_small .x86_64 0
  have hstart := started_state smallMap_low smallMap_disjoint hstarted
  obtain ⟨s, hreach⟩ := first_write hstart (by rw [smallMap_length]; decide) (show 7 < 256 by decide)
  exact ⟨s₀, s, hstarted, (demand_paging smallMap_low smallMap_disjoint hstarted hreach).1⟩

/-- Memory below 4 MB, which the boot code maps for the kernel. -/
def mappedMap : List MemoryMapEntry := [⟨0x200000, 0x100000, by decide, mebibyte_lt⟩]

theorem mappedMap_low : LowMap mappedMap := by
  intro e he
  rw [List.mem_singleton.mp he]
  decide

theorem mappedMap_disjoint : DisjointMap mappedMap := List.pairwise_singleton _ _

theorem mappedMap_pool : (smallImage .x86_64).pool mappedMap = framesOf (0x200000, 0x300000) := by
  have hranges : bootRanges .x86_64 (kernelEndOf .x86_64 (smallImage .x86_64).imageEnd) mappedMap =
      [(0x200000, 0x300000)] := by decide
  rw [KernelImage.pool, bootFrames, hranges, List.flatMap_singleton]

/-- A write to a region changes a page that the boot code mapped. -/
theorem region_aliased : ∃ s₀ s s' log va va' f, Started .x86_64 (smallImage .x86_64) mappedMap 0 s₀ ∧
    Reachable s₀ (step .x86_64 2) (Allowed .x86_64) s log ∧ Allowed .x86_64 s log (.write va 2) ∧
    step .x86_64 2 s (.write va 2) = some (s', [.wrote va 2]) ∧ va' / pageSize ≠ va / pageSize ∧
    ¬ Build.x86_64.InWindow va' ∧ s.translate .x86_64 va' = some f ∧ s'.translate .x86_64 va' = some f ∧
    byteAt .x86_64 s' f va' ≠ byteAt .x86_64 s f va' := by
  have hframes : ∀ f ∈ (smallImage .x86_64).pool mappedMap, 512 ≤ f ∧ f < 768 := by
    intro f hf
    rw [mappedMap_pool, mem_framesOf rfl rfl, pageSize] at hf
    omega
  have hlength : 2 ≤ ((smallImage .x86_64).pool mappedMap).length := by
    rw [mappedMap_pool, framesOf, List.length_map, List.length_range]
    decide
  have hpool : (smallImage .x86_64).pool mappedMap ≠ [] := by
    intro hempty
    rw [hempty] at hlength
    exact absurd hlength (by decide)
  obtain ⟨s₀, hstarted⟩ := exists_started mappedMap_low mappedMap_disjoint bootMachine_atKernelEarly hpool 0
  have hstart := started_state mappedMap_low mappedMap_disjoint hstarted
  obtain ⟨s, hreach⟩ := first_write hstart hlength (show 1 < 256 by decide)
  have hinv := run_inv hstart hreach
  have hserved := (demand_paging mappedMap_low mappedMap_disjoint hstarted hreach).1
  obtain ⟨f, hf⟩ := Option.ne_none_iff_exists'.mp (hinv.written _ _ List.mem_cons_self).2
  have hheap := (hinv.written _ _ List.mem_cons_self).1
  have hbounds := hframes f (hserved.frame _ f hheap hf).1
  have hregion : InRegion [.wrote Build.x86_64.kernelHeapBegin 1, .allocated Build.x86_64.kernelHeapBegin 4096]
      Build.x86_64.kernelHeapBegin :=
    ⟨_, _, List.mem_cons_of_mem _ List.mem_cons_self, Nat.le_refl _, by omega⟩
  have hallowed : Allowed .x86_64 s _ (.write Build.x86_64.kernelHeapBegin 2) := ⟨hregion, by decide⟩
  -- The page of the frame in the boot code's mapping.
  have hkernel : Build.x86_64.InKernel (0xFFFFFFFFC0000000 + 4096 * f) := by
    show 0xFFFFFFFFC0000000 ≤ _ ∧ _ < 0xFFFFFFFFC0000000 + 0x400000
    omega
  have hframe : Build.x86_64.kernelFrame (0xFFFFFFFFC0000000 + 4096 * f) = f := by
    show (0xFFFFFFFFC0000000 + 4096 * f - 0xFFFFFFFFC0000000) / 4096 = f
    omega
  have halias : s.translate .x86_64 (0xFFFFFFFFC0000000 + 4096 * f) = some f := by
    have hlast := hstart.last _ hkernel.inTree hkernel.not_inWindow
    have hout : ¬ ((smallImage .x86_64).tables ≤ f ∧ f < (smallImage .x86_64).tables + Build.x86_64.bootTables) := by
      have hle : (smallImage .x86_64).tables + Build.x86_64.bootTables ≤ 512 := by decide
      omega
    rw [if_pos hkernel, hframe, if_neg hout] at hlast
    rw [hinv.outside _ hkernel.not_inWindow fun hheap' => hheap'.not_inKernel hkernel, translate_of_last hlast,
      entryFrame_bootEntry]
  obtain ⟨_, s', hrun, s₁, f₁, hfirst, -, hf₁, hs'⟩ := ((hinv.write_spec (n := 0) (v := 2) hregion).mono
    (fun _ _ hq => hq) fun e he => he.2 fun hnone => absurd (hf.symm.trans hnone) (Option.some_ne_none f)).returns
  obtain rfl : s₁ = s := hfirst.resolve_right fun hpaged => Option.some_ne_none f (hf.symm.trans hpaged.1)
  obtain rfl : f₁ = f := Option.some.inj (hf₁.symm.trans hf)
  have hstep : step .x86_64 2 s₁ (.write Build.x86_64.kernelHeapBegin 2) =
      some (s', [.wrote Build.x86_64.kernelHeapBegin 2]) := by
    simp only [step, reply, hrun]
  have hoffset : (0xFFFFFFFFC0000000 + 4096 * f₁) % pageSize = Build.x86_64.kernelHeapBegin % pageSize := by
    show (0xFFFFFFFFC0000000 + 4096 * f₁) % 4096 = 0xFFFFFFFFE0000000 % 4096
    omega
  refine ⟨s₀, s₁, s', _, _, _, f₁, hstarted, hreach, hallowed, hstep, ?_, hkernel.not_inWindow, halias, ?_, ?_⟩
  · show (0xFFFFFFFFC0000000 + 4096 * f₁) / 4096 ≠ 0xFFFFFFFFE0000000 / 4096
    omega
  · rw [hs', hinv.put_translate hheap hf, halias]
  · rw [byteAt_offset hoffset, byteAt_offset hoffset, hs', byteAt_putByte_same (by decide), hinv.contents _ f₁ hheap hf]
    decide

end Kiznix.Demand
