import Kiznix.MemPageMap
import Kiznix.SwitchCreate

/-! The stack of a new thread: `vmm_alloc` reserves its pages, `thread_create` writes to the last one only. -/

namespace Kiznix.Memory

open RadixTree

variable {b : Build} {pool held : List Nat} {s s' s₁ : Machine} {va va' k n m page stack : Nat}
  {image : KernelImage b} {map : List MemoryMapEntry} {entry : Nat → Nat} {vas taken : List Nat} {c c' : Callers}
  {op : Op}

/-! ### Pages that are not present -/

/-- The page of `va` is one that the operation is there to map. -/
def Maps (b : Build) (c : Callers) (op : Op) (va : Nat) : Prop :=
  match op with
  | .vmmMapPage _ va' | .access va' => va / pageSize = va' / pageSize
  | .vmmMap pa length => ∃ va' ∈ regionPages b c.machine.nextAlloc (mapSize b pa length / pageSize),
      va / pageSize = va' / pageSize
  | _ => False

theorem absent_of_last (hlast : s'.lastEntry b va = s.lastEntry b va ∨ s'.lastEntry b va = some 0)
    (habsent : s.translate b va = none) : s'.translate b va = none := by
  rcases hlast with heq | hzero
  · rw [translate_congr heq, habsent]
  · rw [translate_of_last hzero, entryFrame_of_not not_present_zero]

/-- A write to entries that are not those of present pages. -/
theorem Written.absent (hw : Written b entry vas taken s s') (hva : ¬ b.InWindow va)
    (hset : ∀ va' ∈ vas, va / pageSize = va' / pageSize → ¬ Present (entry (va / pageSize)))
    (habsent : s.translate b va = none) : s'.translate b va = none := by
  by_cases hmem : ∃ va' ∈ vas, va / pageSize = va' / pageSize
  · obtain ⟨va', hva', hpage⟩ := hmem
    rw [translate_of_last (hw.set va' hva' va hpage), entryFrame_of_not (hset va' hva' hpage)]
  · refine absent_of_last ?_ habsent
    exact (hw.last va hva fun va' hva' hpage => hmem ⟨va', hva', hpage⟩).imp_right And.left

/-- The page that `pmm_free_page` maps for the stack is one of the stack's window. -/
theorem RunInv.free_slot_page (h : RunInv b pool c) (hpool : PoolFits b pool) (hva : b.Ordinary va)
    (hheld : page / pageSize ∈ c.held) (hmod : c.machine.stackCount b % b.entries = 0) :
    va / pageSize ≠ b.slotVa (c.machine.stackCount b) / pageSize := by
  have hstack : ¬ b.InStack va := fun hin => hva.2 (Or.inr hin)
  rw [stackPage_top hmod]
  refine (Build.stackPage_ne_of_not_inStack hstack ?_).symm
  by_cases hb : b = .i386
  · have hcount := stackCount_le_free (b := b) (s := c.machine)
    have hlt := h.inv.free_lt_pool hheld
    have hroom := hpool.room hb
    exact Nat.div_lt_of_lt_mul (by rw [Nat.mul_comm]; omega)
  · have hentries : b.entries < b.stackPages := by
      cases b with
      | i386 => exact absurd rfl hb
      | pae => decide
      | x86_64 => decide
    exact (Nat.div_le_of_le_mul (h.limit.resolve_left hb).1).trans_lt hentries

section Step

variable (h : RunInv b pool c) (hpool : PoolFits b pool) (hva : b.Ordinary va)

include h hpool hva

/-- A page that is not present stays so as long as no operation maps it. -/
theorem RunInv.keeps_absent (hop : Permitted b c op) (hexec : exec b (n + 2) c op = .ok c') (hmaps : ¬ Maps b c op va)
    (habsent : c.machine.translate b va = none) : c'.machine.translate b va = none := by
  have hwindow := hva.not_inWindow
  cases op with
  | pmmAllocPage =>
      obtain ⟨page, s', hrun, rfl⟩ := map_ok hexec
      have hspec := ((pmmAllocPage_spec h.inv (resolveWrite_resolves (n + 1))).ok hrun).2
      exact absent_of_last ((hspec.taken.last va hwindow).imp_right And.left) habsent
  | pmmFreePage page =>
      obtain ⟨u, s', hrun, rfl⟩ := map_ok hexec
      obtain ⟨-, -, taken, s₁, hfreed⟩ := (h.free_spec hpool hop.1 hop.2).ok hrun
      refine absent_of_last (Or.inl (hfreed.pushed.last va)) ?_
      rcases hfreed.grown with ⟨-, -, rfl⟩ | ⟨hmod, hmapped⟩
      · exact habsent
      · refine hmapped.written_const.absent hwindow (fun va' hva' hpage => ?_) habsent
        rw [List.mem_singleton.mp hva'] at hpage
        exact absurd hpage (h.free_slot_page hpool hva hop.2 hmod)
  | vmmMapPage pa va' =>
      obtain ⟨r, s', hrun, rfl⟩ := map_ok hexec
      obtain ⟨-, -, taken, hmapped⟩ :=
        (vmmMapPage_spec h.inv (resolveWrite_resolves (n + 1)) hop.1 hop.not_inWindow).ok hrun
      refine hmapped.written_const.absent hwindow (fun va'' hva'' hpage => ?_) habsent
      rw [List.mem_singleton.mp hva''] at hpage
      exact absurd hpage hmaps
  | vmmUnmapPage va' =>
      obtain ⟨r, s', hrun, rfl⟩ := map_ok hexec
      obtain ⟨-, -, taken, hw, -⟩ := (vmmUnmapPage_spec h.inv hop).ok hrun
      exact hw.absent hwindow (fun _ _ _ => not_present_zero) habsent
  | vmmAlloc length =>
      obtain ⟨r, s', hrun, rfl⟩ := map_ok hexec
      obtain ⟨-, ⟨-, taken, hw, -⟩, -⟩ := (vmmAlloc_spec length h.inv h.nextAlloc_lt hop).ok hrun
      exact hw.absent hwindow (fun _ _ _ => not_present_allocated) habsent
  | vmmMap pa length =>
      obtain ⟨r, s', hrun, rfl⟩ := map_ok hexec
      obtain ⟨-, ⟨s₁, ⟨-, taken, hw, -⟩, entry, vas, hmapped, hsub⟩, -⟩ :=
        (vmmMap_spec pa length h.inv hop.1 h.nextAlloc_lt h.nextAlloc_mod (h.mapSize_lt hop.2) hop.2).ok hrun
      refine hmapped.absent hwindow (fun va' hva' hpage => ?_)
        (hw.absent hwindow (fun _ _ _ => not_present_allocated) habsent)
      exact absurd ⟨va', hsub va' hva', hpage⟩ hmaps
  | vmmUnmap address length =>
      obtain ⟨r, s', hrun, rfl⟩ := map_ok hexec
      obtain ⟨-, ⟨-, taken, hw, -⟩, -⟩ := (vmmUnmap_spec address length h.inv hop).ok hrun
      exact hw.absent hwindow (fun _ _ _ => not_present_zero) habsent
  | access va' =>
      obtain ⟨f, s', hrun, rfl⟩ := map_ok hexec
      obtain ⟨s₁, -, haccessed, -, rfl⟩ := (access_spec h.inv hop).ok hrun
      rcases haccessed with ⟨-, rfl⟩ | ⟨w, page, -, -, hpaged⟩
      · exact habsent
      · exact absent_of_last ((hpaged.last_of_ne va hmaps hwindow).imp_right And.left) habsent
  | fill va' =>
      obtain rfl := Except.ok.inj hexec
      dsimp only
      cases c.machine.translate b va' <;> exact habsent
  | write f i w =>
      obtain rfl := Except.ok.inj hexec
      obtain ⟨-, hdata⟩ := h.inv.data_change (c.machine.write f i w) rfl fun g hg => by
        refine funext fun j => Machine.write_of_ne ?_
        rintro ⟨rfl, -⟩
        exact hg.elim (h.inv.held_data g hop) fun hfree => h.inv.free_not_held hfree hop
      exact absent_of_last (Or.inl (hdata.last va)) habsent

end Step

/-! ### The stack -/

open Switch (threadStackSize framesSize)

def Build.arch : Build → Switch.Arch
  | .i386 => .i386
  | .pae => .i386
  | .x86_64 => .x86_64

/-- The address `k` bytes above the start of a stack. -/
def stackVa (b : Build) (stack k : Nat) : Nat := (stack + k) % 2 ^ b.wordBits

/-- Every byte of a stack is in a page that is present. -/
def StackUsable (b : Build) (s : Machine) (stack : Nat) : Prop :=
  ∀ k < threadStackSize, s.translate b (stackVa b stack k) ≠ none

/-- Where the processor puts the first word that it pushes for a page fault. No gate names another stack. -/
def faultWord (b : Build) (k : Nat) : Nat :=
  match b.arch with
  | .i386 => k - 4
  | .x86_64 => k / 16 * 16 - 8

/-- A push with the stack pointer `k` bytes above the start of the stack faults, and so does the delivery of that
page fault. -/
def DeliveryFaults (b : Build) (s : Machine) (stack k : Nat) : Prop :=
  s.translate b (stackVa b stack (k - b.arch.word)) = none ∧ s.translate b (stackVa b stack (faultWord b k)) = none

/-- What happens while a thread is created, from `vmm_alloc` on: `thread_create` writes its frames, and nothing
else has to do with the new stack. -/
inductive Creating (b : Build) (stack : Nat) (c : Callers) : Op → Prop where
  | frame {k : Nat} (hlow : threadStackSize - framesSize b.arch ≤ k) (hhigh : k < threadStackSize) :
      Creating b stack c (.access (stackVa b stack k))
  | other {op : Op} (hop : Permitted b c op) (hoff : ∀ k < threadStackSize, ¬ Maps b c op (stackVa b stack k)) :
      Creating b stack c op

theorem stackVa_page (hstack : stack % pageSize = 0) (k : Nat) :
    stackVa b stack k / pageSize = stackVa b stack (pageSize * (k / pageSize)) / pageSize := by
  cases b <;> simp only [stackVa, pageSize, Build.wordBits] at * <;> omega

theorem stackVa_page_ne {j : Nat} (hstack : stack % pageSize = 0) (hj : j < threadStackSize) (hk : k < threadStackSize)
    (hne : j / pageSize ≠ k / pageSize) : stackVa b stack j / pageSize ≠ stackVa b stack k / pageSize := by
  rw [threadStackSize] at hj hk
  cases b <;> simp only [stackVa, pageSize, Build.wordBits] at * <;> omega

theorem ordinary_of_page (hpage : va / pageSize = va' / pageSize) (hva : b.Ordinary va') : b.Ordinary va := by
  refine ⟨inTree_of_page hpage hva.1, ?_⟩
  rw [← Build.internal_page, hpage, Build.internal_page]
  exact hva.2

theorem allocPages_stack : allocPages b threadStackSize = 4 := by
  cases b <;> decide

/-- All pages of the stack but the last one are reserved only. -/
structure Reserved (b : Build) (pool : List Nat) (stack : Nat) (c : Callers) : Prop where
  inv : RunInv b pool c
  aligned : stack % pageSize = 0
  ordinary : ∀ k < threadStackSize, b.Ordinary (stackVa b stack k)
  absent : ∀ k < threadStackSize - pageSize, c.machine.translate b (stackVa b stack k) = none

theorem RunInv.alloc_stack (h : RunInv b pool c) (hop : Permitted b c (.vmmAlloc threadStackSize))
    (hcall : vmmAlloc b (resolveWrite b (n + 2)) threadStackSize c.machine = .ok (stack, s₁)) :
    Reserved b pool stack { c with machine := s₁ } := by
  have hexec : exec b (n + 2) c (.vmmAlloc threadStackSize) = .ok { c with machine := s₁ } := by
    rw [exec, Callers.run, hcall]
    rfl
  obtain ⟨hr, ⟨-, taken, hw, -⟩, -⟩ := (vmmAlloc_spec threadStackSize h.inv h.nextAlloc_lt hop).ok hcall
  rw [if_neg (by decide)] at hr
  subst hr
  have hpages : ∀ k < threadStackSize, ∃ va ∈ regionPages b c.machine.nextAlloc (allocPages b threadStackSize),
      stackVa b c.machine.nextAlloc k / pageSize = va / pageSize := by
    intro k hk
    rw [allocPages_stack]
    refine ⟨_, (mem_regionPages h.nextAlloc_lt).mpr ⟨k / pageSize, ?_, rfl⟩, stackVa_page h.nextAlloc_mod k⟩
    rw [threadStackSize] at hk
    rw [pageSize]
    omega
  refine ⟨(step_vmmAlloc h hop hexec).1, h.nextAlloc_mod, fun k hk => ?_, fun k hk => ?_⟩
  · obtain ⟨va, hva, hpage⟩ := hpages k hk
    exact ordinary_of_page hpage (hop va hva)
  · obtain ⟨va, hva, hpage⟩ := hpages k (hk.trans_le (Nat.sub_le _ _))
    rw [translate_of_last (hw.set va hva _ hpage), entryFrame_of_not not_present_allocated]

section Reserved

variable (h : Reserved b pool stack c)

include h

theorem Reserved.step (hpool : PoolFits b pool) (hop : Creating b stack c op)
    (hexec : exec b (n + 2) c op = .ok c') : Reserved b pool stack c' := by
  have hoff : Permitted b c op ∧ ∀ k < threadStackSize - pageSize, ¬ Maps b c op (stackVa b stack k) := by
    cases hop with
    | @frame j hlow hhigh =>
        refine ⟨h.ordinary j hhigh, fun k hk => stackVa_page_ne h.aligned (hk.trans_le (Nat.sub_le _ _)) hhigh ?_⟩
        have hframes := Switch.framesSize_lt (a := b.arch)
        rw [threadStackSize] at hlow hhigh hk
        rw [pageSize] at hk ⊢
        omega
    | other hop hoff => exact ⟨hop, fun k hk => hoff k (hk.trans_le (Nat.sub_le _ _))⟩
  refine ⟨(h.inv.step hpool hoff.1 hexec).1, h.aligned, h.ordinary, fun k hk => ?_⟩
  exact h.inv.keeps_absent hpool (h.ordinary k (hk.trans_le (Nat.sub_le _ _))) hoff.1 hexec (hoff.2 k hk) (h.absent k hk)

theorem Reserved.run (hpool : PoolFits b pool) (hrun : Run b (n + 2) (Creating b stack) c c') :
    Reserved b pool stack c' :=
  hrun.invariant h fun _ _ _ hreserved hop hexec => hreserved.step hpool hop hexec

theorem Reserved.not_usable : ¬ StackUsable b c.machine stack :=
  fun husable => husable 0 (by decide) (h.absent 0 (by decide))

theorem Reserved.faults (hlow : 16 ≤ k) (hhigh : k ≤ threadStackSize - pageSize) :
    DeliveryFaults b c.machine stack k := by
  have hsize : threadStackSize - pageSize = 12288 := by decide
  have hword : 0 < b.arch.word ∧ b.arch.word ≤ 8 := by cases b <;> decide
  refine ⟨h.absent _ (by omega), h.absent _ ?_⟩
  rw [faultWord]
  split <;> omega

end Reserved

/-- What `malloc` takes from `vmm_alloc` for the block of the first thread. -/
def mallocGranularity : Nat := 0x10000

/-- The first thread on i386: `malloc` has taken memory for its block, its stack is reserved, and its first frame is
written. -/
structure FirstStack (s s₀ s₁ : Machine) (c' : Callers) : Prop where
  started : Started .i386 (smallImage .i386) smallMap 0 s
  malloc : exec .i386 2 (Callers.start s) (.vmmAlloc mallocGranularity) = .ok ⟨s₀, []⟩
  run : Run .i386 2 (Permitted .i386) (Callers.start s) ⟨s₀, []⟩
  permitted : Permitted .i386 ⟨s₀, []⟩ (.vmmAlloc threadStackSize)
  stack : vmmAlloc .i386 (resolveWrite .i386 2) threadStackSize s₀ = .ok (0xE0010000, s₁)
  creating : Run .i386 2 (Creating .i386 0xE0010000) ⟨s₁, []⟩ c'
  frame : c'.machine.translate .i386 (stackVa .i386 0xE0010000 (threadStackSize - 4)) ≠ none

theorem first_stack : ∃ s s₀ s₁ c', FirstStack s s₀ s₁ c' := by
  obtain ⟨s, hstart⟩ := started_small .i386 0
  have hstate := started_state smallMap_low smallMap_disjoint hstart
  have hlength := congrArg List.length hstate.free
  rw [smallMap_length] at hlength
  have hsizes : allocPages .i386 mallocGranularity = 16 ∧ allocPages .i386 threadStackSize = 4 := by decide
  have hfits₀ : Fits .i386 s mallocGranularity := by
    rw [Fits, hstate.nextAlloc]
    decide
  obtain ⟨s₀, hcall₀, hheap, hnext₀, hfree₀⟩ := hstate.heapInv.served (n := 0) hfits₀ (by omega)
  rw [hsizes.1, hstate.nextAlloc] at hnext₀
  have hop₀ : Permitted .i386 (Callers.start s) (.vmmAlloc mallocGranularity) :=
    fun va hva => (hstate.heapInv.regionPages_inHeap hfits₀ hva).ordinary
  have hexec₀ : exec .i386 2 (Callers.start s) (.vmmAlloc mallocGranularity) = .ok ⟨s₀, []⟩ := by
    rw [exec, Callers.run, Callers.start, hcall₀]
    rfl
  have hrun₀ : Run .i386 2 (Permitted .i386) (Callers.start s) ⟨s₀, []⟩ := .step .start hop₀ hexec₀
  have hinv₀ := hrun₀.runInv smallMap_low smallMap_disjoint hstart fun _ _ h => h
  have hfits : Fits .i386 s₀ threadStackSize := by
    rw [Fits, hnext₀]
    decide
  have hop : Permitted .i386 ⟨s₀, []⟩ (.vmmAlloc threadStackSize) :=
    fun va hva => (hheap.regionPages_inHeap hfits hva).ordinary
  obtain ⟨s₁, hcall, -, -, hfree⟩ := hheap.served (n := 0) hfits (by omega)
  rw [if_neg (by decide), hnext₀] at hcall
  have hreserved : Reserved .i386 _ 0xE0010000 ⟨s₁, []⟩ := hinv₀.alloc_stack hop hcall
  obtain ⟨-, ⟨-, taken, hw, -⟩, -⟩ := (vmmAlloc_spec threadStackSize hinv₀.inv hheap.next_lt hop).ok hcall
  -- The page of the frames is marked, and a frame is free for it.
  have hlast : s₁.lastEntry .i386 (stackVa .i386 0xE0010000 (threadStackSize - 4)) = some pageAllocated := by
    refine hw.set (0xE0010000 + pageSize * 3) ?_ _ (by decide)
    rw [allocPages_stack, mem_regionPages hheap.next_lt, hnext₀]
    exact ⟨3, by decide, by decide⟩
  have hfree₁ : s₁.freeFrames .i386 ≠ [] := by
    intro hnil
    rw [hnil, List.length_nil] at hfree
    omega
  have haccess := access_spec (n := 0) hreserved.inv.inv (hreserved.ordinary (threadStackSize - 4) (by decide))
  obtain ⟨f, s₂, hexec, s₃, -, -, hf, hcached⟩ := (haccess.mono (fun _ _ hq => hq) fun e he => by
    rcases he.2 with ⟨-, hnil⟩ | ⟨-, hmark⟩
    · exact hfree₁ hnil
    · exact absurd (hmark _ hlast) (by decide)).returns
  have hpresent : s₂.translate .i386 (stackVa .i386 0xE0010000 (threadStackSize - 4)) ≠ none := by
    rw [hcached]
    exact fun hnone => Option.some_ne_none f (hf.symm.trans hnone)
  have hstep : exec .i386 2 ⟨s₁, []⟩ (.access (stackVa .i386 0xE0010000 (threadStackSize - 4))) = .ok ⟨s₂, []⟩ := by
    rw [exec, Callers.run, hexec]
    rfl
  have hcreate := Run.step .start (Creating.frame (by decide) (by decide)) hstep
  exact ⟨s, s₀, s₁, _, hstart, hexec₀, hrun₀, hop, hcall, hcreate, hpresent⟩

/-- Whatever happens while a thread is created, three of the four pages of its stack are not present afterwards, and
a push that gets there faults twice. -/
theorem stack_not_present (hbase : LowMap map) (hdisjoint : DisjointMap map) (hstart : Started b image map n s)
    (hrun : Run b (n + 2) (Permitted b) (Callers.start s) c) (hop : Permitted b c (.vmmAlloc threadStackSize))
    (hcall : vmmAlloc b (resolveWrite b (n + 2)) threadStackSize c.machine = .ok (stack, s₁))
    (hcreate : Run b (n + 2) (Creating b stack) { c with machine := s₁ } c') :
    ¬ StackUsable b c'.machine stack ∧
      ∀ k, 16 ≤ k → k ≤ threadStackSize - pageSize → DeliveryFaults b c'.machine stack k := by
  have hinv := hrun.runInv hbase hdisjoint hstart fun _ _ h => h
  have hreserved := (hinv.alloc_stack hop hcall).run (pool_fits hbase hdisjoint) hcreate
  exact ⟨hreserved.not_usable, fun k => hreserved.faults⟩

theorem stack_not_present_first : ∃ s s₀ s₁ c', FirstStack s s₀ s₁ c' ∧
    DeliveryFaults .i386 c'.machine 0xE0010000 0x3000 := by
  obtain ⟨s, s₀, s₁, c', h⟩ := first_stack
  have hresult := stack_not_present smallMap_low smallMap_disjoint h.started h.run h.permitted h.stack h.creating
  exact ⟨s, s₀, s₁, c', h, hresult.2 0x3000 (by decide) (by decide)⟩

/-- The frames of the first thread are there, the rest of its stack is not. -/
theorem stack_unusable : ∃ s s₀ s₁ c', FirstStack s s₀ s₁ c' ∧ ¬ StackUsable .i386 c'.machine 0xE0010000 := by
  obtain ⟨s, s₀, s₁, c', h⟩ := first_stack
  have hinv := h.run.runInv smallMap_low smallMap_disjoint h.started fun _ _ hop => hop
  have hreserved := (hinv.alloc_stack h.permitted h.stack).run (pool_fits smallMap_low smallMap_disjoint) h.creating
  exact ⟨s, s₀, s₁, c', h, hreserved.not_usable⟩

end Kiznix.Memory
