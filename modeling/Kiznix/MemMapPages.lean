import Kiznix.MemPageMap

/-! Sequences of `vmm_map_page` on the PAE build, where the page directories hang on `_BootPDPT`. -/

namespace Kiznix.Memory

open RadixTree

variable {pool held : List Nat} {s s' s₁ : Machine} {va va' f g n pa page : Nat} {taken : List Nat}

/-- A call of `vmm_map_page`. -/
structure MapCall where
  physicalAddress : Nat
  virtualAddress : Nat

/-- What callers keep to: aligned addresses, a page that no earlier call has mapped, outside the window of
the page tables, and that is not present. -/
structure Mappable (s : Machine) (calls : List MapCall) (call : MapCall) : Prop where
  physical : call.physicalAddress % pageSize = 0 ∧ call.physicalAddress < 2 ^ 36
  aligned : call.virtualAddress % pageSize = 0
  outside : call.virtualAddress < Build.pae.pageTableStart
  distinct : ∀ c ∈ calls, c.virtualAddress ≠ call.virtualAddress
  absent : s.leafEntry .pae call.virtualAddress = none

/-- The states that sequences of calls reach, the last call first. -/
inductive MapRun (n : Nat) (s : Machine) : List MapCall → Machine → Prop where
  | start : MapRun n s [] s
  | call {calls : List MapCall} {call : MapCall} {s₁ s' : Machine} {r : Nat} (h : MapRun n s calls s₁)
      (hcall : Mappable s₁ calls call)
      (hrun : vmmMapPage .pae (resolveWrite .pae n) call.physicalAddress call.virtualAddress s₁ = .ok (r, s')) :
      MapRun n s (call :: calls) s'

/-- What the calls promise: the walk of each page, what was mapped before, and the slot in
`vmm_page_mappings_2` of each page directory that is new. -/
structure MapContract (s : Machine) (calls : List MapCall) (s' : Machine) : Prop where
  walks : ∀ call ∈ calls, s'.translate .pae call.virtualAddress = some (call.physicalAddress / pageSize)
  earlier : ∀ va f, va < Build.pae.pageTableStart → s.translate .pae va = some f → s'.translate .pae va = some f
  slots : ∀ i, i < 4 → ¬ Present (s.bootPdpt i) → Present (s'.bootPdpt i) →
    s'.translate .pae (Build.pae.vmmPageMappings 2 + (i <<< 12)) = entryFrame (s'.bootPdpt i)

/-! ### Kernel space -/

theorem pae_not_inWindow (hhigh : 0xC0000000 ≤ va) (hva : va < Build.pae.pageTableStart) :
    Build.pae.InTree va ∧ ¬ Build.pae.InWindow va := by
  simp only [Build.pageTableStart, Build.InTree, Build.InWindow, Build.path, Build.recursiveIndex, List.head?_cons,
    Option.some.injEq] at *
  omega

/-- With an empty stack a call keeps every other translation, those of the stack's window included. -/
theorem Mapped.keeps {b : Build} (h : Mapped b pa va taken s s') (hcount : s.stackCount b = 0)
    (hwindow : ¬ b.InWindow va') (hpage : va' / pageSize ≠ va / pageSize) (hf : s.translate b va' = some f) :
    s'.translate b va' = some f := by
  rcases h.written_const.last va' hwindow fun va'' hva'' => by rwa [List.mem_singleton.mp hva''] with
    heq | ⟨-, hnone | ⟨j, -, -, hj⟩⟩
  · rw [translate_congr heq, hf]
  · rw [translate_eq_leafEntry, leafEntry_of_none hnone] at hf
    cases hf
  · rw [hcount] at hj
    cases hj

/-- The state of a sequence of calls in kernel space. -/
structure MapInv (pool : List Nat) (s : Machine) (calls : List MapCall) (s' : Machine) : Prop where
  inv : MemInv .pae pool [] s'
  empty : s'.stackCount .pae = 0
  bootPdpt : s'.bootPdpt = s.bootPdpt
  walks : ∀ call ∈ calls, call.virtualAddress % pageSize = 0 ∧ 0xC0000000 ≤ call.virtualAddress ∧
    call.virtualAddress < Build.pae.pageTableStart ∧
    s'.translate .pae call.virtualAddress = some (call.physicalAddress / pageSize)
  earlier : ∀ va f, va < Build.pae.pageTableStart → s.translate .pae va = some f → s'.translate .pae va = some f

theorem MapInv.contract {calls : List MapCall} (h : MapInv pool s calls s') : MapContract s calls s' := by
  refine ⟨fun call hcall => (h.walks call hcall).2.2.2, h.earlier, fun i _ habsent hpresent => ?_⟩
  rw [h.bootPdpt] at hpresent
  exact absurd hpresent habsent

section Call

variable {calls : List MapCall} {call : MapCall} (h : MapInv pool s calls s₁) (hcall : Mappable s₁ calls call)
  (hhigh : 0xC0000000 ≤ call.virtualAddress)

include h hcall hhigh

/-- One more call in kernel space. -/
theorem MapInv.call_spec : wp (vmmMapPage .pae (resolveWrite .pae (n + 2)) call.physicalAddress call.virtualAddress) s₁
    (fun r s' => r = 0 ∧ MapInv pool s (call :: calls) s')
    (fun e => e = .outOfPhysicalMemory ∧
      (s₁.freeFrames .pae).length < missing .pae s₁ call.virtualAddress (Build.pae.levels - 1)) := by
  obtain ⟨hva, hwindow⟩ := pae_not_inWindow hhigh hcall.outside
  have hnone : s₁.translate .pae call.virtualAddress = none := by
    rw [translate_eq_leafEntry, hcall.absent]
    rfl
  refine (vmmMapPage_spec h.inv (resolveWrite_resolves (n + 1)) hva hwindow).mono ?_ ?_
  · rintro r s' ⟨hr, hinv, taken, hm⟩
    have hw := hm.written_const
    have hhere := (hm.pageChanged h.inv hinv.tree hwindow hcall.physical.1).here _ rfl
    have hpage : ∀ va, va % pageSize = 0 → va ≠ call.virtualAddress →
        va / pageSize ≠ call.virtualAddress / pageSize := by
      intro va hmod hne
      have haligned := hcall.aligned
      rw [pageSize] at *
      omega
    refine ⟨hr, hinv, ?_, hw.bootPdpt.trans h.bootPdpt, fun c hc => ?_, fun va f hbelow hf => ?_⟩
    · rw [hw.count, h.empty, Nat.zero_sub]
    · rcases List.mem_cons.mp hc with rfl | hc
      · refine ⟨hcall.aligned, hhigh, hcall.outside, ?_⟩
        rw [translate_eq_leafEntry, hhere, Option.map_some, entry_eq hcall.physical.1]
        have haligned := hcall.physical.1
        rw [pageSize] at haligned ⊢
        congr 1
        omega
      · obtain ⟨hmod, hhigh', hout, hf⟩ := h.walks c hc
        exact ⟨hmod, hhigh', hout, hm.keeps h.empty (pae_not_inWindow hhigh' hout).2
          (hpage _ hmod (hcall.distinct c hc)) hf⟩
    · have hf₁ := h.earlier va f hbelow hf
      have hva' := h.inv.tree.translate_inTree hf₁
      refine hm.keeps h.empty (pae_not_inWindow hva'.1 hbelow).2 (fun hsame => ?_) hf₁
      rw [Build.translate_of_page hsame, hnone] at hf₁
      cases hf₁
  · rintro e (hmemory | ⟨-, hmapped⟩)
    · exact hmemory
    · exact absurd hnone hmapped

end Call

theorem MapRun.inv {calls : List MapCall} (hrun : MapRun (n + 2) s calls s') (hinv : MemInv .pae pool [] s)
    (hempty : s.stackCount .pae = 0) (hhigh : ∀ call ∈ calls, 0xC0000000 ≤ call.virtualAddress) :
    MapInv pool s calls s' := by
  induction hrun with
  | start => exact ⟨hinv, hempty, rfl, nofun, fun _ _ _ hf => hf⟩
  | call _ hcall hmap ih =>
      have h := ih fun c hc => hhigh c (List.mem_cons_of_mem _ hc)
      exact ((h.call_spec hcall (hhigh _ List.mem_cons_self)).ok hmap).2

/-- In every sequence of calls whose pages are all in kernel space, the promise is kept, and the next such call
returns unless the page table that it needs finds no frame. -/
theorem mapPages_contract {image : KernelImage .pae} {map : List MemoryMapEntry} {calls : List MapCall}
    (hbase : LowMap map) (hdisjoint : DisjointMap map) (hstart : Started .pae image map n s)
    (hrun : MapRun (n + 2) s calls s') (hhigh : ∀ call ∈ calls, 0xC0000000 ≤ call.virtualAddress) :
    MapContract s calls s' ∧ ∀ call, Mappable s' calls call → 0xC0000000 ≤ call.virtualAddress →
      wp (vmmMapPage .pae (resolveWrite .pae (n + 2)) call.physicalAddress call.virtualAddress) s' (fun r _ => r = 0)
        (fun e => e = .outOfPhysicalMemory ∧
          (s'.freeFrames .pae).length < missing .pae s' call.virtualAddress (Build.pae.levels - 1)) := by
  have hstate := started_state hbase hdisjoint hstart
  have h := hrun.inv hstate.inv hstate.stackCount hhigh
  refine ⟨h.contract, fun call hcall hva => ?_⟩
  exact (h.call_spec hcall hva).mono (fun _ _ hq => hq.1) fun _ he => he

/-- The page frame 0x800 at the start of the kernel's heap. -/
theorem mapPages_contract_heap : ∃ s s', Started .pae (smallImage .pae) smallMap 0 s ∧
    MapRun 2 s [⟨0x800000, 0xE0000000⟩] s' ∧ s'.translate .pae 0xE0000000 = some 0x800 := by
  obtain ⟨s, hstart⟩ := started_small .pae 0
  have hstate := started_state smallMap_low smallMap_disjoint hstart
  have habsent : s.leafEntry .pae 0xE0000000 = none := by
    have hlast := hstate.last 0xE0000000 (by decide) (by decide)
    rw [if_neg (by decide)] at hlast
    exact leafEntry_of_none hlast
  have hcall : Mappable s [] ⟨0x800000, 0xE0000000⟩ :=
    ⟨⟨by decide, by decide⟩, by decide, by decide, nofun, habsent⟩
  have hinv := MapRun.inv (n := 0) .start hstate.inv hstate.stackCount nofun
  have hspec : wp (vmmMapPage .pae (resolveWrite .pae 2) 0x800000 0xE0000000) s (fun _ _ => True)
      fun _ => False := by
    refine (hinv.call_spec hcall (by decide)).mono (fun _ _ _ => trivial) fun e he => ?_
    have hfree := he.2.trans_le missing_le
    rw [hstate.free, smallMap_length] at hfree
    exact absurd hfree (by decide)
  obtain ⟨r, s', hexec, -⟩ := hspec.returns
  have hrun : MapRun 2 s [⟨0x800000, 0xE0000000⟩] s' := .call .start hcall hexec
  have hcontract := mapPages_contract smallMap_low smallMap_disjoint hstart hrun (by decide)
  exact ⟨s, s', hstart, hrun, hcontract.1.walks _ List.mem_cons_self⟩

/-! ### What writes `_BootPDPT` -/

/-- A computation that leaves `_BootPDPT` as it is. -/
def KeepsPdpt {α : Type} (x : M α) : Prop := ∀ s, wp x s (fun _ s' => s'.bootPdpt = s.bootPdpt) fun _ => True

variable {α β : Type} {x : M α} {b : Build} {resolve : Nat → M Nat}

theorem KeepsPdpt.bind {next : α → M β} (h : KeepsPdpt x) (hnext : ∀ a, KeepsPdpt (next a)) :
    KeepsPdpt (x >>= next) := by
  intro s
  rw [wp_bind]
  refine (h s).mono (fun a s₁ heq => ?_) fun _ _ => trivial
  exact (hnext a s₁).mono (fun _ _ heq' => heq'.trans heq) fun _ _ => trivial

theorem KeepsPdpt.pure (a : α) : KeepsPdpt (pure a : M α) := fun _ => rfl

theorem KeepsPdpt.throw (e : Fatal) : KeepsPdpt (throw e : M α) := fun _ => trivial

theorem KeepsPdpt.modify {g : Machine → Machine} (h : ∀ s, (g s).bootPdpt = s.bootPdpt) :
    KeepsPdpt (modify g : M PUnit) := h

theorem KeepsPdpt.ite {c : Prop} [Decidable c] {y : M α} (hx : KeepsPdpt x) (hy : KeepsPdpt y) :
    KeepsPdpt (if c then x else y) := by
  split
  · exact hx
  · exact hy

theorem keepsPdpt_load (va : Nat) : KeepsPdpt (load b va) := by
  intro s
  unfold wp
  cases hf : s.translate b va with
  | none =>
      rw [load_error hf]
      trivial
  | some f =>
      rw [load_ok hf]
      rfl

section Resolve

variable (hres : ∀ va, KeepsPdpt (resolve va))

include hres

theorem keepsPdpt_store (va w : Nat) : KeepsPdpt (store b resolve va w) :=
  (hres va).bind fun _ => .modify fun _ => rfl

theorem keepsPdpt_clearPage (va : Nat) : KeepsPdpt (clearPage resolve va) :=
  (hres va).bind fun _ => .modify fun _ => rfl

theorem keepsPdpt_vmmUnmapPage (va : Nat) : KeepsPdpt (vmmUnmapPage b resolve va) := by
  rw [vmmUnmapPage_eq]
  exact (keepsPdpt_store hres _ _).bind fun _ => .ite (.modify fun _ => rfl) (.pure _)

theorem keepsPdpt_pmmAllocPage : KeepsPdpt (pmmAllocPage b resolve) := by
  intro s
  unfold pmmAllocPage
  rw [wp_bind, wp_get, wp_ite]
  refine ⟨fun _ => ?_, fun _ => ?_⟩
  · have hrest : KeepsPdpt (do
        let page ← load b (s.pmmStackTop - b.entrySize)
        if (s.pmmStackTop - b.entrySize) % pageSize = 0 then vmmUnmapPage b resolve (s.pmmStackTop - b.entrySize)
        modify fun s => s.allocated page
        return page) := by
      refine (keepsPdpt_load _).bind fun page => ?_
      split
      · exact (keepsPdpt_vmmUnmapPage hres _).bind fun _ => .bind (.modify fun _ => rfl) fun _ => .pure _
      · exact .bind (.modify fun _ => rfl) fun _ => .pure _
    rw [wp_bind, wp_set]
    exact hrest _
  · split
    · trivial
    · rw [wp_bind, wp_set]
      rfl

theorem keepsPdpt_install (entryAddress p : Nat) (entryOf : Nat → Nat) :
    KeepsPdpt (install b resolve entryAddress p entryOf) := by
  refine (keepsPdpt_pmmAllocPage hres).bind fun page => (keepsPdpt_store hres _ _).bind fun _ => ?_
  exact .bind (.modify fun _ => rfl) fun _ => keepsPdpt_clearPage hres p

theorem keepsPdpt_handler (va : Nat) : KeepsPdpt (vmmPageFaultHandler b resolve va pageFaultWrite) := by
  rw [handler_eq]
  refine (keepsPdpt_load _).bind fun entry => ?_
  split
  · exact (keepsPdpt_install hres _ _ _).bind fun _ => .pure _
  · exact .throw _

theorem keepsPdpt_ensureTable (k i : Nat) : KeepsPdpt (ensureTable b resolve k i) := by
  refine (keepsPdpt_load _).bind fun entry => ?_
  split
  · exact keepsPdpt_install hres _ _ _
  · exact .pure _

theorem keepsPdpt_setPage (i pa va : Nat) : KeepsPdpt (setPage b resolve i pa va) := by
  refine (keepsPdpt_load _).bind fun entry => ?_
  split
  · exact .bind (.throw _) fun _ => (keepsPdpt_store hres _ _).bind fun _ =>
      .bind (.modify fun _ => rfl) fun _ => .pure _
  · exact (keepsPdpt_store hres _ _).bind fun _ => .bind (.modify fun _ => rfl) fun _ => .pure _

end Resolve

/-- Only `vmm_map_page` itself writes `_BootPDPT`, not the page faults that its writes raise. -/
theorem keepsPdpt_resolveWrite (n va : Nat) : KeepsPdpt (resolveWrite b n va) := by
  induction n generalizing va with
  | zero => exact .throw _
  | succ n ih =>
      intro s
      unfold wp
      cases hf : s.translate b va with
      | some f =>
          rw [resolveWrite_some n hf]
          rfl
      | none =>
          rw [resolveWrite_none n hf]
          exact (keepsPdpt_handler ih va).bind (fun _ => ih va) s

/-! ### Addresses below kernel space -/

/-- The page at which `vmm_page_mappings_1` shows the page table of an address. -/
def tablePage (va : Nat) : Nat := 0xFF800000 + 0x1000 * (va / 2 ^ 21)

/-- The slot in `vmm_page_mappings_2` of the page directory of an address. -/
def slotPage (va : Nat) : Nat := 0xFFFFC000 + 0x1000 * (va / 2 ^ 30)

theorem tablePage_div (va : Nat) : tablePage va / 2 ^ 21 = 2044 + va / 2 ^ 30 := by
  rw [tablePage]
  omega

/-- All pages of a gigabyte are reached through one slot. -/
theorem tablePage_path (va : Nat) : (Build.pae.path (tablePage (va / 2 ^ 30 * 2 ^ 30))).take 1 =
    (Build.pae.path (tablePage va)).take 1 := by
  rw [Build.path, Build.path, tablePage_div, tablePage_div, Nat.mul_div_cancel _ (Nat.two_pow_pos _),
    List.take_succ_cons, List.take_zero, List.take_succ_cons, List.take_zero]

section Low

variable (hva : va < 0xC0000000)

include hva

theorem tablePage_ordinary : Build.pae.InTree (tablePage va) ∧ ¬ Build.pae.InWindow (tablePage va) ∧
    pageAlignDown (tablePage va) = tablePage va := by
  simp only [tablePage, Build.InTree, Build.InWindow, Build.path, Build.recursiveIndex, List.head?_cons,
    Option.some.injEq, pageAlignDown, pageSize]
  omega

theorem low_pdpt : (va >>> 30) &&& 0x3 = va / 2 ^ 30 := by
  have hmask := Build.and_mask 2 (va >>> 30)
  norm_num at hmask
  rw [hmask, Nat.shiftRight_eq_div_pow]
  omega

theorem low_slot : Build.pae.vmmPageMappings 2 + (((va >>> 30) &&& 0x3) <<< 12) = slotPage va ∧
    Build.pae.entryVa 1 (tablePage (va / 2 ^ 30 * 2 ^ 30)) = slotPage va := by
  rw [low_pdpt hva, Build.entryVa, Build.index_eq, Nat.shiftLeft_eq]
  simp only [tablePage, slotPage, Build.vmmPageMappings, Build.entryAddress, Build.entrySize]
  omega

theorem low_directory : Build.pae.entryAddress 2 ((va >>> 21) &&& 0x7FF) = Build.pae.entryVa 1 (tablePage va) ∧
    Build.pae.vmmPageMappings 1 + (((va >>> 21) &&& 0x7FF) <<< 12) = pageAlignDown (tablePage va) := by
  have hmask := Build.and_mask 11 (va >>> 21)
  norm_num at hmask
  rw [(tablePage_ordinary hva).2.2, hmask, Build.entryVa, Build.index_eq, Nat.shiftLeft_eq, Nat.shiftRight_eq_div_pow]
  simp only [tablePage, Build.vmmPageMappings, Build.entryAddress, Build.entrySize]
  omega

theorem low_entry : Build.pae.entryAddress 1 ((va >>> 12) &&& 0xFFFFF) / pageSize = tablePage va / pageSize := by
  have hmask := Build.and_mask 20 (va >>> 12)
  norm_num at hmask
  rw [hmask, Nat.shiftRight_eq_div_pow]
  simp only [tablePage, Build.vmmPageMappings, Build.entryAddress, Build.entrySize, pageSize]
  omega

end Low

theorem MemInv.setPdpt (h : MemInv .pae pool held s) {i : Nat} (hi : i < 3) (w : Nat) :
    MemInv .pae pool held { s with bootPdpt := Function.update s.bootPdpt i w } := by
  refine ⟨⟨fun hb => ?_, h.tree.tree⟩, h.top, h.count_le, h.backed, h.aligned, h.ranges, h.partition, h.nodup,
    h.tables_used, h.held_out, h.held_data⟩
  obtain ⟨hthree, hlow, hboot⟩ := h.tree.directory hb
  refine ⟨hthree, hlow, ?_⟩
  dsimp only
  rwa [Function.update_of_ne (by omega)]

theorem zero_of_empty (h : ∀ i, s.mem f i = 0) : s.zero f = s := by
  have hmem : (fun g i => if g = f then 0 else s.mem g i) = s.mem := by
    funext g i
    split
    · rename_i heq
      rw [heq, h i]
    · rfl
  rw [Machine.zero, hmem]

section Trace

variable (h : MemInv .pae pool held s) (hva : va < 0xC0000000)

include h hva

/-- A new page directory: `vmm_map_page` enters one frame in `_BootPDPT`, and its `memset` through the slot, which
nobody has linked, gets another one from the page fault handler. -/
theorem newDirectory_spec (hslot : s.tableAt .pae (tablePage va) 1 = none) (hfree : 2 ≤ (s.freeFrames .pae).length) :
    wp (do
        let page ← pmmAllocPage .pae (resolveWrite .pae (n + 2))
        modify fun s => { s with bootPdpt := Function.update s.bootPdpt (va / 2 ^ 30) (page ||| pagePresent) }
        vmmInvalidate (slotPage va)
        clearPage (resolveWrite .pae (n + 2)) (slotPage va)) s
      (fun _ s' => MemInv .pae pool held s' ∧ (s.freeFrames .pae).length = (s'.freeFrames .pae).length + 2 ∧
        ∃ g t, g ≠ t ∧ entryFrame (s'.bootPdpt (va / 2 ^ 30)) = some g ∧ s'.tableAt .pae (tablePage va) 1 = some t ∧
          ∀ i, s'.mem t i = 0)
      fun _ => False := by
  have hi : va / 2 ^ 30 < 3 := by omega
  rw [wp_bind]
  refine (pmmAllocPage_spec h (resolveWrite_resolves (n + 1))).mono ?_ ?_
  swap
  · rintro e ⟨-, hnil⟩
    rw [hnil, List.length_nil] at hfree
    omega
  rintro page s₁ ⟨h₁, ha⟩
  have hfirst := congrArg List.length ha.taken.free
  rw [List.length_append, List.length_singleton] at hfirst
  rw [wp_bind, wp_modify, vmmInvalidate, wp_bind, wp_modify, clearPage, wp_bind]
  set s₂ : Machine := ({ s₁ with bootPdpt := Function.update s₁.bootPdpt (va / 2 ^ 30) (page ||| pagePresent) }).invlpg
    (slotPage va) with hs₂
  have h₂ : MemInv .pae pool held s₂ := (h₁.setPdpt hi _).invlpg
  have hslot₂ : s₂.tableAt .pae (tablePage va) 1 = none := by
    rw [← hslot, ← ha.tableAt (tablePage va) 1 (by decide)]
    rfl
  have hfirst₂ : s₂.bootPdpt (va / 2 ^ 30) = page ||| pagePresent := Function.update_self ..
  have hfree₂ : s₂.freeFrames .pae = s₁.freeFrames .pae := rfl
  have hlow : va / 2 ^ 30 * 2 ^ 30 < 0xC0000000 := by omega
  obtain ⟨htree, hwindow, -⟩ := tablePage_ordinary hlow
  have hresolve := resolveWrite_entry (n := n) h₂ htree hwindow
  rw [(low_slot hva).2] at hresolve
  refine hresolve.mono ?_ ?_
  swap
  · rintro e ⟨-, ⟨-, hnil⟩ | hroot⟩
    · rw [← hfree₂, hnil, List.length_nil] at hfirst
      omega
    · cases hroot
  rintro t s' ⟨taken, s₃, h₃, hensured, -, ht, rfl⟩
  obtain ⟨g, hg, ⟨-, hsome⟩ | ⟨rfl, -, hzero⟩⟩ := hensured.table
  · replace hsome : s₂.tableAt .pae (tablePage (va / 2 ^ 30 * 2 ^ 30)) 1 = some g := hsome
    rw [tableAt_of_take (tablePage_path va), hslot₂] at hsome
    cases hsome
  obtain rfl : g = t := Option.some.inj (hg.symm.trans ht)
  have hempty : (s₃.cache (slotPage va) g).zero g = s₃.cache (slotPage va) g := zero_of_empty hzero
  have hsecond := hensured.effect.free
  rw [wp_modify, hempty]
  refine ⟨h₃.cache, ?_, page / pageSize, g, ?_, ?_, ?_, hzero⟩
  · rw [hfirst, ← hfree₂, hsecond, List.length_append, List.length_singleton]
    show _ = (s₃.freeFrames .pae).length + 2
    omega
  · -- The two frames were free at the same time.
    intro heq
    have hnodup := h.free_nodup
    rw [ha.taken.free, ← hfree₂, hsecond, List.singleton_append, List.singleton_append, heq, List.nodup_cons] at hnodup
    exact hnodup.1 List.mem_cons_self
  · show entryFrame (s₃.bootPdpt _) = _
    rw [hensured.effect.bootPdpt, hfirst₂, lor_flags ha.aligned (by decide)]
    exact entryFrame_add ha.aligned (by decide) (by decide)
  · have hsame : s₃.tableAt .pae (tablePage (va / 2 ^ 30 * 2 ^ 30)) 1 = s₃.tableAt .pae (tablePage va) 1 :=
      tableAt_of_take (tablePage_path va)
    show s₃.tableAt .pae (tablePage va) 1 = some g
    rw [← hsame]
    exact hg

/-- The page table and the entry, which `vmm_map_page` makes below the other frame. -/
theorem newTable_spec {t : Nat} (ht : s.tableAt .pae (tablePage va) 1 = some t) (hzero : ∀ i, s.mem t i = 0)
    (hfree : 1 ≤ (s.freeFrames .pae).length) :
    wp (ensureTable .pae (resolveWrite .pae (n + 2)) 2 ((va >>> 21) &&& 0x7FF) >>= fun _ =>
        setPage .pae (resolveWrite .pae (n + 2)) ((va >>> 12) &&& 0xFFFFF) pa va) s
      (fun r s' => r = 0 ∧ MemInv .pae pool held s' ∧ s'.tableAt .pae (tablePage va) 1 = some t)
      fun _ => False := by
  obtain ⟨htree, hwindow, hdown⟩ := tablePage_ordinary hva
  have hres : Resolves .pae (resolveWrite .pae (n + 2)) := resolveWrite_resolves (n + 1)
  have hensure : ensureTable .pae (resolveWrite .pae (n + 2)) 2 ((va >>> 21) &&& 0x7FF) = (do
      let entry ← load .pae (Build.pae.entryAddress 2 ((va >>> 21) &&& 0x7FF))
      if ¬ Present entry then
        install .pae (resolveWrite .pae (n + 2)) (Build.pae.entryAddress 2 ((va >>> 21) &&& 0x7FF))
          (Build.pae.vmmPageMappings 1 + (((va >>> 21) &&& 0x7FF) <<< 12))
          fun page => page ||| pageWrite ||| pagePresent) := rfl
  rw [(low_directory hva).1, (low_directory hva).2] at hensure
  have hentry : s.translate .pae (Build.pae.entryVa 1 (tablePage va)) = some t := by
    rw [h.tree.translate_leafVa htree]
    exact ht
  have hlast : s.lastEntry .pae (tablePage va) = some 0 := by
    rw [lastEntry_of_tableAt h.tree htree ht, hzero]
  have hnone := (translate_eq_none_iff hlast).mpr not_present_zero
  rw [hensure, wp_bind, wp_bind, wp_of_ok (load_ok hentry), hzero, wp_ite]
  refine ⟨fun _ => ?_, fun hnot => absurd not_present_zero hnot⟩
  have hcached : MemInv .pae pool held (s.cache (Build.pae.entryVa 1 (tablePage va)) t) := h.cache
  refine (install_page hcached hres htree hwindow ht hnone (fun page => page ||| pageWrite ||| pagePresent) ?_).mono
    ?_ ?_
  · intro page hpage
    rw [entry_eq hpage]
    exact entryFrame_add hpage (by decide) (by decide)
  · rintro - s₁ ⟨h₁, page, hpaged⟩
    have hframe : s₁.translate .pae (tablePage va) = some (page / pageSize) := by
      rw [translate_of_last (hpaged.last _ rfl), entry_eq hpaged.aligned]
      exact entryFrame_add hpaged.aligned (by decide) (by decide)
    rw [← Build.translate_of_page (low_entry hva)] at hframe
    generalize hf : page / pageSize = f at hframe
    have hload := load_ok hframe
    rw [← hf, hpaged.zero, hf] at hload
    have hstore := store_ok (w := pa ||| pageWrite ||| pagePresent)
      (s := s₁.cache (Build.pae.entryAddress 1 ((va >>> 12) &&& 0xFFFFF)) f) hres hframe
    rw [setPage, wp_bind, wp_of_ok hload, wp_ite]
    refine ⟨fun hpresent => absurd hpresent not_present_zero, fun _ => ?_⟩
    rw [wp_bind, wp_of_ok hstore, vmmInvalidate, wp_bind, wp_modify, wp_pure]
    -- The new page is neither a table nor free.
    have hnodup := hcached.free_nodup
    rw [hpaged.free, hf, List.nodup_cons] at hnodup
    have hused : ¬ s₁.IsTable .pae f := by
      rw [hpaged.isTable]
      intro htable
      refine hcached.tables_used f htable ?_
      rw [hpaged.free, hf]
      exact List.mem_cons_self
    obtain ⟨hinv, hdata⟩ := h₁.data_change
      ((((s₁.cache (Build.pae.entryAddress 1 ((va >>> 12) &&& 0xFFFFF)) f).cache
        (Build.pae.entryAddress 1 ((va >>> 12) &&& 0xFFFFF)) f).write f
        (Build.pae.wordIndex (Build.pae.entryAddress 1 ((va >>> 12) &&& 0xFFFFF)))
        (pa ||| pageWrite ||| pagePresent)).invlpg va) rfl
      (by
        intro g hg
        refine funext fun i => Machine.write_of_ne fun heq => ?_
        rw [heq.1] at hg
        exact hg.elim hused hnodup.1)
    refine ⟨rfl, hinv, ?_⟩
    rw [hdata.tableAt _ 1 (by decide), hpaged.tableAt _ 1 (by decide)]
    exact ht
  · rintro e ⟨-, hnil⟩
    have hnil : s.freeFrames .pae = [] := hnil
    rw [hnil, List.length_nil] at hfree
    omega

/-- `vmm_map_page` of an address below kernel space whose page directory is missing: it returns 0, but the frame in
`_BootPDPT` is not the one in the slot. -/
theorem vmmMapPage_low (hpdpt : ¬ Present (s.bootPdpt (va / 2 ^ 30))) (hslot : s.tableAt .pae (tablePage va) 1 = none)
    (hfree : 3 ≤ (s.freeFrames .pae).length) :
    wp (vmmMapPage .pae (resolveWrite .pae (n + 2)) pa va) s
      (fun r s' => r = 0 ∧ MemInv .pae pool held s' ∧ ∃ g t, g ≠ t ∧
        entryFrame (s'.bootPdpt (va / 2 ^ 30)) = some g ∧ s'.translate .pae (slotPage va) = some t)
      fun _ => False := by
  have hcode : vmmMapPage .pae (resolveWrite .pae (n + 2)) pa va s = ((do
        let page ← pmmAllocPage .pae (resolveWrite .pae (n + 2))
        modify fun s => { s with bootPdpt := Function.update s.bootPdpt (va / 2 ^ 30) (page ||| pagePresent) }
        vmmInvalidate (slotPage va)
        clearPage (resolveWrite .pae (n + 2)) (slotPage va)) >>= fun _ =>
      ensureTable .pae (resolveWrite .pae (n + 2)) 2 ((va >>> 21) &&& 0x7FF) >>= fun _ =>
        setPage .pae (resolveWrite .pae (n + 2)) ((va >>> 12) &&& 0xFFFFF) pa va) s := by
    rw [← (low_slot hva).1, ← low_pdpt hva]
    rw [← low_pdpt hva] at hpdpt
    unfold vmmMapPage vmmMapPagePae
    dsimp only
    rw [bind_of_ok rfl, if_pos hpdpt]
    simp only [bind_assoc]
  unfold wp
  rw [hcode]
  refine wp_bind.mpr ((newDirectory_spec h hva hslot (by omega)).mono ?_ fun _ he => he)
  rintro - s₁ ⟨h₁, hlength, g, t, hne, hg, ht, hzero⟩
  have hres : ∀ va, KeepsPdpt (resolveWrite .pae (n + 2) va) := keepsPdpt_resolveWrite (n + 2)
  have hkeeps : KeepsPdpt (ensureTable .pae (resolveWrite .pae (n + 2)) 2 ((va >>> 21) &&& 0x7FF) >>= fun _ =>
      setPage .pae (resolveWrite .pae (n + 2)) ((va >>> 12) &&& 0xFFFFF) pa va) :=
    (keepsPdpt_ensureTable hres _ _).bind fun _ => keepsPdpt_setPage hres _ pa va
  refine ((newTable_spec h₁ hva ht hzero (by omega)).and (hkeeps s₁)).mono ?_ fun _ he => he
  rintro r s' ⟨⟨hr, hinv, ht'⟩, hpdpt'⟩
  refine ⟨hr, hinv, g, t, hne, by rw [hpdpt', hg], ?_⟩
  have hsame : s'.tableAt .pae (tablePage (va / 2 ^ 30 * 2 ^ 30)) 1 = s'.tableAt .pae (tablePage va) 1 :=
    tableAt_of_take (tablePage_path va)
  have hlow : va / 2 ^ 30 * 2 ^ 30 < 0xC0000000 := by omega
  rw [← (low_slot hva).2, hinv.tree.translate_leafVa (tablePage_ordinary hlow).1]
  exact hsame.trans ht'

end Trace

/-- `vmm_init` takes the entry of the identity mapping out of `_BootPDPT`. -/
theorem vmmInitPae_pdpt {resolve : Nat → M Nat} (hres : ∀ va, KeepsPdpt (resolve va)) (image : KernelImage .pae)
    (s : Machine) : wp (vmmInitPae resolve image) s (fun _ s' => s'.bootPdpt 0 = 0) fun _ => True := by
  have hstore := keepsPdpt_store (b := .pae) hres (image.tableAddress 0 + Build.pae.entrySize * 511)
    (image.tableAddress 0 - Build.pae.kernelVirtualBase ||| pageWrite ||| pagePresent) s
  have hrest : KeepsPdpt (do
      vmmUnmapPage .pae resolve (image.tableAddress 1)
      vmmUnmapPage .pae resolve (image.tableAddress 0)
      vmmUnmapPage .pae resolve (image.tableAddress 2)) :=
    (keepsPdpt_vmmUnmapPage hres _).bind fun _ => (keepsPdpt_vmmUnmapPage hres _).bind fun _ =>
      keepsPdpt_vmmUnmapPage hres _
  rw [vmmInitPae, wp_bind, wp_get, wp_bind]
  refine hstore.mono (fun _ s₁ _ => ?_) fun _ _ => trivial
  rw [wp_bind, wp_modify, wp_bind, wp_modify]
  refine (hrest _).mono (fun _ s' heq => ?_) fun _ _ => trivial
  rw [heq]
  show Function.update s₁.bootPdpt 0 0 0 = 0
  rw [Function.update_self]

theorem started_pdpt {image : KernelImage .pae} {map : List MemoryMapEntry} (hstart : Started .pae image map n s) :
    s.bootPdpt 0 = 0 := by
  obtain ⟨s₀, h₀, hrun⟩ := hstart
  have hres : ∀ va, KeepsPdpt (resolveWrite .pae (n + 2) va) := keepsPdpt_resolveWrite (n + 2)
  rw [kernelEarly] at hrun
  generalize resolveWrite .pae (n + 2) = resolve at hrun hres
  have hinit := vmmInitPae_pdpt hres image
  rw [vmmInit] at hrun
  cases hpmm : pmmInit .pae image.imageEnd map s₀ with
  | error e =>
      rw [bind_of_error hpmm] at hrun
      cases hrun
  | ok r =>
      rw [bind_of_ok hpmm] at hrun
      exact (hinit r.2).ok hrun

/-- A user-space page on PAE: the call returns, and the hardware does not know the page; the page directory in
`_BootPDPT` is not the one in its slot. -/
theorem mapPages_low : ∃ s s', Started .pae (smallImage .pae) smallMap 0 s ∧ Mappable s [] ⟨0x800000, 0x400000⟩ ∧
    vmmMapPage .pae (resolveWrite .pae 2) 0x800000 0x400000 s = .ok (0, s') ∧
    s'.translate .pae 0x400000 = none ∧ ¬ Present (s.bootPdpt 0) ∧ Present (s'.bootPdpt 0) ∧
    s'.translate .pae (Build.pae.vmmPageMappings 2) ≠ entryFrame (s'.bootPdpt 0) := by
  obtain ⟨s, hstart⟩ := started_small .pae 0
  have hstate := started_state smallMap_low smallMap_disjoint hstart
  have hlow : ¬ Build.pae.InTree 0x400000 := by decide
  have hpdpt : ¬ Present (s.bootPdpt 0) := by
    rw [started_pdpt hstart]
    exact not_present_zero
  have hslot : s.tableAt .pae (tablePage 0x400000) 1 = none := by
    have hlast := hstate.last (tablePage 0x400000) (by decide) (by decide)
    rw [if_neg (by decide), lastEntry_eq hstate.inv.tree (by decide), Option.map_eq_none_iff] at hlast
    exact hlast
  have hspec : wp (vmmMapPage .pae (resolveWrite .pae 2) 0x800000 0x400000) s _ _ :=
    vmmMapPage_low hstate.inv (by decide) hpdpt hslot (by rw [hstate.free, smallMap_length]; decide)
  obtain ⟨r, s', hrun, rfl, hinv, g, t, hne, hg, ht⟩ := hspec.returns
  refine ⟨s, s', hstart, ⟨⟨by decide, by decide⟩, by decide, by decide, nofun, ?_⟩, hrun,
    hinv.tree.translate_of_not hlow, hpdpt, ?_, ?_⟩
  · exact leafEntry_of_none (lastEntry_of_not hstate.inv.tree hlow)
  · by_contra habsent
    rw [show (0x400000 : Nat) / 2 ^ 30 = 0 from rfl, entryFrame_of_not habsent] at hg
    cases hg
  · intro heq
    rw [show slotPage 0x400000 = Build.pae.vmmPageMappings 2 from rfl, heq] at ht
    exact hne (Option.some.inj (hg.symm.trans ht))

end Kiznix.Memory
