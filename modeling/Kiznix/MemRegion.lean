import Kiznix.MemFault
import Mathlib.Data.Finset.Card

/-! Writes to last-level entries through the window, whose page table may be missing: `vmm_unmap_page`, and
the loops of `vmm_alloc`, `vmm_map` and `vmm_unmap`. -/

namespace Kiznix.Memory

open RadixTree

variable {b : Build} {pool held : List Nat} {s s' s₁ : Machine} {resolve : Nat → M Nat}
  {va va' f g t w j k m n d e pa page : Nat} {taken taken' : List Nat}

/-- A page of the stack that the stack gave back is a page of its window. -/
theorem MemInv.dropped_inStack (h : MemInv b pool held s) (hdropped : Dropped b s s' va) : b.InStack va := by
  obtain ⟨j, hpage, -, hj⟩ := hdropped
  by_contra hva
  exact Build.stackPage_ne_of_not_inStack hva (h.stackPage_lt hj) hpage.symm

/-! ### A write to a last-level entry -/

theorem resolveWrite_some (n : Nat) (hf : s.translate b va = some f) :
    resolveWrite b (n + 1) va s = .ok (f, s.cache va f) :=
  resolveWrite_resolves n s va f hf

theorem resolveWrite_none (n : Nat) (hnone : s.translate b va = none) :
    resolveWrite b (n + 1) va s = (vmmPageFaultHandler b (resolveWrite b n) va pageFaultWrite >>= fun _ =>
      resolveWrite b n va) s := by
  rw [resolveWrite, bind_of_ok (show (get : M Machine) s = .ok (s, s) from rfl), hnone]

theorem Ensured.refl (ht : s.tableAt b va (d + 1) = some t) : Ensured b va d [] s s :=
  ⟨(BuiltTo.zero : BuiltTo b va 0 [] s s).effect, ⟨t, ht, Or.inl ⟨rfl, ht⟩⟩, fun _ _ _ _ _ => rfl,
    fun _ _ _ hzero => hzero⟩

/-- Why a write to a last-level entry stops. -/
def EntryFails (b : Build) (va : Nat) (s : Machine) (e : Fatal) : Prop :=
  s.tableAt b va (b.levels - 1) = none ∧
    (e = .outOfPhysicalMemory ∧ s.freeFrames b = [] ∨ s.tableAt b va (b.levels - 2) = none)

/-- A write to the last-level entry of an address finds its page table, or the handler puts one in. -/
theorem resolveWrite_entry (h : MemInv b pool held s) (hva : b.InTree va) (hwindow : ¬ b.InWindow va) :
    wp (resolveWrite b (n + 2) (b.entryVa 1 va)) s
      (fun t s' => ∃ taken s₁, MemInv b pool held s₁ ∧ Ensured b va (b.levels - 2) taken s s₁ ∧
        (taken = [] → s₁ = s) ∧ s₁.tableAt b va (b.levels - 1) = some t ∧ s' = s₁.cache (b.entryVa 1 va) t)
      (EntryFails b va s) := by
  cases ht : s.tableAt b va (b.levels - 1) with
  | some t =>
      have hentry : s.translate b (b.entryVa 1 va) = some t := by rw [h.tree.translate_leafVa hva, ht]
      rw [wp_of_ok (resolveWrite_some (n + 1) hentry)]
      refine ⟨[], s, h, Ensured.refl (t := t) ?_, fun _ => rfl, ht, rfl⟩
      rw [levels_sub_two]
      exact ht
  | none =>
      have hentry : s.translate b (b.entryVa 1 va) = none := by rw [h.tree.translate_leafVa hva, ht]
      unfold wp
      rw [resolveWrite_none (n + 1) hentry]
      show wp _ _ _ _
      cases hupper : s.tableAt b va (b.levels - 2) with
      | none =>
          have hlevel : b.levels - (b.levels - 2) = 2 := by
            have := levels_two_le (b := b)
            omega
          have hlt : b.levels - 2 < b.levels := by
            have := levels_two_le (b := b)
            omega
          have hread : s.translate b (b.entryVa 2 va) = none := by
            rw [← hlevel, h.tree.translate_entryVa hlt hva, hupper]
          rw [handler_eq, Build.pageAlignDown_entryVa hva, Build.entryVa_tableVa hva, wp_bind, wp_bind]
          unfold wp
          rw [load_error hread]
          exact ⟨ht, Or.inr hupper⟩
      | some t =>
          rw [wp_bind]
          refine (handler_link h (resolveWrite_resolves n) hva hwindow hupper ht).mono ?_ fun e he =>
            ⟨ht, Or.inl he⟩
          rintro - s₁ ⟨-, h₁, g, hensured⟩
          obtain ⟨g', hg', hcase⟩ := hensured.table
          rw [levels_sub_two] at hg'
          have hentry₁ : s₁.translate b (b.entryVa 1 va) = some g' := by
            rw [h₁.tree.translate_leafVa hva, hg']
          rw [wp_of_ok (resolveWrite_some n hentry₁)]
          exact ⟨[g], s₁, h₁, hensured, fun heq => absurd heq (by simp), hg', rfl⟩

/-- The effect of a write of `w` to the last-level entry of an address. -/
structure EntryWritten (b : Build) (va w : Nat) (taken : List Nat) (s s₁ s' : Machine) : Prop where
  cached : ∃ t, s₁.translate b (b.entryVa 1 va) = some t ∧
    s'.tlb = (b.entryVa 1 va / pageSize, t) :: s₁.tlb
  ensured : Ensured b va (b.levels - 2) taken s s₁
  same : taken = [] → s₁ = s
  leaf : LeafSet b va w s₁ s'

theorem store_entry (h : MemInv b pool held s) (hva : b.InTree va) (hwindow : ¬ b.InWindow va)
    (hstack : ¬ b.InStack va ∨ s.stackCount b = 0) :
    wp (store b (resolveWrite b (n + 2)) (b.entryVa 1 va) w) s
      (fun _ s' => MemInv b pool held s' ∧ ∃ taken s₁, MemInv b pool held s₁ ∧
        EntryWritten b va w taken s s₁ s')
      (EntryFails b va s) := by
  unfold store
  rw [wp_bind]
  refine (resolveWrite_entry h hva hwindow).mono ?_ fun e he => he
  rintro t s' ⟨taken, s₁, h₁, hensured, hsame, ht, rfl⟩
  have hentry : s₁.translate b (b.entryVa 1 va) = some t := by rw [h₁.tree.translate_leafVa hva, ht]
  rw [wp_modify, wordIndex_leafVa hva]
  have hslots : ∀ j, j * b.entries < s₁.stackCount b → b.stackPage j / pageSize ≠ va / pageSize := by
    intro j hj
    rcases hstack with hstack | hempty
    · exact Build.stackPage_ne_of_not_inStack hstack (h₁.stackPage_lt hj)
    · have hcount := hensured.effect.count
      omega
  obtain ⟨hinv, hleaf⟩ := h₁.set_leaf (w := w) hva hwindow ht hslots
    ((s₁.cache (b.entryVa 1 va) t).write t ((b.path va).getLastD 0) w) rfl
  exact ⟨hinv, taken, s₁, h₁, ⟨t, hentry, rfl⟩, hensured, hsame, hleaf⟩

/-! ### Effects on the address space -/

/-- The last-level entries of the pages of `vas` were set to the words `entry` gives for their page numbers;
page tables were built with the frames `taken`. -/
structure Written (b : Build) (entry : Nat → Nat) (vas taken : List Nat) (s s' : Machine) : Prop where
  free : s.freeFrames b = taken ++ s'.freeFrames b
  out : s'.handedOut = taken.reverse ++ s.handedOut
  table : ∀ va d t, d < b.levels → s.tableAt b va d = some t → s'.tableAt b va d = some t
  isTable : ∀ f, s'.IsTable b f → s.IsTable b f ∨ f ∈ taken
  isTable_mono : ∀ f, s.IsTable b f → s'.IsTable b f
  mem : ∀ f, ¬ s.IsTable b f → f ∉ taken → s'.mem f = s.mem f
  set : ∀ va ∈ vas, ∀ va', va' / pageSize = va / pageSize →
    s'.lastEntry b va' = some (entry (va' / pageSize))
  last : ∀ va', ¬ b.InWindow va' → (∀ va ∈ vas, va' / pageSize ≠ va / pageSize) →
    s'.lastEntry b va' = s.lastEntry b va' ∨
      s'.lastEntry b va' = some 0 ∧ (s.lastEntry b va' = none ∨ Dropped b s s' va')
  others : ∀ va' e, e < b.levels → ¬ b.InWindow va' →
    (∀ va ∈ vas, (b.path va').take e ≠ (b.path va).take e) → s'.tableAt b va' e = s.tableAt b va' e
  count : s'.stackCount b = s.stackCount b - taken.length
  root : s'.root b = s.root b
  bootPdpt : s'.bootPdpt = s.bootPdpt
  accounted : Accounted b s → Accounted b s'
  tlb : ∀ e ∈ s'.tlb, e ∈ s.tlb ∨ b.Internal (pageSize * e.1)
  quiet : ∀ n, Quiet b (taken.length + n) s → Quiet b n s'

variable {entry : Nat → Nat} {vas vas' : List Nat} {e' : Fatal}

theorem Written.count_le (h : Written b entry vas taken s s') : s'.stackCount b ≤ s.stackCount b := by
  rw [h.count]
  exact Nat.sub_le _ _

theorem Written.refl : Written b entry [] [] s s where
  free := rfl
  out := rfl
  table _ _ _ _ ht := ht
  isTable _ := Or.inl
  isTable_mono _ := id
  mem _ _ _ := rfl
  set _ hva := absurd hva List.not_mem_nil
  last _ _ _ := Or.inl rfl
  others _ _ _ _ _ := rfl
  count := rfl
  root := rfl
  bootPdpt := rfl
  accounted := id
  tlb _ := Or.inl
  quiet n hn := by rwa [List.length_nil, Nat.zero_add] at hn

theorem Written.trans (h : Written b entry vas taken s s₁) (h' : Written b entry vas' taken' s₁ s')
    (h₁ : MemInv b pool held s₁) (hvas : ∀ va ∈ vas, ¬ b.Internal va) :
    Written b entry (vas ++ vas') (taken ++ taken') s s' where
  free := by rw [h.free, h'.free, List.append_assoc]
  out := by rw [h'.out, h.out, List.reverse_append, List.append_assoc]
  table va d t hd ht := h'.table va d t hd (h.table va d t hd ht)
  isTable f hf := by
    rcases h'.isTable f hf with hf | hf
    · exact (h.isTable f hf).imp_right (List.mem_append_left _)
    · exact Or.inr (List.mem_append_right _ hf)
  isTable_mono f hf := h'.isTable_mono f (h.isTable_mono f hf)
  mem f hf hnot := by
    rw [List.mem_append, not_or] at hnot
    rw [h'.mem f (fun htable => (h.isTable f htable).elim hf hnot.1) hnot.2, h.mem f hf hnot.1]
  set va hva va' hpage := by
    by_cases hlater : ∃ va'' ∈ vas', va' / pageSize = va'' / pageSize
    · obtain ⟨va'', hmem, hpage'⟩ := hlater
      exact h'.set va'' hmem va' hpage'
    · push Not at hlater
      have hmem : va ∈ vas := (List.mem_append.mp hva).resolve_right fun hmem => hlater va hmem hpage
      have hinternal := hvas va hmem
      rw [← Build.internal_page, ← hpage, Build.internal_page, Build.Internal, not_or] at hinternal
      have hset := h.set va hmem va' hpage
      rcases h'.last va' hinternal.1 hlater with heq | ⟨-, hnone | hdropped⟩
      · rw [heq, hset]
      · rw [hset] at hnone
        cases hnone
      · exact absurd (h₁.dropped_inStack hdropped) hinternal.2
  last va' hwindow hne := by
    have hne₁ := h.last va' hwindow fun va hva => hne va (List.mem_append_left _ hva)
    rcases h'.last va' hwindow fun va hva => hne va (List.mem_append_right _ hva) with heq | ⟨hzero, hcause⟩
    · rw [heq]
      exact hne₁.imp_right
        (And.imp_right (Or.imp_right fun hdropped => hdropped.mono_right h'.count_le))
    · rcases hne₁ with heq | ⟨-, hcause'⟩
      · rw [heq] at hcause
        exact Or.inr ⟨hzero, hcause.imp_right fun hdropped => hdropped.mono_left h.count_le⟩
      · exact Or.inr ⟨hzero, hcause'.imp_right fun hdropped => hdropped.mono_right h'.count_le⟩
  others va' e he hwindow hne := by
    rw [h'.others va' e he hwindow fun va hva => hne va (List.mem_append_right _ hva),
      h.others va' e he hwindow fun va hva => hne va (List.mem_append_left _ hva)]
  count := by rw [h'.count, h.count, List.length_append, Nat.sub_sub]
  root := h'.root.trans h.root
  bootPdpt := h'.bootPdpt.trans h.bootPdpt
  accounted ha := h'.accounted (h.accounted ha)
  tlb e he := (h'.tlb e he).elim (h.tlb e) Or.inr
  quiet n hn := by
    rw [List.length_append, Nat.add_assoc] at hn
    exact h'.quiet n (h.quiet _ hn)

theorem Written.invlpg (h : Written b entry vas taken s s') :
    Written b entry vas taken s (s'.invlpg va) :=
  { h with tlb := fun e he => h.tlb e (List.mem_of_mem_filter he) }

/-- Tables are built, then the entry of one page is set. -/
theorem Taken.write_entry (h : Taken b taken s s₁) (hleaf : LeafSet b va (entry (va / pageSize)) s₁ s')
    (hothers : ∀ va' e, e < b.levels → ¬ b.InWindow va' → (b.path va').take e ≠ (b.path va).take e →
      s₁.tableAt b va' e = s.tableAt b va' e)
    (htlb : ∀ e ∈ s'.tlb, e ∈ s₁.tlb ∨ b.Internal (pageSize * e.1)) :
    Written b entry [va] taken s s' where
  free := by rw [hleaf.free, h.free]
  out := by rw [hleaf.out, h.out]
  table va' d t hd ht := by rw [hleaf.tableAt va' d hd, h.table va' d t hd ht]
  isTable f hf := h.isTable f ((hleaf.isTable f).mp hf)
  isTable_mono f hf := (hleaf.isTable f).mpr (h.isTable_mono f hf)
  mem f hf hnot := by
    rw [hleaf.mem f fun htable => (h.isTable f htable).elim hf hnot, h.mem f hf hnot]
  set va' hva va'' hpage := by
    rw [List.mem_singleton.mp hva] at hpage
    rw [hleaf.last va'' hpage, hpage]
  last va' hwindow hne := by
    have hcount : s'.stackCount b ≤ s₁.stackCount b := by
      rw [Machine.stackCount, hleaf.pmmStackTop, Machine.stackCount]
    rw [hleaf.last_of_ne va' (hne va List.mem_cons_self) hwindow]
    exact (h.last va' hwindow).imp_right
      (And.imp_right (Or.imp_right fun hdropped => hdropped.mono_right hcount))
  others va' e he hwindow hne := by
    rw [hleaf.tableAt va' e he, hothers va' e he hwindow (hne va List.mem_cons_self)]
  count := by rw [Machine.stackCount, hleaf.pmmStackTop, ← Machine.stackCount, h.count]
  root := by rw [hleaf.root, h.root]
  bootPdpt := by rw [hleaf.bootPdpt, h.bootPdpt]
  accounted hacc := by
    have hmemory : s'.pmmFreeMemory = s₁.pmmFreeMemory := by rw [hleaf.same]
    rw [Accounted, hleaf.free, hmemory]
    exact h.accounted hacc
  tlb e he := (htlb e he).elim (h.tlb e) Or.inr
  quiet n hn := by
    have hquiet := h.quiet n hn
    rw [Quiet, Machine.stackCount, ← hleaf.pmmStackTop] at hquiet
    exact hquiet

theorem Mapped.written (h : Mapped b pa va taken s s')
    (hentry : entry (va / pageSize) = pa ||| pageWrite ||| pagePresent) :
    Written b entry [va] taken s s' := by
  obtain ⟨s₁, hbuilt, -, hleaf, htlb, -⟩ := h
  rw [← hentry] at hleaf
  exact hbuilt.effect.write_entry hleaf
    (fun va' e he hwindow hne => hbuilt.others va' e he hwindow (Or.inr hne)) htlb

theorem Mapped.written_const (h : Mapped b pa va taken s s') :
    Written b (fun _ => pa ||| pageWrite ||| pagePresent) [va] taken s s' :=
  h.written rfl

theorem Mapped.coherent (h : Mapped b pa va taken s s') (hquiet : Quiet b taken.length s)
    (hc : Coherent b s) : Coherent b s' := by
  obtain ⟨s₁, hbuilt, -, -, -, hcoherent⟩ := h
  exact hcoherent (hbuilt.effect.coherent hquiet hc)

theorem Mapped.nextAlloc (h : Mapped b pa va taken s s') : s'.nextAlloc = s.nextAlloc := by
  obtain ⟨s₁, hbuilt, -, hleaf, -, -⟩ := h
  rw [hleaf.nextAlloc, hbuilt.effect.nextAlloc]

theorem Mapped.length (h : Mapped b pa va taken s s') : taken.length = missing b s va (b.levels - 1) := by
  obtain ⟨s₁, hbuilt, -⟩ := h
  exact hbuilt.length

section EntryWritten

variable (h : EntryWritten b va w taken s s₁ s') (hva : b.InTree va) (hinternal : ¬ b.Internal va)

include h hva

theorem EntryWritten.tlb (e : Nat × Nat) (he : e ∈ s'.tlb) :
    e ∈ s₁.tlb ∨ b.Internal (pageSize * e.1) := by
  obtain ⟨t, -, htlb⟩ := h.cached
  rw [htlb] at he
  have hsub : b.levels - (b.levels - 1) = 1 := Nat.sub_sub_self b.levels_pos
  exact internal_cache (f := t) (hsub ▸ Build.internal_entryVa levels_sub_lt hva) e he

theorem EntryWritten.written (hentry : entry (va / pageSize) = w) : Written b entry [va] taken s s' := by
  have hleaf := h.leaf
  rw [← hentry] at hleaf
  refine h.ensured.effect.write_entry hleaf (fun va' e he hwindow hne => ?_) (h.tlb hva)
  refine h.ensured.others ?_ he hwindow hne
  rw [levels_sub_two]
  exact levels_sub_lt

omit hva in
theorem EntryWritten.length :
    taken.length = if s.tableAt b va (b.levels - 1) = none then 1 else 0 := by
  rw [h.ensured.length, levels_sub_two]

omit hva in
theorem EntryWritten.coherent_invlpg (hquiet : Quiet b taken.length s) (hc : Coherent b s) :
    Coherent b (s'.invlpg va) := by
  obtain ⟨t, hentry, htlb⟩ := h.cached
  refine h.leaf.invlpg.coherent (fun e he => ?_) (h.ensured.effect.coherent hquiet hc)
  obtain ⟨hmem, hne⟩ := List.mem_filter.mp he
  refine Or.inl ⟨?_, Or.inl (by simpa using hne)⟩
  rw [htlb] at hmem
  rcases List.mem_cons.mp hmem with rfl | hmem
  · exact Or.inr (translate_page_mul.trans hentry)
  · exact Or.inl hmem

include hinternal

/-- A page that nothing has cached needs no invalidation. -/
theorem EntryWritten.coherent_uncached (hquiet : Quiet b taken.length s) (hc : Coherent b s)
    (huncached : ∀ e ∈ s.tlb, e.1 ≠ va / pageSize) : Coherent b s' := by
  obtain ⟨t, hentry, htlb⟩ := h.cached
  refine h.leaf.coherent (fun e he => Or.inl ⟨?_, Or.inl ?_⟩) (h.ensured.effect.coherent hquiet hc)
  · rw [htlb] at he
    rcases List.mem_cons.mp he with rfl | he
    · exact Or.inr (translate_page_mul.trans hentry)
    · exact Or.inl he
  · have hold : e ∈ s.tlb ∨ b.Internal (pageSize * e.1) := by
      rcases h.tlb hva e he with he | he
      · exact h.ensured.effect.tlb e he
      · exact Or.inr he
    rcases hold with he | he
    · exact huncached e he
    · intro heq
      rw [heq, Build.internal_page] at he
      exact hinternal he

end EntryWritten

/-! ### `vmm_unmap_page` -/

/-- An address that does not belong to the page tables or to the free-page stack. -/
def Build.Ordinary (b : Build) (va : Nat) : Prop := b.InTree va ∧ ¬ b.Internal va

/-- Nothing has cached the page of an address. -/
def Uncached (s : Machine) (va : Nat) : Prop := ∀ e ∈ s.tlb, e.1 ≠ va / pageSize

theorem vmmUnmapPage_eq (va : Nat) : vmmUnmapPage b resolve va = (do
    store b resolve (b.entryVa 1 va) 0
    if b = .i386 then vmmInvalidate va) := by
  cases b with
  | i386 => rfl
  | pae => exact (bind_pure _).symm
  | x86_64 => exact (bind_pure _).symm

theorem vmmUnmapPage_spec (h : MemInv b pool held s) (hva : b.Ordinary va) :
    wp (vmmUnmapPage b (resolveWrite b (n + 2)) va) s
      (fun _ s' => MemInv b pool held s' ∧ s'.nextAlloc = s.nextAlloc ∧ ∃ taken,
        Written b (fun _ => 0) [va] taken s s' ∧
        taken.length = (if s.tableAt b va (b.levels - 1) = none then 1 else 0) ∧
        (Quiet b taken.length s → b = .i386 ∨ Uncached s va → Coherent b s → Coherent b s'))
      (EntryFails b va s) := by
  obtain ⟨htree, hinternal⟩ := hva
  rw [Build.Internal, not_or] at hinternal
  rw [vmmUnmapPage_eq, wp_bind]
  refine (store_entry h htree hinternal.1 (Or.inl hinternal.2)).mono ?_ fun e he => he
  rintro - s₂ ⟨h₂, taken, s₁, h₁, hwritten⟩
  have heffect : Written b (fun _ => 0) [va] taken s s₂ := hwritten.written htree rfl
  have hnext : s₂.nextAlloc = s.nextAlloc := by
    rw [hwritten.leaf.nextAlloc, hwritten.ensured.effect.nextAlloc]
  rw [wp_ite]
  constructor
  · intro hb
    rw [vmmInvalidate, wp_modify]
    exact ⟨h₂.invlpg, hnext, taken, heffect.invlpg, hwritten.length,
      fun hquiet _ hc => hwritten.coherent_invlpg hquiet hc⟩
  · intro hb
    rw [wp_pure]
    exact ⟨h₂, hnext, taken, heffect, hwritten.length, fun hquiet hcached hc =>
      hwritten.coherent_uncached htree (by rwa [Build.Internal, not_or]) hquiet hc
        (hcached.resolve_left hb)⟩

/-! ### `vmm_alloc` -/

/-- The pages of a region, from its first. -/
def regionPages (b : Build) : Nat → Nat → List Nat
  | _, 0 => []
  | p, n + 1 => p :: regionPages b ((pageSize + p) % 2 ^ b.wordBits) n

/-- The address after a region. -/
def regionEnd (b : Build) : Nat → Nat → Nat
  | p, 0 => p
  | p, n + 1 => regionEnd b ((pageSize + p) % 2 ^ b.wordBits) n

theorem add_pages_mod (p k : Nat) : ((pageSize + p) % 2 ^ b.wordBits + pageSize * k) % 2 ^ b.wordBits =
    (p + pageSize * (k + 1)) % 2 ^ b.wordBits := by
  rw [Nat.mod_add_mod, Nat.mul_succ]
  congr 1
  omega

theorem mem_regionPages {p m : Nat} (hp : p < 2 ^ b.wordBits) : va ∈ regionPages b p m ↔
    ∃ k < m, va = (p + pageSize * k) % 2 ^ b.wordBits := by
  induction m generalizing p with
  | zero => simp [regionPages]
  | succ m ih =>
      rw [regionPages, List.mem_cons, ih (Nat.mod_lt _ (Nat.two_pow_pos _))]
      constructor
      · rintro (rfl | ⟨k, hk, rfl⟩)
        · exact ⟨0, Nat.succ_pos m, by rw [Nat.mul_zero, Nat.add_zero, Nat.mod_eq_of_lt hp]⟩
        · exact ⟨k + 1, Nat.succ_lt_succ hk, add_pages_mod p k⟩
      · rintro ⟨k, hk, rfl⟩
        cases k with
        | zero => exact Or.inl (by rw [Nat.mul_zero, Nat.add_zero, Nat.mod_eq_of_lt hp])
        | succ k => exact Or.inr ⟨k, Nat.lt_of_succ_lt_succ hk, (add_pages_mod p k).symm⟩

theorem regionEnd_eq {p : Nat} (hp : p < 2 ^ b.wordBits) (m : Nat) :
    regionEnd b p m = (p + pageSize * m) % 2 ^ b.wordBits := by
  induction m generalizing p with
  | zero => rw [regionEnd, Nat.mul_zero, Nat.add_zero, Nat.mod_eq_of_lt hp]
  | succ m ih => rw [regionEnd, ih (Nat.mod_lt _ (Nat.two_pow_pos _)), add_pages_mod]

/-- The page tables that are missing for some of the pages, each by the path to it. -/
def missingTables (b : Build) (s : Machine) (vas : List Nat) : Finset (List Nat) :=
  ((vas.filter fun va => s.tableAt b va (b.levels - 1) = none).map fun va =>
    (b.path va).take (b.levels - 1)).toFinset

theorem mem_missingTables {p : List Nat} : p ∈ missingTables b s vas ↔
    ∃ va ∈ vas, s.tableAt b va (b.levels - 1) = none ∧ (b.path va).take (b.levels - 1) = p := by
  simp [missingTables, and_assoc]

/-- Once the table of the first page is there, the others are missing as before. -/
theorem missingTables_cons (hwindow : ∀ va ∈ vas, ¬ b.InWindow va)
    (hsome : s₁.tableAt b va (b.levels - 1) ≠ none)
    (hothers : ∀ va', ¬ b.InWindow va' →
      (b.path va').take (b.levels - 1) ≠ (b.path va).take (b.levels - 1) →
      s₁.tableAt b va' (b.levels - 1) = s.tableAt b va' (b.levels - 1)) :
    (missingTables b s (va :: vas)).card =
      (if s.tableAt b va (b.levels - 1) = none then 1 else 0) + (missingTables b s₁ vas).card := by
  have herase : missingTables b s₁ vas =
      (missingTables b s vas).erase ((b.path va).take (b.levels - 1)) := by
    ext p
    rw [Finset.mem_erase, mem_missingTables, mem_missingTables]
    constructor
    · rintro ⟨va', hmem, hnone, rfl⟩
      have hne : (b.path va').take (b.levels - 1) ≠ (b.path va).take (b.levels - 1) :=
        fun heq => hsome (by rw [← tableAt_of_take heq, hnone])
      exact ⟨hne, va', hmem, by rw [← hothers va' (hwindow va' hmem) hne, hnone], rfl⟩
    · rintro ⟨hne, va', hmem, hnone, rfl⟩
      exact ⟨va', hmem, by rw [hothers va' (hwindow va' hmem) hne, hnone], rfl⟩
  have hcons : missingTables b s (va :: vas) = if s.tableAt b va (b.levels - 1) = none then
      insert ((b.path va).take (b.levels - 1)) (missingTables b s vas) else missingTables b s vas := by
    rw [missingTables, List.filter_cons]
    split <;> rename_i hnone <;> simp only [decide_eq_true_eq] at hnone <;>
      simp only [hnone, if_true, if_false, missingTables, List.map_cons, List.toFinset_cons]
  rw [hcons, herase]
  by_cases hnone : s.tableAt b va (b.levels - 1) = none
  · rw [if_pos hnone, if_pos hnone, Nat.add_comm]
    by_cases hmem : (b.path va).take (b.levels - 1) ∈ missingTables b s vas
    · rw [Finset.insert_eq_of_mem hmem, Finset.card_erase_add_one hmem]
    · rw [Finset.card_insert_of_notMem hmem, Finset.erase_eq_of_notMem hmem]
  · have hnot : (b.path va).take (b.levels - 1) ∉ missingTables b s vas := by
      rw [mem_missingTables]
      rintro ⟨va', -, hnone', heq⟩
      exact hnone (by rw [← tableAt_of_take heq, hnone'])
    rw [if_neg hnone, if_neg hnone, Nat.zero_add, Finset.erase_eq_of_notMem hnot]

/-- Why writes to the entries of several pages stop. -/
def RegionFails (b : Build) (vas : List Nat) (s : Machine) (e : Fatal) : Prop :=
  e = .outOfPhysicalMemory ∧ (s.freeFrames b).length < (missingTables b s vas).card ∨
    ∃ va ∈ vas, s.tableAt b va (b.levels - 2) = none

theorem EntryFails.region (h : EntryFails b va s e') : RegionFails b (va :: vas) s e' := by
  obtain ⟨hnone, ⟨rfl, hfree⟩ | hupper⟩ := h
  · refine Or.inl ⟨rfl, ?_⟩
    rw [hfree]
    exact Finset.card_pos.mpr ⟨_, mem_missingTables.mpr ⟨va, List.mem_cons_self, hnone, rfl⟩⟩
  · exact Or.inr ⟨va, List.mem_cons_self, hupper⟩

/-- The first of several pages was written, and the others fail. -/
theorem RegionFails.cons (h : RegionFails b vas s₁ e') (hw : Written b entry [va] taken s s₁)
    (hlength : taken.length = if s.tableAt b va (b.levels - 1) = none then 1 else 0)
    (hcard : (missingTables b s (va :: vas)).card =
      (if s.tableAt b va (b.levels - 1) = none then 1 else 0) + (missingTables b s₁ vas).card) :
    RegionFails b (va :: vas) s e' := by
  rcases h with ⟨rfl, hlt⟩ | ⟨va', hmem, hnone⟩
  · refine Or.inl ⟨rfl, ?_⟩
    rw [hw.free, List.length_append, hcard, hlength]
    omega
  · refine Or.inr ⟨va', List.mem_cons_of_mem _ hmem, ?_⟩
    have hlt : b.levels - 2 < b.levels := by
      have := levels_two_le (b := b)
      omega
    by_contra hsome
    obtain ⟨t, ht⟩ := Option.ne_none_iff_exists'.mp hsome
    rw [hw.table va' _ t hlt ht] at hnone
    cases hnone

theorem Written.table_some (h : Written b entry vas taken s s') (hinv : MemInv b pool held s')
    (hva : va ∈ vas) : s'.tableAt b va (b.levels - 1) ≠ none := by
  obtain ⟨-, t, ht, -⟩ := exists_table_of_last hinv.tree (h.set va hva va rfl)
  rw [ht]
  exact Option.some_ne_none t

theorem Build.Ordinary.not_inWindow (h : b.Ordinary va) : ¬ b.InWindow va := fun hwindow =>
  h.2 (Or.inl hwindow)

/-- The effect of a loop over pages that writes their entries. -/
def RegionWritten (b : Build) (pool held : List Nat) (entry : Nat → Nat) (vas : List Nat) (s s' : Machine) :
    Prop :=
  MemInv b pool held s' ∧ ∃ taken, Written b entry vas taken s s' ∧
    taken.length = (missingTables b s vas).card

theorem RegionWritten.nil (h : MemInv b pool held s) : RegionWritten b pool held entry [] s s :=
  ⟨h, [], Written.refl, rfl⟩

section Cons

variable (hvas : ∀ va' ∈ va :: vas, b.Ordinary va') (h₁ : MemInv b pool held s₁)
  (hw : Written b entry [va] taken s s₁)
  (hlength : taken.length = if s.tableAt b va (b.levels - 1) = none then 1 else 0)

include hvas h₁ hw

theorem Written.missing_cons : (missingTables b s (va :: vas)).card =
    (if s.tableAt b va (b.levels - 1) = none then 1 else 0) + (missingTables b s₁ vas).card := by
  refine missingTables_cons (fun va' hva' => (hvas va' (List.mem_cons_of_mem _ hva')).not_inWindow)
    (hw.table_some h₁ List.mem_cons_self) fun va' hwindow hne => ?_
  refine hw.others va' _ levels_sub_lt hwindow fun va'' hva'' => ?_
  rwa [List.mem_singleton.mp hva'']

include hlength

theorem RegionWritten.cons (h : RegionWritten b pool held entry vas s₁ s') :
    RegionWritten b pool held entry (va :: vas) s s' := by
  obtain ⟨hinv, taken', hw', hlength'⟩ := h
  refine ⟨hinv, taken ++ taken', hw.trans hw' h₁ fun va' hva' => ?_, ?_⟩
  · rw [List.mem_singleton.mp hva']
    exact (hvas va List.mem_cons_self).2
  · rw [List.length_append, hlength, hlength', hw.missing_cons hvas h₁]

end Cons

theorem vmmAllocPages_eq (n : Nat) : vmmAllocPages b resolve (n + 1) = (do
    let s ← get
    store b resolve (b.entryVa 1 s.nextAlloc) pageAllocated
    modify fun s => s.invlpg s.nextAlloc
    modify fun s => { s with nextAlloc := (pageSize + s.nextAlloc) % 2 ^ b.wordBits }
    vmmAllocPages b resolve n) := by
  rw [vmmAllocPages]
  simp only [Build.index_one]
  rfl

theorem MemInv.setNextAlloc (h : MemInv b pool held s) (next : Nat) :
    MemInv b pool held { s with nextAlloc := next } :=
  ⟨⟨h.tree.directory, h.tree.tree⟩, h.top, h.count_le, h.backed, h.aligned, h.ranges, h.partition, h.nodup,
    h.tables_used, h.held_out, h.held_data⟩

theorem Written.setNextAlloc (h : Written b entry vas taken s s') (next : Nat) :
    Written b entry vas taken s { s' with nextAlloc := next } :=
  ⟨h.free, h.out, h.table, h.isTable, h.isTable_mono, h.mem, h.set, h.last, h.others, h.count, h.root,
    h.bootPdpt, h.accounted, h.tlb, h.quiet⟩

/-- The loop of `vmm_alloc`. -/
theorem vmmAllocPages_spec (m : Nat) (h : MemInv b pool held s)
    (hvas : ∀ va ∈ regionPages b s.nextAlloc m, b.Ordinary va) :
    wp (vmmAllocPages b (resolveWrite b (n + 2)) m) s
      (fun _ s' => RegionWritten b pool held (fun _ => pageAllocated) (regionPages b s.nextAlloc m) s s' ∧
        s'.nextAlloc = regionEnd b s.nextAlloc m ∧
        (Quiet b (missingTables b s (regionPages b s.nextAlloc m)).card s → Coherent b s → Coherent b s'))
      (RegionFails b (regionPages b s.nextAlloc m) s) := by
  induction m generalizing s with
  | zero => exact ⟨RegionWritten.nil h, rfl, fun _ hc => hc⟩
  | succ m ih =>
      obtain ⟨htree, hinternal⟩ := hvas s.nextAlloc List.mem_cons_self
      have hprivate := hinternal
      rw [Build.Internal, not_or] at hprivate
      rw [vmmAllocPages_eq, wp_bind, wp_get, wp_bind]
      refine (store_entry h htree hprivate.1 (Or.inl hprivate.2)).mono ?_ fun e he => he.region
      rintro - s₂ ⟨h₂, taken, s₁, h₁, hwritten⟩
      have hnext : s₂.nextAlloc = s.nextAlloc := by
        rw [hwritten.leaf.nextAlloc, hwritten.ensured.effect.nextAlloc]
      rw [wp_bind, wp_modify, wp_bind, wp_modify]
      set s₃ : Machine := { s₂.invlpg s₂.nextAlloc with
        nextAlloc := (pageSize + s₂.nextAlloc) % 2 ^ b.wordBits } with hs₃
      have h₃ : MemInv b pool held s₃ := (MemInv.invlpg h₂).setNextAlloc _
      have hw : Written b (fun _ => pageAllocated) [s.nextAlloc] taken s s₃ :=
        (hwritten.written htree rfl).invlpg.setNextAlloc _
      have hnext₃ : s₃.nextAlloc = (pageSize + s.nextAlloc) % 2 ^ b.wordBits := by rw [hs₃, hnext]
      have hcard := hw.missing_cons hvas h₃
      have hrest := ih h₃ fun va hva => hvas va (List.mem_cons_of_mem _ (hnext₃ ▸ hva))
      rw [hnext₃] at hrest
      refine hrest.mono ?_ fun e he => he.cons hw hwritten.length hcard
      rintro - s' ⟨hregion, hend, hcoherent⟩
      refine ⟨hregion.cons hvas h₃ hw hwritten.length, hend, fun hquiet hc => ?_⟩
      rw [regionPages, hcard, ← hwritten.length] at hquiet
      refine hcoherent (hw.quiet _ hquiet) fun e he => ?_
      rw [hs₃, hnext] at he
      exact hwritten.coherent_invlpg (hquiet.mono (Nat.le_add_right _ _)) hc e he

/-! ### `vmm_unmap` -/

theorem Written.uncached (h : Written b entry vas taken s s') (hva : ¬ b.Internal va)
    (huncached : Uncached s va) : Uncached s' va := by
  intro e he heq
  rcases h.tlb e he with hold | hinternal
  · exact huncached e hold heq
  · rw [heq, Build.internal_page] at hinternal
    exact hva hinternal

/-- The loop of `vmm_unmap`. -/
theorem vmmUnmapPages_spec (m p : Nat) (h : MemInv b pool held s)
    (hvas : ∀ va ∈ regionPages b p m, b.Ordinary va) :
    wp (vmmUnmapPages b (resolveWrite b (n + 2)) m p) s
      (fun _ s' => RegionWritten b pool held (fun _ => 0) (regionPages b p m) s s' ∧
        s'.nextAlloc = s.nextAlloc ∧
        (Quiet b (missingTables b s (regionPages b p m)).card s →
          (b = .i386 ∨ ∀ va ∈ regionPages b p m, Uncached s va) → Coherent b s → Coherent b s'))
      (RegionFails b (regionPages b p m) s) := by
  induction m generalizing s p with
  | zero => exact ⟨RegionWritten.nil h, rfl, fun _ _ hc => hc⟩
  | succ m ih =>
      rw [vmmUnmapPages, wp_bind]
      refine (vmmUnmapPage_spec h (hvas p List.mem_cons_self)).mono ?_ fun e he => he.region
      rintro - s₁ ⟨h₁, hnext, taken, hw, hlength, hcoherent₁⟩
      have hcard := hw.missing_cons hvas h₁
      rw [Nat.add_comm p pageSize]
      refine (ih _ h₁ fun va hva => hvas va (List.mem_cons_of_mem _ hva)).mono ?_ fun e he =>
        he.cons hw hlength hcard
      rintro - s' ⟨hregion, hnext', hcoherent⟩
      refine ⟨hregion.cons hvas h₁ hw hlength, hnext'.trans hnext, fun hquiet huncached hc => ?_⟩
      rw [regionPages, hcard, ← hlength] at hquiet
      refine hcoherent (hw.quiet _ hquiet) ?_ ?_
      · refine huncached.imp_right fun huncached va hva => ?_
        have hmem := List.mem_cons_of_mem p hva
        exact hw.uncached (hvas va hmem).2 (huncached va hmem)
      · exact hcoherent₁ (hquiet.mono (Nat.le_add_right _ _))
          (huncached.imp_right fun huncached => huncached p List.mem_cons_self) hc

/-! ### `vmm_map` -/

/-- The entries that the loop of `vmm_map` makes, by page number. -/
def mapEntry (b : Build) (start virtualAddress page : Nat) : Nat :=
  (start + (page * pageSize + 2 ^ b.wordBits - virtualAddress)) % 2 ^ b.wordBits |||
    pageWrite ||| pagePresent

/-- The address that the loop of `vmm_map` gives to a physical page. -/
def mapAddress (b : Build) (start virtualAddress page : Nat) : Nat :=
  (virtualAddress + (page + 2 ^ b.physBits - start) % 2 ^ b.physBits) % 2 ^ b.wordBits

theorem wp_bind_throw {α β : Type} {x : M α} {e : Fatal} {Q : β → Machine → Prop} :
    wp (x >>= fun _ => (throw e : M β)) s Q fun _ => True := by
  rw [wp_bind]
  unfold wp
  cases x s <;> trivial

theorem mapAddress_succ {start virtualAddress page : Nat} (hstart : start < 2 ^ b.physBits)
    (hpage : page < 2 ^ b.wordBits) :
    mapAddress b start virtualAddress ((page + pageSize) % 2 ^ b.wordBits) =
      (pageSize + mapAddress b start virtualAddress page) % 2 ^ b.wordBits := by
  cases b <;> simp only [mapAddress, Build.physBits, Build.wordBits, pageSize] at * <;> omega

theorem mapEntry_mapAddress {start virtualAddress page : Nat} (hstart : start < 2 ^ b.physBits)
    (hpage : page < 2 ^ b.wordBits) (hvirtual : virtualAddress < 2 ^ b.wordBits)
    (hstart' : start % pageSize = 0) (hpage' : page % pageSize = 0)
    (hvirtual' : virtualAddress % pageSize = 0) :
    mapEntry b start virtualAddress (mapAddress b start virtualAddress page / pageSize) =
      page ||| pageWrite ||| pagePresent := by
  have hsame : (start + (mapAddress b start virtualAddress page / pageSize * pageSize + 2 ^ b.wordBits -
      virtualAddress)) % 2 ^ b.wordBits = page := by
    cases b <;> simp only [mapAddress, Build.physBits, Build.wordBits, pageSize] at * <;> omega
  rw [mapEntry, hsame]

theorem missing_of_table (h : s.tableAt b va (b.levels - 1) ≠ none) : missing b s va (b.levels - 1) = 0 := by
  have hall : ∀ d, d ≤ b.levels - 1 → s.tableAt b va d ≠ none → missing b s va d = 0 := by
    intro d
    induction d with
    | zero => exact fun _ _ => rfl
    | succ d ih =>
        intro hd hsome
        have hprev : s.tableAt b va d ≠ none := by
          intro hnone
          rw [tableAt_succ (by omega), hnone] at hsome
          exact hsome rfl
        rw [missing, ih (by omega) hprev, if_neg hsome]
  exact hall _ le_rfl h

/-- Why the loop of `vmm_map` stops, over pages whose tables are there: it does not meet its end, or one of
the pages is mapped. -/
def MapLoopFails (b : Build) (stop page m : Nat) (vas : List Nat) (s : Machine) : Prop :=
  (∀ k ≤ m, (page + pageSize * k) % 2 ^ b.wordBits ≠ stop) ∨
    (∃ va ∈ vas, s.translate b va ≠ none) ∨ ¬ (vas.map (· / pageSize)).Nodup

theorem MapLoopFails.cons {stop p m : Nat} (h : MapLoopFails b stop ((p + pageSize) % 2 ^ b.wordBits) m vas s₁)
    (hw : Written b entry [va] taken s s₁) (hvas : ∀ va' ∈ vas, ¬ b.InWindow va') (hne : p % 2 ^ b.wordBits ≠ stop) :
    MapLoopFails b stop p (m + 1) (va :: vas) s := by
  rcases h with hstop | ⟨va', hva', hmapped⟩ | hdouble
  · refine Or.inl fun k hk => ?_
    cases k with
    | zero => rwa [Nat.mul_zero, Nat.add_zero]
    | succ k =>
        have hstop := hstop k (Nat.le_of_succ_le_succ hk)
        rwa [Nat.add_comm p pageSize, add_pages_mod] at hstop
  · by_cases hpage : va' / pageSize = va / pageSize
    · refine Or.inr (Or.inr fun hnodup => ?_)
      rw [List.map_cons, List.nodup_cons] at hnodup
      exact hnodup.1 (List.mem_map.mpr ⟨va', hva', hpage⟩)
    · refine Or.inr (Or.inl ⟨va', List.mem_cons_of_mem _ hva', ?_⟩)
      rcases hw.last va' (hvas va' hva') fun va'' hva'' => by rwa [List.mem_singleton.mp hva''] with heq | ⟨hzero, -⟩
      · rwa [translate_congr heq] at hmapped
      · exact absurd ((translate_eq_none_iff hzero).mpr not_present_zero) hmapped
  · refine Or.inr (Or.inr fun hnodup => hdouble ?_)
    rw [List.map_cons, List.nodup_cons] at hnodup
    exact hnodup.2

section Map

variable {start virtualAddress : Nat} (stop : Nat) (hstart : start < 2 ^ b.physBits)
  (hstart' : start % pageSize = 0) (hvirtual : virtualAddress < 2 ^ b.wordBits)
  (hvirtual' : virtualAddress % pageSize = 0)

include hstart hstart' hvirtual hvirtual'

/-- The loop of `vmm_map`, over pages whose tables are there. -/
theorem vmmMapPages_spec (m page : Nat) (hpage : page < 2 ^ b.wordBits) (hpage' : page % pageSize = 0)
    (h : MemInv b pool held s)
    (hvas : ∀ va ∈ regionPages b (mapAddress b start virtualAddress page) m,
      b.Ordinary va ∧ s.tableAt b va (b.levels - 1) ≠ none) :
    wp (vmmMapPages b (resolveWrite b (n + 2)) start stop virtualAddress (m + 1) page) s
      (fun _ s' => MemInv b pool held s' ∧ ∃ k ≤ m, (page + pageSize * k) % 2 ^ b.wordBits = stop ∧
        Written b (mapEntry b start virtualAddress)
          (regionPages b (mapAddress b start virtualAddress page) k) [] s s' ∧
        s'.nextAlloc = s.nextAlloc ∧ (Coherent b s → Coherent b s'))
      fun _ => MapLoopFails b stop page m (regionPages b (mapAddress b start virtualAddress page) m) s := by
  induction m generalizing s page with
  | zero =>
      rw [vmmMapPages, wp_ite]
      refine ⟨fun hne => ?_, fun heq => ?_⟩
      · refine wp_bind_throw.mono (fun _ _ hq => hq) fun _ _ => Or.inl fun k hk => ?_
        rwa [Nat.le_zero.mp hk, Nat.mul_zero, Nat.add_zero, Nat.mod_eq_of_lt hpage]
      · rw [wp_pure]
        refine ⟨h, 0, le_rfl, ?_, Written.refl, rfl, id⟩
        rw [Nat.mul_zero, Nat.add_zero, Nat.mod_eq_of_lt hpage]
        exact not_not.mp heq
  | succ m ih =>
      rw [vmmMapPages, wp_ite]
      refine ⟨fun hne => ?_, fun heq => ?_⟩
      · obtain ⟨hordinary, htable⟩ := hvas _ List.mem_cons_self
        rw [wp_bind]
        refine (vmmMapPage_spec h (resolveWrite_resolves (n + 1)) hordinary.1 hordinary.not_inWindow).mono ?_ ?_
        swap
        · rintro e (⟨-, hlt⟩ | ⟨-, hmapped⟩)
          · rw [missing_of_table htable] at hlt
            exact absurd hlt (Nat.not_lt_zero _)
          · exact Or.inr (Or.inl ⟨_, List.mem_cons_self, hmapped⟩)
        rintro - s₁ ⟨-, h₁, taken, hmapped⟩
        have hnil : taken = [] := by
          have hlength := hmapped.length
          rwa [missing_of_table htable, List.length_eq_zero_iff] at hlength
        subst hnil
        have hw : Written b (mapEntry b start virtualAddress) [mapAddress b start virtualAddress page] [] s s₁ :=
          hmapped.written
            (mapEntry_mapAddress hstart hpage hvirtual hstart' hpage' hvirtual')
        have hnext : mapAddress b start virtualAddress ((page + pageSize) % 2 ^ b.wordBits) =
            (pageSize + mapAddress b start virtualAddress page) % 2 ^ b.wordBits :=
          mapAddress_succ hstart hpage
        have hpage'' : (page + pageSize) % 2 ^ b.wordBits % pageSize = 0 := by
          cases b <;> simp only [Build.wordBits, pageSize] at * <;> omega
        have hrest := ih ((page + pageSize) % 2 ^ b.wordBits) (Nat.mod_lt _ (Nat.two_pow_pos _)) hpage'' h₁
          fun va hva => by
            rw [hnext] at hva
            obtain ⟨hord, hsome⟩ := hvas va (List.mem_cons_of_mem _ hva)
            obtain ⟨t, ht⟩ := Option.ne_none_iff_exists'.mp hsome
            exact ⟨hord, by rw [hw.table va _ t levels_sub_lt ht]; exact Option.some_ne_none t⟩
        rw [hnext] at hrest
        rw [← Nat.mod_eq_of_lt hpage] at hne
        refine hrest.mono ?_ fun _ he =>
          he.cons hw (fun va hva => (hvas va (List.mem_cons_of_mem _ hva)).1.not_inWindow) hne
        rintro - s' ⟨hinv, k, hk, hstop, hw', hnext', hc⟩
        refine ⟨hinv, k + 1, Nat.succ_le_succ hk, ?_, hw.trans hw' h₁ fun va hva => ?_,
          hnext'.trans hmapped.nextAlloc, fun hcoherent => hc (hmapped.coherent Quiet.zero hcoherent)⟩
        · rw [← hstop, Nat.mod_add_mod, Nat.mul_succ]
          congr 1
          omega
        · rw [List.mem_singleton.mp hva]
          exact hordinary.2
      · rw [wp_pure]
        refine ⟨h, 0, Nat.zero_le _, ?_, Written.refl, rfl, id⟩
        rw [Nat.mul_zero, Nat.add_zero, Nat.mod_eq_of_lt hpage]
        exact not_not.mp heq

end Map

section Endless

variable {start stop virtualAddress m' : Nat}

theorem vmmMapPages_meets (hpage : page < 2 ^ b.wordBits)
    (hrun : vmmMapPages b resolve start stop virtualAddress m page s = .ok ((), s')) :
    ∃ k < m, (page + pageSize * k) % 2 ^ b.wordBits = stop := by
  induction m generalizing page s with
  | zero => cases hrun
  | succ m ih =>
      rw [vmmMapPages] at hrun
      split at hrun
      · obtain ⟨u, s₁, -, hrest⟩ := ok_of_bind hrun
        obtain ⟨k, hk, hstop⟩ := ih (Nat.mod_lt _ (Nat.two_pow_pos _)) hrest
        rw [Nat.add_comm page pageSize, add_pages_mod] at hstop
        exact ⟨k + 1, Nat.succ_lt_succ hk, hstop⟩
      · rename_i heq
        refine ⟨0, Nat.succ_pos m, ?_⟩
        rw [Nat.mul_zero, Nat.add_zero, Nat.mod_eq_of_lt hpage]
        exact not_not.mp heq

theorem vmmMapPages_stable (hpage : page < 2 ^ b.wordBits) (hstop : (page + pageSize * k) % 2 ^ b.wordBits = stop)
    (hm : k < m) (hm' : k < m') : vmmMapPages b resolve start stop virtualAddress m page =
      vmmMapPages b resolve start stop virtualAddress m' page := by
  induction k generalizing page m m' with
  | zero =>
      obtain ⟨m, rfl⟩ := Nat.exists_eq_add_one.mpr hm
      obtain ⟨m', rfl⟩ := Nat.exists_eq_add_one.mpr hm'
      rw [Nat.mul_zero, Nat.add_zero, Nat.mod_eq_of_lt hpage] at hstop
      rw [vmmMapPages, vmmMapPages, if_neg (not_not.mpr hstop), if_neg (not_not.mpr hstop)]
  | succ k ih =>
      obtain ⟨m, rfl⟩ := Nat.exists_eq_add_one.mpr (Nat.zero_lt_of_lt hm)
      obtain ⟨m', rfl⟩ := Nat.exists_eq_add_one.mpr (Nat.zero_lt_of_lt hm')
      rw [← add_pages_mod, Nat.add_comm pageSize page] at hstop
      rw [vmmMapPages, vmmMapPages, ih (Nat.mod_lt _ (Nat.two_pow_pos _)) hstop (Nat.lt_of_succ_lt_succ hm)
        (Nat.lt_of_succ_lt_succ hm')]

/-- The loop of `vmm_map` that does not end after so many pages never ends. -/
theorem vmmMapPages_endless (hstart : start < 2 ^ b.physBits) (hstart' : start % pageSize = 0)
    (hstop : stop % pageSize = 0)
    (h : vmmMapPages b resolve start stop virtualAddress (pagesBetween b.physBits start stop + 1)
      (start % 2 ^ b.wordBits) s = .error .endlessLoop) (m : Nat) :
    vmmMapPages b resolve start stop virtualAddress m (start % 2 ^ b.wordBits) s ≠ .ok ((), s') := by
  intro hrun
  have hpage : start % 2 ^ b.wordBits < 2 ^ b.wordBits := Nat.mod_lt _ (Nat.two_pow_pos _)
  obtain ⟨k, hk, hmet⟩ := vmmMapPages_meets hpage hrun
  have hlt : stop < 2 ^ b.wordBits := hmet ▸ Nat.mod_lt _ (Nat.two_pow_pos _)
  have hlast : (start % 2 ^ b.wordBits + pageSize * pagesBetween b.physBits start stop) % 2 ^ b.wordBits = stop := by
    cases b <;> simp only [pagesBetween, pageSize, Build.physBits, Build.wordBits] at * <;> omega
  have hfewer : ∃ k < m, k ≤ pagesBetween b.physBits start stop ∧
      (start % 2 ^ b.wordBits + pageSize * k) % 2 ^ b.wordBits = stop := by
    by_cases hle : k ≤ pagesBetween b.physBits start stop
    · exact ⟨k, hk, hle, hmet⟩
    · exact ⟨_, (Nat.lt_of_not_le hle).trans hk, le_rfl, hlast⟩
  obtain ⟨j, hj, hle, hmet⟩ := hfewer
  rw [vmmMapPages_stable hpage hmet hj (Nat.lt_succ_of_le hle), h] at hrun
  cases hrun

end Endless

/-! ### The three operations -/

/-- The pages that `vmm_alloc` reserves for a length. -/
def allocPages (b : Build) (length : Nat) : Nat := pageAlignUp b.wordBits length / pageSize

theorem pagesBetween_alloc (length : Nat) (hnext : w < 2 ^ b.wordBits) :
    pagesBetween b.wordBits w ((w + pageAlignUp b.wordBits length) % 2 ^ b.wordBits) =
      allocPages b length := by
  have hsize : pageAlignUp b.wordBits length < 2 ^ b.wordBits := by
    rw [pageAlignUp, pageAlignDown]
    exact (Nat.div_mul_le_self _ _).trans_lt (Nat.mod_lt _ (Nat.two_pow_pos _))
  rw [pagesBetween, allocPages]
  congr 1
  cases b <;> simp only [Build.wordBits] at * <;> omega

theorem allocPages_zero : allocPages b 0 = 0 := by
  cases b <;> rfl

theorem vmmAlloc_spec (length : Nat) (h : MemInv b pool held s) (hnext : s.nextAlloc < 2 ^ b.wordBits)
    (hvas : ∀ va ∈ regionPages b s.nextAlloc (allocPages b length), b.Ordinary va) :
    wp (vmmAlloc b (resolveWrite b (n + 2)) length) s
      (fun r s' => r = (if length = 0 then 0 else s.nextAlloc) ∧
        RegionWritten b pool held (fun _ => pageAllocated)
          (regionPages b s.nextAlloc (allocPages b length)) s s' ∧
        s'.nextAlloc = regionEnd b s.nextAlloc (allocPages b length) ∧
        (Quiet b (missingTables b s (regionPages b s.nextAlloc (allocPages b length))).card s →
          Coherent b s → Coherent b s'))
      (RegionFails b (regionPages b s.nextAlloc (allocPages b length)) s) := by
  unfold vmmAlloc
  rw [wp_ite]
  constructor
  · intro hzero
    rw [hzero, allocPages_zero, wp_pure]
    exact ⟨rfl, RegionWritten.nil h, rfl, fun _ hc => hc⟩
  · intro hlength
    rw [wp_bind, wp_get]
    show wp (vmmAllocPages b (resolveWrite b (n + 2)) (pagesBetween b.wordBits s.nextAlloc
      ((s.nextAlloc + pageAlignUp b.wordBits length) % 2 ^ b.wordBits)) >>= fun _ => pure s.nextAlloc) s _ _
    rw [pagesBetween_alloc length hnext, wp_bind]
    refine (vmmAllocPages_spec _ h hvas).mono ?_ fun e he => he
    rintro - s' ⟨hregion, hend, hc⟩
    rw [wp_pure, if_neg hlength]
    exact ⟨rfl, hregion, hend, hc⟩

/-- The first page and the number of the pages that `vmm_unmap` unmaps. -/
def unmapPages (b : Build) (address length : Nat) : List Nat :=
  regionPages b (pageAlignDown address) (pagesBetween b.wordBits (pageAlignDown address)
    (pageAlignUp b.wordBits ((address + length) % 2 ^ b.wordBits)))

theorem vmmUnmap_spec (address length : Nat) (h : MemInv b pool held s)
    (hvas : ∀ va ∈ unmapPages b address length, b.Ordinary va) :
    wp (vmmUnmap b (resolveWrite b (n + 2)) address length) s
      (fun r s' => r = 0 ∧ RegionWritten b pool held (fun _ => 0) (unmapPages b address length) s s' ∧
        s'.nextAlloc = s.nextAlloc ∧
        (Quiet b (missingTables b s (unmapPages b address length)).card s →
          (b = .i386 ∨ ∀ va ∈ unmapPages b address length, Uncached s va) → Coherent b s → Coherent b s'))
      (RegionFails b (unmapPages b address length) s) := by
  unfold vmmUnmap
  rw [wp_bind]
  refine (vmmUnmapPages_spec _ _ h hvas).mono ?_ fun e he => he
  rintro - s' hs'
  rw [wp_pure]
  exact ⟨rfl, hs'⟩

/-- The size of the region that `vmm_map` reserves. -/
def mapSize (b : Build) (physicalAddress length : Nat) : Nat :=
  (pageAlignUp b.physBits ((physicalAddress + length) % 2 ^ b.physBits) + 2 ^ b.physBits -
    pageAlignDown physicalAddress) % 2 ^ b.physBits

theorem mapSize_mod (physicalAddress length : Nat) :
    mapSize b physicalAddress length % pageSize = 0 := by
  cases b <;> simp only [mapSize, pageAlignUp, pageAlignDown, pageSize, Build.physBits] <;> omega

theorem allocPages_mapSize {physicalAddress length : Nat}
    (hsize : mapSize b physicalAddress length < 2 ^ b.wordBits) :
    allocPages b (mapSize b physicalAddress length % 2 ^ b.wordBits) =
      mapSize b physicalAddress length / pageSize := by
  have hmod := mapSize_mod (b := b) physicalAddress length
  rw [Nat.mod_eq_of_lt hsize]
  generalize mapSize b physicalAddress length = size at *
  cases b <;> simp only [allocPages, pageAlignUp, pageAlignDown, pageSize, Build.wordBits] at * <;> omega

theorem regionPages_mono {m : Nat} (hkm : k ≤ m) {p : Nat} (hva : va ∈ regionPages b p k) :
    va ∈ regionPages b p m := by
  induction m generalizing k p with
  | zero => rwa [Nat.le_zero.mp hkm] at hva
  | succ m ih =>
      cases k with
      | zero => cases hva
      | succ k =>
          rcases List.mem_cons.mp hva with rfl | hva
          · exact List.mem_cons_self
          · exact List.mem_cons_of_mem _ (ih (Nat.le_of_succ_le_succ hkm) hva)

theorem mapAddress_start {start virtualAddress : Nat} (hstart : start < 2 ^ b.physBits)
    (hvirtual : virtualAddress < 2 ^ b.wordBits) :
    mapAddress b start virtualAddress (start % 2 ^ b.wordBits) = virtualAddress := by
  cases b <;> simp only [mapAddress, Build.physBits, Build.wordBits] at * <;> omega

/-- The effect of `vmm_map`: a region is reserved, then pages of it are mapped. -/
def RegionMapped (b : Build) (pool held : List Nat) (vas : List Nat) (s s' : Machine) : Prop :=
  ∃ s₁, RegionWritten b pool held (fun _ => pageAllocated) vas s s₁ ∧
    ∃ entry vas', Written b entry vas' [] s₁ s' ∧ ∀ va ∈ vas', va ∈ vas

/-- The address that `vmm_alloc` returns to `vmm_map`. -/
def mapBase (b : Build) (pa length next : Nat) : Nat := if mapSize b pa length = 0 then 0 else next

section MapRegion

variable (pa length : Nat) (h : MemInv b pool held s) (hpa : pa < 2 ^ b.physBits)
  (hnext : s.nextAlloc < 2 ^ b.wordBits) (hnext' : s.nextAlloc % pageSize = 0)
  (hsize : mapSize b pa length < 2 ^ b.wordBits)
  (hvas : ∀ va ∈ regionPages b s.nextAlloc (mapSize b pa length / pageSize), b.Ordinary va)

include h hpa hnext hnext' hsize hvas

/-- `vmm_map` in full: a region is reserved, then the loop maps its pages up to the one where it ends. -/
theorem vmmMap_full : wp (vmmMap b (resolveWrite b (n + 2)) pa length) s
    (fun r s' => r = mapBase b pa length s.nextAlloc + (pa - pageAlignDown pa) ∧ MemInv b pool held s' ∧
      s'.nextAlloc = regionEnd b s.nextAlloc (mapSize b pa length / pageSize) ∧
      (∃ s₁ k, RegionWritten b pool held (fun _ => pageAllocated)
          (regionPages b s.nextAlloc (mapSize b pa length / pageSize)) s s₁ ∧ k ≤ mapSize b pa length / pageSize ∧
        (pageAlignDown pa % 2 ^ b.wordBits + pageSize * k) % 2 ^ b.wordBits =
          pageAlignUp b.physBits ((pa + length) % 2 ^ b.physBits) ∧
        Written b (mapEntry b (pageAlignDown pa) (mapBase b pa length s.nextAlloc))
          (regionPages b (mapBase b pa length s.nextAlloc) k) [] s₁ s') ∧
      (Quiet b (missingTables b s (regionPages b s.nextAlloc (mapSize b pa length / pageSize))).card s →
        Coherent b s → Coherent b s'))
    (fun e => RegionFails b (regionPages b s.nextAlloc (mapSize b pa length / pageSize)) s e ∨
      e = .outOfVirtualSpace ∧
        b.kernelHeapEnd < (mapBase b pa length s.nextAlloc + mapSize b pa length) % 2 ^ b.physBits ∨
      ∃ s₁, RegionWritten b pool held (fun _ => pageAllocated)
          (regionPages b s.nextAlloc (mapSize b pa length / pageSize)) s s₁ ∧
        MapLoopFails b (pageAlignUp b.physBits ((pa + length) % 2 ^ b.physBits))
          (pageAlignDown pa % 2 ^ b.wordBits) (mapSize b pa length / pageSize)
          (regionPages b (mapBase b pa length s.nextAlloc) (mapSize b pa length / pageSize)) s₁) := by
  have hstart : pageAlignDown pa < 2 ^ b.physBits := (Nat.div_mul_le_self _ _).trans_lt hpa
  have hstart' : pageAlignDown pa % pageSize = 0 := Nat.mul_mod_left _ _
  have hpages := allocPages_mapSize hsize
  unfold vmmMap
  show wp (vmmAlloc b (resolveWrite b (n + 2)) (mapSize b pa length % 2 ^ b.wordBits) >>= _) s _ _
  rw [wp_bind]
  refine (vmmAlloc_spec _ h hnext (by rwa [hpages])).mono ?_ fun e he => Or.inl (by rwa [hpages] at he)
  rintro r s₁ ⟨hr, ⟨h₁, taken, hw, hlength⟩, hend, hc₁⟩
  rw [hpages] at hw hend hc₁ hlength
  rw [Nat.mod_eq_of_lt hsize, ← mapBase] at hr
  subst hr
  generalize hr : mapBase b pa length s.nextAlloc = r
  rw [wp_ite]
  refine ⟨fun hover => ?_, fun _ => ?_⟩
  · rw [wp_bind, wp_throw]
    exact Or.inr (Or.inl ⟨rfl, hover⟩)
  have hr' : r < 2 ^ b.wordBits ∧ r % pageSize = 0 := by
    rw [← hr, mapBase]
    split
    · exact ⟨Nat.two_pow_pos _, Nat.zero_mod _⟩
    · exact ⟨hnext, hnext'⟩
  have hpage : pageAlignDown pa % 2 ^ b.wordBits % pageSize = 0 := by
    cases b <;> simp only [Build.wordBits, pageSize] at * <;> omega
  have hmem : ∀ va ∈ regionPages b r (mapSize b pa length / pageSize),
      va ∈ regionPages b s.nextAlloc (mapSize b pa length / pageSize) := by
    intro va hva
    by_cases hzero : mapSize b pa length = 0
    · rw [hzero] at hva
      cases hva
    · rwa [← hr, mapBase, if_neg hzero] at hva
  have hloop := vmmMapPages_spec (n := n) (pageAlignUp b.physBits ((pa + length) % 2 ^ b.physBits)) hstart
    hstart' hr'.1 hr'.2 (mapSize b pa length / pageSize) (pageAlignDown pa % 2 ^ b.wordBits)
    (Nat.mod_lt _ (Nat.two_pow_pos _)) hpage h₁
  rw [mapAddress_start hstart hr'.1] at hloop
  rw [wp_bind]
  refine (hloop fun va hva => ⟨hvas va (hmem va hva), hw.table_some h₁ (hmem va hva)⟩).mono ?_
    fun e he => Or.inr (Or.inr ⟨s₁, ⟨h₁, taken, hw, hlength⟩, he⟩)
  rintro - s' ⟨hinv, k, hk, hstop, hmapped, hnext₁, hc⟩
  rw [wp_pure]
  exact ⟨rfl, hinv, hnext₁.trans hend, ⟨s₁, k, ⟨h₁, taken, hw, hlength⟩, hk, hstop, hmapped⟩,
    fun hquiet hcoherent => hc (hc₁ hquiet hcoherent)⟩

theorem vmmMap_spec : wp (vmmMap b (resolveWrite b (n + 2)) pa length) s
    (fun _ s' => MemInv b pool held s' ∧
      RegionMapped b pool held (regionPages b s.nextAlloc (mapSize b pa length / pageSize)) s s' ∧
      s'.nextAlloc = regionEnd b s.nextAlloc (mapSize b pa length / pageSize) ∧
      (Quiet b (missingTables b s (regionPages b s.nextAlloc (mapSize b pa length / pageSize))).card s →
        Coherent b s → Coherent b s'))
    fun _ => True := by
  refine (vmmMap_full pa length h hpa hnext hnext' hsize hvas).mono ?_ fun _ _ => trivial
  rintro r s' ⟨-, hinv, hend, ⟨s₁, k, hregion, hk, -, hw⟩, hc⟩
  refine ⟨hinv, ⟨s₁, hregion, _, _, hw, fun va hva => ?_⟩, hend, hc⟩
  have hva := regionPages_mono hk hva
  by_cases hzero : mapSize b pa length = 0
  · rw [hzero] at hva
    cases hva
  · rwa [mapBase, if_neg hzero] at hva

end MapRegion

end Kiznix.Memory
