import Kiznix.MemAccess

/-! `vmm_map_page`: the missing tables of an address are built from the top down, then its last-level entry
is set. -/

namespace Kiznix.Memory

open RadixTree

variable {b : Build} {pool held : List Nat} {s s' s₁ : Machine} {resolve : Nat → M Nat}
  {va va' f g t w j k m n d page : Nat} {tlb : List (Nat × Nat)}

/-! ### New tables -/

section Link

variable (ha : Allocated b page s s₁) (h : MemInv b pool held s) (h₁ : MemInv b pool held s₁)
  (hva : b.InTree va) (hwindow : ¬ b.InWindow va) (hd : d + 1 < b.levels) (ht : s.tableAt b va d = some t)
  (hnone : s.tableAt b va (d + 1) = none) (hw : entryFrame w = some (page / pageSize))

section

include ha

theorem Allocated.fresh_free : page / pageSize ∈ s.freeFrames b := by
  rw [ha.taken.free]
  exact List.mem_cons_self

include hd ht

theorem Allocated.table₁ : s₁.tableAt b va d = some t := by
  rw [ha.tableAt va d (Nat.lt_of_succ_lt hd), ht]

include hnone

theorem Allocated.empty₁ : ¬ Present (s₁.mem t ((b.path va).getD d 0)) := by
  have hnone₁ : s₁.tableAt b va (d + 1) = none := by rw [ha.tableAt va (d + 1) hd, hnone]
  rw [tableAt_succ (Nat.lt_of_succ_lt hd), ha.table₁ hd ht] at hnone₁
  exact entryFrame_eq_none.mp hnone₁

end

include ha h in
theorem Allocated.not_table : ¬ s₁.IsTable b (page / pageSize) := by
  rw [ha.isTable_iff]
  exact fun htable => h.tables_used _ htable ha.fresh_free

/-! The frame that was just allocated becomes an empty table of the tree. -/

section Step

variable (hs' : s' = { (s₁.write t ((b.path va).getD d 0) w).zero (page / pageSize) with tlb := s'.tlb })

include hs'

theorem link_mem (hft : f ≠ t) (hfg : f ≠ page / pageSize) : s'.mem f = s₁.mem f := by
  rw [hs']
  funext i
  exact (Machine.zero_of_ne hfg).trans (Machine.write_of_ne fun heq => hft heq.1)

include ha h h₁ hwindow hd ht hnone hw

theorem Allocated.link_translate (hf : s₁.translate b va' = some f) : s'.translate b va' = some f := by
  rw [hs']
  exact translate_linked_mono h₁.tree hwindow hd (ha.table₁ hd ht) (ha.empty₁ hd ht hnone) (ha.not_table h) hw hf

theorem Allocated.link_isTable (f : Nat) : s'.IsTable b f ↔ s₁.IsTable b f ∨ f = page / pageSize := by
  rw [hs']
  exact isTable_linked h₁.tree hwindow hd (ha.table₁ hd ht) (ha.empty₁ hd ht hnone) (ha.not_table h) hw

theorem Allocated.link_last (hwindow' : ¬ b.InWindow va') : s'.lastEntry b va' = s₁.lastEntry b va' ∨
    s₁.lastEntry b va' = none ∧ s'.lastEntry b va' = some 0 := by
  rw [hs']
  exact lastEntry_linked h₁.tree hwindow hd (ha.table₁ hd ht) (ha.empty₁ hd ht hnone) (ha.not_table h) hw hwindow'

theorem Allocated.link_inv : MemInv b pool held s' ∧ s'.freeFrames b = s₁.freeFrames b := by
  have htable₁ : s₁.IsTable b t := tableAt_isTable (Nat.lt_of_succ_lt hd) (ha.table₁ hd ht)
  have hiff := ha.link_isTable h h₁ hwindow hd ht hnone hw hs'
  have hheld : page / pageSize ∉ held := h.free_not_held ha.fresh_free
  have hfree : page / pageSize ∉ s₁.freeFrames b := by
    have hnodup := h.free_nodup
    rw [ha.taken.free] at hnodup
    exact (List.nodup_cons.mp hnodup).1
  have htree : s'.Tree b := by
    rw [hs']
    exact ⟨h₁.tree.directory,
      (h₁.tree.linked hwindow hd (ha.table₁ hd ht) (ha.empty₁ hd ht hnone) (ha.not_table h) hw).tree⟩
  refine h₁.update htree (by rw [hs']; rfl) (by rw [hs']; rfl) (by rw [hs']; rfl) (fun j hj => ?_)
    (fun f hf => ?_) (fun f hf hmem => ?_) fun f hf htable => ?_
  · obtain ⟨f, hf⟩ : ∃ f, s₁.translate b (b.stackPage j) = some f := ⟨_, h₁.backed j hj⟩
    rw [ha.link_translate h h₁ hwindow hd ht hnone hw hs' hf, hf]
  · exact link_mem hs' (fun heq => h₁.tables_used t htable₁ (heq ▸ hf)) fun heq => hfree (heq ▸ hf)
  · rcases (hiff f).mp hf with hf | rfl
    · exact h₁.tables_used f hf hmem
    · exact hfree hmem
  · rcases (hiff f).mp htable with htable | rfl
    · exact h₁.held_data f hf htable
    · exact hheld hf

theorem Allocated.link_keeps {va' d' t' : Nat} (hd' : d' < b.levels) (ht' : s.tableAt b va' d' = some t') :
    s'.tableAt b va' d' = some t' := by
  have ht₁ := ha.table₁ hd ht
  have hempty := ha.empty₁ hd ht hnone
  have ht₁' := ha.taken.table va' d' t' hd' ht'
  rw [hs']
  show ((s₁.write t _ w).zero _).tableAt b va' d' = _
  rw [tableAt_linked h₁.tree hwindow hd ht₁ hempty (ha.not_table h) hw hd'.le, ht₁']
  -- The path of the new table led nowhere.
  intro heq
  have hnone₁ := tableAt_succ_none hd ht₁ hempty
  rw [Machine.tableAt, ← heq, follow_strip h₁.tree.tree.recursive, ← Machine.tableAt, ht₁'] at hnone₁
  cases hnone₁

theorem Allocated.link_new_last (hwindow' : ¬ b.InWindow va') : s'.lastEntry b va' = s.lastEntry b va' ∨
    s'.lastEntry b va' = some 0 ∧ (s.lastEntry b va' = none ∨ Dropped b s s' va') := by
  have hcount : s'.stackCount b = s₁.stackCount b := by rw [hs']; rfl
  rcases ha.link_last h h₁ hwindow hd ht hnone hw hs' hwindow' with hlast | ⟨hold, hnew⟩
  · rw [hlast]
    exact (ha.taken.last va' hwindow').imp_right
      (And.imp_right (Or.imp_right fun hdropped => hdropped.mono_right hcount.le))
  · rcases ha.taken.last va' hwindow' with heq | ⟨hzero, -⟩
    · exact Or.inr ⟨hnew, Or.inl (heq ▸ hold)⟩
    · rw [hzero] at hold
      cases hold

theorem Allocated.link_dropped (htree : b.InTree va') (hwindow' : ¬ b.InWindow va') (hdropped : Dropped b s s' va') :
    s'.lastEntry b va' = some 0 := by
  have hcount : s'.stackCount b = s₁.stackCount b := by rw [hs']; rfl
  obtain ⟨j, hpage, hlow, hhigh⟩ := hdropped
  rw [hcount] at hlow
  have hzero := ha.taken.dropped va' htree hwindow' ⟨j, hpage, hlow, hhigh⟩
  rcases ha.link_last h h₁ hwindow hd ht hnone hw hs' hwindow' with heq | ⟨-, hnew⟩
  · rw [heq, hzero]
  · exact hnew

end Step

include ha h h₁ hva hwindow hd ht hnone hw

theorem Allocated.link (s' : Machine)
    (hs' : s' = { (s₁.write t ((b.path va).getD d 0) w).zero (page / pageSize) with tlb := s'.tlb })
    (htlb : ∀ e ∈ s'.tlb, e ∈ s₁.tlb ∨
      s₁.translate b (pageSize * e.1) = some e.2 ∧ b.Internal (pageSize * e.1) ∨
      e = (b.tableVa (b.levels - d) va / pageSize, page / pageSize)) :
    MemInv b pool held s' ∧ Taken b [page / pageSize] s s' ∧
      s'.tableAt b va (d + 1) = some (page / pageSize) ∧
      ∀ va' e, e < b.levels → strip b.recursiveIndex ((b.path va').take e) ≠ (b.path va).take (d + 1) →
        s'.tableAt b va' e = s.tableAt b va' e := by
  obtain ⟨hinv, hfrees⟩ := ha.link_inv h h₁ hwindow hd ht hnone hw hs'
  have hiff := ha.link_isTable h h₁ hwindow hd ht hnone hw hs'
  have htable₁ : s₁.IsTable b t := tableAt_isTable (Nat.lt_of_succ_lt hd) (ha.table₁ hd ht)
  have hcount : s'.stackCount b = s₁.stackCount b := by rw [hs']; rfl
  have htable : s'.tableAt b va (d + 1) = some (page / pageSize) := by
    rw [hs']
    exact tableAt_linked_same h₁.tree hwindow hd (ha.table₁ hd ht) (ha.not_table h) hw
  have hmono : ∀ va' f, s₁.translate b va' = some f → s'.translate b va' = some f :=
    fun _ _ => ha.link_translate h h₁ hwindow hd ht hnone hw hs'
  refine ⟨hinv, ⟨?_, ?_, fun va' d' t' => ha.link_keeps h h₁ hwindow hd ht hnone hw hs', fun f hf => ?_,
    fun f hf => ?_, fun f hf hfg => ?_, fun va' => ha.link_new_last h h₁ hwindow hd ht hnone hw hs',
    fun va' => ha.link_dropped h h₁ hwindow hd ht hnone hw hs', ?_, ?_, ?_, ?_, fun hacc => ?_, fun e he => ?_,
    fun n hn => ?_, fun hn hc => ?_⟩, htable, fun va' e he hne => ?_⟩
  · rw [hfrees]
    exact ha.taken.free
  · rw [hs']
    exact ha.taken.out
  · rcases (hiff f).mp hf with hf | rfl
    · exact Or.inl ((ha.isTable_iff f).mp hf)
    · exact Or.inr List.mem_cons_self
  · exact (hiff f).mpr (Or.inl ((ha.isTable_iff f).mpr hf))
  · have hft : f ≠ t := by
      rintro rfl
      exact hf ((ha.isTable_iff f).mp htable₁)
    rw [link_mem hs' hft fun heq => hfg (List.mem_singleton.mpr heq), ha.taken.mem f hf hfg]
  · rw [hcount]
    exact ha.taken.count
  · rw [hs']
    exact ha.taken.nextAlloc
  · rw [hs']
    exact ha.taken.bootPdpt
  · rw [hs']
    exact ha.taken.root
  · have hmemory : s'.pmmFreeMemory = s₁.pmmFreeMemory := by rw [hs']; rfl
    rw [Accounted, hfrees, hmemory]
    exact ha.taken.accounted hacc
  · rcases htlb e he with he | he | rfl
    · exact ha.taken.tlb e he
    · exact Or.inr he.2
    · exact Or.inr (Build.internal_page.mpr (Build.internal_tableVa hd hva))
  · have hquiet := ha.taken.quiet n hn
    rw [Quiet, ← hcount] at hquiet
    exact hquiet
  · have hc₁ := ha.taken.coherent hn hc
    intro e he
    rcases htlb e he with he | he | rfl
    · exact hmono _ _ (hc₁ e he)
    · exact hmono _ _ he.1
    · rw [translate_page_mul, hinv.tree.translate_tableVa hd hva, htable]
  · rw [← ha.tableAt va' e he, hs']
    exact tableAt_linked h₁.tree hwindow hd (ha.table₁ hd ht) (ha.empty₁ hd ht hnone) (ha.not_table h) hw he.le hne

end Link

/-! ### Caching -/

theorem MemInv.cache (h : MemInv b pool held s) : MemInv b pool held (s.cache va f) :=
  ⟨⟨h.tree.directory, h.tree.tree⟩, h.top, h.count_le, h.backed, h.aligned, h.ranges, h.partition, h.nodup,
    h.tables_used, h.held_out, h.held_data⟩

theorem MemInv.invlpg (h : MemInv b pool held s) : MemInv b pool held (s.invlpg va) :=
  ⟨⟨h.tree.directory, h.tree.tree⟩, h.top, h.count_le, h.backed, h.aligned, h.ranges, h.partition, h.nodup,
    h.tables_used, h.held_out, h.held_data⟩

theorem Taken.cache (hf : s.translate b va = some f) (hva : b.Internal va) : Taken b [] s (s.cache va f) :=
  ⟨rfl, rfl, fun _ _ _ _ ht => ht, fun _ hf => Or.inl hf, fun _ hf => hf, fun _ _ _ => rfl,
    fun _ _ => Or.inl rfl, fun _ _ _ hdropped => absurd hdropped (not_dropped rfl), rfl, rfl, rfl, rfl, id,
    internal_cache hva,
    fun n hn => by rwa [List.length_nil, Nat.zero_add] at hn,
    fun _ hc => hc.cache hf⟩

theorem Allocated.of_cache (ha : Allocated b page (s.cache va f) s₁) (hf : s.translate b va = some f)
    (hva : b.Internal va) : Allocated b page s s₁ :=
  ⟨ha.aligned, (Taken.cache hf hva).trans ha.taken, ha.isTable_iff, ha.zeros, ha.tableAt⟩

theorem take_head (hwindow : ¬ b.InWindow va) : ((b.path va).take n).head? ≠ some b.recursiveIndex := by
  cases n with
  | zero => simp
  | succ n =>
      rw [List.head?_take, if_neg (Nat.succ_ne_zero n)]
      exact hwindow

/-! ### `ensureTable` -/

/-- The table behind entry `d` of the walk is there; it is empty if it is new. -/
structure Ensured (b : Build) (va d : Nat) (taken : List Nat) (s s' : Machine) : Prop where
  effect : Taken b taken s s'
  table : ∃ g, s'.tableAt b va (d + 1) = some g ∧
    (taken = [] ∧ s.tableAt b va (d + 1) = some g ∨
      taken = [g] ∧ s.tableAt b va (d + 1) = none ∧ ∀ i, s'.mem g i = 0)
  tableAt : ∀ va' e, e < b.levels → ¬ b.InWindow va' → (b.path va').take e ≠ (b.path va).take (d + 1) →
    s'.tableAt b va' e = s.tableAt b va' e
  zeros : ∀ f i, ¬ (s.tableAt b va d = some f ∧ i = (b.path va).getD d 0) → s.mem f i = 0 → s'.mem f i = 0

/-- A new frame is put behind the entry at `entryAddress`, which `entryOf` makes, and the page `p` through
which it is now seen is cleared. -/
def install (b : Build) (resolve : Nat → M Nat) (entryAddress p : Nat) (entryOf : Nat → Nat) : M Unit := do
  let page ← pmmAllocPage b resolve
  store b resolve entryAddress (entryOf page)
  vmmInvalidate p
  clearPage resolve p

theorem Ensured.length (h : Ensured b va d taken s s') :
    taken.length = if s.tableAt b va (d + 1) = none then 1 else 0 := by
  obtain ⟨g, -, ⟨rfl, hsome⟩ | ⟨rfl, hnone, -⟩⟩ := h.table
  · rw [hsome]
    rfl
  · rw [hnone]
    rfl

/-- Only the tables below the one that was ensured are affected. -/
theorem Ensured.others (h : Ensured b va d taken s s') (hd : d + 1 < b.levels) {e : Nat}
    (he : e < b.levels) (hwindow : ¬ b.InWindow va') (hne : (b.path va').take e ≠ (b.path va).take e) :
    s'.tableAt b va' e = s.tableAt b va' e := by
  refine h.tableAt va' e he hwindow fun heq => hne ?_
  have hlength := congrArg List.length heq
  rw [length_take_path he.le, length_take_path hd.le] at hlength
  rw [heq, hlength]

theorem ensureTable_eq (k : Nat) : ensureTable b resolve k (b.index k va) = (do
    let entry ← load b (b.entryVa k va)
    if ¬ Present entry then
      install b resolve (b.entryVa k va) (b.tableVa k va) fun page => page ||| pageWrite ||| pagePresent) :=
  rfl

/-- A new empty table is put behind entry `d` of the walk. -/
theorem install_table (h : MemInv b pool held s) (hres : Resolves b resolve) (hva : b.InTree va)
    (hwindow : ¬ b.InWindow va) (hd : d + 1 < b.levels) (ht : s.tableAt b va d = some t)
    (hnone : s.tableAt b va (d + 1) = none) (entryOf : Nat → Nat)
    (hentryOf : ∀ page, page % pageSize = 0 → entryFrame (entryOf page) = some (page / pageSize)) :
    wp (install b resolve (b.entryVa (b.levels - d) va) (b.tableVa (b.levels - d) va) entryOf) s
      (fun _ s' => MemInv b pool held s' ∧ ∃ g, Ensured b va d [g] s s')
      (fun e => e = .outOfPhysicalMemory ∧ s.freeFrames b = []) := by
  have hd' : d < b.levels := Nat.lt_of_succ_lt hd
  rw [install, wp_bind]
  refine (pmmAllocPage_spec h hres).mono ?_ fun e he => he
  rintro page s₁ ⟨h₁, ha⟩
  have ht₁ := ha.table₁ hd ht
  have hentry₁ : s₁.translate b (b.entryVa (b.levels - d) va) = some t := by
    rw [h₁.tree.translate_entryVa hd' hva, ht₁]
  have hw := hentryOf page ha.aligned
  have hstore := store_ok (w := entryOf page) hres hentry₁
  rw [Build.wordIndex_entryVa hd' hva] at hstore
  rw [wp_bind, wp_of_ok hstore, vmmInvalidate, wp_bind, wp_modify]
  have hclear := clearPage_ok
    (s := ((s₁.cache (b.entryVa (b.levels - d) va) t).write t ((b.path va).getD d 0)
      (entryOf page)).invlpg (b.tableVa (b.levels - d) va)) hres
    (translate_write_link h₁.tree hva hwindow hd ht₁ hw)
  rw [wp_of_ok hclear]
  obtain ⟨hinv, htaken, htable, hothers⟩ := ha.link h h₁ hva hwindow hd ht hnone hw
    (((((s₁.cache (b.entryVa (b.levels - d) va) t).write t ((b.path va).getD d 0)
      (entryOf page)).invlpg (b.tableVa (b.levels - d) va)).cache
      (b.tableVa (b.levels - d) va) (page / pageSize)).zero (page / pageSize)) rfl fun e he => by
    rcases List.mem_cons.mp he with rfl | he
    · exact Or.inr (Or.inr rfl)
    · have he : e ∈ ((b.entryVa (b.levels - d) va / pageSize, t) :: s₁.tlb).filter
          fun e => e.1 ≠ b.tableVa (b.levels - d) va / pageSize := he
      rcases List.mem_cons.mp (List.mem_of_mem_filter he) with rfl | he
      · exact Or.inr (Or.inl ⟨translate_page_mul.trans hentry₁,
          Build.internal_page.mpr (Build.internal_entryVa hd' hva)⟩)
      · exact Or.inl he
  refine ⟨hinv, _, htaken, ⟨_, htable, Or.inr ⟨rfl, hnone, fun i => Machine.zero_same⟩⟩,
    fun va' e he hwindow' hne => hothers va' e he (by rwa [strip_of_head (take_head hwindow')]), ?_⟩
  intro f i hne hzero
  by_cases hf : f = page / pageSize
  · rw [hf]
    exact Machine.zero_same
  · refine (Machine.zero_of_ne hf).trans ((Machine.write_of_ne ?_).trans (ha.zeros f i hzero))
    rintro ⟨rfl, rfl⟩
    exact hne ⟨ht, rfl⟩

theorem Ensured.of_cache (he : Ensured b va d taken (s.cache va' f) s') (hf : s.translate b va' = some f)
    (hva' : b.Internal va') : Ensured b va d taken s s' :=
  ⟨(Taken.cache hf hva').trans he.effect, he.table, he.tableAt, he.zeros⟩

theorem entryFrame_table {page : Nat} (hpage : page % pageSize = 0) :
    entryFrame (page ||| pageWrite ||| pagePresent) = some (page / pageSize) := by
  rw [entry_eq hpage]
  exact entryFrame_add hpage (by decide) rfl

theorem ensureTable_spec (h : MemInv b pool held s) (hres : Resolves b resolve) (hva : b.InTree va)
    (hwindow : ¬ b.InWindow va) (hd : d + 1 < b.levels) (ht : s.tableAt b va d = some t) :
    wp (ensureTable b resolve (b.levels - d) (b.index (b.levels - d) va)) s
      (fun _ s' => MemInv b pool held s' ∧ ∃ taken, Ensured b va d taken s s')
      (fun e => e = .outOfPhysicalMemory ∧ s.tableAt b va (d + 1) = none ∧ s.freeFrames b = []) := by
  have hd' : d < b.levels := Nat.lt_of_succ_lt hd
  have hentry : s.translate b (b.entryVa (b.levels - d) va) = some t := by
    rw [h.tree.translate_entryVa hd' hva, ht]
  have hload := load_ok hentry
  rw [Build.wordIndex_entryVa hd' hva] at hload
  rw [ensureTable_eq, wp_bind, wp_of_ok hload, wp_ite]
  constructor
  · intro hempty
    have hnone := tableAt_succ_none hd ht hempty
    refine (install_table h.cache hres hva hwindow hd ht hnone _ fun _ => entryFrame_table).mono ?_ ?_
    · rintro - s' ⟨hinv, g, hensured⟩
      exact ⟨hinv, [g], hensured.of_cache hentry (Build.internal_entryVa hd' hva)⟩
    · rintro e ⟨rfl, hfree⟩
      exact ⟨rfl, hnone, hfree⟩
  · intro hpresent
    have hsome : s.tableAt b va (d + 1) = some (s.mem t ((b.path va).getD d 0) / pageSize) := by
      rw [tableAt_succ hd', ht, Option.bind_some, Machine.next, entryFrame, if_pos (not_not.mp hpresent)]
    rw [wp_pure]
    exact ⟨h.cache, [], Taken.cache hentry (Build.internal_entryVa hd' hva), ⟨_, hsome, Or.inl ⟨rfl, hsome⟩⟩,
      fun _ _ _ _ _ => rfl, fun _ _ _ hzero => hzero⟩

/-! ### Last-level entries -/

theorem inTree_of_page (h : va' / pageSize = va / pageSize) (hva : b.InTree va) : b.InTree va' := by
  cases b <;> simp only [Build.InTree, pageSize] at * <;> omega

theorem exists_table (h : s.Tree b) (hf : s.translate b va = some f) :
    ∃ t, s.tableAt b va (b.levels - 1) = some t := by
  rw [h.translate_eq_tableAt (h.translate_inTree hf), ← Nat.sub_add_cancel b.levels_pos,
    tableAt_succ levels_sub_lt] at hf
  exact (Option.bind_eq_some_iff.mp hf).imp fun _ ht => ht.1

/-- After the last-level entry of `va` was set to `w`, no old translation of `va` is cached. -/
def Refreshed (b : Build) (va w : Nat) (s s' : Machine) : Prop :=
  ∀ e ∈ s'.tlb,
    (e ∈ s.tlb ∨ s.translate b (pageSize * e.1) = some e.2) ∧
      (e.1 ≠ va / pageSize ∨ s.translate b va = none) ∨
    e.1 = va / pageSize ∧ entryFrame w = some e.2

/-- The last-level entry of `va` was set to `w`, and nothing else happened. -/
structure LeafSet (b : Build) (va w : Nat) (s s' : Machine) : Prop where
  free : s'.freeFrames b = s.freeFrames b
  out : s'.handedOut = s.handedOut
  tableAt : ∀ va' d, d < b.levels → s'.tableAt b va' d = s.tableAt b va' d
  isTable : ∀ f, s'.IsTable b f ↔ s.IsTable b f
  mem : ∀ f, ¬ s.IsTable b f → s'.mem f = s.mem f
  entry : ∀ f i, ¬ (s.tableAt b va (b.levels - 1) = some f ∧ i = (b.path va).getLastD 0) →
    s'.mem f i = s.mem f i
  last : ∀ va', va' / pageSize = va / pageSize → s'.lastEntry b va' = some w
  last_of_ne : ∀ va', va' / pageSize ≠ va / pageSize → ¬ b.InWindow va' →
    s'.lastEntry b va' = s.lastEntry b va'
  translate_of_ne : ∀ va', va' / pageSize ≠ va / pageSize → s'.translate b va' = s.translate b va'
  pmmStackTop : s'.pmmStackTop = s.pmmStackTop
  nextAlloc : s'.nextAlloc = s.nextAlloc
  bootPdpt : s'.bootPdpt = s.bootPdpt
  root : s'.root b = s.root b
  same : s' = { s with mem := s'.mem, tlb := s'.tlb }

theorem LeafSet.coherent (h : LeafSet b va w s s') (htlb : Refreshed b va w s s') (hc : Coherent b s) :
    Coherent b s' := by
  intro e he
  have hdiv : pageSize * e.1 / pageSize = e.1 := Nat.mul_div_cancel_left _ (by decide)
  rcases htlb e he with ⟨hold, hne⟩ | ⟨hpage, hframe⟩
  · have hold : s.translate b (pageSize * e.1) = some e.2 := hold.elim (hc e) id
    have hpage : e.1 ≠ va / pageSize := by
      rcases hne with hne | hnone
      · exact hne
      · intro heq
        rw [heq, translate_page_mul, hnone] at hold
        cases hold
    rw [h.translate_of_ne _ (by rwa [hdiv]), hold]
  · rw [translate_eq_leafEntry, Machine.leafEntry, h.last _ (hdiv.trans hpage), Option.filter_some]
    rw [entryFrame] at hframe
    split at hframe
    · rename_i hpresent
      simpa [hpresent] using hframe
    · cases hframe

theorem LeafSet.invlpg (h : LeafSet b va w s s') : LeafSet b va w s (s'.invlpg va') :=
  { h with same := by rw [h.same]; rfl }

theorem MemInv.set_leaf (h : MemInv b pool held s) (hva : b.InTree va) (hwindow : ¬ b.InWindow va)
    (ht : s.tableAt b va (b.levels - 1) = some t)
    (hstack : ∀ j, j * b.entries < s.stackCount b → b.stackPage j / pageSize ≠ va / pageSize) (s' : Machine)
    (hs' : s' = { s.write t ((b.path va).getLastD 0) w with tlb := s'.tlb }) :
    MemInv b pool held s' ∧ LeafSet b va w s s' := by
  have htable := tableAt_isTable levels_sub_lt ht
  have htree : s'.Tree b := by
    rw [hs']
    exact ⟨h.tree.directory, (h.tree.write_leaf hwindow ht).tree⟩
  have hother : ∀ va', va' / pageSize ≠ va / pageSize → s'.translate b va' = s.translate b va' := by
    intro va' hpage
    rw [hs']
    exact translate_write_leaf_of_ne h.tree hwindow ht hva hpage
  have hiff : ∀ f, s'.IsTable b f ↔ s.IsTable b f := by
    intro f
    rw [hs']
    exact isTable_write_leaf h.tree hwindow ht
  have hmem : ∀ f i, ¬ (f = t ∧ i = (b.path va).getLastD 0) → s'.mem f i = s.mem f i := by
    intro f i hne
    rw [hs']
    exact Machine.write_of_ne hne
  have hlast : ∀ va', va' / pageSize = va / pageSize → s'.lastEntry b va' = some w := by
    intro va' hpage
    rw [hs']
    exact lastEntry_write_leaf h.tree hwindow ht hpage (inTree_of_page hpage hva)
  obtain ⟨hinv, hfrees⟩ := h.update htree (by rw [hs']; rfl) (by rw [hs']; rfl) (by rw [hs']; rfl)
    (fun j hj => hother _ (hstack j hj))
    (fun f hf => funext fun i => hmem f i fun heq => h.tables_used t htable (heq.1 ▸ hf))
    (fun f hf => h.tables_used f ((hiff f).mp hf))
    (fun f hf htable => h.held_data f hf ((hiff f).mp htable))
  refine ⟨hinv, hfrees, by rw [hs']; rfl, fun va' d hd => ?_, hiff, fun f hf => ?_, fun f i hne => ?_, hlast,
    fun va' hpage hwindow' => ?_, hother, by rw [hs']; rfl, by rw [hs']; rfl, by rw [hs']; rfl,
    by rw [hs']; rfl, by rw [hs']; rfl⟩
  · rw [hs']
    exact tableAt_write_leaf h.tree hwindow ht hd
  · exact funext fun i => hmem f i fun heq => hf (heq.1 ▸ htable)
  · exact hmem f i fun heq => hne ⟨heq.1 ▸ ht, heq.2⟩
  · rw [hs']
    exact lastEntry_write_leaf_of_ne h.tree hwindow ht hva hpage hwindow'

end Kiznix.Memory
