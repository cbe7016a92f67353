import Kiznix.MemMap

/-! `vmm_map_page`: the missing tables of an address are built from the top down, then its last-level entry
is set. -/

namespace Kiznix.Memory

open RadixTree

variable {b : Build} {pool held : List Nat} {s s' s₁ : Machine} {resolve : Nat → M Nat}
  {va va' f g t w j k m n d e pa page : Nat} {taken taken' : List Nat}

/-! ### Missing tables -/

/-- How many of the tables down to depth `d` on the walk of an address are missing. -/
def missing (b : Build) (s : Machine) (va : Nat) : Nat → Nat
  | 0 => 0
  | d + 1 => missing b s va d + if s.tableAt b va (d + 1) = none then 1 else 0

/-- The tables of the walk of an address are there down to depth `d`; those that are new hold nothing
but the next table. -/
structure BuiltTo (b : Build) (va d : Nat) (taken : List Nat) (s s' : Machine) : Prop where
  effect : Taken b taken s s'
  table : ∃ t, s'.tableAt b va d = some t
  fresh : ∀ e, e ≤ d → s.tableAt b va e = none → ∃ g ∈ taken, s'.tableAt b va e = some g ∧
    ∀ i, (e < d → i ≠ (b.path va).getD e 0) → s'.mem g i = 0
  others : ∀ va' e, e < b.levels → ¬ b.InWindow va' → (d < e ∨ (b.path va').take e ≠ (b.path va).take e) →
    s'.tableAt b va' e = s.tableAt b va' e
  length : taken.length = missing b s va d

theorem tableAt_zero : s.tableAt b va 0 = some (s.root b) := rfl

theorem tableAt_of_take (h : (b.path va').take e = (b.path va).take e) :
    s.tableAt b va' e = s.tableAt b va e := by
  rw [Machine.tableAt, h, ← Machine.tableAt]

theorem BuiltTo.zero : BuiltTo b va 0 [] s s where
  effect := ⟨rfl, rfl, fun _ _ _ _ ht => ht, fun _ hf => Or.inl hf, fun _ hf => hf, fun _ _ _ => rfl,
    fun _ _ => Or.inl rfl, fun _ _ _ hdropped => absurd hdropped (not_dropped rfl), rfl, rfl, rfl, rfl, id,
    fun _ => Or.inl, fun n hn => by rwa [List.length_nil, Nat.zero_add] at hn,
    fun _ hc => hc⟩
  table := ⟨_, tableAt_zero⟩
  fresh e he hnone := by
    rw [Nat.le_zero.mp he, tableAt_zero] at hnone
    cases hnone
  others _ _ _ _ _ := rfl
  length := rfl

theorem BuiltTo.succ (h : BuiltTo b va d taken s s₁) (h' : Ensured b va d taken' s₁ s')
    (htree : s₁.Tree b) (hd : d + 1 < b.levels) (hwindow : ¬ b.InWindow va) :
    BuiltTo b va (d + 1) (taken ++ taken') s s' := by
  have hbefore : s₁.tableAt b va (d + 1) = s.tableAt b va (d + 1) :=
    h.others va (d + 1) hd hwindow (Or.inl (Nat.lt_succ_self d))
  obtain ⟨g, hg, hcase⟩ := h'.table
  refine ⟨h.effect.trans h'.effect, ⟨g, hg⟩, fun e he hnone => ?_, fun va' e he hwindow' hne => ?_, ?_⟩
  · rcases Nat.lt_or_ge e (d + 1) with hlt | hge
    · -- An older new table: only the entry on the path was touched since.
      obtain ⟨f, hf, htable, hzero⟩ := h.fresh e (Nat.le_of_lt_succ hlt) hnone
      refine ⟨f, List.mem_append_left _ hf, h'.effect.table va e f (hlt.trans hd) htable, fun i hi => ?_⟩
      have hi := hi hlt
      refine h'.zeros f i ?_ (hzero i fun _ => hi)
      rintro ⟨hlast, hindex⟩
      rcases Nat.lt_or_ge e d with hed | hed
      · -- Two depths of one walk never share a table.
        have htake : (b.path va).take e = (b.path va).take d :=
          htree.table_unique (by omega) (by omega) hwindow hwindow htable hlast
        have hlength := congrArg List.length htake
        rw [length_take_path (by omega), length_take_path (by omega)] at hlength
        omega
      · exact hi (by rw [hindex, Nat.le_antisymm (Nat.le_of_lt_succ hlt) hed])
    · obtain rfl : e = d + 1 := Nat.le_antisymm he hge
      rcases hcase with ⟨-, hsome⟩ | ⟨rfl, -, hzero⟩
      · rw [hbefore, hnone] at hsome
        cases hsome
      · exact ⟨g, List.mem_append_right _ List.mem_cons_self, hg, fun i _ => hzero i⟩
  · have hne' : (b.path va').take e ≠ (b.path va).take (d + 1) := by
      intro heq
      have hlength := congrArg List.length heq
      rw [length_take_path he.le, length_take_path hd.le] at hlength
      subst hlength
      exact hne.elim (lt_irrefl _) fun hne => hne heq
    rw [h'.tableAt va' e he hwindow' hne']
    exact h.others va' e he hwindow' (hne.imp_left Nat.lt_of_succ_lt)
  · rw [List.length_append, h.length, missing, ← hbefore]
    rcases hcase with ⟨rfl, hsome⟩ | ⟨rfl, hnone, -⟩
    · rw [hsome]
      rfl
    · rw [hnone]
      rfl

/-! ### The last-level entry -/

theorem setPage_eq : setPage b resolve (b.index 1 va) pa va = (do
    let entry ← load b (b.entryVa 1 va)
    if Present entry then throw .alreadyMapped
    store b resolve (b.entryVa 1 va) (pa ||| pageWrite ||| pagePresent)
    vmmInvalidate va
    return 0) :=
  rfl

theorem lastEntry_of_tableAt (h : s.Tree b) (hva : b.InTree va)
    (ht : s.tableAt b va (b.levels - 1) = some t) :
    s.lastEntry b va = some (s.mem t ((b.path va).getLastD 0)) := by
  rw [lastEntry_eq h hva, ht, Option.map_some]

theorem translate_eq_none_iff (h : s.lastEntry b va = some w) : s.translate b va = none ↔ ¬ Present w := by
  rw [translate_eq_leafEntry, Machine.leafEntry, h, Option.filter_some]
  by_cases hw : Present w <;> simp [hw]

theorem setPage_spec (h : MemInv b pool held s) (hres : Resolves b resolve) (hva : b.InTree va)
    (hwindow : ¬ b.InWindow va) (ht : s.tableAt b va (b.levels - 1) = some t) :
    wp (setPage b resolve (b.index 1 va) pa va) s
      (fun r s' => r = 0 ∧ s.translate b va = none ∧ MemInv b pool held s' ∧
        LeafSet b va (pa ||| pageWrite ||| pagePresent) s s' ∧
        (∀ e ∈ s'.tlb, e ∈ s.tlb ∨ b.Internal (pageSize * e.1)) ∧ (Coherent b s → Coherent b s'))
      (fun e => e = .alreadyMapped ∧ s.translate b va ≠ none) := by
  have hentry : s.translate b (b.entryVa 1 va) = some t := by rw [h.tree.translate_leafVa hva, ht]
  have hload := load_ok hentry
  rw [wordIndex_leafVa hva] at hload
  have hnone := translate_eq_none_iff (lastEntry_of_tableAt h.tree hva ht)
  rw [setPage_eq, wp_bind, wp_of_ok hload, wp_ite]
  constructor
  · intro hpresent
    rw [wp_bind, wp_throw]
    exact ⟨rfl, fun h => hnone.mp h hpresent⟩
  · intro hempty
    have hunmapped := hnone.mpr hempty
    have hstore := store_ok (w := pa ||| pageWrite ||| pagePresent)
      (s := s.cache (b.entryVa 1 va) t) hres hentry
    rw [wordIndex_leafVa hva] at hstore
    rw [wp_bind, wp_of_ok hstore, vmmInvalidate, wp_bind, wp_modify, wp_pure]
    -- The page is not mapped, so it is no stack page in use.
    have hstack : ∀ j, j * b.entries < s.stackCount b → b.stackPage j / pageSize ≠ va / pageSize := by
      intro j hj hpage
      have hbacked := h.backed j hj
      rw [Build.translate_of_page hpage, hunmapped] at hbacked
      cases hbacked
    obtain ⟨hinv, hleaf⟩ := h.set_leaf (w := pa ||| pageWrite ||| pagePresent) hva hwindow ht hstack
      ((((s.cache (b.entryVa 1 va) t).cache (b.entryVa 1 va) t).write t ((b.path va).getLastD 0)
        (pa ||| pageWrite ||| pagePresent)).invlpg va) rfl
    have hinternal : b.Internal (b.entryVa 1 va) := by
      have hsub : b.levels - (b.levels - 1) = 1 := Nat.sub_sub_self b.levels_pos
      exact hsub ▸ Build.internal_entryVa levels_sub_lt hva
    refine ⟨rfl, hunmapped, hinv, hleaf, fun e he => ?_, hleaf.coherent fun e he => ?_⟩
    · have he : e ∈ ((b.entryVa 1 va / pageSize, t) :: (b.entryVa 1 va / pageSize, t) :: s.tlb).filter
          fun e => e.1 ≠ va / pageSize := he
      rcases internal_cache (s := s.cache (b.entryVa 1 va) t) hinternal e (List.mem_of_mem_filter he) with
        he | he
      · exact internal_cache hinternal e he
      · exact Or.inr he
    · have he : e ∈ ((b.entryVa 1 va / pageSize, t) :: (b.entryVa 1 va / pageSize, t) :: s.tlb).filter
          fun e => e.1 ≠ va / pageSize := he
      obtain ⟨hmem, hne⟩ := List.mem_filter.mp he
      refine Or.inl ⟨?_, Or.inr hunmapped⟩
      rcases List.mem_cons.mp hmem with rfl | hmem
      · exact Or.inr (translate_page_mul.trans hentry)
      · rcases List.mem_cons.mp hmem with rfl | hmem
        · exact Or.inr (translate_page_mul.trans hentry)
        · exact Or.inl hmem

/-! ### `vmm_map_page` -/

theorem missing_mono (h : d ≤ e) : missing b s va d ≤ missing b s va e := by
  induction e with
  | zero => rw [Nat.le_zero.mp h]
  | succ e ih =>
      rcases Nat.lt_or_ge e d with hlt | hge
      · rw [Nat.le_antisymm h hlt]
      · exact (ih hge).trans (Nat.le_add_right _ _)

/-- One more of the tables is built. -/
theorem BuiltTo.step_spec (h : BuiltTo b va d taken s s₁) (h₁ : MemInv b pool held s₁)
    (hres : Resolves b resolve) (hva : b.InTree va) (hwindow : ¬ b.InWindow va) (hd : d + 1 < b.levels) :
    wp (ensureTable b resolve (b.levels - d) (b.index (b.levels - d) va)) s₁
      (fun _ s' => MemInv b pool held s' ∧ ∃ taken, BuiltTo b va (d + 1) taken s s')
      (fun e => e = .outOfPhysicalMemory ∧
        (s.freeFrames b).length < missing b s va (b.levels - 1)) := by
  obtain ⟨t, ht⟩ := h.table
  refine (ensureTable_spec h₁ hres hva hwindow hd ht).mono ?_ ?_
  · rintro - s' ⟨hinv, taken', hensured⟩
    exact ⟨hinv, _, h.succ hensured h₁.tree hd hwindow⟩
  · rintro e ⟨rfl, hnone, hfree⟩
    refine ⟨rfl, ?_⟩
    rw [h.effect.free, hfree, List.append_nil, h.length]
    rw [h.others va (d + 1) hd hwindow (Or.inl (Nat.lt_succ_self d))] at hnone
    have hlt : missing b s va d < missing b s va (d + 1) := by
      rw [missing, if_pos hnone]
      exact Nat.lt_succ_self _
    exact hlt.trans_le (missing_mono (by omega))

/-- The effect of `vmm_map_page`: the tables are built, the page was not mapped, its entry is set. -/
def Mapped (b : Build) (pa va : Nat) (taken : List Nat) (s s' : Machine) : Prop :=
  ∃ s₁, BuiltTo b va (b.levels - 1) taken s s₁ ∧ s₁.translate b va = none ∧
    LeafSet b va (pa ||| pageWrite ||| pagePresent) s₁ s' ∧
    (∀ e ∈ s'.tlb, e ∈ s₁.tlb ∨ b.Internal (pageSize * e.1)) ∧ (Coherent b s₁ → Coherent b s')

/-- Why `vmm_map_page` stops. -/
def MapFails (b : Build) (va : Nat) (s : Machine) (e : Fatal) : Prop :=
  e = .outOfPhysicalMemory ∧ (s.freeFrames b).length < missing b s va (b.levels - 1) ∨
    e = .alreadyMapped ∧ s.translate b va ≠ none

theorem Taken.translate_none {taken : List Nat} (h : Taken b taken s s') (hwindow : ¬ b.InWindow va)
    (hnone : s.translate b va = none) : s'.translate b va = none := by
  rcases h.last va hwindow with heq | ⟨hzero, -⟩
  · rw [translate_congr heq, hnone]
  · exact (translate_eq_none_iff hzero).mpr not_present_zero

theorem BuiltTo.setPage_spec (h : BuiltTo b va (b.levels - 1) taken s s₁)
    (h₁ : MemInv b pool held s₁) (hres : Resolves b resolve) (hva : b.InTree va)
    (hwindow : ¬ b.InWindow va) :
    wp (setPage b resolve (b.index 1 va) pa va) s₁
      (fun r s' => r = 0 ∧ MemInv b pool held s' ∧ ∃ taken, Mapped b pa va taken s s') (MapFails b va s) := by
  obtain ⟨t, ht⟩ := h.table
  refine (Memory.setPage_spec h₁ hres hva hwindow ht).mono ?_ ?_
  · rintro r s' ⟨hr, hnone, hinv, hleaf, htlb, hc⟩
    exact ⟨hr, hinv, taken, s₁, h, hnone, hleaf, htlb, hc⟩
  · rintro e ⟨rfl, hmapped⟩
    exact Or.inr ⟨rfl, fun hnone => hmapped (h.effect.translate_none hwindow hnone)⟩

theorem pae_index (hva : Build.pae.InTree va) : (va >>> 30) &&& 0x3 = 3 := by
  have hmask := Build.and_mask 2 (va >>> 30)
  norm_num at hmask
  rw [hmask, Nat.shiftRight_eq_div_pow]
  rw [Build.InTree.eq_def] at hva
  dsimp only at hva
  omega

theorem vmmMapPage_spec (h : MemInv b pool held s) (hres : Resolves b resolve) (hva : b.InTree va)
    (hwindow : ¬ b.InWindow va) :
    wp (vmmMapPage b resolve pa va) s
      (fun r s' => r = 0 ∧ MemInv b pool held s' ∧ ∃ taken, Mapped b pa va taken s s')
      (MapFails b va s) := by
  have hfails : ∀ e, e = .outOfPhysicalMemory ∧
      (s.freeFrames b).length < missing b s va (b.levels - 1) → MapFails b va s e := fun _ => Or.inl
  cases b with
  | i386 =>
      show wp (ensureTable .i386 resolve 2 (Build.i386.index 2 va) >>= fun _ =>
        setPage .i386 resolve (Build.i386.index 1 va) pa va) s _ _
      refine wp_bind.mpr ((BuiltTo.zero.step_spec h hres hva hwindow (by decide)).mono ?_ hfails)
      rintro - s₁ ⟨h₁, taken, hbuilt⟩
      exact hbuilt.setPage_spec h₁ hres hva hwindow
  | pae =>
      have hpresent : Present (s.bootPdpt ((va >>> 30) &&& 0x3)) := by
        rw [pae_index hva]
        exact (h.tree.directory rfl).2.2
      unfold vmmMapPage vmmMapPagePae
      rw [wp_bind, wp_get, wp_ite]
      refine ⟨fun habsent => absurd hpresent habsent, fun _ => ?_⟩
      show wp (ensureTable .pae resolve 2 (Build.pae.index 2 va) >>= fun _ =>
        setPage .pae resolve (Build.pae.index 1 va) pa va) s _ _
      refine wp_bind.mpr ((BuiltTo.zero.step_spec h hres hva hwindow (by decide)).mono ?_ hfails)
      rintro - s₁ ⟨h₁, taken, hbuilt⟩
      exact hbuilt.setPage_spec h₁ hres hva hwindow
  | x86_64 =>
      show wp (ensureTable .x86_64 resolve 4 (Build.x86_64.index 4 va) >>= fun _ =>
        ensureTable .x86_64 resolve 3 (Build.x86_64.index 3 va) >>= fun _ =>
          ensureTable .x86_64 resolve 2 (Build.x86_64.index 2 va) >>= fun _ =>
            setPage .x86_64 resolve (Build.x86_64.index 1 va) pa va) s _ _
      refine wp_bind.mpr ((BuiltTo.zero.step_spec h hres hva hwindow (by decide)).mono ?_ hfails)
      rintro - s₁ ⟨h₁, taken₁, hbuilt₁⟩
      refine wp_bind.mpr ((hbuilt₁.step_spec h₁ hres hva hwindow (by decide)).mono ?_ hfails)
      rintro - s₂ ⟨h₂, taken₂, hbuilt₂⟩
      refine wp_bind.mpr ((hbuilt₂.step_spec h₂ hres hva hwindow (by decide)).mono ?_ hfails)
      rintro - s₃ ⟨h₃, taken₃, hbuilt₃⟩
      exact hbuilt₃.setPage_spec h₃ hres hva hwindow

end Kiznix.Memory
