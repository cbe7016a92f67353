import Kiznix.MemHeap

/-! `vmm_map_page` and `vmm_unmap_page` on the map from pages to entries that the tables stand for. -/

namespace Kiznix.Memory

open RadixTree

variable {b : Build} {pool held : List Nat} {s s' s₁ : Machine} {va va' f g t d e n pa : Nat} {taken : List Nat}

/-- The tables stand for `pages`, which has the entry of each page that is mapped. -/
def Machine.Shows (b : Build) (s : Machine) (pages : Nat → Option Nat) : Prop :=
  ∀ va, ¬ b.Internal va → s.leafEntry b va = pages (va / pageSize)

/-- The page of `va` got the entry `entry`, or lost its entry, and nothing but tables was written. -/
structure PageChanged (b : Build) (va : Nat) (entry : Option Nat) (s s' : Machine) : Prop where
  here : ∀ va', va' / pageSize = va / pageSize → s'.leafEntry b va' = entry
  others : ∀ va', va' / pageSize ≠ va / pageSize → ¬ b.Internal va' → s'.leafEntry b va' = s.leafEntry b va'
  data : ∀ f, ¬ s'.IsTable b f → s'.mem f = s.mem f

theorem PageChanged.shows {entry : Option Nat} {pages : Nat → Option Nat} (h : PageChanged b va entry s s')
    (hs : s.Shows b pages) : s'.Shows b (Function.update pages (va / pageSize) entry) := by
  intro va' hva'
  rw [Function.update_apply]
  split
  · rename_i hpage
    exact h.here va' hpage
  · rename_i hpage
    rw [h.others va' hpage hva', hs va' hva']

/-! ### The new tables -/

theorem card_missing (s : Machine) (va : Nat) : ∀ d, missing b s va d =
    ((Finset.range (d + 1)).filter fun e => s.tableAt b va e = none).card := by
  intro d
  induction d with
  | zero => simp [missing, tableAt_zero, Finset.filter_singleton]
  | succ d ih =>
      rw [missing, ih, Finset.range_add_one (n := d + 1), Finset.filter_insert]
      split
      · rw [Finset.card_insert_of_notMem (by simp)]
      · rfl

theorem tableAt_inj (h : s.Tree b) (hwindow : ¬ b.InWindow va) (hd : d < b.levels) (he : e < b.levels)
    (hdf : s.tableAt b va d = some f) (hef : s.tableAt b va e = some f) : d = e := by
  have htake := congrArg List.length (h.table_unique hd he hwindow hwindow hdf hef)
  rwa [length_take_path hd.le, length_take_path he.le] at htake

/-- Each frame that was taken is one of the tables that were missing. -/
theorem BuiltTo.created (h : BuiltTo b va d taken s s')
    (hinj : ∀ i j f, i ≤ d → j ≤ d → s'.tableAt b va i = some f → s'.tableAt b va j = some f → i = j)
    (hg : g ∈ taken) :
    ∃ e ≤ d, s.tableAt b va e = none ∧ s'.tableAt b va e = some g := by
  set depths := (Finset.range (d + 1)).filter fun e => s.tableAt b va e = none with hdepths
  have hdepth : ∀ e, e ∈ depths ↔ e ≤ d ∧ s.tableAt b va e = none := by
    intro e
    rw [hdepths, Finset.mem_filter, Finset.mem_range, Nat.lt_succ_iff]
  have htable : ∀ e ∈ depths, ∃ f ∈ taken, s'.tableAt b va e = some f := by
    intro e he
    obtain ⟨hle, hnone⟩ := (hdepth e).mp he
    obtain ⟨f, hf, hat, -⟩ := h.fresh e hle hnone
    exact ⟨f, hf, hat⟩
  have hsubset : depths.image (fun e => (s'.tableAt b va e).getD 0) ⊆ taken.toFinset := by
    intro f hf
    obtain ⟨e, he, rfl⟩ := Finset.mem_image.mp hf
    obtain ⟨f, hf, hat⟩ := htable e he
    rw [hat]
    exact List.mem_toFinset.mpr hf
  have hcard : (depths.image fun e => (s'.tableAt b va e).getD 0).card = depths.card := by
    refine Finset.card_image_of_injOn fun e he e' he' heq => ?_
    obtain ⟨f, -, hat⟩ := htable e he
    obtain ⟨f', -, hat'⟩ := htable e' he'
    rw [hat, hat', Option.getD_some, Option.getD_some] at heq
    exact hinj e e' f ((hdepth e).mp he).1 ((hdepth e').mp he').1 hat (heq ▸ hat')
  have hall := Finset.eq_of_subset_of_card_le hsubset (by
    rw [hcard, hdepths, ← card_missing, ← h.length]
    exact List.toFinset_card_le taken)
  have hmem := List.mem_toFinset.mpr hg
  rw [← hall] at hmem
  obtain ⟨e, he, rfl⟩ := Finset.mem_image.mp hmem
  obtain ⟨hle, hnone⟩ := (hdepth e).mp he
  obtain ⟨f, -, hat⟩ := htable e he
  exact ⟨e, hle, hnone, by rw [hat, Option.getD_some]⟩

/-- Every table that is new is on the walk of `va`, and holds nothing but the entry for `va`. -/
def NewTables (b : Build) (va : Nat) (s s' : Machine) : Prop :=
  ∀ f, s'.IsTable b f → s.IsTable b f ∨ ∃ d < b.levels, s.tableAt b va d = none ∧
    s'.tableAt b va d = some f ∧ ∀ i, i ≠ (b.path va).getD d 0 → s'.mem f i = 0

theorem Mapped.created (h : Mapped b pa va taken s s') (h' : s'.Tree b) (hwindow : ¬ b.InWindow va)
    (hf : f ∈ taken) : ∃ d < b.levels, s.tableAt b va d = none ∧ s'.tableAt b va d = some f ∧
      ∀ i, i ≠ (b.path va).getD d 0 → s'.mem f i = 0 := by
  obtain ⟨s₁, hbuilt, -, hleaf, -, -⟩ := h
  have hlt := levels_sub_lt (b := b)
  have hinj : ∀ i j f, i ≤ b.levels - 1 → j ≤ b.levels - 1 → s₁.tableAt b va i = some f →
      s₁.tableAt b va j = some f → i = j := by
    intro i j f hi hj hif hjf
    rw [← hleaf.tableAt va _ (by omega)] at hif hjf
    exact tableAt_inj h' hwindow (by omega) (by omega) hif hjf
  obtain ⟨e, he, hnone, hat⟩ := hbuilt.created hinj hf
  obtain ⟨g, -, hat', hzero⟩ := hbuilt.fresh e he hnone
  obtain rfl : g = f := Option.some.inj (hat'.symm.trans hat)
  refine ⟨e, by omega, hnone, by rw [hleaf.tableAt va e (by omega), hat], fun i hi => ?_⟩
  rw [hleaf.entry, hzero i fun _ => hi]
  rintro ⟨hlast, rfl⟩
  rw [hinj e _ _ he le_rfl hat hlast, ← getLastD_path] at hi
  exact hi rfl

theorem Mapped.newTables (h : Mapped b pa va taken s s') (h' : s'.Tree b) (hwindow : ¬ b.InWindow va) :
    NewTables b va s s' := by
  intro f hf
  exact (h.written_const.isTable f hf).imp_right (h.created h' hwindow)

/-! ### The refinement -/

theorem leafEntry_of_last (h : s.lastEntry b va = some f) :
    s.leafEntry b va = if Present f then some f else none := by
  rw [Machine.leafEntry, h, Option.filter_some]
  simp

theorem leafEntry_of_none (h : s.lastEntry b va = none) : s.leafEntry b va = none := by
  rw [Machine.leafEntry, h]
  rfl

theorem present_mapped (hpa : pa % pageSize = 0) : Present (pa ||| pageWrite ||| pagePresent) := by
  rw [entry_eq hpa, present_iff]
  rw [pageSize] at hpa
  omega

/-- An entry that is not present was not there before, or is that of a page that the stack gave back. -/
theorem leafEntry_same (hinv : MemInv b pool held s) (hva : ¬ b.Internal va)
    (hlast : s'.lastEntry b va = s.lastEntry b va ∨
      s'.lastEntry b va = some 0 ∧ (s.lastEntry b va = none ∨ Dropped b s s' va)) :
    s'.leafEntry b va = s.leafEntry b va := by
  rcases hlast with heq | ⟨hzero, hnone | hdropped⟩
  · exact leafEntry_congr heq
  · rw [leafEntry_of_none hnone, leafEntry_of_last hzero, if_neg not_present_zero]
  · exact absurd (Or.inr (hinv.dropped_inStack hdropped)) hva

theorem Mapped.pageChanged (h : Mapped b pa va taken s s') (hinv : MemInv b pool held s) (h' : s'.Tree b)
    (hwindow : ¬ b.InWindow va) (hpa : pa % pageSize = 0) :
    PageChanged b va (some (pa ||| pageWrite ||| pagePresent)) s s' := by
  have hw := h.written_const
  refine ⟨fun va' hpage => ?_, fun va' hpage hva' => ?_, fun f hf => ?_⟩
  · rw [leafEntry_of_last (hw.set va List.mem_cons_self va' hpage), if_pos (present_mapped hpa)]
  · refine leafEntry_same hinv hva' (hw.last va' (fun hwindow' => hva' (Or.inl hwindow')) fun va'' hva'' => ?_)
    rwa [List.mem_singleton.mp hva'']
  · refine hw.mem f (fun htable => hf (hw.isTable_mono f htable)) fun htaken => ?_
    obtain ⟨d, hd, -, hat, -⟩ := h.created h' hwindow htaken
    exact hf (tableAt_isTable hd hat)

theorem pageChanged_unmapped (h : s.Tree b) (hva : b.InTree va) (hwindow : ¬ b.InWindow va)
    (ht : s.tableAt b va (b.levels - 1) = some t) : PageChanged b va none s (s.unmapped b va t) := by
  refine ⟨fun va' hpage => ?_, fun va' hpage hva' => ?_, fun f hf => ?_⟩
  · have hlast : (s.unmapped b va t).lastEntry b va' = some 0 :=
      lastEntry_write_leaf h hwindow ht hpage (inTree_of_page hpage hva)
    rw [leafEntry_of_last hlast, if_neg not_present_zero]
  · exact leafEntry_congr (lastEntry_write_leaf_of_ne h hwindow ht hva hpage fun hwindow' => hva' (Or.inl hwindow'))
  · have hne : f ≠ t := by
      rintro rfl
      exact hf ((isTable_write_leaf h hwindow ht).mpr (tableAt_isTable levels_sub_lt ht))
    exact funext fun i => Machine.write_of_ne fun heq => hne heq.1

/-- `vmm_map_page` gives an entry to the page of `va` and leaves every other as it was; the tables that it
makes are empty but for that walk. `vmm_unmap_page` takes the entry away. -/
theorem vmmMapPage_refines (h : MemInv b pool held s) (hva : b.InTree va) (hwindow : ¬ b.InWindow va) :
    (pa % pageSize = 0 → s.translate b va = none →
      wp (vmmMapPage b (resolveWrite b (n + 1)) pa va) s
        (fun r s' => r = 0 ∧ MemInv b pool held s' ∧ s'.translate b va = some (pa / pageSize) ∧
          PageChanged b va (some (pa ||| pageWrite ||| pagePresent)) s s' ∧ NewTables b va s s' ∧
          ∀ pages, s.Shows b pages → s'.Shows b
            (Function.update pages (va / pageSize) (some (pa ||| pageWrite ||| pagePresent))))
        (fun e => e = .outOfPhysicalMemory ∧ (s.freeFrames b).length < missing b s va (b.levels - 1))) ∧
    (s.translate b va ≠ none → ∃ s', vmmUnmapPage b (resolveWrite b (n + 1)) va s = .ok (⟨⟩, s') ∧
      s'.Tree b ∧ (∀ f, s'.IsTable b f ↔ s.IsTable b f) ∧ (¬ b.InStack va → MemInv b pool held s') ∧
      PageChanged b va none s s' ∧
      ∀ pages, s.Shows b pages → s'.Shows b (Function.update pages (va / pageSize) none)) := by
  refine ⟨fun hpa hnone => ?_, fun hmapped => ?_⟩
  · refine (vmmMapPage_spec h (resolveWrite_resolves n) hva hwindow).mono ?_ ?_
    · rintro r s' ⟨hr, hinv, taken, hm⟩
      have hchanged := hm.pageChanged h hinv.tree hwindow hpa
      refine ⟨hr, hinv, ?_, hchanged, hm.newTables hinv.tree hwindow, fun pages => hchanged.shows⟩
      rw [translate_eq_leafEntry, hchanged.here va rfl, Option.map_some, entry_eq hpa]
      rw [pageSize] at hpa ⊢
      congr 1
      omega
    · rintro e (hmemory | ⟨-, hsome⟩)
      · exact hmemory
      · exact absurd hnone hsome
  · obtain ⟨f, hf⟩ := Option.ne_none_iff_exists'.mp hmapped
    obtain ⟨t, ht⟩ := exists_table h.tree hf
    have hchanged := pageChanged_unmapped h.tree hva hwindow ht
    have htree : (s.unmapped b va t).Tree b :=
      ⟨h.tree.directory, (h.tree.write_leaf hwindow ht).tree⟩
    refine ⟨_, vmmUnmapPage_ok h.tree (resolveWrite_resolves n) hva ht, htree,
      fun f => isTable_write_leaf (s := s) h.tree hwindow ht, fun hstack => ?_, hchanged, fun pages => hchanged.shows⟩
    exact (h.set_leaf (w := 0) hva hwindow ht
      (fun j hj => Build.stackPage_ne_of_not_inStack hstack (h.stackPage_lt hj)) (s.unmapped b va t) rfl).1

/-- The first page of the heap, mapped on x86_64. -/
theorem vmmMapPage_refines_heap : ∃ s s', Started .x86_64 (smallImage .x86_64) smallMap 0 s ∧
    vmmMapPage .x86_64 (resolveWrite .x86_64 1) 0x800000 Build.x86_64.kernelHeapBegin s = .ok (0, s') ∧
      s'.translate .x86_64 Build.x86_64.kernelHeapBegin = some 0x800 := by
  obtain ⟨s, hstart⟩ := started_small .x86_64 0
  have hstate := started_state smallMap_low smallMap_disjoint hstart
  have hspec : wp (vmmMapPage .x86_64 (resolveWrite .x86_64 1) 0x800000 Build.x86_64.kernelHeapBegin) s _ _ :=
    (vmmMapPage_refines hstate.inv (by decide) (by decide)).1 (by decide)
      (hstate.translate_none (by decide) (by decide) (by decide))
  obtain ⟨r, s', hrun, rfl, -, htranslate, -⟩ := (hspec.mono (fun _ _ hq => hq) fun e ⟨_, hlt⟩ => by
    have hle : missing .x86_64 s Build.x86_64.kernelHeapBegin (Build.x86_64.levels - 1) ≤ _ := missing_le
    rw [hstate.free, smallMap_length] at hlt
    simp only [Build.levels] at hle hlt
    omega).returns
  exact ⟨s, s', hstart, hrun, htranslate⟩

end Kiznix.Memory
