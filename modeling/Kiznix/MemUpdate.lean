import Kiznix.MemTree

/-! What a write to memory does to the tree of page tables: a write to data, a change of a last-level
entry, and a new empty table. -/

namespace Kiznix.Memory

open RadixTree

variable {b : Build} {s s' : Machine} {va va' f g t i x w d : Nat}

theorem lastEntry_eq (h : s.Tree b) (hva : b.InTree va) :
    s.lastEntry b va =
      (s.tableAt b va (b.levels - 1)).map fun t => s.mem t ((b.path va).getLastD 0) := by
  rw [Machine.lastEntry, h.directory.top, if_pos hva, Machine.tableAt,
    ← (Build.path_length : (b.path va).length = b.levels),
    ← List.dropLast_eq_take]
  rfl

theorem lastEntry_of_not (h : s.Tree b) (hva : ¬ b.InTree va) : s.lastEntry b va = none := by
  rw [Machine.lastEntry, h.directory.top, if_neg hva]
  rfl

theorem path_ne_nil : b.path va ≠ [] := by
  cases b <;> simp [Build.path]

theorem getLastD_path : (b.path va).getLastD 0 = (b.path va).getD (b.levels - 1) 0 := by
  cases b <;> rfl

/-- The frame of a translation is that of the present last-level entry. -/
theorem translate_eq_leafEntry : s.translate b va = (s.leafEntry b va).map (· / pageSize) := by
  rw [Machine.translate, Machine.leafEntry, Machine.lastEntry]
  cases s.top b va with
  | none => rfl
  | some top =>
      rw [Option.bind_some, Option.bind_some]
      have hpath : b.path va = (b.path va).dropLast ++ [(b.path va).getLastD 0] := by
        rw [List.getLastD_eq_getLast?, List.getLast?_eq_some_getLast path_ne_nil, Option.getD_some,
          List.dropLast_append_getLast]
      conv_lhs => rw [hpath]
      rw [follow_concat]
      cases follow s.next top (b.path va).dropLast with
      | none => rfl
      | some t =>
          rw [Option.bind_some, Option.map_some, Machine.next, entryFrame, Option.filter_some]
          by_cases hpresent : Present (s.mem t ((b.path va).getLastD 0)) <;> simp

theorem leafEntry_congr (h : s'.lastEntry b va = s.lastEntry b va) :
    s'.leafEntry b va = s.leafEntry b va := by
  rw [Machine.leafEntry, h, Machine.leafEntry]

theorem translate_congr (h : s'.lastEntry b va = s.lastEntry b va) :
    s'.translate b va = s.translate b va := by
  rw [translate_eq_leafEntry, leafEntry_congr h, ← translate_eq_leafEntry]

theorem entry_of_tableAt (hd : d < b.levels) (hwindow : ¬ b.InWindow va)
    (ht : s.tableAt b va d = some t) :
    Entry s.next (s.root b) b.recursiveIndex b.levels ((b.path va).take d) t ((b.path va).getD d 0) := by
  refine ⟨ht, (List.length_take_le _ _).trans_lt hd, ?_⟩
  rw [← take_succ_path hd]
  cases hpath : b.path va with
  | nil => exact absurd hpath path_ne_nil
  | cons i p =>
      rw [Build.InWindow, hpath] at hwindow
      exact hwindow

/-! ### Data -/

theorem Machine.Tree.of_data (h : s.Tree b) (hroot : s'.root b = s.root b)
    (hdirectory : s'.KernelDirectory b) (hmem : ∀ f i, s.IsTable b f → s'.mem f i = s.mem f i) :
    s'.Tree b ∧ (∀ f, s'.IsTable b f ↔ s.IsTable b f) ∧
      ∀ va, s'.lastEntry b va = s.lastEntry b va := by
  have hnext : ∀ f i, RadixTree.IsTable s.next (s.root b) b.levels f → s'.next f i = s.next f i := by
    intro f i hf
    rw [Machine.next, Machine.next, hmem f i hf]
  have htree : s'.Tree b := by
    refine ⟨hdirectory, ?_⟩
    rw [hroot]
    exact h.tree.of_tables b.levels_pos hnext
  refine ⟨htree, fun f => ?_, fun va => ?_⟩
  · rw [Machine.IsTable, Machine.IsTable, hroot]
    exact isTable_congr fun q hq => follow_of_tables hnext hq.le
  · by_cases hva : b.InTree va
    · have hlt : b.levels - 1 < b.levels := Nat.sub_lt b.levels_pos Nat.one_pos
      have htable : s'.tableAt b va (b.levels - 1) = s.tableAt b va (b.levels - 1) := by
        rw [Machine.tableAt, Machine.tableAt, hroot]
        exact follow_of_tables hnext ((List.length_take_le _ _).trans hlt.le)
      rw [lastEntry_eq h hva, lastEntry_eq htree hva, htable]
      cases ht : s.tableAt b va (b.levels - 1) with
      | none => rfl
      | some t => simp only [Option.map_some, hmem t _ (tableAt_isTable hlt ht)]
    · rw [lastEntry_of_not h hva, lastEntry_of_not htree hva]

theorem Machine.Tree.table_unique (h : s.Tree b) {d d' : Nat} (hd : d < b.levels) (hd' : d' < b.levels)
    (hwindow : ¬ b.InWindow va) (hwindow' : ¬ b.InWindow va') (ht : s.tableAt b va d = some t)
    (ht' : s.tableAt b va' d' = some t) : (b.path va).take d = (b.path va').take d' :=
  h.tree.unique _ _ t ((List.length_take_le _ _).trans_lt hd) ((List.length_take_le _ _).trans_lt hd')
    (entry_of_tableAt hd hwindow ht).head (entry_of_tableAt hd' hwindow' ht').head ht ht'

theorem path_of_page (h : va' / pageSize = va / pageSize) : b.path va' = b.path va := by
  rw [← Build.path_page, pageAlignDown, h, ← pageAlignDown, Build.path_page]

/-! ### Last-level entries -/

theorem wordIndex_leafVa (hva : b.InTree va) :
    b.wordIndex (b.entryVa 1 va) = (b.path va).getLastD 0 := by
  have hsub : b.levels - (b.levels - 1) = 1 := Nat.sub_sub_self b.levels_pos
  rw [getLastD_path, ← Build.wordIndex_entryVa (Nat.sub_lt b.levels_pos Nat.one_pos) hva, hsub]

/-- The window shows no address outside it. -/
theorem leafVa_page_ne (hva : b.InTree va) (hwindow : ¬ b.InWindow va) :
    b.entryVa 1 va / pageSize ≠ va / pageSize := by
  intro hpage
  have hsub : b.levels - (b.levels - 1) = 1 := Nat.sub_sub_self b.levels_pos
  have hpath := Build.path_entryVa (Nat.sub_lt b.levels_pos Nat.one_pos) hva
  rw [hsub, path_of_page hpage] at hpath
  rw [Build.InWindow, hpath] at hwindow
  exact hwindow rfl

theorem levels_sub_lt : b.levels - 1 < b.levels := Nat.sub_lt b.levels_pos Nat.one_pos

theorem take_append_last : (b.path va).take (b.levels - 1) ++ [(b.path va).getLastD 0] = b.path va := by
  rw [getLastD_path, ← take_succ_path levels_sub_lt, Nat.sub_add_cancel b.levels_pos,
    List.take_of_length_le b.path_length.le]

theorem length_take_path (hd : d ≤ b.levels) : ((b.path va).take d).length = d := by
  rw [List.length_take, Build.path_length, min_eq_left hd]

theorem leaf_length : ((b.path va).take (b.levels - 1)).length + 1 = b.levels := by
  rw [length_take_path levels_sub_lt.le, Nat.sub_add_cancel b.levels_pos]

section Leaf

variable (h : s.Tree b) (hwindow : ¬ b.InWindow va) (ht : s.tableAt b va (b.levels - 1) = some t)

section

include hwindow ht

theorem leaf_entry : Entry s.next (s.root b) b.recursiveIndex b.levels ((b.path va).take (b.levels - 1)) t
    ((b.path va).getLastD 0) := by
  rw [getLastD_path]
  exact entry_of_tableAt levels_sub_lt hwindow ht

include h

theorem Machine.Tree.write_leaf : (s.write t ((b.path va).getLastD 0) w).Tree b := by
  refine ⟨h.directory, ?_⟩
  show RecursiveTree (s.write t _ w).next (s.root b) _ _
  rw [Machine.next_write]
  exact (leaf_entry hwindow ht).setEntry_tree h.tree leaf_length

theorem tableAt_write_leaf (hd : d < b.levels) :
    (s.write t ((b.path va).getLastD 0) w).tableAt b va' d = s.tableAt b va' d := by
  show follow (s.write t _ w).next (s.root b) _ = _
  rw [Machine.next_write]
  exact (leaf_entry hwindow ht).setEntry_follow_leaf h.tree leaf_length
    ((List.length_take_le _ _).trans_lt hd)

theorem isTable_write_leaf : (s.write t ((b.path va).getLastD 0) w).IsTable b f ↔ s.IsTable b f := by
  show RadixTree.IsTable (s.write t _ w).next (s.root b) _ _ ↔ _
  rw [Machine.next_write]
  exact isTable_congr fun q hq => (leaf_entry hwindow ht).setEntry_follow_leaf h.tree leaf_length hq

end

include h hwindow ht

theorem lastEntry_write_leaf (hpage : va' / pageSize = va / pageSize) (hva' : b.InTree va') :
    (s.write t ((b.path va).getLastD 0) w).lastEntry b va' = some w := by
  have ht' : s.tableAt b va' (b.levels - 1) = some t := by
    rw [Machine.tableAt, path_of_page hpage, ← Machine.tableAt, ht]
  rw [lastEntry_eq (h.write_leaf hwindow ht) hva', tableAt_write_leaf h hwindow ht levels_sub_lt, ht',
    path_of_page hpage, Option.map_some, Machine.write_same]

theorem lastEntry_write_leaf_of_ne (hva : b.InTree va) (hpage : va' / pageSize ≠ va / pageSize)
    (hwindow' : ¬ b.InWindow va') :
    (s.write t ((b.path va).getLastD 0) w).lastEntry b va' = s.lastEntry b va' := by
  by_cases hva' : b.InTree va'
  · rw [lastEntry_eq (h.write_leaf hwindow ht) hva', lastEntry_eq h hva',
      tableAt_write_leaf h hwindow ht levels_sub_lt]
    cases ht' : s.tableAt b va' (b.levels - 1) with
    | none => rfl
    | some t' =>
        rw [Option.map_some, Option.map_some, Machine.write_of_ne]
        rintro ⟨rfl, hindex⟩
        have htake := h.table_unique levels_sub_lt levels_sub_lt hwindow' hwindow ht' ht
        refine hpage (Build.page_eq_of_path hva' hva ?_)
        rw [← (take_append_last : _ = b.path va'), htake, hindex, take_append_last]
  · rw [lastEntry_of_not (h.write_leaf hwindow ht) hva', lastEntry_of_not h hva']

theorem translate_write_leaf_of_ne (hva : b.InTree va) (hpage : va' / pageSize ≠ va / pageSize) :
    (s.write t ((b.path va).getLastD 0) w).translate b va' = s.translate b va' := by
  by_cases hva' : b.InTree va'
  · rw [h.translate_eq hva', (h.write_leaf hwindow ht).translate_eq hva']
    show follow (s.write t _ w).next (s.root b) _ = _
    rw [Machine.next_write]
    refine (leaf_entry hwindow ht).follow_setEntry h.tree b.path_length.le fun hprefix => hpage ?_
    rw [take_append_last] at hprefix
    have hstrip : strip b.recursiveIndex (b.path va') <:+ b.path va' := List.dropWhile_suffix _
    have hlength := hprefix.length_le
    rw [Build.path_length] at hlength
    have hfull : strip b.recursiveIndex (b.path va') = b.path va' :=
      hstrip.eq_of_length_le (by rwa [Build.path_length])
    rw [hfull] at hprefix
    exact Build.page_eq_of_path hva' hva
      (List.IsPrefix.eq_of_length hprefix (by rw [Build.path_length, Build.path_length])).symm
  · rw [h.translate_of_not hva', (h.write_leaf hwindow ht).translate_of_not hva']

end Leaf

/-! ### New tables -/

theorem tableAt_succ_none (hd : d + 1 < b.levels) (ht : s.tableAt b va d = some t)
    (hempty : ¬ Present (s.mem t ((b.path va).getD d 0))) : s.tableAt b va (d + 1) = none := by
  rw [tableAt_succ (Nat.lt_of_succ_lt hd), ht, Option.bind_some, Machine.next, entryFrame_of_not hempty]

section Link

variable (h : s.Tree b) (hva : b.InTree va) (hwindow : ¬ b.InWindow va) (hd : d + 1 < b.levels)
  (ht : s.tableAt b va d = some t) (hempty : ¬ Present (s.mem t ((b.path va).getD d 0)))
  (hg : ¬ s.IsTable b g) (hw : entryFrame w = some g)

include h hva hwindow hd ht hw in
/-- A linked table can be reached through its window, whatever it holds. -/
theorem translate_write_link :
    (s.write t ((b.path va).getD d 0) w).translate b (b.tableVa (b.levels - d) va) = some g := by
  have hentry := entry_of_tableAt (Nat.lt_of_succ_lt hd) hwindow ht
  have hdirectory : (s.write t ((b.path va).getD d 0) w).KernelDirectory b := h.directory
  rw [hdirectory.translate (Build.inTree_tableVa hd hva)]
  show follow (s.write t _ w).next (s.root b) _ = _
  rw [Machine.next_write, hw]
  refine hentry.follow_setEntry_same h.tree ?_
  rw [Build.path_tableVa hd hva, strip_replicate, take_succ_path (Nat.lt_of_succ_lt hd)]
  exact hentry.strip

include hd ht hg hw

theorem next_linked :
    ((s.write t ((b.path va).getD d 0) w).zero g).next = link s.next t ((b.path va).getD d 0) g :=
  Machine.next_link hw fun heq => hg (heq ▸ tableAt_isTable (Nat.lt_of_succ_lt hd) ht)

include h hwindow

theorem tableAt_linked_same :
    ((s.write t ((b.path va).getD d 0) w).zero g).tableAt b va (d + 1) = some g := by
  show follow ((s.write t _ w).zero g).next (s.root b) _ = _
  rw [next_linked hd ht hg hw, take_succ_path (Nat.lt_of_succ_lt hd)]
  exact (entry_of_tableAt (Nat.lt_of_succ_lt hd) hwindow ht).follow_link_same h.tree hg
    (entry_of_tableAt (Nat.lt_of_succ_lt hd) hwindow ht).strip

include hempty

theorem Machine.Tree.linked : ((s.write t ((b.path va).getD d 0) w).zero g).Tree b := by
  refine ⟨h.directory, ?_⟩
  show RecursiveTree ((s.write t _ w).zero g).next (s.root b) _ _
  rw [next_linked hd ht hg hw]
  exact (entry_of_tableAt (Nat.lt_of_succ_lt hd) hwindow ht).link_tree h.tree
    (entryFrame_of_not hempty) hg

theorem isTable_linked :
    ((s.write t ((b.path va).getD d 0) w).zero g).IsTable b f ↔ s.IsTable b f ∨ f = g := by
  show RadixTree.IsTable ((s.write t _ w).zero g).next (s.root b) _ _ ↔ _
  rw [next_linked hd ht hg hw]
  refine (entry_of_tableAt (Nat.lt_of_succ_lt hd) hwindow ht).isTable_link h.tree
    (entryFrame_of_not hempty) hg ?_
  rwa [length_take_path (Nat.lt_of_succ_lt hd).le]

/-- Whatever could be reached is reached as before. -/
theorem tableAt_linked {e : Nat} (he : e ≤ b.levels)
    (hne : strip b.recursiveIndex ((b.path va').take e) ≠ (b.path va).take (d + 1)) :
    ((s.write t ((b.path va).getD d 0) w).zero g).tableAt b va' e = s.tableAt b va' e := by
  show follow ((s.write t _ w).zero g).next (s.root b) _ = _
  rw [next_linked hd ht hg hw]
  refine (entry_of_tableAt (Nat.lt_of_succ_lt hd) hwindow ht).follow_link h.tree
    (entryFrame_of_not hempty) hg ?_ ?_
  · rwa [length_take_path he]
  · rwa [take_succ_path (Nat.lt_of_succ_lt hd)] at hne

theorem translate_linked_mono (hf : s.translate b va' = some f) :
    ((s.write t ((b.path va).getD d 0) w).zero g).translate b va' = some f := by
  have hva' := h.translate_inTree hf
  rw [h.translate_eq_tableAt hva'] at hf
  rw [(h.linked hwindow hd ht hempty hg hw).translate_eq_tableAt hva',
    tableAt_linked h hwindow hd ht hempty hg hw le_rfl, hf]
  intro heq
  have hnone := tableAt_succ_none hd ht hempty
  rw [Machine.tableAt, ← heq, follow_strip h.tree.recursive, ← Machine.tableAt, hf] at hnone
  cases hnone

/-- No other entry of the last level changes; those of a new last-level table are empty. -/
theorem lastEntry_linked (hwindow' : ¬ b.InWindow va') :
    ((s.write t ((b.path va).getD d 0) w).zero g).lastEntry b va' = s.lastEntry b va' ∨
      s.lastEntry b va' = none ∧
        ((s.write t ((b.path va).getD d 0) w).zero g).lastEntry b va' = some 0 := by
  have htree := h.linked hwindow hd ht hempty hg hw
  by_cases hva' : b.InTree va'
  · rw [lastEntry_eq htree hva', lastEntry_eq h hva']
    have hhead : ((b.path va').take (b.levels - 1)).head? ≠ some b.recursiveIndex := by
      cases b <;> exact hwindow'
    by_cases heq : (b.path va').take (b.levels - 1) = (b.path va).take (d + 1)
    · have hnew : ((s.write t ((b.path va).getD d 0) w).zero g).tableAt b va' (b.levels - 1) = some g := by
        rw [Machine.tableAt, heq, ← Machine.tableAt, tableAt_linked_same h hwindow hd ht hg hw]
      have hold : s.tableAt b va' (b.levels - 1) = none := by
        rw [Machine.tableAt, heq, ← Machine.tableAt, tableAt_succ_none hd ht hempty]
      rw [hnew, hold, Option.map_some, Machine.zero_same]
      exact Or.inr ⟨rfl, rfl⟩
    · rw [tableAt_linked h hwindow hd ht hempty hg hw levels_sub_lt.le (by rwa [strip_of_head hhead])]
      refine Or.inl ?_
      cases ht' : s.tableAt b va' (b.levels - 1) with
      | none => rfl
      | some t' =>
          have hgt : t' ≠ g := fun heq => hg (heq ▸ tableAt_isTable levels_sub_lt ht')
          rw [Option.map_some, Option.map_some, Machine.zero_of_ne hgt, Machine.write_of_ne]
          rintro ⟨rfl, -⟩
          have htake := h.table_unique levels_sub_lt (Nat.lt_of_succ_lt hd) hwindow' hwindow ht' ht
          have hlength := congrArg List.length htake
          rw [length_take_path levels_sub_lt.le, length_take_path (Nat.lt_of_succ_lt hd).le] at hlength
          omega
  · rw [lastEntry_of_not htree hva', lastEntry_of_not h hva']
    exact Or.inl rfl

end Link

end Kiznix.Memory
