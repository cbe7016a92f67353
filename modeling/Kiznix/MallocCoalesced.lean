import Kiznix.MallocStored

/-! Free chunks as the links in memory lead to them, and the boundary tags that they have. -/

namespace Kiznix.Malloc

open ByteMemory BlockRow LinkedTrie
open Switch (Arch)

variable {a : Arch} {m : State} {row : List (Block Kind)} {bins : Bins} {F : Nat → Nat → Prop} {q n i : Nat}

/-! ### Chunks of the bins -/

/-- The links of a small bin that is not empty lead to the chunk. -/
def State.InSmallbin (a : Arch) (m : State) (i q : Nat) : Prop :=
  m.smallmap.getLsbD i = true ∧ Follows (links (m.get a)) (m.smallbinAt a i) q

/-- The links of a tree that is not empty lead to the chunk. -/
def State.InTreebin (a : Arch) (m : State) (i q : Nat) : Prop :=
  m.treemap.getLsbD i = true ∧ Reaches (links (m.get a)) 0 (m.get a (m.treebinAt a i) .root) q

/-- A chunk that is free: in a bin, or the designated victim. -/
def State.Free (a : Arch) (m : State) (q n : Nat) : Prop :=
  (n = chunksize (m.head a q) ∧ ∃ i, m.InSmallbin a i q ∨ m.InTreebin a i q) ∨ (q = m.dv ∧ n = m.dvsize ∧ n ≠ 0)

theorem Filed.inSmallbin (h : Filed a m bins F) : m.InSmallbin a i q ↔ q ∈ bins.smallbins i := by
  have hmap : m.smallmap.getLsbD i = true ↔ bins.smallbins i ≠ [] := h.binned.smallmap ▸ h.ok.small_map i
  rw [State.InSmallbin, hmap]
  by_cases hne : bins.smallbins i = []
  · rw [hne]
    exact iff_of_false (fun hin => hin.1 rfl) List.not_mem_nil
  · have hring := h.binned.linked.small i hne
    exact (and_iff_right hne).trans (hring.follows (h.small_nodup (h.ok.small_lt hne)))

theorem Filed.inTreebin (h : Filed a m bins F) : m.InTreebin a i q ↔ q ∈ nodes (bins.treebins i) := by
  have hmap : m.treemap.getLsbD i = true ↔ bins.treebins i ≠ .nil := h.binned.treemap ▸ h.ok.tree_map i
  rw [State.InTreebin, hmap]
  by_cases hne : bins.treebins i = .nil
  · rw [hne]
    exact iff_of_false (fun hin => hin.1 rfl) List.not_mem_nil
  · have hhangs := h.binned.linked.tree i (h.ok.tree_lt hne)
    exact (and_iff_right hne).trans (hhangs.reaches h.zero_notMem)

/-- The free chunks of the row are those that the links lead to, and the designated victim. -/
theorem Inv.free_iff (h : Inv a m row) : m.Free a q n ↔ FreeIn row q n := by
  obtain ⟨bins, hstocked, hbinned⟩ := h.stored
  have hfiled := h.filed hstocked hbinned fun _ _ => id
  simp only [State.Free, hfiled.inSmallbin, hfiled.inTreebin]
  have hsize : ∀ {t}, bins.Holds q t → n = chunksize (m.head a q) → FreeIn row q n := fun hheld hn => by
    have hfree := ((hstocked.holds _ _).mp hheld).1
    rwa [hn, h.free_size hfree]
  constructor
  · rintro (⟨hn, i, hsmall | htree⟩ | ⟨rfl, rfl, hne⟩)
    · exact hsize (hstocked.ok.small_holds hsmall).1 hn
    · obtain ⟨t, hheld, -⟩ := hstocked.ok.tree_holds htree
      exact hsize hheld hn
    · exact hstocked.victim hne
  · intro hfree
    by_cases hdv : q = m.dv
    · subst hdv
      exact Or.inr ⟨rfl, hstocked.dv_eq hfree, (h.free_chunk hfree).2.1⟩
    · have hbin := ((hstocked.holds q n).mpr ⟨hfree, hdv⟩).bin
      refine Or.inl ⟨(h.free_size hfree).symm, ?_⟩
      split at hbin
      · exact ⟨_, Or.inl hbin⟩
      · exact ⟨_, Or.inr hbin⟩

/-! ### Boundary tags -/

/-- The boundary tags of a free chunk of `n` bytes at `q`: its size at both ends, and chunks in use on both sides. -/
structure State.Bordered (a : Arch) (m : State) (q n : Nat) : Prop where
  head : m.head a q = n + pinuseBit
  foot : m.prevFoot a (q + n) = n
  next : cinuse (m.head a (q + n)) = true ∧ pinuse (m.head a (q + n)) = false
  aligned : q % mallocAlignment a = 0 ∧ n % mallocAlignment a = 0
  min : minChunkSize a ≤ n

theorem Layout.bordered (h : Layout a m row) (hfree : FreeIn row q n) : m.Bordered a q n := by
  obtain ⟨kind, hk⟩ := hfree
  obtain ⟨pre, ⟨c, t⟩, post, rfl, rfl, rfl, hbefore, hgap⟩ := h.laid.next hk (Or.inr rfl)
  have htag := h.laid.tagged hk
  have hused := used_of_before hbefore
  have hnext : After (pre ++ ([⟨.free, n⟩, ⟨c, t⟩] ++ post)) .free (total pre + n) ⟨c, t⟩ :=
    after_around.mpr (Or.inr (Or.inr (Or.inl ⟨rfl, rfl, rfl⟩)))
  have htag' := h.laid.tagged hnext
  have ht8 : t % 8 = 0 := htag'.multiple hgap
  have hhead : m.head a (total pre + n) = t + 2 := by
    rw [← hused.facts.1]
    exact htag'.head hgap
  refine ⟨htag.head nofun, htag.foot rfl, ?_, ⟨(htag.place nofun).2, (htag.size nofun).2⟩, htag.min nofun nofun⟩
  rw [hhead]
  exact ⟨decide_eq_true (by omega), decide_eq_false (by omega)⟩

/-- A free chunk is not right behind another one. -/
theorem State.Bordered.not_behind {q' n' : Nat} (h : m.Bordered a q n) (h' : m.Bordered a q' n') : q' ≠ q + n := by
  rintro rfl
  have hin := h.next.1
  have hword := word_cases a
  have haligned := h'.aligned.2
  rw [mallocAlignment] at haligned
  have h8 : n' % 8 = 0 := by
    obtain hw | hw := hword <;> rw [hw] at haligned <;> omega
  rw [h'.head, cinuse, pinuseBit] at hin
  exact absurd (of_decide_eq_true hin) (by omega)

/-- Between two free chunks there is a chunk in use. -/
theorem Layout.free_apart {q' n' : Nat} (h : Layout a m row) (hfree : FreeIn row q n) (hfree' : FreeIn row q' n') :
    q' = q ∨ q' + n' < q ∨ q + n < q' := by
  have hbehind := (h.bordered hfree).not_behind (h.bordered hfree')
  have hbefore := (h.bordered hfree').not_behind (h.bordered hfree)
  obtain ⟨k, hk⟩ := hfree
  obtain ⟨k', hk'⟩ := hfree'
  obtain ⟨-, heq, -⟩ | hlow | hhigh := hk.apart hk'
  · exact Or.inl heq.symm
  · dsimp only at hlow
    exact Or.inr (Or.inr (by omega))
  · dsimp only at hhigh
    exact Or.inr (Or.inl (by omega))

end Kiznix.Malloc
