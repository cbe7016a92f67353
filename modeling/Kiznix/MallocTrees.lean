import Kiznix.MallocLinks

/-! The tree bins in memory: chunks come into the trees and leave them as they do the tries. -/

namespace Kiznix.Malloc

open ByteMemory SizeTrie LinkedTrie
open Switch (Arch)

variable {a : Arch} {m m' : State} {gm p q s t n i j x y z v r : Nat} {f g : Field} {F F' : Nat → Nat → Prop}
  {H H' : Nat → Field → Nat} {bins bins' : Bins} {T : Trie Nat} {b right : Bool} {side : Option Bool}

/-- The tree bin `i`, and the chunks that are in no other bin. -/
def OfTree (a : Arch) (m : State) (bins : Bins) (F : Nat → Nat → Prop) (i x : Nat) : Prop :=
  x = m.treebinAt a i ∨ (∃ n, F x n) ∧ ∀ t, bins.Holds x t → isSmall t = false ∧ treeIndex t = i

/-- A tree has changed, and the links of its chunks. -/
theorem Linked.of_tree (h : Filed a m bins F) (hi : i < 32) (hsmall : bins'.smallbins = bins.smallbins)
    (htree : bins'.treebins = Function.update bins.treebins i T)
    (hhangs : Hangs (links H) 0 (m.treebinAt a i) (H (m.treebinAt a i) .root) T)
    (hindex : ∀ x ∈ nodes T, H x .index = i) (hsame : ∀ x f, ¬ OfTree a m bins F i x → H x f = m.get a x f) :
    Linked a m.gm bins' H where
  small j hj := by
    rw [hsmall] at hj ⊢
    refine ring_congr (h.binned.linked.small j hj) fun x hx => ?_
    have hlt := h.ok.small_lt hj
    have hout : ¬ OfTree a m bins F i x := by
      rintro (hbin | ⟨⟨n, hn⟩, hown⟩)
      · obtain rfl | hx := List.mem_cons.mp hx
        · rw [State.treebinAt, treebinsOffset] at hbin
          have hword := word_cases a
          generalize a.word = w at *
          obtain rfl | rfl := hword <;> omega
        · have hlt := h.spread.bins_lt (h.held _ _ (h.ok.small_holds hx).1) hi
          omega
      · obtain rfl | hx := List.mem_cons.mp hx
        · exact absurd (h.spread.bins_lt hn hlt).1 (lt_irrefl _)
        · obtain ⟨hheld, hlarge⟩ := h.ok.small_holds hx
          rw [(hown _ hheld).1] at hlarge
          cases hlarge
    exact ⟨hsame x .fd hout, hsame x .bk hout⟩
  tree j hj := by
    rw [htree, Function.update_apply]
    split
    · next heq =>
        subst heq
        exact hhangs
    · next hne =>
        have hroot : ¬ OfTree a m bins F i (m.treebinAt a j) := by
          rintro (hbin | ⟨⟨n, hn⟩, -⟩)
          · rw [State.treebinAt, State.treebinAt] at hbin
            have hword := word_cases a
            generalize a.word = w at *
            obtain rfl | rfl := hword <;> omega
          · exact absurd (h.spread.bins_lt hn hj).2.1 (lt_irrefl _)
        have hptr : H (m.gm + treebinsOffset a + j * a.word) .root = m.get a (m.treebinAt a j) .root :=
          hsame _ .root hroot
        rw [hptr]
        refine (h.binned.linked.tree j hj).congr fun x hx => ?_
        obtain ⟨t, hheld, -, hindex⟩ := h.ok.tree_holds hx
        have hout : ¬ OfTree a m bins F i x := by
          rintro (hbin | ⟨-, hown⟩)
          · have hlt := h.spread.bins_lt (h.held _ _ hheld) hi
            omega
          · exact hne (hindex.symm.trans (hown t hheld).2)
        exact ⟨hsame x .fd hout, hsame x .bk hout, hsame x .parent hout, fun b => hsame x (.child b) hout⟩
  index j x hx := by
    rw [htree, Function.update_apply] at hx
    split at hx
    · next heq => exact heq ▸ hindex x hx
    · next hne =>
        obtain ⟨t, hheld, -, hindex⟩ := h.ok.tree_holds hx
        rw [hsame x .index]
        · exact h.binned.linked.index j x hx
        · rintro (hbin | ⟨-, hown⟩)
          · have hlt := h.spread.bins_lt (h.held _ _ hheld) hi
            omega
          · exact hne (hindex.symm.trans (hown t hheld).2)

/-- The chunks of a tree have all the links. -/
theorem Filed.treeLink (h : Filed a m bins F) (hx : x ∈ nodes (bins.treebins i)) (hf : f ≠ .root) :
    Linkable a m.gm F x f := by
  obtain ⟨t, hheld, hlarge, -⟩ := h.ok.tree_holds hx
  have hF := h.held _ _ hheld
  cases f with
  | root => exact absurd rfl hf
  | fd => exact Or.inr ⟨t, hF⟩
  | bk => exact Or.inr ⟨t, hF⟩
  | child b => exact ⟨t, hF, hlarge⟩
  | parent => exact ⟨t, hF, hlarge⟩
  | index => exact ⟨t, hF, hlarge⟩

theorem Filed.ofTree (h : Filed a m bins F) (hx : x ∈ nodes (bins.treebins i)) : OfTree a m bins F i x := by
  obtain ⟨t, hheld, hlarge, hindex⟩ := h.ok.tree_holds hx
  refine Or.inr ⟨⟨t, h.held _ _ hheld⟩, fun t' ht' => ?_⟩
  rw [h.spread.unique (h.held _ _ ht') (h.held _ _ hheld)]
  exact ⟨hlarge, hindex⟩

/-- The chunks of a tree are above the bins, and in the address space. -/
theorem Filed.tree_spread (h : Filed a m bins F) (hx : x ∈ nodes (bins.treebins i)) :
    m.treebinAt a i < x ∧ 0 < x ∧ x < 256 ^ a.word ∧ m.okAddress x = true := by
  obtain ⟨t, hheld, -, hindex⟩ := h.ok.tree_holds hx
  have hF := h.held _ _ hheld
  have hlt := h.spread.bins_lt hF (hindex ▸ Bins.treeIndex_lt)
  exact ⟨hlt.2.1, hlt.2.2.1, h.spread.lt hF, h.spread.okAddress hF⟩

theorem Filed.zero_notMem (h : Filed a m bins F) : 0 ∉ nodes (bins.treebins i) := fun hx =>
  lt_irrefl _ (h.tree_spread hx).2.1

theorem Filed.treebin_notMem (h : Filed a m bins F) : m.treebinAt a i ∉ nodes (bins.treebins i) := fun hx =>
  lt_irrefl _ (h.tree_spread hx).1

/-- There are fewer chunks in a tree than addresses. -/
theorem Filed.length_lt (h : Filed a m bins F) : (nodes (bins.treebins i)).length < 2 ^ a.bits := by
  have hsub : 0 :: nodes (bins.treebins i) ⊆ List.range (2 ^ a.bits) := by
    intro x hx
    rw [List.mem_range]
    obtain rfl | hx := List.mem_cons.mp hx
    · exact Nat.two_pow_pos _
    · exact pow_bits a ▸ (h.tree_spread hx).2.2.1
  have hnodup := List.nodup_cons.mpr ⟨h.zero_notMem, h.ok.tree_nodes_nodup i⟩
  have hle := (hnodup.subperm hsub).length_le
  rwa [List.length_range] at hle

/-! ### A chunk comes into a tree -/

/-- `x` comes in behind `y`, or as a child of `y`. -/
def State.enter (a : Arch) (m : State) (x y : Nat) : Option Bool → State
  | some b => (((m.put a y (.child b) x).put a x .parent y).put a x .bk x).put a x .fd x
  | none => ((((m.put a (m.get a y .fd) .bk x).put a y .fd x).put a x .fd (m.get a y .fd)).put a x .bk y).put a x .parent 0

theorem insertLoop_eq {H : Pointers Nat} (hH : H = links (m.get a)) (h : Hangs H 0 q p T) (hT : T ≠ .nil)
    (hnull : 0 ∉ nodes T) (hokay : ∀ y ∈ nodes T, m.okAddress y = true)
    (hsize : ∀ y ∈ T.items, chunksize (m.head a y.1) = y.2) {fuel : Nat} (hfuel : (nodes T).length ≤ fuel)
    (k : BitVec a.bits) :
    ∃ y side, place s k T = some (y, side) ∧ insertLoop a m x s fuel k p = some (m.enter a x y side) := by
  induction T generalizing q p fuel k with
  | nil => exact absurd rfl hT
  | node t first others left right ihl ihr =>
      obtain ⟨rfl, -, hring, -, hleft, hright⟩ := h
      cases fuel with
      | zero => exact absurd hfuel (by simp [nodes])
      | succ fuel =>
          have hhead : chunksize (m.head a p) = t := hsize (p, t) List.mem_cons_self
          have hlength : (nodes left).length ≤ fuel ∧ (nodes right).length ≤ fuel := by
            simp only [nodes, List.length_cons, List.length_append] at hfuel
            omega
          have hlow : ∀ y ∈ nodes left, y ∈ nodes (.node t p others left right) := fun y hy =>
            List.mem_cons_of_mem _ (List.mem_append_right _ (List.mem_append_left _ hy))
          have hhigh : ∀ y ∈ nodes right, y ∈ nodes (.node t p others left right) := fun y hy =>
            List.mem_cons_of_mem _ (List.mem_append_right _ (List.mem_append_right _ hy))
          have hokp : m.okAddress p = true := hokay p List.mem_cons_self
          rw [insertLoop, place, hhead]
          by_cases heq : t = s
          · rw [if_pos heq, if_neg (not_not.mpr heq)]
            have hnext : m.get a p .fd ∈ nodes (.node t p others left right) := by
              have hin := hring.next_mem
              rw [hH] at hin
              obtain hin | hin := List.mem_append.mp hin
              · exact List.mem_cons_of_mem _ (List.mem_append_left _ hin)
              · have hself : m.get a p .fd = p := List.mem_singleton.mp hin
                rw [hself]
                exact List.mem_cons_self
            exact ⟨p, none, rfl, if_pos ⟨hokp, hokay _ hnext⟩⟩
          · rw [if_neg heq, if_pos heq]
            -- The way goes on in a child, or the chunk becomes one.
            have hdown : ∀ b C, Hangs H 0 p (H.child b p) C → (∀ y ∈ nodes C, y ∈ nodes (.node t p others left right)) →
                (C ≠ .nil → 0 ∉ nodes C → ∃ y side, place s (k <<< 1) C = some (y, side) ∧
                  insertLoop a m x s fuel (k <<< 1) (H.child b p) = some (m.enter a x y side)) →
                ∃ y side, (place s (k <<< 1) C).or (some (p, some b)) = some (y, side) ∧
                  (if m.get a p (.child b) ≠ 0 then insertLoop a m x s fuel (k <<< 1) (m.get a p (.child b))
                  else if m.okAddress (p + (Field.child b).offset a) then some (m.enter a x p (some b)) else none) =
                    some (m.enter a x y side) := by
              intro b C hC hmem hloop
              have hslot : H.child b p = m.get a p (.child b) := by
                rw [hH]
                rfl
              have hnullC : 0 ∉ nodes C := fun hin => hnull (hmem _ hin)
              rw [← hslot]
              by_cases hne : C = .nil
              · subst hne
                have hfree : m.okAddress (p + (Field.child b).offset a) = true := by
                  rw [State.okAddress, decide_eq_true_iff] at hokp ⊢
                  omega
                rw [hC, if_neg (not_not.mpr rfl), if_pos hfree]
                exact ⟨p, some b, rfl, rfl⟩
              · obtain ⟨y, side, hplace, hloop⟩ := hloop hne hnullC
                rw [if_pos fun hzero => hne ((hC.eq_nil_iff hnullC).mpr hzero)]
                exact ⟨y, side, by rw [hplace]; rfl, hloop⟩
            cases hk : k.msb with
            | true =>
                exact hdown true right hright hhigh fun hsome hnullC => ihr hright hsome hnullC
                  (fun y hy => hokay y (hhigh y hy)) (fun y hy => hsize y (List.mem_cons_of_mem _
                    (List.mem_append_right _ (List.mem_append_right _ hy)))) hlength.2 (k <<< 1)
            | false =>
                exact hdown false left hleft hlow fun hsome hnullC => ihl hleft hsome hnullC
                  (fun y hy => hokay y (hlow y hy)) (fun y hy => hsize y (List.mem_cons_of_mem _
                    (List.mem_append_right _ (List.mem_append_left _ hy)))) hlength.1 (k <<< 1)

/-- The links when `x` has come in. -/
def entered (H : Nat → Field → Nat) (x y : Nat) : Option Bool → Nat → Field → Nat
  | some b => update (update (update (update H y (.child b) x) x .parent y) x .bk x) x .fd x
  | none => update (update (update (update (update H (H y .fd) .bk x) y .fd x) x .fd (H y .fd)) x .bk y) x .parent 0

theorem entered_links (hH : ∀ b, H x (.child b) = 0) (hx : x ∉ nodes T) (hy : y ∈ nodes T) :
    Entered (links H) (links (entered H x y side)) 0 x y side T := by
  have hne : ∀ z ∈ nodes T, z ≠ x := fun z hz heq => hx (heq ▸ hz)
  have hxy := (hne y hy).symm
  cases side with
  | none =>
      refine ⟨fun b => ?_, fun hne => absurd rfl hne, fun _ => ?_, fun z hz => ?_, fun z hz => ?_, fun z hz => ?_,
        fun z hz b => ?_⟩
      · simp [links, entered, update, hH]
      · simp [links, entered, update]
      · simp [links, entered, update, hne z hz]
      · simp [links, entered, update, hne z hz]
      · simp [links, entered, update, hne z hz]
      · simp [links, entered, update]
  | some b' =>
      refine ⟨fun b => ?_, fun _ => ?_, by simp, fun z hz => ?_, fun z hz => ?_, fun z hz => ?_, fun z hz b => ?_⟩
      · simp [links, entered, update, hH, hxy]
      · simp [links, entered, update]
      · simp [links, entered, update, hne z hz]
      · simp [links, entered, update, hne z hz]
      · simp [links, entered, update, hne z hz]
      · simp [links, entered, update, and_comm, eq_comm]

/-- What comes in changes only links in the tree. -/
theorem entered_of_ne (hzx : z ≠ x) (hzy : z ≠ y) (hz : side = none → z ≠ H y .fd) :
    entered H x y side z f = H z f := by
  cases side with
  | none => simp [entered, update, hzx, hzy, hz rfl]
  | some b => simp [entered, update, hzx, hzy]

theorem entered_index : entered H x y side z .index = H z .index ∧ entered H x y side z .root = H z .root := by
  cases side <;> simp [entered, update]

theorem Writes.enter (h : Writes a F m m' H) (hspread : Spread a m F)
    (hx : ∀ f, f ≠ .root → Linkable a m.gm F x f) (hy : ∀ f, f ≠ .root → Linkable a m.gm F y f)
    (hnext : side = none → Linkable a m.gm F (H y .fd) .bk) (hxlt : x < 256 ^ a.word) (hylt : y < 256 ^ a.word)
    (hlt : H y .fd < 256 ^ a.word) : Writes a F m (m'.enter a x y side) (entered H x y side) := by
  cases side with
  | none =>
      rw [State.enter, entered, h.shows y .fd (hy .fd nofun)]
      exact ((((h.put hspread (hnext rfl) hxlt).put hspread (hy .fd nofun) hxlt).put hspread (hx .fd nofun) hlt).put
        hspread (hx .bk nofun) hylt).put hspread (hx .parent nofun) (Nat.pow_pos (by decide))
  | some b =>
      exact (((h.put hspread (hy (.child b) nofun) hxlt).put hspread (hx .parent nofun) hylt).put hspread
        (hx .bk nofun) hxlt).put hspread (hx .fd nofun) hxlt

theorem Bins.treeIndex_lt_word (a : Arch) : treeIndex s < 256 ^ Field.index.size a :=
  Bins.treeIndex_lt.trans (show 32 < 256 ^ 4 by decide)

theorem Linkable.of_large {gm : Nat} (hp : F p s) (hs : isSmall s = false) (hf : f ≠ .root) : Linkable a gm F p f := by
  cases f with
  | root => exact absurd rfl hf
  | fd => exact Or.inr ⟨s, hp⟩
  | bk => exact Or.inr ⟨s, hp⟩
  | child b => exact ⟨s, hp, hs⟩
  | parent => exact ⟨s, hp, hs⟩
  | index => exact ⟨s, hp, hs⟩

/-- A chunk that comes into a tree has its index and no children. -/
structure Sprouted (a : Arch) (m : State) (p s : Nat) (H : Nat → Field → Nat) : Prop where
  rest : ∀ z f, z ≠ p → H z f = m.get a z f
  child : ∀ b, H p (.child b) = 0
  index : H p .index = treeIndex s
  root : ∀ z, H z .root = m.get a z .root

theorem Spread.sprout (h : Spread a m F) (hp : F p s) (hs : isSmall s = false) :
    ∃ H, Writes a F m (((m.put a p .index (treeIndex s)).put a p (.child true) 0).put a p (.child false) 0) H ∧
      Sprouted a m p s H := by
  have hpos : 0 < 256 ^ a.word := Nat.pow_pos (by decide)
  have hlink : ∀ f, f ≠ .root → Linkable a m.gm F p f := fun f hf => .of_large hp hs hf
  have hindex := (Writes.refl (m := m)).put h (hlink .index (by simp)) (Bins.treeIndex_lt_word a (s := s))
  refine ⟨_, (hindex.put h (hlink (.child true) (by simp)) hpos).put h (hlink (.child false) (by simp)) hpos,
    fun z f hz => ?_, fun b => ?_, ?_, fun z => ?_⟩
  · simp [update, hz]
  · cases b <;> simp [update]
  · simp [update]
  · simp [update]

/-- A chunk becomes the root of an empty tree. -/
theorem Filed.plantTree {m₁ m' : State} (h : Filed a m bins F) (hs : isSmall s = false) (hp : F p s)
    (hnew : ∀ t, ¬ bins.Holds p t) (hwrites : Writes a F m m₁ H) (hH : Sprouted a m p s H)
    (hmap : m₁.smallmap = m.smallmap) (hnone : ¬ m.treemap.getLsbD (treeIndex s) = true)
    (hm' : m' = ((((({ m₁ with treemap := m.treemap ||| idx2bit (treeIndex s) } : State).put a
      (m.treebinAt a (treeIndex s)) .root p).put a p .parent (m.treebinAt a (treeIndex s))).put a p .bk p).put a
      p .fd p)) : Filed a m' (bins.insertLargeChunk a p s) F ∧ BinStep a F m m' := by
  obtain ⟨hok, hholds⟩ := h.ok.insertLargeChunk (a := a) hs hnew
  have hheld : ∀ q n, (bins.insertLargeChunk a p s).Holds q n → F q n := fun q n hq =>
    ((hholds q n).mp hq).elim (h.held q n) fun heq => heq.1 ▸ heq.2 ▸ hp
  have hsmall := Bins.insertLargeChunk_small (a := a) (b := bins) (p := p) (s := s)
  have hi : treeIndex s < 32 := Bins.treeIndex_lt
  have hlt := h.spread.bins_lt hp hi
  have hplt := h.spread.lt hp
  have hown : OfTree a m bins F (treeIndex s) p := Or.inr ⟨⟨s, hp⟩, fun t ht => absurd ht (hnew t)⟩
  have hlink : ∀ f, f ≠ .root → Linkable a m.gm F p f := fun f hf => .of_large hp hs hf
  have hroot : Linkable a m.gm F (m.treebinAt a (treeIndex s)) .root := ⟨_, hi, rfl⟩
  have hend := ((((hwrites.map m₁.smallmap (m.treemap ||| idx2bit (treeIndex s))).put h.spread hroot hplt).put
    h.spread (hlink .parent (by simp)) hlt.2.2.2.2).put h.spread (hlink .bk (by simp)) hplt).put h.spread
    (hlink .fd (by simp)) hplt
  subst hm'
  have hbins : (bins.insertLargeChunk a p s).treebins = Function.update bins.treebins (treeIndex s)
      (.node s p [] .nil .nil) := by
    rw [Bins.insertLargeChunk, if_neg (by rwa [← h.binned.treemap])]
  refine ⟨hend.filed h.spread hok hheld ?_ ?_ ?_, hend.step⟩
  · refine Linked.of_tree (T := .node s p [] .nil .nil) h hi hsmall.1 hbins ?_ ?_ ?_
    · refine ⟨?_, ?_, ⟨?_, ?_⟩, by simp, ?_, ?_⟩ <;> simp [links, update, hH.child, Hangs]
    · intro x hx
      obtain rfl := List.mem_singleton.mp hx
      simpa [update] using hH.index
    · intro x f hx
      have hxp : x ≠ p := fun heq => hx (heq ▸ hown)
      have hxb : x ≠ m.treebinAt a (treeIndex s) := fun heq => hx (Or.inl heq)
      simp [update, hxp, hxb, hH.rest]
  · exact hmap.trans (h.binned.smallmap.trans hsmall.2.symm)
  · rw [Bins.insertLargeChunk, if_neg (by rwa [← h.binned.treemap]), ← h.binned.treemap]
    rfl

/-- A chunk comes into a tree that has chunks, where the loop finds its place. -/
theorem Filed.growTree {m₁ : State} (h : Filed a m bins F) (hs : isSmall s = false) (hp : F p s)
    (hnew : ∀ t, ¬ bins.Holds p t) (hsize : ∀ q n, bins.Holds q n → chunksize (m.head a q) = n)
    (hwrites : Writes a F m m₁ H) (hH : Sprouted a m p s H)
    (hmap : m₁.treemap = m.treemap ∧ m₁.smallmap = m.smallmap) (hsome : m.treemap.getLsbD (treeIndex s) = true) :
    ∃ m', insertLoop a m₁ p s (2 ^ a.bits) (treeKey a s) (m₁.get a (m.treebinAt a (treeIndex s)) .root) = some m' ∧
      Filed a m' (bins.insertLargeChunk a p s) F ∧ BinStep a F m m' := by
  obtain ⟨hok, hholds⟩ := h.ok.insertLargeChunk (a := a) hs hnew
  have hheld : ∀ q n, (bins.insertLargeChunk a p s).Holds q n → F q n := fun q n hq =>
    ((hholds q n).mp hq).elim (h.held q n) fun heq => heq.1 ▸ heq.2 ▸ hp
  have hsmall := Bins.insertLargeChunk_small (a := a) (b := bins) (p := p) (s := s)
  have hi : treeIndex s < 32 := Bins.treeIndex_lt
  have hown : OfTree a m bins F (treeIndex s) p := Or.inr ⟨⟨s, hp⟩, fun t ht => absurd ht (hnew t)⟩
  have hnot : p ∉ nodes (bins.treebins (treeIndex s)) := fun hin => by
    obtain ⟨t, hheld, -⟩ := h.ok.tree_holds hin
    exact hnew t hheld
  have hne : bins.treebins (treeIndex s) ≠ .nil := (h.ok.tree_map _).mp (h.binned.treemap ▸ hsome)
  have hhangs : Hangs (links (m.get a)) 0 (m.treebinAt a (treeIndex s)) (m.get a (m.treebinAt a (treeIndex s)) .root)
      (bins.treebins (treeIndex s)) := h.binned.linked.tree _ hi
  have hptr : m₁.get a (m.treebinAt a (treeIndex s)) .root = m.get a (m.treebinAt a (treeIndex s)) .root :=
    calc m₁.get a (m.treebinAt a (treeIndex s)) .root
      _ = H (m.treebinAt a (treeIndex s)) .root := hwrites.shows _ .root ⟨_, hi, rfl⟩
      _ = m.get a (m.treebinAt a (treeIndex s)) .root := hH.root _
  have hnenode : ∀ z ∈ nodes (bins.treebins (treeIndex s)), z ≠ p := fun z hz heq => hnot (heq ▸ hz)
  have hsame : ∀ z ∈ nodes (bins.treebins (treeIndex s)), ∀ f, f ≠ .root → m₁.get a z f = m.get a z f :=
    fun z hz f hf => calc m₁.get a z f
      _ = H z f := hwrites.shows z f (h.treeLink hz hf)
      _ = m.get a z f := hH.rest z f (hnenode z hz)
  have hsizes : ∀ z ∈ (bins.treebins (treeIndex s)).items, chunksize (m₁.head a z.1) = z.2 := fun z hz => by
    obtain ⟨hindex, hlarge⟩ := h.ok.tree_index _ z hz
    have hholdz : bins.Holds z.1 z.2 := (Bins.holds_large hlarge).mpr (hindex ▸ hz)
    rw [hwrites.step.head h.spread (h.held _ _ hholdz)]
    exact hsize _ _ hholdz
  have hhangs₁ : Hangs (links (m₁.get a)) 0 _ (m.get a (m.treebinAt a (treeIndex s)) .root)
      (bins.treebins (treeIndex s)) :=
    hhangs.congr fun z hz => ⟨hsame z hz .fd (by simp), hsame z hz .bk (by simp), hsame z hz .parent (by simp),
      fun b => hsame z hz (.child b) (by simp)⟩
  obtain ⟨y, side, hplace, hloop⟩ := insertLoop_eq (m := m₁) (x := p) (s := s) rfl hhangs₁ hne h.zero_notMem
    (fun z hz => hwrites.step.okAddress.trans (h.tree_spread hz).2.2.2) hsizes h.length_lt.le (treeKey a s)
  rw [hptr, hloop]
  have hy : y ∈ nodes (bins.treebins (treeIndex s)) := by
    obtain ⟨_, _, _, _, hfind, -⟩ := insert_eq_subst (x := p) (h.ok.tree_nodes_nodup _) hplace
    exact (find_nodes hfind).2 y (find_nodes hfind).1
  have hynext : (links (m.get a)).next y ∈ nodes (bins.treebins (treeIndex s)) := (hhangs.ring_mem hy).1.1
  have hHnext : H y .fd = m.get a y .fd := hH.rest y .fd (hnenode y hy)
  have hend : Writes a F m (m₁.enter a p y side) (entered H p y side) :=
    hwrites.enter h.spread (fun _ hf => .of_large hp hs hf) (fun f => h.treeLink hy)
      (fun _ => hHnext ▸ h.treeLink hynext (by simp)) (h.spread.lt hp) (h.tree_spread hy).2.2.1
      (hHnext ▸ (h.tree_spread hynext).2.2.1)
  have hlinked : Hangs (links (entered H p y side)) 0 (m.treebinAt a (treeIndex s))
      (m.get a (m.treebinAt a (treeIndex s)) .root) ((bins.treebins (treeIndex s)).insert p s (treeKey a s)) := by
    refine Hangs.insert (H := links H) (hhangs.congr fun z hz => ?_) (h.ok.tree_nodes_nodup _) h.zero_notMem hplace
      (entered_links hH.child hnot hy)
    have hz' := hnenode z hz
    exact ⟨hH.rest z .fd hz', hH.rest z .bk hz', hH.rest z .parent hz', fun b => hH.rest z (.child b) hz'⟩
  have hbins : (bins.insertLargeChunk a p s).treebins = Function.update bins.treebins (treeIndex s)
      ((bins.treebins (treeIndex s)).insert p s (treeKey a s)) := by
    rw [Bins.insertLargeChunk, if_pos (by rwa [← h.binned.treemap])]
  refine ⟨_, rfl, hend.filed h.spread hok hheld ?_ ?_ ?_, hend.step⟩
  · refine Linked.of_tree h hi hsmall.1 hbins ?_ (fun x hx => ?_) fun x f hx => ?_
    · rw [entered_index.2, hH.root]
      exact hlinked
    · rw [entered_index.1]
      rw [← items_nodes, (Trie.items_insert.map Prod.fst).mem_iff, List.map_cons, List.mem_cons, items_nodes] at hx
      obtain rfl | hx := hx
      · exact hH.index
      · rw [hH.rest x .index (hnenode x hx)]
        exact h.binned.linked.index _ x hx
    · have hxp : x ≠ p := fun heq => hx (heq ▸ hown)
      have hxy : x ≠ y := fun heq => hx (heq ▸ h.ofTree hy)
      have hxn : x ≠ H y .fd := fun heq => hx (heq ▸ hHnext ▸ h.ofTree hynext)
      rw [entered_of_ne hxp hxy fun _ => hxn, hH.rest x f hxp]
  · rw [show (m₁.enter a p y side).smallmap = m₁.smallmap by cases side <;> rfl, hmap.2, hsmall.2,
      h.binned.smallmap]
  · rw [show (m₁.enter a p y side).treemap = m₁.treemap by cases side <;> rfl, hmap.1, Bins.insertLargeChunk,
      if_pos (by rwa [← h.binned.treemap]), h.binned.treemap]

theorem insertLargeChunk_spec (h : Filed a m bins F) (hs : isSmall s = false) (hp : F p s)
    (hnew : ∀ t, ¬ bins.Holds p t) (hsize : ∀ q n, bins.Holds q n → chunksize (m.head a q) = n) :
    ∃ m', insertLargeChunk a m p s = some m' ∧ Filed a m' (bins.insertLargeChunk a p s) F ∧ BinStep a F m m' := by
  obtain ⟨H, hwrites, hH⟩ := h.spread.sprout hp hs
  have hmap : (((m.put a p .index (treeIndex s)).put a p (.child true) 0).put a p (.child false) 0).treemap = m.treemap ∧
      (((m.put a p .index (treeIndex s)).put a p (.child true) 0).put a p (.child false) 0).smallmap = m.smallmap :=
    ⟨rfl, rfl⟩
  rw [insertLargeChunk]
  generalize ((m.put a p .index (treeIndex s)).put a p (.child true) 0).put a p (.child false) 0 = m₁ at hwrites hmap ⊢
  show ∃ m', (if ¬ m₁.treemap.getLsbD (treeIndex s) then _ else _) = _ ∧ _
  rw [hmap.1]
  split
  · next hnone => exact ⟨_, rfl, h.plantTree hs hp hnew hwrites hH hmap.2 hnone rfl⟩
  · next hsome => exact h.growTree hs hp hnew hsize hwrites hH hmap (not_not.mp hsome)

/-! ### A chunk leaves a tree -/

theorem leafLoop_eq {H : Pointers Nat} (hH : H = links (m.get a)) (h : Hangs H 0 q r T) (hT : T ≠ .nil)
    (hnull : 0 ∉ nodes T) {fuel : Nat} (hfuel : (nodes T).length ≤ fuel) (hslot : H.child right p = r) :
    ∃ p' side, leafLoop a m fuel p right r = some (p', side, leaf 0 T) ∧ H.child side p' = leaf 0 T ∧
      (p' = p ∨ p' ∈ nodes T) ∧ leaf 0 T ∈ nodes T ∧ ∀ b, H.child b (leaf 0 T) = 0 := by
  induction T generalizing q p r right fuel with
  | nil => exact absurd rfl hT
  | node t first others left high ihl ihr =>
      obtain ⟨rfl, -, -, -, hleft, hright⟩ := h
      cases fuel with
      | zero => exact absurd hfuel (by simp [nodes])
      | succ fuel =>
          have hlength : (nodes left).length ≤ fuel ∧ (nodes high).length ≤ fuel := by
            simp only [nodes, List.length_cons, List.length_append] at hfuel
            omega
          have hlow : ∀ y ∈ nodes left, y ∈ nodes (.node t r others left high) := fun y hy =>
            List.mem_cons_of_mem _ (List.mem_append_right _ (List.mem_append_left _ hy))
          have hhigh : ∀ y ∈ nodes high, y ∈ nodes (.node t r others left high) := fun y hy =>
            List.mem_cons_of_mem _ (List.mem_append_right _ (List.mem_append_right _ hy))
          have hchild : ∀ b, m.get a r (.child b) = H.child b r := fun b => by
            rw [hH]
            rfl
          have hself : r ∈ nodes (.node t r others left high) := List.mem_cons_self
          rw [leafLoop, hchild, hchild, leaf_node]
          by_cases hr : high = .nil
          · have hzero := (hright.eq_nil_iff fun hin => hnull (hhigh _ hin)).mp hr
            rw [if_neg (not_not.mpr hzero), if_neg (not_not.mpr hr)]
            by_cases hl : left = .nil
            · have hzero' := (hleft.eq_nil_iff fun hin => hnull (hlow _ hin)).mp hl
              rw [if_neg (not_not.mpr hzero'), if_neg (not_not.mpr hl)]
              refine ⟨p, right, rfl, hslot, Or.inl rfl, hself, fun b => ?_⟩
              cases b
              · exact hzero'
              · exact hzero
            · have hne : H.child false r ≠ 0 := fun heq =>
                hl ((hleft.eq_nil_iff fun hin => hnull (hlow _ hin)).mpr heq)
              rw [if_pos hne, if_pos hl]
              obtain ⟨p', side, hloop, hchild, hp', hmem, hleaf⟩ := ihl hleft hl (fun hin => hnull (hlow _ hin))
                hlength.1 rfl
              exact ⟨p', side, hloop, hchild, Or.inr (hp'.elim (fun heq => heq ▸ hself) (hlow p')), hlow _ hmem, hleaf⟩
          · have hne : H.child true r ≠ 0 := fun heq =>
              hr ((hright.eq_nil_iff fun hin => hnull (hhigh _ hin)).mpr heq)
            rw [if_pos hne, if_pos hr]
            obtain ⟨p', side, hloop, hchild, hp', hmem, hleaf⟩ := ihr hright hr (fun hin => hnull (hhigh _ hin))
              hlength.2 rfl
            exact ⟨p', side, hloop, hchild, Or.inr (hp'.elim (fun heq => heq ▸ hself) (hhigh p')), hhigh _ hmem, hleaf⟩

/-- How the links change when the chunk `r` that takes the place of `x` is taken out of its own. -/
structure Taken (H H' : Nat → Field → Nat) (x r : Nat) (others : List Nat) (T : Trie Nat) : Prop where
  ring : if others ≠ [] then Unringed (links H) (links H') x (nodes T)
    else ∀ z ∈ nodes T, (links H').next z = (links H).next z ∧ (links H').prev z = (links H).prev z
  child : ∀ z ∈ nodes T, ∀ b, H' z (.child b) = if r ≠ 0 ∧ H z (.child b) = r then 0 else H z (.child b)
  rest : ∀ z f, f = .parent ∨ f = .index ∨ f = .root → H' z f = H z f
  outside : ∀ z f, z ∉ nodes T → H' z f = H z f
  none : r = 0 → ∀ b, H x (.child b) = 0
  some : r ≠ 0 → r ∈ nodes T ∧ r ≠ x ∧ ∀ b, H r (.child b) = 0

/-- The links when `x` has left its ring. -/
def unringed (H : Nat → Field → Nat) (x : Nat) : Nat → Field → Nat :=
  update (update H (H x .fd) .bk (H x .bk)) (H x .bk) .fd (H x .fd)

/-- A chunk leaves its ring, in which there are others. -/
theorem takeHeir_ring (h : Filed a m bins F) (hx : x ∈ nodes (bins.treebins i)) (hne : m.get a x .bk ≠ x) :
    ∃ m₁, takeHeir a m x = some (m₁, m.get a x .bk) ∧ Writes a F m m₁ (unringed (m.get a) x) ∧
      m₁.smallmap = m.smallmap ∧ m₁.treemap = m.treemap := by
  have hi : i < 32 := by
    obtain ⟨t, -, -, hindex⟩ := h.ok.tree_holds hx
    exact hindex ▸ Bins.treeIndex_lt
  obtain ⟨⟨hnext, hprev⟩, hback, hfore⟩ := (h.binned.linked.tree i hi).ring_mem hx
  have hback : m.get a (m.get a x .fd) .bk = x := hback
  have hfore : m.get a (m.get a x .bk) .fd = x := hfore
  rw [takeHeir, if_pos hne]
  refine ⟨_, if_pos ⟨(h.tree_spread hnext).2.2.2, hback, hfore⟩, ?_, rfl, rfl⟩
  have hput := Writes.refl.put (f := .bk) h.spread (h.treeLink hnext nofun) (h.tree_spread hprev).2.2.1
  exact hput.put (f := .fd) h.spread (h.treeLink hprev nofun) (h.tree_spread hnext).2.2.1

theorem unringed_links {l : List Nat} : Unringed (links H) (links (unringed H x)) x l where
  next z _ := by by_cases hz : z = H x .bk <;> simp [links, unringed, update, hz]
  prev z _ := by by_cases hz : z = H x .fd <;> simp [links, unringed, update, hz]

theorem unringed_of_ne (hf : f ≠ .fd) (hf' : f ≠ .bk) : unringed H x z f = H z f := by
  simp [unringed, update, hf, hf']

/-- A leaf below a child of `x` takes its place. -/
theorem takeLeaf_spec {C : Trie Nat} (h : Filed a m bins F) (hx : x ∈ nodes (bins.treebins i))
    (hC : Hangs (links (m.get a)) 0 x (m.get a x (.child b)) C) (hsome : C ≠ .nil) (hnodupC : (nodes C).Nodup)
    (hin : ∀ z ∈ nodes C, z ∈ nodes (bins.treebins i)) (hout : x ∉ nodes C) :
    ∃ m₁ H₁, takeLeaf a m x b (m.get a x (.child b)) = some (m₁, leaf 0 C) ∧ Writes a F m m₁ H₁ ∧
      (m₁.smallmap = m.smallmap ∧ m₁.treemap = m.treemap) ∧
      Taken (m.get a) H₁ x (leaf 0 C) [] (bins.treebins i) := by
  have hi : i < 32 := by
    obtain ⟨t, -, -, hindex⟩ := h.ok.tree_holds hx
    exact hindex ▸ Bins.treeIndex_lt
  have hT := h.binned.linked.tree i hi
  have hnodup := h.ok.tree_nodes_nodup i
  have hnullC : 0 ∉ nodes C := fun hzero => h.zero_notMem (hin _ hzero)
  have hlength : (nodes C).length ≤ 2 ^ a.bits := (hnodupC.subperm hin).length_le.trans h.length_lt.le
  obtain ⟨p', side, hloop, hchild, hp', hleafC, hnone⟩ := leafLoop_eq rfl hC hsome hnullC hlength rfl
  have hp'T : p' ∈ nodes (bins.treebins i) := hp'.elim (fun heq => heq ▸ hx) (hin p')
  have hleafne : leaf 0 C ≠ 0 := fun hzero => hnullC (hzero ▸ hleafC)
  have hokay : m.okAddress (p' + (Field.child side).offset a) = true := by
    have hok := (h.tree_spread hp'T).2.2.2
    rw [State.okAddress, decide_eq_true_iff] at hok ⊢
    omega
  have hwrites := (Writes.refl (F := F) (a := a) (m := m)).put h.spread (h.treeLink hp'T (f := .child side) nofun)
    (v := 0) (Nat.pow_pos (by decide))
  refine ⟨_, _, ?_, hwrites, ⟨rfl, rfl⟩, ?_, fun z hz b' => ?_, fun z f hf => ?_, fun z f hz => ?_,
    fun hzero => absurd hzero hleafne, fun _ => ⟨hin _ hleafC, ?_, hnone⟩⟩
  · simp only [takeLeaf, hloop, Option.bind_eq_bind, Option.bind_some, if_pos hokay]
  · rw [if_neg (not_not.mpr rfl)]
    exact fun z _ => by simp [links, update]
  · rw [update]
    -- The parent of the leaf and its side are the only ones.
    have hiff : (z = p' ∧ Field.child b' = .child side) ↔ leaf 0 C ≠ 0 ∧ m.get a z (.child b') = leaf 0 C := by
      rw [and_iff_right hleafne, Field.child.injEq]
      exact (hT.child_iff hnodup hleafne hp'T hchild hz).symm
    exact if_congr hiff rfl rfl
  · obtain rfl | rfl | rfl := hf <;> simp [update]
  · have hzp : z ≠ p' := fun heq => hz (heq ▸ hp'T)
    simp [update, hzp]
  · exact fun heq => hout (heq ▸ hleafC)

theorem takeHeir_spec {others : List Nat} {left high : Trie Nat} (h : Filed a m bins F)
    (hfind : find x (bins.treebins i) = some (.node t x others left high)) :
    ∃ m₁ H₁, takeHeir a m x = some (m₁, heir (links (m.get a)) 0 (.node t x others left high)) ∧
      Writes a F m m₁ H₁ ∧ (m₁.smallmap = m.smallmap ∧ m₁.treemap = m.treemap) ∧
      Taken (m.get a) H₁ x (heir (links (m.get a)) 0 (.node t x others left high)) others (bins.treebins i) := by
  obtain ⟨hxS, hsub⟩ := find_nodes hfind
  have hx := hsub x hxS
  have hi : i < 32 := by
    obtain ⟨t, -, -, hindex⟩ := h.ok.tree_holds hx
    exact hindex ▸ Bins.treeIndex_lt
  have hT := h.binned.linked.tree i hi
  have hnodup := h.ok.tree_nodes_nodup i
  obtain ⟨-, -, hring, hothers, hleft, hright⟩ := (hT.subtrie hnodup h.zero_notMem hfind).1
  obtain ⟨hout, hrest⟩ := List.nodup_cons.mp (find_nodup hnodup hfind)
  obtain ⟨hnodupo, hboth, hapart⟩ := List.nodup_append'.mp hrest
  obtain ⟨hnodupl, hnodupr, hdisjoint⟩ := List.nodup_append'.mp hboth
  by_cases hne : others = []
  · subst hne
    have hself : m.get a x .bk = x := hring.2
    rw [takeHeir, if_neg (not_not.mpr hself), heir, if_neg (not_not.mpr rfl)]
    have hleaf : ∀ b C, Hangs (links (m.get a)) 0 x (m.get a x (.child b)) C → C ≠ .nil → (nodes C).Nodup →
        (∀ z ∈ nodes C, z ∈ nodes left ++ nodes high) → _ := fun b C hC hsome hnodupC hmem =>
      takeLeaf_spec h hx hC hsome hnodupC (fun z hz => hsub z (List.mem_cons_of_mem _ (hmem z hz)))
        fun hin => hout (hmem x hin)
    by_cases hr : high = .nil
    · have hzero := (hright.eq_nil_iff fun hin => h.zero_notMem
        (hsub _ (List.mem_cons_of_mem _ (List.mem_append_right _ (List.mem_append_right _ hin))))).mp hr
      rw [if_neg (not_not.mpr (show m.get a x (.child true) = 0 from hzero)), if_neg (not_not.mpr hr)]
      by_cases hl : left = .nil
      · have hzero' := (hleft.eq_nil_iff fun hin => h.zero_notMem
          (hsub _ (List.mem_cons_of_mem _ (List.mem_append_right _ (List.mem_append_left _ hin))))).mp hl
        rw [if_neg (not_not.mpr (show m.get a x (.child false) = 0 from hzero')), hl]
        refine ⟨m, m.get a, rfl, Writes.refl, ⟨rfl, rfl⟩, ?_, fun z _ b => ?_, fun _ _ _ => rfl, fun _ _ _ => rfl,
          fun _ b => ?_, fun hsome => absurd rfl hsome⟩
        · rw [if_neg (not_not.mpr rfl)]
          exact fun _ _ => ⟨rfl, rfl⟩
        · exact (if_neg fun hsome => hsome.1 rfl).symm
        · cases b
          · exact hzero'
          · exact hzero
      · have hne : m.get a x (.child false) ≠ 0 := fun heq => hl ((hleft.eq_nil_iff fun hin => h.zero_notMem
          (hsub _ (List.mem_cons_of_mem _ (List.mem_append_right _ (List.mem_append_left _ hin))))).mpr heq)
        rw [if_pos hne]
        exact hleaf false left hleft hl hnodupl fun z => List.mem_append_left _
    · have hne : m.get a x (.child true) ≠ 0 := fun heq => hr ((hright.eq_nil_iff fun hin => h.zero_notMem
        (hsub _ (List.mem_cons_of_mem _ (List.mem_append_right _ (List.mem_append_right _ hin))))).mpr heq)
      rw [if_pos hne, if_pos hr]
      exact hleaf true high hright hr hnodupr fun z => List.mem_append_right _
  · -- The last of the ring takes the place of the first.
    have hnodupring : (x :: others).Nodup := List.nodup_cons.mpr ⟨fun hin => hout (List.mem_append_left _ hin), hnodupo⟩
    have hprevne : m.get a x .bk ≠ x := hring.prev_ne hnodupring hne List.mem_cons_self
    obtain ⟨m₁, htake, hwrites, hmaps⟩ := takeHeir_ring h hx hprevne
    have hprev : m.get a x .bk ∈ others := by
      have hin : m.get a x .bk ∈ x :: others := (hring.ring_mem List.mem_cons_self).2
      exact (List.mem_cons.mp hin).resolve_left hprevne
    have hprevT : m.get a x .bk ∈ nodes (bins.treebins i) :=
      hsub _ (List.mem_cons_of_mem _ (List.mem_append_left _ hprev))
    have hnone := (hothers _ hprev).child
    refine ⟨m₁, _, ?_, hwrites, hmaps, ?_, fun z hz b => ?_, fun z f hf => ?_, fun z f hz => ?_, fun hzero => ?_,
      fun _ => ?_⟩
    · rw [htake, heir, if_pos hne]
      rfl
    · rw [if_pos hne]
      exact unringed_links
    · rw [unringed_of_ne (f := .child b) (by simp) (by simp), if_neg]
      rintro ⟨hne0, heq⟩
      rw [heir, if_pos hne] at hne0 heq
      obtain hzero | ⟨-, hpar⟩ := hT.child_mem (b := b) hz
      · exact hne0 (heq.symm.trans hzero)
      · -- A chunk in a ring has no parent.
        rw [show (links (m.get a)).child b z = m.get a x .bk from heq] at hpar
        have hzero : z = 0 :=
          calc z = m.get a (m.get a x .bk) .parent := hpar.symm
            _ = 0 := (hothers _ hprev).parent
        exact h.zero_notMem (hzero ▸ hz)
    · refine unringed_of_ne ?_ ?_ <;> obtain rfl | rfl | rfl := hf <;> simp
    · have hnext := (hT.ring_mem hx).1.1
      have hzn : z ≠ m.get a x .fd := fun heq => hz (heq ▸ hnext)
      have hzp : z ≠ m.get a x .bk := fun heq => hz (heq ▸ hprevT)
      simp [unringed, update, hzn, hzp]
    · rw [heir, if_pos hne] at hzero
      have hzero : m.get a x .bk = 0 := hzero
      exact absurd (hzero ▸ hprevT) h.zero_notMem
    · rw [heir, if_pos hne]
      exact ⟨hprevT, hprevne, hnone⟩

/-- The links when what led to `x` leads to `r`: the pointer of the bin at `base`, or a child of the parent of `x`. -/
structure Led (H H₁ H₂ : Nat → Field → Nat) (base x r : Nat) (T : Trie Nat) : Prop where
  root : H₂ base .root = if H base .root = x then r else H base .root
  child : ∀ z ∈ nodes T, ∀ b, H₂ z (.child b) = if H z (.child b) = x then r else H₁ z (.child b)
  rest : ∀ z f, (∀ b, f ≠ .child b) → f ≠ .root → H₂ z f = H₁ z f
  outside : ∀ z f, z ∉ nodes T → z ≠ base → H₂ z f = H₁ z f

theorem relinkParent_spec {others : List Nat} {S : Trie Nat} {m₁ : State} {H₁ : Nat → Field → Nat}
    (h : Filed a m bins F) (hfind : find x (bins.treebins i) = some S) (hw : Writes a F m m₁ H₁)
    (hmaps : m₁.smallmap = m.smallmap ∧ m₁.treemap = m.treemap) (ht : Taken (m.get a) H₁ x r others (bins.treebins i)) :
    ∃ m₂ H₂, relinkParent a m₁ x (m.get a x .parent) r = some m₂ ∧ Writes a F m m₂ H₂ ∧
      (m₂.smallmap = m.smallmap ∧
        m₂.treemap = if H₂ (m.treebinAt a i) .root = 0 then m.treemap &&& ~~~idx2bit i else m.treemap) ∧
      Led (m.get a) H₁ H₂ (m.treebinAt a i) x r (bins.treebins i) := by
  obtain ⟨hxS, hsub⟩ := find_nodes hfind
  have hx := hsub x hxS
  have hi : i < 32 := by
    obtain ⟨t, -, -, hindex⟩ := h.ok.tree_holds hx
    exact hindex ▸ Bins.treeIndex_lt
  have hT := h.binned.linked.tree i hi
  have hnodup := h.ok.tree_nodes_nodup i
  obtain ⟨hbasex, hxpos, hxlt, hxok⟩ := h.tree_spread hx
  have hrlt : r < 256 ^ a.word := by
    by_cases hr : r = 0
    · exact hr ▸ Nat.pow_pos (by decide)
    · exact (h.tree_spread (ht.some hr).1).2.2.1
  have hrx : r ≠ x := by
    by_cases hr : r = 0
    · omega
    · exact (ht.some hr).2.1
  have hbase : m.gm + treebinsOffset a + i * a.word = m.treebinAt a i := rfl
  rw [hbase] at hT
  have hbin : m₁.treebinAt a i = m.treebinAt a i := by
    rw [State.treebinAt, State.treebinAt, hw.step.gm_eq]
  have hlink : Linkable a m.gm F (m.treebinAt a i) .root := ⟨i, hi, rfl⟩
  have hindex : m₁.get a x .index = i := by
    rw [hw.shows x .index (h.treeLink hx (by simp)), ht.rest x .index (by simp)]
    exact h.binned.linked.index i x hx
  have hroot : m₁.get a (m.treebinAt a i) .root = m.get a (m.treebinAt a i) .root := by
    rw [hw.shows _ .root hlink, ht.rest _ .root (by simp)]
  rw [relinkParent, hindex]
  show ∃ m₂ H₂, (if x = m₁.get a (m₁.treebinAt a i) .root then
      some (if r = 0 then { m₁.put a (m₁.treebinAt a i) .root r with treemap := m₁.treemap &&& ~~~idx2bit i }
        else m₁.put a (m₁.treebinAt a i) .root r) else _) = _ ∧ _
  rw [hbin, hroot]
  by_cases hxroot : x = m.get a (m.treebinAt a i) .root
  · -- The pointer of the bin leads to `x`.
    rw [if_pos hxroot]
    have hput := hw.put h.spread hlink hrlt
    have hshows : ∀ z f, update H₁ (m.treebinAt a i) .root r z f =
        if z = m.treebinAt a i ∧ f = .root then r else H₁ z f := fun _ _ => rfl
    refine ⟨_, update H₁ (m.treebinAt a i) .root r, rfl, ?_, ?_, ?_, fun z hz b => ?_, fun z f hf hf' => ?_,
      fun z f hz hz' => ?_⟩
    · split
      · exact hput.map m₁.smallmap _
      · exact hput
    · rw [update_self]
      by_cases hr : r = 0
      · rw [if_pos hr, if_pos hr, ← hmaps.2]
        exact ⟨hmaps.1, rfl⟩
      · rw [if_neg hr, if_neg hr]
        exact hmaps
    · rw [update_self, if_pos hxroot.symm]
    · have hne := hT.child_ne_root (b := b) (hxroot ▸ hxpos.ne') h.treebin_notMem hz
      rw [hshows, if_neg (fun heq => by cases heq.2), if_neg]
      exact hxroot ▸ hne
    · rw [hshows, if_neg fun heq => hf' heq.2]
    · rw [hshows, if_neg fun heq => hz' heq.1]
  · -- A child of the parent of `x` is `x`.
    rw [if_neg hxroot]
    obtain ⟨hxp, -, b₀, hb₀⟩ := (hT.subtrie hnodup h.zero_notMem hfind).2 hxroot
    generalize hparent : m.get a x .parent = xp
    have hparent' : (links (m.get a)).parent x = xp := hparent
    rw [hparent'] at hxp hb₀
    have hxpne : xp ∈ nodes (bins.treebins i) := hxp
    rw [if_pos (hw.step.okAddress.trans (h.tree_spread hxp).2.2.2)]
    have hchild : ∀ z ∈ nodes (bins.treebins i), ∀ b, H₁ z (.child b) = x ↔ m.get a z (.child b) = x := by
      intro z hz b
      rw [ht.child z hz]
      split
      · next heq => exact iff_of_false hxpos.ne fun hzx => hrx (heq.2.symm.trans hzx)
      · rfl
    have hiff : ∀ z ∈ nodes (bins.treebins i), ∀ b, m.get a z (.child b) = x ↔ z = xp ∧ b = b₀ :=
      fun z hz b => hT.child_iff hnodup hxpos.ne' hxp hb₀ hz
    have hput := hw.put (f := .child b₀) h.spread (h.treeLink hxp (by simp)) hrlt
    have hshows : ∀ z f, update H₁ xp (.child b₀) r z f =
        if z = xp ∧ f = .child b₀ then r else H₁ z f := fun _ _ => rfl
    refine ⟨m₁.put a xp (.child b₀) r, update H₁ xp (.child b₀) r, ?_, hput, ⟨hmaps.1, ?_⟩, ?_, fun z hz b => ?_,
      fun z f hf hf' => ?_, fun z f hz hz' => ?_⟩
    · rw [hw.shows xp (.child false) (h.treeLink hxp (by simp))]
      cases b₀ with
      | false => rw [if_pos ((hchild xp hxp false).mpr hb₀)]
      | true => rw [if_neg fun heq => by cases ((hiff xp hxp false).mp ((hchild xp hxp false).mp heq)).2]
    · rw [update_of_ne (g := .root) (fun heq => by cases heq.2), ht.rest _ .root (by simp), if_neg]
      · exact hmaps.2
      · intro hzero
        have hnil := (hT.eq_nil_iff h.zero_notMem).mpr hzero
        rw [hnil] at hx
        cases hx
    · rw [hshows, if_neg (fun heq => by cases heq.2), ht.rest _ .root (by simp), if_neg fun heq => hxroot heq.symm]
    · rw [hshows]
      refine if_congr ?_ rfl rfl
      rw [hiff z hz, Field.child.injEq]
    · rw [hshows, if_neg fun heq => hf _ heq.2]
    · exact update_of_ne fun heq => hz (heq.1 ▸ hxp)

/-- The links when `r` has taken over a child of `x`. -/
def adopted (H : Nat → Field → Nat) (x r : Nat) (b : Bool) : Nat → Field → Nat :=
  if H x (.child b) ≠ 0 then update (update H r (.child b) (H x (.child b))) (H x (.child b)) .parent r else H

theorem relinkChild_spec {m₁ : State} (h : Filed a m bins F) (hw : Writes a F m m₁ H)
    (hx : x ∈ nodes (bins.treebins i)) (hr : r ∈ nodes (bins.treebins i))
    (hc : H x (.child b) ≠ 0 → H x (.child b) ∈ nodes (bins.treebins i)) :
    ∃ m₂, relinkChild a m₁ x r b = some m₂ ∧ Writes a F m m₂ (adopted H x r b) ∧
      m₂.smallmap = m₁.smallmap ∧ m₂.treemap = m₁.treemap := by
  rw [relinkChild, hw.shows x (.child b) (h.treeLink hx nofun), adopted]
  by_cases hzero : H x (.child b) = 0
  · rw [if_neg (not_not.mpr hzero), if_neg (not_not.mpr hzero)]
    exact ⟨m₁, rfl, hw, rfl, rfl⟩
  · have hin := hc hzero
    rw [if_pos hzero, if_pos hzero, if_pos (hw.step.okAddress.trans (h.tree_spread hin).2.2.2)]
    have hput := hw.put (f := .child b) h.spread (h.treeLink hr nofun) (h.tree_spread hin).2.2.1
    exact ⟨_, rfl, hput.put (f := .parent) h.spread (h.treeLink hin nofun) (h.tree_spread hr).2.2.1, rfl, rfl⟩

theorem adopted_of_ne (hne : ∀ b, f ≠ .child b) (hf : f ≠ .parent) : adopted H x r b z f = H z f := by
  rw [adopted]
  split
  · simp [update, hne, hf]
  · rfl

theorem adopted_parent : adopted H x r b z .parent =
    if H x (.child b) ≠ 0 ∧ z = H x (.child b) then r else H z .parent := by
  rw [adopted]
  by_cases hzero : H x (.child b) = 0
  · simp [hzero]
  · rw [if_pos hzero]
    by_cases hz : z = H x (.child b) <;> simp [update, hz, hzero]

theorem adopted_child {d : Bool} (hr : z ≠ r ∨ d ≠ b) : adopted H x r b z (.child d) = H z (.child d) := by
  rw [adopted]
  split
  · have hne : ¬ (z = r ∧ d = b) := not_and_or.mpr hr
    simp [update, hne]
  · rfl

theorem adopted_outside (hzr : z ≠ r) (hzc : H x (.child b) ≠ 0 → z ≠ H x (.child b)) :
    adopted H x r b z f = H z f := by
  rw [adopted]
  split
  · next hne => simp [update, hzr, hzc hne]
  · rfl

theorem adopted_self : adopted H x r b r (.child b) =
    if H x (.child b) ≠ 0 then H x (.child b) else H r (.child b) := by
  rw [adopted]
  split
  · simp [update]
  · rfl

/-- A trie of a bin has lost a chunk. -/
theorem Filed.unlinked (h : Filed a m bins F) (hs : isSmall s = false) (hx : bins.Holds x s) {H₂ : Nat → Field → Nat}
    {p' : Nat} (hw : Writes a F m m' H₂) (hsmall : m'.smallmap = m.smallmap)
    (htree : m'.treemap = if p' = 0 then m.treemap &&& ~~~idx2bit (treeIndex s) else m.treemap)
    (hroot : H₂ (m.treebinAt a (treeIndex s)) .root = p')
    (hhangs : Hangs (links H₂) 0 (m.treebinAt a (treeIndex s)) p' ((bins.treebins (treeIndex s)).unlink x))
    (hindex : ∀ z, H₂ z .index = m.get a z .index)
    (hout : ∀ z f, z ∉ nodes (bins.treebins (treeIndex s)) → z ≠ m.treebinAt a (treeIndex s) → H₂ z f = m.get a z f) :
    Filed a m' (bins.unlinkLargeChunk x s) F := by
  obtain ⟨hok, hholds⟩ := h.ok.unlinkLargeChunk hs hx
  have hmem : ∀ z ∈ nodes ((bins.treebins (treeIndex s)).unlink x), z ∈ nodes (bins.treebins (treeIndex s)) := by
    intro z hz
    have hperm := (Trie.items_unlink (h.ok.tree_nodup _) ((Bins.holds_large hs).mp hx)).map Prod.fst
    rw [← items_nodes, hperm.mem_iff, List.map_cons, items_nodes]
    exact List.mem_cons_of_mem _ hz
  have hnil := hhangs.eq_nil_iff fun hin => h.zero_notMem (hmem _ hin)
  refine hw.filed h.spread hok (fun q n hq => h.held q n ((hholds q n).mp hq).1) ?_ ?_ ?_
  · refine Linked.of_tree h Bins.treeIndex_lt rfl rfl (hroot ▸ hhangs) (fun z hz => ?_) fun z f hz => ?_
    · rw [hindex]
      exact h.binned.linked.index _ z (hmem z hz)
    · exact hout z f (fun hin => hz (h.ofTree hin)) fun heq => hz (Or.inl heq)
  · exact hsmall.trans h.binned.smallmap
  · rw [htree, Bins.unlinkLargeChunk, h.binned.treemap]
    exact if_congr hnil.symm rfl rfl

/-- The links when `r` has taken the place of `x` and its children. -/
theorem relinked_of {H₀ H₁ H₂ : Nat → Field → Nat} {base : Nat} {others : List Nat} {S : Trie Nat}
    (hT : Hangs (links H₀) 0 base (H₀ base .root) T) (hnodup : (nodes T).Nodup) (hbase : base ≠ x)
    (hnull : 0 ∉ nodes T) (hfind : find x T = some S) (ht : Taken H₀ H₁ x r others T)
    (hled : Led H₀ H₁ H₂ base x r T) (hr : r ≠ 0) :
    Relinked (links H₀) (links (adopted (adopted (update H₂ r .parent (H₀ x .parent)) x r false) x r true)) 0 x r T := by
  obtain ⟨hrT, hrx, hrnone⟩ := ht.some hr
  have hx := (find_nodes hfind).2 x (find_nodes hfind).1
  have hxne : x ≠ 0 := fun heq => hnull (heq ▸ hx)
  have hself : H₀ x .parent ≠ x := by
    by_cases hroot : x = H₀ base .root
    · rw [show H₀ x .parent = base from hroot ▸ hT.parent_eq (hroot ▸ hxne)]
      exact hbase
    · intro heq
      refine ((hT.subtrie hnodup hnull hfind).2 hroot).2.1 ?_
      rw [show (links H₀).parent x = x from heq]
      exact (find_nodes hfind).1
  have hparent : ∀ b, H₀ x (.child b) ≠ 0 → H₀ (H₀ x (.child b)) .parent = x := fun b hne =>
    ((hT.child_mem (b := b) hx).resolve_left hne).2
  -- The children of `x` are as they were, but for `r`.
  have hchildx : ∀ b, H₂ x (.child b) = if H₀ x (.child b) = r then 0 else H₀ x (.child b) := by
    intro b
    rw [hled.child x hx, if_neg, ht.child x hx]
    · exact if_congr (and_iff_right hr) rfl rfl
    · intro heq
      have hpar := hparent b (heq.symm ▸ hxne)
      rw [heq] at hpar
      exact hself hpar
  have hchildne : ∀ b, r ≠ H₂ x (.child b) := by
    intro b
    rw [hchildx]
    split
    · exact hr
    · next hne => exact Ne.symm hne
  have hrchild : ∀ b, H₂ r (.child b) = 0 := by
    intro b
    rw [hled.child r hrT, hrnone, if_neg hxne.symm, ht.child r hrT, hrnone, ite_self]
  generalize hH : update H₂ r .parent (H₀ x .parent) = H₃
  have hH₃ : ∀ z d, H₃ z (.child d) = H₂ z (.child d) := fun z d => by
    rw [← hH]
    simp [update]
  have hc : adopted H₃ x r false x (.child true) = H₂ x (.child true) := by
    rw [adopted_child (Or.inl hrx.symm), hH₃]
  refine ⟨fun _ => ?_, fun _ b => ?_, fun z hz hzr hzx => ?_, fun z hz hzr hzx b => ?_⟩
  · show adopted _ x r true r .parent = H₀ x .parent
    rw [adopted_parent, hc, if_neg fun heq => hchildne true heq.2, adopted_parent, hH₃,
      if_neg fun heq => hchildne false heq.2, ← hH, update_self]
  · show adopted _ x r true r (.child b) = if H₀ x (.child b) = r then 0 else H₀ x (.child b)
    rw [← hchildx]
    cases b with
    | false =>
        rw [adopted_child (d := false) (b := true) (Or.inr (by simp)), adopted_self, hH₃, hH₃, hrchild]
        split
        · rfl
        · next hzero => exact (not_not.mp hzero).symm
    | true =>
        rw [adopted_self, hc, adopted_child (d := true) (b := false) (Or.inr (by simp)), hH₃, hrchild]
        split
        · rfl
        · next hzero => exact (not_not.mp hzero).symm
  · show adopted _ x r true z .parent = if H₀ z .parent = x then r else H₀ z .parent
    have hrest : H₃ z .parent = H₀ z .parent := by
      rw [← hH, update_of_ne fun heq => hzr heq.1, hled.rest z .parent (by simp) (by simp), ht.rest z .parent (by simp)]
    have hup : ∀ b, H₂ x (.child b) ≠ 0 ∧ z = H₂ x (.child b) → H₀ z .parent = x := by
      rintro b ⟨hne, rfl⟩
      rw [hchildx] at hne ⊢
      split at hne
      · exact absurd rfl hne
      · next hnot =>
          rw [if_neg hnot]
          exact hparent b hne
    rw [adopted_parent, hc, adopted_parent, hH₃, hrest]
    by_cases htrue : H₂ x (.child true) ≠ 0 ∧ z = H₂ x (.child true)
    · rw [if_pos htrue, if_pos (hup true htrue)]
    by_cases hfalse : H₂ x (.child false) ≠ 0 ∧ z = H₂ x (.child false)
    · rw [if_neg htrue, if_pos hfalse, if_pos (hup false hfalse)]
    rw [if_neg htrue, if_neg hfalse, if_neg]
    intro heq
    obtain ⟨b, hb⟩ := hT.exists_child hnull hbase hxne hz heq
    have hb' : H₂ x (.child b) = z := by
      rw [hchildx, if_neg]
      · exact hb
      · exact fun hbr => hzr (hb.symm.trans hbr)
    have hcase : H₂ x (.child b) ≠ 0 ∧ z = H₂ x (.child b) := ⟨fun hzero => hnull (hzero ▸ hb' ▸ hz), hb'.symm⟩
    cases b
    · exact hfalse hcase
    · exact htrue hcase
  · show adopted _ x r true z (.child b) = if H₀ z (.child b) = x then r else if H₀ z (.child b) = r then 0 else _
    rw [adopted_child (Or.inl hzr), adopted_child (Or.inl hzr), hH₃, hled.child z hz, ht.child z hz]
    exact if_congr Iff.rfl rfl (if_congr (and_iff_right hr) rfl rfl)

theorem unlinkLargeChunk_ringed {y : Nat} {others : List Nat} {left high : Trie Nat} (h : Filed a m bins F)
    (hs : isSmall s = false) (hx : bins.Holds x s)
    (hfind : find y (bins.treebins (treeIndex s)) = some (.node t y others left high)) (hring : x ∈ others) :
    ∃ m', unlinkLargeChunk a m x = some m' ∧ Filed a m' (bins.unlinkLargeChunk x s) F ∧ BinStep a F m m' := by
  obtain ⟨hyS, hsub⟩ := find_nodes hfind
  have hi : treeIndex s < 32 := Bins.treeIndex_lt
  have hxT := hsub x (List.mem_cons_of_mem _ (List.mem_append_left _ hring))
  have hT := h.binned.linked.tree _ hi
  have hnodup := h.ok.tree_nodes_nodup (treeIndex s)
  obtain ⟨-, -, hpath, hothers, -⟩ := (hT.subtrie hnodup h.zero_notMem hfind).1
  obtain ⟨hout, hrest⟩ := List.nodup_cons.mp (find_nodup hnodup hfind)
  have hnodupring : (y :: others).Nodup :=
    List.nodup_cons.mpr ⟨fun hin => hout (List.mem_append_left _ hin), (List.nodup_append'.mp hrest).1⟩
  have hprev : m.get a x .bk ≠ x :=
    hpath.prev_ne hnodupring (List.ne_nil_of_mem hring) (List.mem_cons_of_mem _ hring)
  obtain ⟨m₁, htake, hw, hsmall, htree⟩ := takeHeir_ring h hxT hprev
  have hparent : m.get a x .parent = 0 := (hothers x hring).parent
  refine ⟨m₁, ?_, ?_, hw.step⟩
  · simp only [unlinkLargeChunk, htake, Option.bind_eq_bind, Option.bind_some, hparent, ne_eq, not_true_eq_false,
      if_false]
  · have hyne : m.get a (m.treebinAt a (treeIndex s)) .root ≠ 0 := fun hzero => by
      have hnil := (hT.eq_nil_iff h.zero_notMem).mpr hzero
      rw [hnil] at hxT
      cases hxT
    obtain ⟨⟨hnext, hprevT⟩, -⟩ := hT.ring_mem hxT
    refine h.unlinked hs hx hw hsmall ?_ (unringed_of_ne nofun nofun) ?_ (fun z => unringed_of_ne nofun nofun)
      fun z f hz hzb => ?_
    · rw [if_neg hyne, htree]
    · exact hT.unlink_ringed hnodup h.zero_notMem hfind hring unringed_links fun z _ =>
        ⟨unringed_of_ne nofun nofun, fun b => unringed_of_ne (f := .child b) nofun nofun⟩
    · have hzn : z ≠ m.get a x .fd := fun heq => hz (heq ▸ hnext)
      have hzp : z ≠ m.get a x .bk := fun heq => hz (heq ▸ hprevT)
      simp [unringed, update, hzn, hzp]

/-- The links when nothing takes the place of `x`, which has no children. -/
theorem relinked_none {H₀ H₁ H₂ : Nat → Field → Nat} {base : Nat} {others : List Nat}
    (hT : Hangs (links H₀) 0 base (H₀ base .root) T) (hbase : base ≠ x) (hx : x ≠ 0) (hnull : 0 ∉ nodes T)
    (ht : Taken H₀ H₁ x 0 others T) (hled : Led H₀ H₁ H₂ base x 0 T) : Relinked (links H₀) (links H₂) 0 x 0 T := by
  refine ⟨fun hne => absurd rfl hne, fun hne => absurd rfl hne, fun z hz _ hzx => ?_, fun z hz _ hzx b => ?_⟩
  · have hpar : H₂ z .parent = H₀ z .parent := by
      rw [hled.rest z .parent (by simp) (by simp), ht.rest z .parent (by simp)]
    show H₂ z .parent = if H₀ z .parent = x then 0 else H₀ z .parent
    rw [hpar, if_neg]
    intro heq
    obtain ⟨b, hb⟩ := hT.exists_child hnull hbase hx hz heq
    exact hnull (hb.symm.trans (ht.none rfl b) ▸ hz)
  · show H₂ z (.child b) = if H₀ z (.child b) = x then 0 else if H₀ z (.child b) = 0 then 0 else _
    have hkept : H₁ z (.child b) = H₀ z (.child b) :=
      calc H₁ z (.child b) = if (0 : Nat) ≠ 0 ∧ H₀ z (.child b) = 0 then 0 else H₀ z (.child b) := ht.child z hz b
        _ = H₀ z (.child b) := if_neg fun heq => heq.1 rfl
    rw [hled.child z hz, hkept]
    split
    · rfl
    · split
      · next heq => exact heq
      · rfl

/-- The chunk has gone out of its tree when the links of the tree are those with its heir in its place. -/
theorem Filed.relinked {others : List Nat} {left high : Trie Nat} {m₂ : State} {H₁ H₂ H' : Nat → Field → Nat}
    (h : Filed a m bins F) (hs : isSmall s = false) (hx : bins.Holds x s)
    (hfind : find x (bins.treebins (treeIndex s)) = some (.node t x others left high))
    (hr : heir (links (m.get a)) 0 (.node t x others left high) = r)
    (ht : Taken (m.get a) H₁ x r others (bins.treebins (treeIndex s)))
    (hled : Led (m.get a) H₁ H₂ (m.treebinAt a (treeIndex s)) x r (bins.treebins (treeIndex s)))
    (hmaps : m₂.smallmap = m.smallmap ∧ m₂.treemap =
      if H₂ (m.treebinAt a (treeIndex s)) .root = 0 then m.treemap &&& ~~~idx2bit (treeIndex s) else m.treemap)
    (hw : Writes a F m m' H') (hmaps' : m'.smallmap = m₂.smallmap ∧ m'.treemap = m₂.treemap)
    (hrelinked : Relinked (links (m.get a)) (links H') 0 x r (bins.treebins (treeIndex s)))
    (hsame : ∀ z f, (∀ b, f ≠ .child b) → f ≠ .parent → H' z f = H₂ z f)
    (hout : ∀ z f, z ∉ nodes (bins.treebins (treeIndex s)) → H' z f = H₂ z f) :
    Filed a m' (bins.unlinkLargeChunk x s) F := by
  refine h.unlinked hs hx hw (hmaps'.1.trans hmaps.1) (hmaps'.2.trans hmaps.2)
    (hsame _ .root (by simp) (by simp)) ?_ (fun z => ?_) fun z f hz hzb => ?_
  · rw [hled.root, ← hr]
    refine (h.binned.linked.tree _ Bins.treeIndex_lt).unlink_first (h.ok.tree_nodes_nodup _) h.zero_notMem
      h.treebin_notMem hfind (hr ▸ hrelinked) ?_
    have hlinks : ∀ z, (links H').next z = (links H₁).next z ∧ (links H').prev z = (links H₁).prev z := fun z =>
      ⟨(hsame z .fd (by simp) (by simp)).trans (hled.rest z .fd (by simp) (by simp)),
        (hsame z .bk (by simp) (by simp)).trans (hled.rest z .bk (by simp) (by simp))⟩
    have hring := ht.ring
    split at hring
    · next hne =>
        rw [if_pos hne]
        exact ⟨fun z hz => (hlinks z).1.trans (hring.next z hz), fun z hz => (hlinks z).2.trans (hring.prev z hz)⟩
    · next hne =>
        rw [if_neg hne]
        exact fun z hz => ⟨(hlinks z).1.trans (hring z hz).1, (hlinks z).2.trans (hring z hz).2⟩
  · rw [hsame z .index (by simp) (by simp), hled.rest z .index (by simp) (by simp), ht.rest z .index (by simp)]
  · rw [hout z f hz, hled.outside z f hz hzb, ht.outside z f hz]

theorem unlinkLargeChunk_first {others : List Nat} {left high : Trie Nat} (h : Filed a m bins F)
    (hs : isSmall s = false) (hx : bins.Holds x s)
    (hfind : find x (bins.treebins (treeIndex s)) = some (.node t x others left high)) :
    ∃ m', unlinkLargeChunk a m x = some m' ∧ Filed a m' (bins.unlinkLargeChunk x s) F ∧ BinStep a F m m' := by
  obtain ⟨hxS, hsub⟩ := find_nodes hfind
  have hxT := hsub x hxS
  have hT : Hangs (links (m.get a)) 0 (m.treebinAt a (treeIndex s)) (m.get a (m.treebinAt a (treeIndex s)) .root)
      (bins.treebins (treeIndex s)) := h.binned.linked.tree _ Bins.treeIndex_lt
  have hnodup := h.ok.tree_nodes_nodup (treeIndex s)
  obtain ⟨hbasex, hxpos, -⟩ := h.tree_spread hxT
  have hparent : m.get a x .parent ≠ 0 ∧ m.get a x .parent < 256 ^ a.word := by
    by_cases hroot : x = m.get a (m.treebinAt a (treeIndex s)) .root
    · have hpar : m.get a x .parent = m.treebinAt a (treeIndex s) := hroot ▸ hT.parent_eq (hroot ▸ hxpos.ne')
      rw [hpar]
      refine ⟨?_, hbasex.trans (h.tree_spread hxT).2.2.1⟩
      rw [State.treebinAt, treebinsOffset, smallbinsOffset]
      omega
    · have hin := ((hT.subtrie hnodup h.zero_notMem hfind).2 hroot).1
      exact ⟨(h.tree_spread hin).2.1.ne', (h.tree_spread hin).2.2.1⟩
  obtain ⟨m₁, H₁, htake, hw₁, hmaps₁, ht⟩ := takeHeir_spec h hfind
  generalize hr : heir (links (m.get a)) 0 (.node t x others left high) = r at htake ht
  obtain ⟨m₂, H₂, hrelink, hw₂, hmaps₂, hled⟩ := relinkParent_spec h hfind hw₁ hmaps₁ ht
  by_cases hzero : r = 0
  · -- Nothing takes its place.
    subst hzero
    refine ⟨m₂, ?_, h.relinked hs hx hfind hr ht hled hmaps₂ hw₂ ⟨rfl, rfl⟩
      (relinked_none hT hbasex.ne hxpos.ne' h.zero_notMem ht hled) (fun _ _ _ _ => rfl) fun _ _ _ => rfl, hw₂.step⟩
    simp only [unlinkLargeChunk, htake, Option.bind_eq_bind, Option.bind_some]
    rw [if_pos hparent.1, hrelink]
    rfl
  · obtain ⟨hrT, hrx, -⟩ := ht.some hzero
    have hrspread := h.tree_spread hrT
    have hchildT : ∀ b, H₂ x (.child b) ≠ 0 → H₂ x (.child b) ∈ nodes (bins.treebins (treeIndex s)) := by
      intro b hne
      rw [hled.child x hxT] at hne ⊢
      split at hne
      · next heq =>
          rw [if_pos heq]
          exact hrT
      · next hnot =>
          rw [if_neg hnot]
          rw [ht.child x hxT] at hne ⊢
          split at hne
          · exact absurd rfl hne
          · next hnot' =>
              rw [if_neg hnot']
              exact ((hT.child_mem (b := b) hxT).resolve_left hne).1
    have hw₃ := hw₂.put (f := .parent) h.spread (h.treeLink hrT (by simp)) hparent.2
    have hH₃ : ∀ b, update H₂ r .parent (m.get a x .parent) x (.child b) = H₂ x (.child b) := fun b =>
      update_of_ne fun heq => by cases heq.2
    obtain ⟨m₄, hchild₄, hw₄, hmaps₄⟩ := relinkChild_spec (b := false) h hw₃ hxT hrT (hH₃ false ▸ hchildT false)
    have hH₄ : adopted (update H₂ r .parent (m.get a x .parent)) x r false x (.child true) = H₂ x (.child true) := by
      rw [adopted_child (Or.inl hrx.symm), hH₃]
    obtain ⟨m₅, hchild₅, hw₅, hmaps₅⟩ := relinkChild_spec (b := true) h hw₄ hxT hrT (hH₄ ▸ hchildT true)
    refine ⟨m₅, ?_, h.relinked hs hx hfind hr ht hled hmaps₂ hw₅
      ⟨hmaps₅.1.trans hmaps₄.1, hmaps₅.2.trans hmaps₄.2⟩
      (relinked_of hT hnodup hbasex.ne h.zero_notMem hfind ht hled hzero) (fun z f hf hf' => ?_) fun z f hz => ?_,
      hw₅.step⟩
    · simp only [unlinkLargeChunk, htake, Option.bind_eq_bind, Option.bind_some]
      rw [if_pos hparent.1, hrelink, Option.bind_some, if_pos hzero,
        if_pos (hw₂.step.okAddress.trans hrspread.2.2.2), hchild₄, Option.bind_some, hchild₅]
    · rw [adopted_of_ne hf hf', adopted_of_ne hf hf', update_of_ne fun heq => hf' heq.2]
    · have hzr : z ≠ r := fun heq => hz (heq ▸ hrT)
      have hout : ∀ b, H₂ x (.child b) ≠ 0 → z ≠ H₂ x (.child b) := fun b hne heq => hz (heq ▸ hchildT b hne)
      rw [adopted_outside hzr (hH₄ ▸ hout true), adopted_outside hzr (hH₃ false ▸ hout false),
        update_of_ne fun heq => hzr heq.1]

theorem unlinkLargeChunk_spec (h : Filed a m bins F) (hs : isSmall s = false) (hx : bins.Holds x s) :
    ∃ m', unlinkLargeChunk a m x = some m' ∧ Filed a m' (bins.unlinkLargeChunk x s) F ∧ BinStep a F m m' := by
  have hxT : x ∈ nodes (bins.treebins (treeIndex s)) := by
    have hbin := hx.bin
    rwa [if_neg (by rw [hs]; nofun)] at hbin
  obtain ⟨t, y, others, left, high, hfind, rfl | hring⟩ := mem_nodes_cases (h.ok.tree_nodes_nodup _) hxT
  · exact unlinkLargeChunk_first h hs hx hfind
  · exact unlinkLargeChunk_ringed h hs hx hfind hring

/-! ### Chunks of any size -/

theorem insertChunk_spec (h : Filed a m bins F) (hmod : s % 8 = 0) (hp : F p s) (hnew : ∀ t, ¬ bins.Holds p t)
    (hsize : ∀ q n, bins.Holds q n → chunksize (m.head a q) = n) :
    ∃ m', insertChunk a m p s = some m' ∧ Filed a m' (bins.insertChunk a p s) F ∧ BinStep a F m m' := by
  rw [insertChunk, Bins.insertChunk]
  split
  · next hs => exact insertSmallChunk_spec h hs hmod hp hnew
  · next hs => exact insertLargeChunk_spec h (Bool.eq_false_iff.mpr hs) hp hnew hsize

theorem unlinkChunk_spec (h : Filed a m bins F) (hp : bins.Holds p s) :
    ∃ m', unlinkChunk a m p s = some m' ∧ Filed a m' (bins.unlinkChunk p s) F ∧ BinStep a F m m' := by
  rw [unlinkChunk, Bins.unlinkChunk]
  split
  · next hs => exact unlinkSmallChunk_spec h hs hp
  · next hs => exact unlinkLargeChunk_spec h (Bool.eq_false_iff.mpr hs) hp

end Kiznix.Malloc
