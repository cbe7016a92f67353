import Kiznix.MallocTrees

/-! Searches in the trees: each ends, with the best of the free chunks on its way. -/

namespace Kiznix.Malloc

open SizeTrie LinkedTrie
open Switch (Arch)

variable {a : Arch} {m : State} {S F : Nat → Nat → Prop} {bins : Bins} {best : Best} {nb s t y n i rst fuel : Nat}
  {T R : Trie Nat}

theorem sizeSub_of_le (hle : t ≤ s) (hs : s < 2 ^ a.bits) : sizeSub a s t = s - t := by
  rw [sizeSub, show s + (2 ^ a.bits - t) = s - t + 2 ^ a.bits by omega, Nat.add_mod_right]
  exact Nat.mod_eq_of_lt (by omega)

/-- A difference below zero is at least that of zero. -/
theorem sizeSub_of_lt (hlt : s < t) (ht : t ≤ 2 ^ a.bits) : sizeSub a s t = s + (2 ^ a.bits - t) := by
  rw [sizeSub]
  exact Nat.mod_eq_of_lt (by omega)

/-! ### The best chunk so far -/

/-- The best chunk so far is one of `S` and has room for `nb` bytes. -/
structure Best.Sound (a : Arch) (nb : Nat) (S : Nat → Nat → Prop) (best : Best) : Prop where
  le : best.2 ≤ 2 ^ a.bits - nb
  fits : best.1 ≠ 0 → ∃ t, S best.1 t ∧ nb ≤ t ∧ best.2 = t - nb

theorem Best.sound_null (hpos : 0 < nb) (hnb : nb ≤ 2 ^ a.bits) : Best.Sound a nb S (0, sizeSub a 0 nb) where
  le := by
    rw [sizeSub_of_lt hpos hnb]
    omega
  fits h := absurd rfl h

theorem Best.Sound.improve (h : best.Sound a nb S) (hnb : nb ≤ 2 ^ a.bits) (hy : S y t) (ht : t < 2 ^ a.bits) :
    (best.improve y (sizeSub a t nb)).Sound a nb S := by
  rw [Best.improve]
  split
  · next hlt =>
      have hle : nb ≤ t := by
        by_contra hshort
        rw [sizeSub_of_lt (by omega) hnb] at hlt
        have hbound := h.le
        omega
      exact ⟨(Nat.le_of_lt hlt).trans h.le, fun _ => ⟨t, hy, hle, sizeSub_of_le hle ht⟩⟩
  · exact h

theorem improve_ne (hbest : best.1 ≠ 0) (hy : y ≠ 0) {trem : Nat} : (best.improve y trem).1 ≠ 0 := by
  rw [Best.improve]
  split
  · exact hy
  · exact hbest

/-! ### Trees of chunks -/

/-- The links lead from `t` to a trie of chunks of `S`, whose sizes are in their heads. -/
structure Grown (a : Arch) (m : State) (S : Nat → Nat → Prop) (t : Nat) (T : Trie Nat) : Prop where
  hangs : ∃ q, Hangs (links (m.get a)) 0 q t T
  null : 0 ∉ nodes T
  chunks : ∀ y ∈ T.items, S y.1 y.2 ∧ chunksize (m.head a y.1) = y.2 ∧ y.2 < 2 ^ a.bits

theorem Grown.nil : Grown a m S 0 .nil := ⟨⟨0, rfl⟩, (fun h => by cases h), (fun _ h => by cases h)⟩

theorem Grown.mono {S' : Nat → Nat → Prop} (h : Grown a m S t T) (hS : ∀ x n, S x n → S' x n) : Grown a m S' t T :=
  ⟨h.hangs, h.null, fun y hy => ⟨hS _ _ (h.chunks y hy).1, (h.chunks y hy).2⟩⟩

theorem Grown.root (h : Grown a m S t T) (ht : t ≠ 0) :
    ∃ n, S t n ∧ chunksize (m.head a t) = n ∧ n < 2 ^ a.bits := by
  obtain ⟨q, hangs⟩ := h.hangs
  cases T with
  | nil => exact absurd hangs ht
  | node n first others left right =>
      obtain ⟨rfl, -⟩ := hangs
      exact ⟨n, h.chunks (t, n) List.mem_cons_self⟩

theorem Grown.child (h : Grown a m S t T) (ht : t ≠ 0) (b : Bool) :
    ∃ C, Grown a m S (m.get a t (.child b)) C ∧ (nodes C).length < (nodes T).length := by
  obtain ⟨q, hangs⟩ := h.hangs
  cases T with
  | nil => exact absurd hangs ht
  | node n first others left right =>
      obtain ⟨rfl, -, -, -, hleft, hright⟩ := hangs
      obtain ⟨-, hother⟩ := not_or.mp (List.mem_cons.not.mp h.null)
      obtain ⟨-, hother⟩ := not_or.mp (List.mem_append.not.mp hother)
      obtain ⟨hlow, hhigh⟩ := not_or.mp (List.mem_append.not.mp hother)
      cases b with
      | true =>
          refine ⟨right, ⟨⟨t, hright⟩, hhigh, fun y hy => h.chunks y ?_⟩, ?_⟩
          · exact List.mem_cons_of_mem _ (List.mem_append_right _ (List.mem_append_right _ hy))
          · simp only [nodes, List.length_cons, List.length_append]
            omega
      | false =>
          refine ⟨left, ⟨⟨t, hleft⟩, hlow, fun y hy => h.chunks y ?_⟩, ?_⟩
          · exact List.mem_cons_of_mem _ (List.mem_append_right _ (List.mem_append_left _ hy))
          · simp only [nodes, List.length_cons, List.length_append]
            omega

theorem Grown.leftmost (h : Grown a m S t T) (ht : t ≠ 0) :
    ∃ C, Grown a m S (leftmostChild a m t) C ∧ (nodes C).length < (nodes T).length := by
  rw [leftmostChild]
  split
  · exact h.child ht false
  · exact h.child ht true

/-- The trees of the bins. -/
theorem Filed.grown (h : Filed a m bins F) (hsize : ∀ q n, bins.Holds q n → chunksize (m.head a q) = n)
    (hi : i < 32) : Grown a m bins.InTree (m.get a (m.treebinAt a i) .root) (bins.treebins i) where
  hangs := ⟨_, h.binned.linked.tree i hi⟩
  null := h.zero_notMem
  chunks := by
    rintro ⟨x, n⟩ hitem
    obtain ⟨rfl, hlarge⟩ := h.ok.tree_index _ _ hitem
    have hheld : bins.Holds x n := (Bins.holds_large hlarge).mpr hitem
    have hbound := h.spread.bound x n (h.held x n hheld)
    have hpos := (h.spread.bins_lt (h.held x n hheld) hi).2.2.1
    exact ⟨⟨hheld, hlarge⟩, hsize x n hheld, by dsimp only; omega⟩

/-! ### The loops -/

theorem smallestLoop_spec (hT : Grown a m S t T) (hfuel : (nodes T).length < fuel) (hnb : nb ≤ 2 ^ a.bits)
    (h : best.Sound a nb S) : ∃ best', smallestLoop a m nb fuel t best = some best' ∧ best'.Sound a nb S ∧
      (best.1 ≠ 0 → best'.1 ≠ 0) := by
  induction fuel generalizing t T best with
  | zero => exact absurd hfuel (Nat.not_lt_zero _)
  | succ fuel ih =>
      rw [smallestLoop]
      split
      · exact ⟨best, rfl, h, id⟩
      · next ht =>
          obtain ⟨n, hS, hhead, hn⟩ := hT.root ht
          obtain ⟨C, hC, hlength⟩ := hT.leftmost ht
          rw [hhead]
          obtain ⟨best', heq, hsound, hsome⟩ := ih hC (by omega) (h.improve hnb hS hn)
          exact ⟨best', heq, hsound, fun hbest => hsome (improve_ne hbest ht)⟩

theorem exactLoop_spec (hT : Grown a m S t T) (ht : t ≠ 0) (hfuel : (nodes T).length < fuel) (hnb : nb ≤ 2 ^ a.bits)
    (hlength : (nodes T).length < 2 ^ a.bits) (hR : Grown a m S rst R) (hrest : (nodes R).length < 2 ^ a.bits)
    (h : best.Sound a nb S) (k : BitVec a.bits) : ∃ t' best' T', exactLoop a m nb fuel k t rst best = some (t', best') ∧
      Grown a m S t' T' ∧ (nodes T').length < 2 ^ a.bits ∧ best'.Sound a nb S := by
  induction fuel generalizing t T rst R best k with
  | zero => exact absurd hfuel (Nat.not_lt_zero _)
  | succ fuel ih =>
      obtain ⟨n, hS, hhead, hn⟩ := hT.root ht
      have hbest := h.improve hnb hS hn
      rw [exactLoop]
      dsimp only
      rw [hhead]
      split
      · exact ⟨t, _, T, rfl, hT, hlength, hbest⟩
      · -- The right child is kept for later when the way does not go there.
        obtain ⟨R', hR', hrest'⟩ : ∃ R', Grown a m S (if m.get a t (.child true) ≠ 0 ∧
            m.get a t (.child true) ≠ m.get a t (.child k.msb) then m.get a t (.child true) else rst) R' ∧
            (nodes R').length < 2 ^ a.bits := by
          split
          · obtain ⟨C, hC, hless⟩ := hT.child ht true
            exact ⟨C, hC, hless.trans hlength⟩
          · exact ⟨R, hR, hrest⟩
        split
        · exact ⟨_, _, R', rfl, hR', hrest', hbest⟩
        · next hnext =>
            obtain ⟨C, hC, hless⟩ := hT.child ht k.msb
            exact ih hC hnext (by omega) (hless.trans hlength) hR' hrest' hbest (k <<< 1)

end Kiznix.Malloc
