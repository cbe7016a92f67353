import Kiznix.SizeTrie
import Kiznix.MallocModel

/-! The bins as lists and tries of free chunks: what the operations on them put in and take out. -/

namespace Kiznix.Malloc

open SizeTrie
open Switch (Arch)

variable {a : Arch} {p q s t i j : Nat} {x : BitVec 32}

/-! ### Bits of a map -/

theorem getLsbD_idx2bit (hi : i < 32) : (idx2bit i).getLsbD j = decide (j = i) := by
  rw [idx2bit, BitVec.getLsbD_shiftLeft, BitVec.getLsbD_one]
  by_cases heq : j = i
  · subst heq
    simp [hi]
  · by_cases hlt : j < i
    · simp [hlt, heq]
    · have hne : j - i ≠ 0 := by omega
      simp [heq, hne]

theorem getLsbD_clear (hi : i < 32) :
    (x &&& ~~~idx2bit i).getLsbD j = true ↔ x.getLsbD j = true ∧ ¬ j = i := by
  rw [BitVec.getLsbD_and, BitVec.getLsbD_not, getLsbD_idx2bit hi]
  by_cases hj : x.getLsbD j = true
  · have hlt : j < 32 := BitVec.lt_of_getLsbD hj
    simp [hj, hlt]
  · simp [hj]

theorem getLsbD_leastBit : (leastBit x).getLsbD i = true ↔ x.getLsbD i = true ∧ ∀ j < i, x.getLsbD j = false := by
  rw [leastBit, BitVec.getLsbD_and, BitVec.getLsbD_neg]
  by_cases hi : x.getLsbD i = true
  · have hlt : i < 32 := BitVec.lt_of_getLsbD hi
    rw [hi]
    simp [hlt]
  · rw [Bool.not_eq_true] at hi
    simp [hi]

/-- The index of the least bit of a map. -/
theorem bit2idx_leastBit (hx : x ≠ 0) : x.getLsbD (bit2idx (leastBit x)) = true ∧
    ∀ j < bit2idx (leastBit x), x.getLsbD j = false := by
  have hlowest : x.getLsbD x.ctz.toNat = true := BitVec.getLsbD_true_ctz_of_ne_zero hx
  have hbelow : ∀ j < x.ctz.toNat, x.getLsbD j = false := fun j hj => BitVec.getLsbD_false_of_lt_ctz hj
  have hleast : leastBit x ≠ 0 := fun h => by
    have hbit := getLsbD_leastBit.mpr ⟨hlowest, hbelow⟩
    rw [h] at hbit
    cases hbit.symm.trans BitVec.getLsbD_zero
  exact getLsbD_leastBit.mp (BitVec.getLsbD_true_ctz_of_ne_zero hleast)

theorem getLsbD_leftBits (hj : j < 32) : (leftBits (idx2bit j)).getLsbD i = decide (j < i ∧ i < 32) := by
  have hbit : ∀ k, (idx2bit j <<< 1).getLsbD k = decide (k = j + 1 ∧ k < 32) := by
    intro k
    rw [BitVec.getLsbD_shiftLeft, getLsbD_idx2bit hj]
    by_cases hk : k = j + 1
    · subst hk
      simp
    · have hne : ¬ (1 ≤ k ∧ k - 1 = j) := by omega
      by_cases hone : k < 1
      · simp [hk, hone]
      · have hother : k - 1 ≠ j := by omega
        simp [hk, hother]
  rw [leftBits, BitVec.getLsbD_or, BitVec.getLsbD_neg, hbit]
  simp only [hbit, decide_eq_true_eq]
  by_cases hlow : i = j + 1
  · subst hlow
    by_cases h32 : j + 1 < 32
    · simp [h32]
    · simp [h32]
  · by_cases h32 : i < 32
    · have hiff : j + 1 < i ∧ j + 1 < 32 ↔ j < i := by omega
      simp [hlow, h32, ← hiff]
    · simp [hlow, h32]

theorem getLsbD_eq_mod : x.getLsbD i = decide (x.toNat / 2 ^ i % 2 = 1) := Nat.testBit_eq_decide_div_mod_eq

theorem and_three_ne_zero : x &&& 3 ≠ 0 ↔ x.getLsbD 0 = true ∨ x.getLsbD 1 = true := by
  have hthree : (3 : BitVec 32).toNat = 2 ^ 2 - 1 := rfl
  have hzero : (0 : BitVec 32).toNat = 0 := rfl
  rw [ne_eq, ← BitVec.toNat_inj, BitVec.toNat_and, hthree, Nat.and_two_pow_sub_one_eq_mod, hzero, getLsbD_eq_mod,
    getLsbD_eq_mod, decide_eq_true_iff, decide_eq_true_iff]
  omega

/-- The index of the first of the two lowest bits that is set. -/
theorem getLsbD_not_and_one (hx : x &&& 3 ≠ 0) :
    x.getLsbD (~~~x &&& 1).toNat = true ∧ (~~~x &&& 1).toNat ≤ 1 := by
  have hone : (1 : BitVec 32).toNat = 2 ^ 1 - 1 := rfl
  have hvalue : (~~~x &&& 1).toNat = if x.getLsbD 0 then 0 else 1 := by
    have hlt := x.isLt
    rw [BitVec.toNat_and, BitVec.toNat_not, hone, Nat.and_two_pow_sub_one_eq_mod, getLsbD_eq_mod]
    simp only [decide_eq_true_iff]
    split <;> omega
  rw [hvalue]
  obtain hbit | hbit := and_three_ne_zero.mp hx
  · rw [if_pos hbit]
    exact ⟨hbit, by decide⟩
  · split
    · next hzero => exact ⟨hzero, by decide⟩
    · exact ⟨hbit, le_rfl⟩

/-- Of the bits from `j` on, the least one above the next is found. -/
theorem nextSmall_spec (hj : j < 32) (hnear : (x >>> j) &&& 3 = 0) (hx : x >>> j ≠ 0) :
    x.getLsbD (bit2idx (leastBit ((x >>> j) <<< j &&& leftBits (idx2bit j)))) = true ∧
      j + 2 ≤ bit2idx (leastBit ((x >>> j) <<< j &&& leftBits (idx2bit j))) := by
  have hbits : ∀ k, ((x >>> j) <<< j &&& leftBits (idx2bit j)).getLsbD k = true ↔ x.getLsbD k = true ∧ j < k := by
    intro k
    rw [BitVec.getLsbD_and, BitVec.getLsbD_shiftLeft, BitVec.getLsbD_ushiftRight, getLsbD_leftBits hj]
    by_cases hk : x.getLsbD k = true
    · have hlt : k < 32 := BitVec.lt_of_getLsbD hk
      by_cases hjk : j < k
      · have hadd : j + (k - j) = k := by omega
        have hge : ¬ k < j := by omega
        rw [hadd, hk]
        simp [hlt, hjk, hge]
      · simp [hjk]
    · by_cases hjk : j < k
      · have hadd : j + (k - j) = k := by omega
        rw [hadd]
        simp [hk]
      · simp [hjk]
  have hlow : ∀ k ≤ 1, x.getLsbD (j + k) = false := by
    intro k hk
    have hnot := not_or.mp (and_three_ne_zero.not.mp (not_not.mpr hnear))
    rw [BitVec.getLsbD_ushiftRight, BitVec.getLsbD_ushiftRight] at hnot
    obtain rfl | rfl : k = 0 ∨ k = 1 := by omega
    · exact Bool.eq_false_iff.mpr hnot.1
    · exact Bool.eq_false_iff.mpr hnot.2
  have hne : (x >>> j) <<< j &&& leftBits (idx2bit j) ≠ 0 := by
    intro hzero
    refine hx (BitVec.eq_of_getLsbD_eq fun k hk => ?_)
    rw [BitVec.getLsbD_ushiftRight]
    by_cases hk1 : k ≤ 1
    · rw [hlow k hk1]
      exact BitVec.getLsbD_zero.symm
    · refine (Bool.eq_false_iff.mpr fun hbit => ?_).trans BitVec.getLsbD_zero.symm
      have hset := (hbits (j + k)).mpr ⟨hbit, by omega⟩
      rw [hzero] at hset
      cases hset.symm.trans BitVec.getLsbD_zero
  obtain ⟨hset, hlt⟩ := (hbits _).mp (bit2idx_leastBit hne).1
  refine ⟨hset, ?_⟩
  by_contra hshort
  have hcontra := hlow (bit2idx (leastBit ((x >>> j) <<< j &&& leftBits (idx2bit j))) - j) (by omega)
  rw [show j + (bit2idx (leastBit ((x >>> j) <<< j &&& leftBits (idx2bit j))) - j) =
    bit2idx (leastBit ((x >>> j) <<< j &&& leftBits (idx2bit j))) by omega, hset] at hcontra
  cases hcontra

/-! ### The bins -/

/-- The bins and their maps, without the links. A small bin is the list of its chunks from its `fd`. -/
structure Bins where
  smallmap : BitVec 32
  treemap : BitVec 32
  smallbins : Nat → List Nat
  treebins : Nat → Trie Nat

def Bins.empty : Bins := ⟨0, 0, fun _ => [], fun _ => .nil⟩

section Operations

variable (a : Arch)

namespace Bins

variable (b : Bins)

def insertSmallChunk (p s : Nat) : Bins :=
  let i := smallIndex s
  if b.smallmap.getLsbD i then { b with smallbins := Function.update b.smallbins i (p :: b.smallbins i) }
  else { b with
    smallmap := b.smallmap ||| idx2bit i
    smallbins := Function.update b.smallbins i [p] }

/-- The bin `i` keeps the chunks `rest`: its bit is cleared when there are none. -/
def setSmallbin (i : Nat) (rest : List Nat) : Bins :=
  { b with
    smallmap := if rest = [] then b.smallmap &&& ~~~idx2bit i else b.smallmap
    smallbins := Function.update b.smallbins i rest }

def unlinkSmallChunk (p s : Nat) : Bins := b.setSmallbin (smallIndex s) ((b.smallbins (smallIndex s)).erase p)

def unlinkFirstSmallChunk (i : Nat) : Bins := b.setSmallbin i (b.smallbins i).tail

def insertLargeChunk (x s : Nat) : Bins :=
  let i := treeIndex s
  if b.treemap.getLsbD i then
    { b with treebins := Function.update b.treebins i ((b.treebins i).insert x s (treeKey a s)) }
  else { b with
    treemap := b.treemap ||| idx2bit i
    treebins := Function.update b.treebins i (.node s x [] .nil .nil) }

/-- `unlink_large_chunk` of a chunk of size `s`, the size from which its `index` was computed. -/
def unlinkLargeChunk (x s : Nat) : Bins :=
  let i := treeIndex s
  let rest := (b.treebins i).unlink x
  { b with
    treemap := if rest = .nil then b.treemap &&& ~~~idx2bit i else b.treemap
    treebins := Function.update b.treebins i rest }

def insertChunk (p s : Nat) : Bins := if isSmall s then b.insertSmallChunk p s else b.insertLargeChunk a p s

def unlinkChunk (p s : Nat) : Bins := if isSmall s then b.unlinkSmallChunk p s else b.unlinkLargeChunk p s

end Bins

end Operations

/-! ### What the bins hold -/

variable {b : Bins}

namespace Bins

/-- A chunk at `p` of size `s` is in its bin. -/
def Holds (b : Bins) (p s : Nat) : Prop :=
  if isSmall s then s % 8 = 0 ∧ p ∈ b.smallbins (smallIndex s) else (p, s) ∈ (b.treebins (treeIndex s)).items

/-- A chunk at `p` of size `s` is in a tree. -/
def InTree (b : Bins) (p s : Nat) : Prop := b.Holds p s ∧ isSmall s = false

/-- No chunk is in a bin twice, the maps tell which bins have chunks, and the chunks of a tree are of its sizes. -/
structure Ok (b : Bins) : Prop where
  small_nodup : ∀ i, (b.smallbins i).Nodup
  small_map : ∀ i, b.smallmap.getLsbD i = true ↔ b.smallbins i ≠ []
  tree_nodup : ∀ i, ((b.treebins i).items.map Prod.fst).Nodup
  tree_map : ∀ i, b.treemap.getLsbD i = true ↔ b.treebins i ≠ .nil
  tree_index : ∀ i y, y ∈ (b.treebins i).items → treeIndex y.2 = i ∧ isSmall y.2 = false

theorem ok_empty : Bins.empty.Ok where
  small_nodup _ := List.nodup_nil
  small_map i := iff_of_false (by simp [empty]) fun h => h rfl
  tree_nodup _ := List.nodup_nil
  tree_map i := iff_of_false (by simp [empty]) fun h => h rfl
  tree_index _ _ h := by cases h

theorem not_holds_empty : ¬ Bins.empty.Holds p s := by
  rw [Holds]
  split
  · exact fun h => by cases h.2
  · exact fun h => by cases h

theorem holds_small (hs : isSmall s = true) : b.Holds p s ↔ s % 8 = 0 ∧ p ∈ b.smallbins (smallIndex s) := by
  rw [Holds, if_pos hs]

theorem holds_large (hs : isSmall s = false) : b.Holds p s ↔ (p, s) ∈ (b.treebins (treeIndex s)).items := by
  rw [Holds, if_neg (by simp [hs])]

theorem isSmall_iff : isSmall s = true ↔ s < 256 := by
  rw [isSmall, decide_eq_true_iff]
  omega

theorem smallIndex_lt (hs : isSmall s = true) : smallIndex s < 32 := of_decide_eq_true hs

theorem smallIndex_inj (hs : s % 8 = 0) (ht : t % 8 = 0) (h : smallIndex s = smallIndex t) : s = t := by
  rw [smallIndex, smallIndex] at h
  omega

theorem treeIndex_lt : treeIndex s < 32 := by
  rw [treeIndex]
  split
  · decide
  · split
    · decide
    · next hx hhigh =>
        have hlog : (s / 256 % 2 ^ 32).log2 < 16 := (Nat.log2_lt hx).mpr (by omega)
        have hbit : s / 2 ^ ((s / 256 % 2 ^ 32).log2 + 7) % 2 < 2 := Nat.mod_lt _ (by decide)
        show _ * 2 + _ < 32
        omega

/-! ### Small bins -/

theorem insertSmallChunk_smallbins (h : b.Ok) :
    (b.insertSmallChunk p s).smallbins =
      Function.update b.smallbins (smallIndex s) (p :: b.smallbins (smallIndex s)) := by
  rw [insertSmallChunk]
  split
  · rfl
  · next hbit =>
      have hnil : b.smallbins (smallIndex s) = [] := not_not.mp ((h.small_map _).not.mp hbit)
      rw [hnil]

theorem insertSmallChunk_trees : (b.insertSmallChunk p s).treebins = b.treebins ∧
    (b.insertSmallChunk p s).treemap = b.treemap := by
  rw [insertSmallChunk]
  split <;> exact ⟨rfl, rfl⟩

theorem insertSmallChunk_map (hs : isSmall s = true) :
    (b.insertSmallChunk p s).smallmap.getLsbD j = true ↔ b.smallmap.getLsbD j = true ∨ j = smallIndex s := by
  rw [insertSmallChunk]
  split
  · next hbit => exact ⟨Or.inl, fun h => h.elim id fun heq => heq ▸ hbit⟩
  · rw [BitVec.getLsbD_or, Bool.or_eq_true, getLsbD_idx2bit (smallIndex_lt hs), decide_eq_true_iff]

theorem Ok.insertSmallChunk (h : b.Ok) (hs : isSmall s = true) (hmod : s % 8 = 0) (hnew : ¬ b.Holds p s) :
    (b.insertSmallChunk p s).Ok ∧
      ∀ q t, (b.insertSmallChunk p s).Holds q t ↔ b.Holds q t ∨ (q = p ∧ t = s) := by
  have hnot : p ∉ b.smallbins (smallIndex s) := fun hmem => hnew ((holds_small hs).mpr ⟨hmod, hmem⟩)
  refine ⟨⟨fun i => ?_, fun i => ?_, fun i => ?_, fun i => ?_, fun i y hy => ?_⟩, fun q t => ?_⟩
  · rw [insertSmallChunk_smallbins h, Function.update_apply]
    split
    · exact List.nodup_cons.mpr ⟨hnot, h.small_nodup _⟩
    · exact h.small_nodup i
  · rw [insertSmallChunk_map hs, insertSmallChunk_smallbins h, Function.update_apply]
    split
    · next heq => exact iff_of_true (Or.inr heq) (List.cons_ne_nil _ _)
    · next hne => rw [or_iff_left hne, h.small_map]
  · rw [insertSmallChunk_trees.1]
    exact h.tree_nodup i
  · rw [insertSmallChunk_trees.1, insertSmallChunk_trees.2]
    exact h.tree_map i
  · rw [insertSmallChunk_trees.1] at hy
    exact h.tree_index i y hy
  · cases ht : isSmall t with
    | true =>
        rw [holds_small ht, holds_small ht, insertSmallChunk_smallbins h, Function.update_apply]
        split
        · next heq =>
            -- Sizes in one small bin are the same, since they are multiples of 8.
            rw [List.mem_cons, ← heq]
            constructor
            · rintro ⟨htm, rfl | hmem⟩
              · exact Or.inr ⟨rfl, smallIndex_inj htm hmod heq⟩
              · exact Or.inl ⟨htm, hmem⟩
            · rintro (⟨htm, hmem⟩ | ⟨rfl, rfl⟩)
              · exact ⟨htm, Or.inr hmem⟩
              · exact ⟨hmod, Or.inl rfl⟩
        · next hne => exact (or_iff_left fun heq => hne (congrArg smallIndex heq.2)).symm
    | false =>
        rw [holds_large ht, holds_large ht, insertSmallChunk_trees.1, or_iff_left]
        rintro ⟨-, rfl⟩
        exact absurd (ht.symm.trans hs) Bool.false_ne_true

theorem setSmallbin_map {rest : List Nat} (hi : i < 32) :
    (b.setSmallbin i rest).smallmap.getLsbD j = true ↔ b.smallmap.getLsbD j = true ∧ ¬ (rest = [] ∧ j = i) := by
  rw [setSmallbin]
  split
  · next hnil =>
      rw [getLsbD_clear hi]
      exact and_congr_right fun _ => not_congr (and_iff_right hnil).symm
  · next hne => exact (and_iff_left fun h => hne h.1).symm

/-- A chunk leaves its small bin. -/
theorem Ok.setSmallbin (h : b.Ok) {rest : List Nat} (hi : i < 32) (hperm : (b.smallbins i).Perm (p :: rest)) :
    (b.setSmallbin i rest).Ok ∧
      ∀ q t, (b.setSmallbin i rest).Holds q t ↔ b.Holds q t ∧ ¬ (q = p ∧ t = smallIndex2size i) := by
  have hnodup : (p :: rest).Nodup := hperm.nodup_iff.mp (h.small_nodup i)
  have hbins : (b.setSmallbin i rest).smallbins = Function.update b.smallbins i rest := rfl
  refine ⟨⟨fun j => ?_, fun j => ?_, h.tree_nodup, h.tree_map, h.tree_index⟩, fun q t => ?_⟩
  · rw [hbins, Function.update_apply]
    split
    · exact (List.nodup_cons.mp hnodup).2
    · exact h.small_nodup j
  · rw [setSmallbin_map hi, hbins, Function.update_apply]
    split
    · next heq =>
        subst heq
        have hsome : b.smallmap.getLsbD j = true := (h.small_map j).mpr fun hnil => by
          rw [hnil] at hperm
          exact absurd hperm.length_eq (by simp)
        exact ⟨fun hnot hnil => hnot.2 ⟨hnil, rfl⟩, fun hne => ⟨hsome, fun hnil => hne hnil.1⟩⟩
    · next hne => rw [h.small_map, and_iff_left fun heq => hne heq.2]
  · cases ht : isSmall t with
    | true =>
        rw [holds_small ht, holds_small ht, hbins, Function.update_apply]
        split
        · next heq =>
            subst heq
            rw [hperm.mem_iff, List.mem_cons]
            constructor
            · rintro ⟨htm, hmem⟩
              exact ⟨⟨htm, Or.inr hmem⟩, fun heq => (List.nodup_cons.mp hnodup).1 (heq.1 ▸ hmem)⟩
            · rintro ⟨⟨htm, rfl | hmem⟩, hne⟩
              · refine absurd ⟨rfl, ?_⟩ hne
                rw [smallIndex2size, smallIndex]
                omega
              · exact ⟨htm, hmem⟩
        · next hne =>
            refine (and_iff_left fun heq => hne ?_).symm
            rw [heq.2, smallIndex2size, smallIndex]
            omega
    | false =>
        rw [holds_large ht, holds_large ht]
        refine (and_iff_left fun heq => ?_).symm
        rw [heq.2, isSmall, smallIndex2size] at ht
        exact absurd ht (by simpa using hi)

theorem Ok.unlinkSmallChunk (h : b.Ok) (hs : isSmall s = true) (hold : b.Holds p s) :
    (b.unlinkSmallChunk p s).Ok ∧
      ∀ q t, (b.unlinkSmallChunk p s).Holds q t ↔ b.Holds q t ∧ ¬ (q = p ∧ t = s) := by
  obtain ⟨hmod, hmem⟩ := (holds_small hs).mp hold
  have hsize : smallIndex2size (smallIndex s) = s := by
    rw [smallIndex2size, smallIndex]
    omega
  have hspec := h.setSmallbin (smallIndex_lt hs) (List.perm_cons_erase hmem)
  rw [hsize] at hspec
  exact hspec

theorem Ok.unlinkFirstSmallChunk (h : b.Ok) (hi : i < 32) {rest : List Nat} (hbin : b.smallbins i = p :: rest) :
    (b.unlinkFirstSmallChunk i).Ok ∧
      ∀ q t, (b.unlinkFirstSmallChunk i).Holds q t ↔ b.Holds q t ∧ ¬ (q = p ∧ t = smallIndex2size i) := by
  rw [Bins.unlinkFirstSmallChunk, hbin]
  exact h.setSmallbin hi (hbin ▸ List.Perm.refl _)

/-! ### Trees -/

theorem insertLargeChunk_small : (b.insertLargeChunk a p s).smallbins = b.smallbins ∧
    (b.insertLargeChunk a p s).smallmap = b.smallmap := by
  rw [insertLargeChunk]
  split <;> exact ⟨rfl, rfl⟩

theorem insertLargeChunk_map :
    (b.insertLargeChunk a p s).treemap.getLsbD j = true ↔ b.treemap.getLsbD j = true ∨ j = treeIndex s := by
  rw [insertLargeChunk]
  split
  · next hbit => exact ⟨Or.inl, fun h => h.elim id fun heq => heq ▸ hbit⟩
  · rw [BitVec.getLsbD_or, Bool.or_eq_true, getLsbD_idx2bit treeIndex_lt, decide_eq_true_iff]

theorem insertLargeChunk_of_ne (hne : i ≠ treeIndex s) :
    (b.insertLargeChunk a p s).treebins i = b.treebins i := by
  rw [insertLargeChunk]
  split <;> exact Function.update_of_ne hne _ _

/-- The new chunk and those before are in the tree. -/
theorem Ok.insertLargeChunk_items (h : b.Ok) : (b.insertLargeChunk a p s).treebins (treeIndex s) ≠ .nil ∧
    ((b.insertLargeChunk a p s).treebins (treeIndex s)).items.Perm ((p, s) :: (b.treebins (treeIndex s)).items) := by
  rw [insertLargeChunk]
  split
  · exact ⟨by simpa using Trie.insert_ne_nil, by simpa using Trie.items_insert⟩
  · next hbit =>
      have hnil : b.treebins (treeIndex s) = .nil := not_not.mp ((h.tree_map _).not.mp hbit)
      rw [hnil]
      simp [Trie.items]

theorem Ok.insertLargeChunk (h : b.Ok) (hs : isSmall s = false) (hnew : ∀ t, ¬ b.Holds p t) :
    (b.insertLargeChunk a p s).Ok ∧
      ∀ q t, (b.insertLargeChunk a p s).Holds q t ↔ b.Holds q t ∨ (q = p ∧ t = s) := by
  obtain ⟨hne, hitems⟩ := h.insertLargeChunk_items (a := a) (p := p) (s := s)
  have hnot : p ∉ (b.treebins (treeIndex s)).items.map Prod.fst := fun hmem => by
    obtain ⟨⟨q, t⟩, hitem, rfl⟩ := List.mem_map.mp hmem
    obtain ⟨hindex, hlarge⟩ := h.tree_index _ _ hitem
    exact hnew t ((holds_large hlarge).mpr (hindex ▸ hitem))
  -- Only the tree of the chunk's index changes, and with it the bit of that index.
  refine ⟨⟨fun i => ?_, fun i => ?_, fun i => ?_, fun i => ?_, fun i y hy => ?_⟩, fun q t => ?_⟩
  · rw [insertLargeChunk_small.1]
    exact h.small_nodup i
  · rw [insertLargeChunk_small.1, insertLargeChunk_small.2]
    exact h.small_map i
  · by_cases hi : i = treeIndex s
    · subst hi
      rw [(hitems.map Prod.fst).nodup_iff]
      exact List.nodup_cons.mpr ⟨hnot, h.tree_nodup _⟩
    · rw [insertLargeChunk_of_ne hi]
      exact h.tree_nodup i
  · rw [insertLargeChunk_map]
    by_cases hi : i = treeIndex s
    · subst hi
      exact iff_of_true (Or.inr rfl) hne
    · rw [insertLargeChunk_of_ne hi, or_iff_left hi, h.tree_map]
  · by_cases hi : i = treeIndex s
    · subst hi
      obtain rfl | hmem := List.mem_cons.mp (hitems.mem_iff.mp hy)
      · exact ⟨rfl, hs⟩
      · exact h.tree_index _ _ hmem
    · rw [insertLargeChunk_of_ne hi] at hy
      exact h.tree_index i y hy
  · cases ht : isSmall t with
    | true =>
        rw [holds_small ht, holds_small ht, insertLargeChunk_small.1, or_iff_left]
        rintro ⟨-, rfl⟩
        exact absurd (hs.symm.trans ht) Bool.false_ne_true
    | false =>
        rw [holds_large ht, holds_large ht]
        by_cases hi : treeIndex t = treeIndex s
        · rw [hi, hitems.mem_iff, List.mem_cons, Prod.mk.injEq, or_comm]
        · rw [insertLargeChunk_of_ne hi, or_iff_left fun heq => hi (congrArg treeIndex heq.2)]

theorem unlinkLargeChunk_map :
    (b.unlinkLargeChunk p s).treemap.getLsbD j = true ↔
      b.treemap.getLsbD j = true ∧ ¬ ((b.treebins (treeIndex s)).unlink p = .nil ∧ j = treeIndex s) := by
  rw [unlinkLargeChunk]
  show (ite _ _ _ : BitVec 32).getLsbD j = true ↔ _
  split
  · next hnil =>
      rw [getLsbD_clear treeIndex_lt]
      exact and_congr_right fun _ => not_congr (and_iff_right hnil).symm
  · next hne => exact (and_iff_left fun h => hne h.1).symm

theorem Ok.unlinkLargeChunk (h : b.Ok) (hs : isSmall s = false) (hold : b.Holds p s) :
    (b.unlinkLargeChunk p s).Ok ∧
      ∀ q t, (b.unlinkLargeChunk p s).Holds q t ↔ b.Holds q t ∧ ¬ (q = p ∧ t = s) := by
  have hmem := (holds_large hs).mp hold
  have hitems := Trie.items_unlink (h.tree_nodup (treeIndex s)) hmem
  have hbins : (b.unlinkLargeChunk p s).treebins =
      Function.update b.treebins (treeIndex s) ((b.treebins (treeIndex s)).unlink p) := rfl
  have hnodup := (hitems.map Prod.fst).nodup_iff.mp (h.tree_nodup _)
  rw [List.map_cons, List.nodup_cons] at hnodup
  refine ⟨⟨h.small_nodup, h.small_map, fun i => ?_, fun i => ?_, fun i y hy => ?_⟩, fun q t => ?_⟩
  · rw [hbins, Function.update_apply]
    split
    · exact hnodup.2
    · exact h.tree_nodup i
  · rw [unlinkLargeChunk_map, hbins, Function.update_apply]
    split
    · next heq =>
        subst heq
        have hsome : b.treemap.getLsbD (treeIndex s) = true := (h.tree_map _).mpr fun hnil => by
          rw [hnil] at hmem
          cases hmem
        exact ⟨fun hnot hnil => hnot.2 ⟨hnil, rfl⟩, fun hne => ⟨hsome, fun hnil => hne hnil.1⟩⟩
    · next hne => rw [h.tree_map, and_iff_left fun heq => hne heq.2]
  · rw [hbins, Function.update_apply] at hy
    split at hy
    · next heq =>
        subst heq
        exact h.tree_index _ y (hitems.mem_iff.mpr (List.mem_cons_of_mem _ hy))
    · exact h.tree_index i y hy
  · cases ht : isSmall t with
    | true =>
        rw [holds_small ht, holds_small ht]
        refine (and_iff_left ?_).symm
        rintro ⟨-, rfl⟩
        exact absurd (hs.symm.trans ht) Bool.false_ne_true
    | false =>
        rw [holds_large ht, holds_large ht, hbins, Function.update_apply]
        split
        · next heq =>
            rw [heq, hitems.mem_iff, List.mem_cons, Prod.mk.injEq]
            constructor
            · exact fun hq => ⟨Or.inr hq, fun heq => hnodup.1 (List.mem_map.mpr ⟨_, hq, heq.1⟩)⟩
            · rintro ⟨heq | hq, hne⟩
              · exact absurd heq hne
              · exact hq
        · next hne => exact (and_iff_left fun heq => hne (congrArg treeIndex heq.2)).symm

/-! ### Chunks of any size -/

theorem Ok.insertChunk (h : b.Ok) (hmod : s % 8 = 0) (hnew : ∀ t, ¬ b.Holds p t) :
    (b.insertChunk a p s).Ok ∧ ∀ q t, (b.insertChunk a p s).Holds q t ↔ b.Holds q t ∨ (q = p ∧ t = s) := by
  rw [Bins.insertChunk]
  split
  · next hs => exact h.insertSmallChunk hs hmod (hnew s)
  · next hs => exact h.insertLargeChunk (Bool.eq_false_iff.mpr hs) hnew

theorem Ok.unlinkChunk (h : b.Ok) (hold : b.Holds p s) :
    (b.unlinkChunk p s).Ok ∧ ∀ q t, (b.unlinkChunk p s).Holds q t ↔ b.Holds q t ∧ ¬ (q = p ∧ t = s) := by
  rw [Bins.unlinkChunk]
  split
  · next hs => exact h.unlinkSmallChunk hs hold
  · next hs => exact h.unlinkLargeChunk (Bool.eq_false_iff.mpr hs) hold

end Bins

end Kiznix.Malloc
