import Mathlib.Data.List.Perm.Basic
import Mathlib.Data.List.Nodup
import Mathlib.Data.BitVec

/-! Binary tries of sized items. A node holds the items of one size, with the first of them in the tree and the
others in a ring behind it; the bits of the size lead from a node to its children. -/

namespace Kiznix.SizeTrie

inductive Trie (α : Type) where
  | nil
  | node (size : Nat) (first : α) (others : List α) (left right : Trie α)
  deriving DecidableEq

namespace Trie

variable {α : Type} [DecidableEq α] {n : Nat}

/-- A new item of a size that the trie has goes behind the first one, and one of a new size becomes a leaf; the bits
of the size are taken from the top. -/
def insert (x : α) (s : Nat) : BitVec n → Trie α → Trie α
  | _, nil => node s x [] nil nil
  | k, node t first others left right =>
      if t = s then node t first (x :: others) left right
      else if k.msb then node t first others left (insert x s (k <<< 1) right)
      else node t first others (insert x s (k <<< 1) left) right

/-- The leaf at the end of the way down through the right child, where there is one, and the trie without it. -/
def takeLeaf : Trie α → Option ((Nat × α × List α) × Trie α)
  | nil => none
  | node t first others left right =>
      match takeLeaf right with
      | some (leaf, right') => some (leaf, node t first others left right')
      | none =>
          match takeLeaf left with
          | some (leaf, left') => some (leaf, node t first others left' right)
          | none => some ((t, first, others), nil)

/-- The trie without the first item of its root: the last of the ring takes its place, else a leaf does. -/
def dropFirst (t : Nat) (others : List α) (left right : Trie α) : Trie α :=
  match others.getLast? with
  | some x => node t x others.dropLast left right
  | none =>
      match takeLeaf right with
      | some ((t', x, others'), right') => node t' x others' left right'
      | none =>
          match takeLeaf left with
          | some ((t', x, others'), left') => node t' x others' left' right
          | none => nil

def unlink (x : α) : Trie α → Trie α
  | nil => nil
  | node t first others left right =>
      if x = first then dropFirst t others left right
      else if x ∈ others then node t first (others.erase x) left right
      else node t first others (unlink x left) (unlink x right)

/-- The items with their sizes. -/
def items : Trie α → List (α × Nat)
  | nil => []
  | node t first others left right => (first, t) :: (others.map (·, t) ++ (items left ++ items right))

variable {x y : α} {s t : Nat} {k : BitVec n} {others : List α} {left right T T' : Trie α}

omit [DecidableEq α] in
theorem insert_ne_nil : T.insert x s k ≠ nil := by
  cases T with
  | nil => nofun
  | node t first others left right =>
      rw [insert]
      split
      · nofun
      · split <;> nofun

theorem items_insert : (T.insert x s k).items.Perm ((x, s) :: T.items) := by
  induction T generalizing k with
  | nil => exact List.Perm.refl _
  | node t first others left right ihl ihr =>
      refine List.perm_iff_count.mpr fun z => ?_
      have hleft := (ihl (k := k <<< 1)).count_eq z
      have hright := (ihr (k := k <<< 1)).count_eq z
      rw [insert]
      split
      · next heq =>
          simp only [items, List.count_cons, List.map_cons, List.count_append, heq]
          omega
      · split <;> simp only [items, List.count_cons, List.count_append] at * <;> omega

omit [DecidableEq α] in
theorem takeLeaf_eq_none : T.takeLeaf = none ↔ T = nil := by
  cases T with
  | nil => exact iff_of_true rfl rfl
  | node t first others left right =>
      refine iff_of_false ?_ nofun
      rw [takeLeaf]
      split
      · nofun
      · split <;> nofun

/-- The leaf's items are no longer in the trie that is left. -/
theorem items_takeLeaf (h : T.takeLeaf = some ((t, x, others), T')) :
    T.items.Perm ((x, t) :: (others.map (·, t) ++ T'.items)) := by
  induction T generalizing T' with
  | nil => cases h
  | node t' first others' left right ihl ihr =>
      refine List.perm_iff_count.mpr fun z => ?_
      rw [takeLeaf] at h
      split at h
      · next leaf right' hright =>
          cases h
          have hcount := (ihr hright).count_eq z
          simp only [items, List.count_cons, List.count_append] at *
          omega
      · split at h
        · next leaf left' hleft =>
            cases h
            have hcount := (ihl hleft).count_eq z
            simp only [items, List.count_cons, List.count_append] at *
            omega
        · next hright _ hleft =>
            cases h
            rw [takeLeaf_eq_none.mp hright, takeLeaf_eq_none.mp hleft]
            rfl

theorem items_dropFirst : (node t x others left right).items.Perm
    ((x, t) :: (dropFirst t others left right).items) := by
  refine List.perm_iff_count.mpr fun z => ?_
  rw [dropFirst]
  split
  · next y hlast =>
      have hothers : others.dropLast ++ [y] = others := List.dropLast_append_getLast? y hlast
      have hcount : (others.map (·, t)).count z = (others.dropLast.map (·, t)).count z + [(y, t)].count z := by
        conv_lhs => rw [← hothers, List.map_append, List.count_append]
        rfl
      simp only [items, List.count_cons, List.count_append, List.count_nil] at *
      omega
  · next hlast =>
      rw [List.getLast?_eq_none_iff.mp hlast]
      split
      · next t' y others' right' hright =>
          have hcount := (items_takeLeaf hright).count_eq z
          simp only [items, List.count_cons, List.count_append, List.map_nil, List.count_nil] at *
          omega
      · next hright =>
          rw [takeLeaf_eq_none.mp hright]
          split
          · next t' y others' left' hleft =>
              have hcount := (items_takeLeaf hleft).count_eq z
              simp only [items, List.count_cons, List.count_append, List.map_nil, List.count_nil] at *
              omega
          · next hleft =>
              rw [takeLeaf_eq_none.mp hleft]
              rfl

theorem unlink_of_notMem (hx : x ∉ T.items.map Prod.fst) : T.unlink x = T := by
  induction T with
  | nil => rfl
  | node t first others left right ihl ihr =>
      simp only [items, List.map_cons, List.map_append, List.map_map, List.mem_cons, List.mem_append, not_or] at hx
      obtain ⟨hfirst, hothers, hleft, hright⟩ := hx
      have hring : x ∉ others := fun hmem => hothers (List.mem_map.mpr ⟨x, hmem, rfl⟩)
      rw [unlink, if_neg hfirst, if_neg hring, ihl hleft, ihr hright]

/-- An item leaves the trie, and no other. -/
theorem items_unlink (hnodup : (T.items.map Prod.fst).Nodup) (hx : (x, s) ∈ T.items) :
    T.items.Perm ((x, s) :: (T.unlink x).items) := by
  induction T with
  | nil => cases hx
  | node t first others left right ihl ihr =>
      -- The item is in one of four places; `unlink` looks for it in all of them.
      have hparts := hnodup
      simp only [items, List.map_cons, List.map_append, List.nodup_cons, List.nodup_append'] at hparts
      obtain ⟨-, -, ⟨hleft, hright, hdisjoint⟩, -⟩ := hparts
      rw [unlink]
      split
      · next heq =>
          subst heq
          obtain heq | hx := List.mem_cons.mp hx
          · cases heq
            exact items_dropFirst
          · exact absurd (List.mem_map_of_mem hx) (List.nodup_cons.mp hnodup).1
      · next hne =>
          refine List.perm_iff_count.mpr fun z => ?_
          split
          · next hmem =>
              have hring : (x, t) ∈ (node t first others left right).items :=
                List.mem_cons_of_mem _ (List.mem_append_left _ (List.mem_map.mpr ⟨x, hmem, rfl⟩))
              obtain rfl : s = t := congrArg Prod.snd (List.inj_on_of_nodup_map hnodup hx hring rfl)
              have hcount := ((List.perm_cons_erase hmem).map (·, s)).count_eq z
              simp only [items, List.map_cons, List.count_cons, List.count_append] at *
              omega
          · next hmem =>
              simp only [items, List.mem_cons, List.mem_append, List.mem_map, Prod.mk.injEq] at hx
              obtain ⟨heq, -⟩ | ⟨y, hy, rfl, -⟩ | hx | hx := hx
              · exact absurd heq hne
              · exact absurd hy hmem
              · have hother : x ∉ right.items.map Prod.fst := fun hmem =>
                  hdisjoint (List.mem_map_of_mem hx) hmem
                have hcount := (ihl hleft hx).count_eq z
                rw [unlink_of_notMem hother]
                simp only [items, List.count_cons, List.count_append] at *
                omega
              · have hother : x ∉ left.items.map Prod.fst := fun hmem =>
                  hdisjoint hmem (List.mem_map_of_mem hx)
                have hcount := (ihr hright hx).count_eq z
                rw [unlink_of_notMem hother]
                simp only [items, List.count_cons, List.count_append] at *
                omega

end Trie

end Kiznix.SizeTrie
