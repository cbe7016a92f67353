import Kiznix.SizeTrie

/-! Rings and tries as links: each node knows the next and the previous one of its ring, and the first of a ring its
parent and its children. What the links lead to is a trie of items, and a few links change when an item comes in or
goes out. -/

namespace Kiznix.LinkedTrie

open SizeTrie

structure Pointers (α : Type) where
  next : α → α
  prev : α → α
  parent : α → α
  child : Bool → α → α

variable {α : Type} {H H' : Pointers α} {u v x y : α} {l l' : List α}

/-! ### Rings -/

/-- The links lead from `u` through the nodes of a list to `v`, and back. -/
def Path (H : Pointers α) (u : α) : List α → α → Prop
  | [], v => H.next u = v ∧ H.prev v = u
  | x :: l, v => H.next u = x ∧ H.prev x = u ∧ Path H x l v

theorem path_append : Path H u (l ++ x :: l') v ↔ Path H u l x ∧ Path H x l' v := by
  induction l generalizing u with
  | nil => exact and_assoc.symm
  | cons y l ih =>
      rw [List.cons_append, Path, Path, ih, and_assoc, and_assoc]

/-- A ring may begin with any of its nodes. -/
theorem path_rotate : Path H u (l ++ [v]) u ↔ Path H v (u :: l) v := by
  rw [path_append, Path, Path, and_comm, and_assoc]

theorem Path.congr (h : Path H u l v) (hnext : ∀ y ∈ u :: l, H'.next y = H.next y)
    (hprev : ∀ y ∈ l ++ [v], H'.prev y = H.prev y) : Path H' u l v := by
  induction l generalizing u with
  | nil => exact ⟨(hnext u List.mem_cons_self).trans h.1, (hprev v List.mem_cons_self).trans h.2⟩
  | cons x l ih =>
      obtain ⟨hx, hu, h⟩ := h
      refine ⟨(hnext u List.mem_cons_self).trans hx, (hprev x List.mem_cons_self).trans hu, ih h ?_ ?_⟩
      · exact fun y hy => hnext y (List.mem_cons_of_mem _ hy)
      · exact fun y hy => hprev y (List.mem_cons_of_mem _ hy)

theorem Path.prev_mem (h : Path H u l v) : H.prev v ∈ u :: l := by
  induction l generalizing u with
  | nil => exact h.2 ▸ List.mem_cons_self
  | cons x l ih => exact List.mem_cons_of_mem _ (ih h.2.2)

theorem Path.next_mem (h : Path H u l v) : H.next u ∈ l ++ [v] := by
  cases l with
  | nil => exact h.1 ▸ List.mem_cons_self
  | cons x l => exact h.1 ▸ List.mem_cons_self

theorem Path.prev_next (h : Path H u l v) : H.prev (H.next u) = u := by
  cases l with
  | nil => rw [h.1, h.2]
  | cons x l => rw [h.1, h.2.1]

theorem Path.next_prev (h : Path H u l v) : H.next (H.prev v) = v := by
  induction l generalizing u with
  | nil => rw [h.2, h.1]
  | cons x l ih => exact ih h.2.2

/-- The neighbours of a node are in its ring. -/
theorem Path.ring_mem (h : Path H u l u) (hx : x ∈ u :: l) : H.next x ∈ u :: l ∧ H.prev x ∈ u :: l := by
  have hperm : ∀ y, y ∈ l ++ [u] → y ∈ u :: l := fun y hy => by simpa [or_comm] using hy
  obtain rfl | hx := List.mem_cons.mp hx
  · exact ⟨hperm _ h.next_mem, h.prev_mem⟩
  obtain ⟨l, l', rfl⟩ := List.append_of_mem hx
  obtain ⟨hleft, hright⟩ := path_append.mp h
  refine ⟨hperm _ ?_, ?_⟩
  · rw [List.append_assoc]
    exact List.mem_append_right _ (List.mem_cons_of_mem _ hright.next_mem)
  · exact List.mem_append_left _ hleft.prev_mem

theorem Path.ring_inverse (h : Path H u l u) (hx : x ∈ u :: l) : H.prev (H.next x) = x ∧ H.next (H.prev x) = x := by
  obtain rfl | hx := List.mem_cons.mp hx
  · exact ⟨h.prev_next, h.next_prev⟩
  obtain ⟨l, l', rfl⟩ := List.append_of_mem hx
  obtain ⟨hleft, hright⟩ := path_append.mp h
  exact ⟨hright.prev_next, hleft.next_prev⟩

theorem Path.walk {P : α → Prop} (h : Path H u l v) (hu : P u) (hstep : ∀ y, P y → H.next y ∈ l → P (H.next y)) :
    ∀ x ∈ l, P x := by
  induction l generalizing u with
  | nil => exact fun x hx => by cases hx
  | cons y l ih =>
      obtain ⟨rfl, -, hrest⟩ := h
      have hy := hstep u hu List.mem_cons_self
      intro x hx
      obtain rfl | hx := List.mem_cons.mp hx
      · exact hy
      · exact ih hrest hy (fun z hz hin => hstep z hz (List.mem_cons_of_mem _ hin)) x hx

/-- What the links `next` lead to from `u` before they come back to it. -/
inductive Follows (H : Pointers α) (u : α) : α → Prop
  | first : H.next u ≠ u → Follows H u (H.next u)
  | next {x : α} : Follows H u x → H.next x ≠ u → Follows H u (H.next x)

theorem Path.follows (h : Path H u l u) (hnodup : (u :: l).Nodup) : Follows H u x ↔ x ∈ l := by
  have hout := (List.nodup_cons.mp hnodup).1
  constructor
  · intro hx
    induction hx with
    | first hne => exact (List.mem_cons.mp (h.ring_mem List.mem_cons_self).1).resolve_left hne
    | next _ hne ih => exact (List.mem_cons.mp (h.ring_mem (List.mem_cons_of_mem _ ih)).1).resolve_left hne
  · intro hx
    refine (h.walk (P := fun y => y = u ∨ Follows H u y) (Or.inl rfl) (fun y hy hin => ?_) x hx).resolve_left ?_
    · have hne : H.next y ≠ u := fun heq => hout (heq ▸ hin)
      obtain rfl | hy := hy
      · exact Or.inr (.first hne)
      · exact Or.inr (.next hy hne)
    · rintro rfl
      exact hout hx

/-- A node is its own neighbour only in a ring of one. -/
theorem Path.prev_ne (h : Path H u l u) (hnodup : (u :: l).Nodup) (hl : l ≠ []) (hx : x ∈ u :: l) : H.prev x ≠ x := by
  obtain ⟨hout, hrest⟩ := List.nodup_cons.mp hnodup
  obtain rfl | hx := List.mem_cons.mp hx
  · obtain ⟨l, y, rfl⟩ := l.eq_nil_or_concat.resolve_left hl
    rw [List.concat_eq_append] at *
    have hy : H.prev x = y := (path_append.mp h).2.2
    exact fun heq => hout (heq ▸ hy ▸ List.mem_append_right l List.mem_cons_self)
  · obtain ⟨l, l', rfl⟩ := List.append_of_mem hx
    intro heq
    obtain hu | hin := List.mem_cons.mp (heq ▸ (path_append.mp h).1.prev_mem)
    · exact hout (hu ▸ hx)
    · exact (List.nodup_append'.mp hrest).2.2 hin List.mem_cons_self

/-- The neighbours of a node are the same only in a ring of two. -/
theorem Path.prev_eq_next (h : Path H u (l ++ x :: l') u) (hnodup : (u :: (l ++ x :: l')).Nodup) :
    H.prev x = H.next x ↔ l = [] ∧ l' = [] := by
  obtain ⟨hleft, hright⟩ := path_append.mp h
  constructor
  · intro heq
    have hprev := hleft.prev_mem
    have hnext := heq ▸ hright.next_mem
    rw [← List.cons_append] at hnodup
    obtain ⟨hone, htwo, hdisjoint⟩ := List.nodup_append'.mp hnodup
    have hu : H.prev x = u := by
      obtain hnext | hnext := List.mem_append.mp hnext
      · exact absurd (List.mem_cons_of_mem _ hnext) fun hin => hdisjoint hprev hin
      · exact List.mem_singleton.mp hnext
    refine ⟨?_, ?_⟩
    · obtain rfl | ⟨l, y, rfl⟩ := l.eq_nil_or_concat
      · rfl
      · rw [List.concat_eq_append] at *
        have hy : H.prev x = y := (path_append.mp hleft).2.2
        exact absurd (List.mem_append_right l (List.mem_singleton_self y)) fun hin =>
          (List.nodup_cons.mp hone).1 (hu ▸ hy ▸ hin)
    · cases l' with
      | nil => rfl
      | cons y l' =>
          have hy : H.next x = y := hright.1
          exact absurd (List.mem_cons_of_mem x (List.mem_cons_self (a := y) (l := l'))) fun hin =>
            hdisjoint List.mem_cons_self (hu ▸ heq ▸ hy ▸ hin)
  · rintro ⟨rfl, rfl⟩
    rw [hleft.2, hright.1]

/-- A node comes in behind the first one. -/
theorem Path.insert (h : Path H u l u) (hnodup : (u :: l).Nodup) (hu : H'.next u = x) (hback : H'.prev x = u)
    (hfore : H'.next x = H.next u) (hfirst : H'.prev (H.next u) = x) (hnext : ∀ y ∈ l, H'.next y = H.next y)
    (hprev : ∀ y ∈ u :: l, y ≠ H.next u → H'.prev y = H.prev y) : Path H' u (x :: l) u := by
  refine ⟨hu, hback, ?_⟩
  cases l with
  | nil =>
      obtain ⟨hself, -⟩ := h
      rw [hself] at hfore hfirst
      exact ⟨hfore, hfirst⟩
  | cons y l =>
      obtain ⟨hy, -, h⟩ := h
      obtain ⟨hout, hrest⟩ := List.nodup_cons.mp hnodup
      rw [hy] at hfore hfirst hprev
      refine ⟨hfore, hfirst, h.congr hnext fun z hz => ?_⟩
      obtain hz | hz := List.mem_append.mp hz
      · exact hprev z (List.mem_cons_of_mem _ (List.mem_cons_of_mem _ hz)) fun heq =>
          (List.nodup_cons.mp hrest).1 (heq ▸ hz)
      · obtain rfl := List.mem_singleton.mp hz
        exact hprev z List.mem_cons_self fun heq => hout (heq ▸ List.mem_cons_self)

/-- The way from `u` ends at another node. -/
theorem Path.retarget (h : Path H u l x) (hnodup : (u :: l).Nodup) (hlast : H'.next (H.prev x) = v)
    (hback : H'.prev v = H.prev x) (hnext : ∀ y ∈ u :: l, y ≠ H.prev x → H'.next y = H.next y)
    (hprev : ∀ y ∈ l, H'.prev y = H.prev y) : Path H' u l v := by
  induction l generalizing u with
  | nil =>
      obtain ⟨-, hx⟩ := h
      rw [hx] at hlast hback
      exact ⟨hlast, hback⟩
  | cons y l ih =>
      obtain ⟨hy, hu, h⟩ := h
      obtain ⟨hout, hrest⟩ := List.nodup_cons.mp hnodup
      refine ⟨(hnext u List.mem_cons_self fun heq => hout (heq ▸ h.prev_mem)).trans hy,
        (hprev y List.mem_cons_self).trans hu, ih h hrest ?_ ?_⟩
      · exact fun z hz => hnext z (List.mem_cons_of_mem _ hz)
      · exact fun z hz => hprev z (List.mem_cons_of_mem _ hz)

/-- The nodes before and behind one that goes out are linked with each other. -/
theorem Path.remove (h : Path H u (l ++ x :: l') u) (hnodup : (u :: (l ++ x :: l')).Nodup)
    (hfore : H'.next (H.prev x) = H.next x) (hback : H'.prev (H.next x) = H.prev x)
    (hnext : ∀ y ∈ u :: (l ++ l'), y ≠ H.prev x → H'.next y = H.next y)
    (hprev : ∀ y ∈ u :: (l ++ l'), y ≠ H.next x → H'.prev y = H.prev y) : Path H' u (l ++ l') u := by
  obtain ⟨hleft, hright⟩ := path_append.mp h
  have hsplit : (u :: l).Nodup ∧ (x :: l').Nodup ∧ ∀ y ∈ u :: l, y ∉ x :: l' := by
    rw [← List.cons_append] at hnodup
    obtain ⟨hone, htwo, hdisjoint⟩ := List.nodup_append'.mp hnodup
    exact ⟨hone, htwo, fun y hy hy' => hdisjoint hy hy'⟩
  obtain ⟨hone, htwo, hdisjoint⟩ := hsplit
  have hlast := hleft.prev_mem
  have htail : ∀ y ∈ l, y ≠ H.next x := fun y hy heq => by
    obtain hmem | hmem := List.mem_append.mp (heq ▸ hright.next_mem)
    · exact hdisjoint y (List.mem_cons_of_mem _ hy) (List.mem_cons_of_mem _ hmem)
    · obtain rfl := List.mem_singleton.mp hmem
      exact (List.nodup_cons.mp hone).1 hy
  have hstart : Path H' u l (H.next x) :=
    hleft.retarget hone hfore hback (fun y hy => hnext y (List.mem_append_left l' hy)) fun y hy =>
      hprev y (List.mem_cons_of_mem _ (List.mem_append_left l' hy)) (htail y hy)
  cases l' with
  | nil =>
      rw [hright.1] at hstart
      rwa [List.append_nil]
  | cons z l' =>
      obtain ⟨hz, -, hright⟩ := hright
      rw [hz] at hstart hprev
      refine path_append.mpr ⟨hstart, hright.congr (fun y hy => ?_) fun y hy => ?_⟩
      · exact hnext y (List.mem_cons_of_mem _ (List.mem_append_right l hy)) fun heq =>
          hdisjoint y (heq ▸ hlast) (List.mem_cons_of_mem _ hy)
      · obtain hy | hy := List.mem_append.mp hy
        · refine hprev y (List.mem_cons_of_mem _ (List.mem_append_right l (List.mem_cons_of_mem _ hy))) ?_
          rintro rfl
          exact (List.nodup_cons.mp (List.nodup_cons.mp htwo).2).1 hy
        · obtain rfl := List.mem_singleton.mp hy
          refine hprev y List.mem_cons_self ?_
          rintro rfl
          exact hdisjoint y List.mem_cons_self (List.mem_cons_of_mem _ List.mem_cons_self)

/-! ### Tries -/

/-- The nodes of a trie. -/
def nodes : Trie α → List α
  | .nil => []
  | .node _ first others left right => first :: (others ++ (nodes left ++ nodes right))

theorem items_nodes {T : Trie α} : T.items.map Prod.fst = nodes T := by
  induction T with
  | nil => rfl
  | node t first others left right ihl ihr =>
      simp [Trie.items, nodes, ihl, ihr, Function.comp_def]

/-- A node that is in the ring of another: it has no place of its own in the trie. -/
structure Ringed (H : Pointers α) (null y : α) : Prop where
  parent : H.parent y = null
  child : ∀ b, H.child b y = null

/-- The pointer `p` leads to a trie whose root has the parent `q`. -/
def Hangs (H : Pointers α) (null : α) : α → α → Trie α → Prop
  | _, p, .nil => p = null
  | q, p, .node _ first others left right =>
      p = first ∧ H.parent first = q ∧ Path H first others first ∧ (∀ y ∈ others, Ringed H null y) ∧
        Hangs H null first (H.child false first) left ∧ Hangs H null first (H.child true first) right

/-- The links of a node are the same. -/
structure SameLinks (H H' : Pointers α) (y : α) : Prop where
  next : H'.next y = H.next y
  prev : H'.prev y = H.prev y
  parent : H'.parent y = H.parent y
  child : ∀ b, H'.child b y = H.child b y

variable {null p q : α} {T : Trie α} {t : Nat} {first : α} {others : List α} {left right left' right' : Trie α}

theorem Hangs.mem_nodes (h : Hangs H null q p T) (hp : p ≠ null) : p ∈ nodes T := by
  cases T with
  | nil => exact absurd h hp
  | node t first others left right =>
      obtain ⟨rfl, -⟩ := h
      exact List.mem_cons_self

theorem Hangs.eq_nil_iff (h : Hangs H null q p T) (hnull : null ∉ nodes T) : T = .nil ↔ p = null := by
  cases T with
  | nil => exact iff_of_true rfl h
  | node t first others left right =>
      obtain ⟨rfl, -⟩ := h
      exact iff_of_false nofun fun heq => hnull (heq ▸ List.mem_cons_self)

theorem Ringed.congr (h : Ringed H null y) (hsame : SameLinks H H' y) : Ringed H' null y :=
  ⟨hsame.parent.trans h.parent, fun b => (hsame.child b).trans (h.child b)⟩

theorem ring_congr (h : Path H first others first)
    (hsame : ∀ y ∈ first :: others, H'.next y = H.next y ∧ H'.prev y = H.prev y) : Path H' first others first :=
  h.congr (fun y hy => (hsame y hy).1) fun y hy => (hsame y (by simpa [or_comm] using hy)).2

/-- A trie whose links are the same, but for the parent of its root. -/
theorem Hangs.reparent {q' : α} (h : Hangs H null q p T)
    (hsame : ∀ y ∈ nodes T, H'.next y = H.next y ∧ H'.prev y = H.prev y ∧ ∀ b, H'.child b y = H.child b y)
    (hparent : ∀ y ∈ nodes T, y ≠ p → H'.parent y = H.parent y) (hroot : p ≠ null → H'.parent p = q')
    (hnodup : (nodes T).Nodup) (hnull : null ∉ nodes T) : Hangs H' null q' p T := by
  induction T generalizing q q' p with
  | nil => exact h
  | node t first others left right ihl ihr =>
      obtain ⟨rfl, -, hring, hothers, hleft, hright⟩ := h
      obtain ⟨hout, hrest⟩ := List.nodup_cons.mp hnodup
      obtain ⟨-, hsub, hapart⟩ := List.nodup_append'.mp hrest
      obtain ⟨hnodupl, hnodupr, -⟩ := List.nodup_append'.mp hsub
      have hlow : ∀ y ∈ nodes left, y ∈ others ++ (nodes left ++ nodes right) := fun y hy =>
        List.mem_append_right _ (List.mem_append_left _ hy)
      have hhigh : ∀ y ∈ nodes right, y ∈ others ++ (nodes left ++ nodes right) := fun y hy =>
        List.mem_append_right _ (List.mem_append_right _ hy)
      have hstay : ∀ y ∈ others ++ (nodes left ++ nodes right), H'.parent y = H.parent y := fun y hy =>
        hparent y (List.mem_cons_of_mem _ hy) fun heq => hout (heq ▸ hy)
      have hin : ∀ y ∈ others ++ (nodes left ++ nodes right), y ∈ p :: (others ++ (nodes left ++ nodes right)) :=
        fun y => List.mem_cons_of_mem _
      have hchild := (hsame p List.mem_cons_self).2.2
      have hsub : ∀ b T, (∀ y ∈ nodes T, y ∈ others ++ (nodes left ++ nodes right)) →
          Hangs H null p (H.child b p) T → H.child b p ≠ null → H'.parent (H.child b p) = p := by
        intro b T hT hangs hne
        rw [hstay _ (hT _ (hangs.mem_nodes hne))]
        cases T with
        | nil => exact absurd hangs hne
        | node t first others left right => exact hangs.1 ▸ hangs.2.1
      refine ⟨rfl, hroot fun heq => hnull (heq ▸ List.mem_cons_self), ring_congr hring fun y hy => ?_,
        fun y hy => ⟨?_, fun b => ?_⟩, ?_, ?_⟩
      · obtain rfl | hy := List.mem_cons.mp hy
        · exact ⟨(hsame y List.mem_cons_self).1, (hsame y List.mem_cons_self).2.1⟩
        · have hmem := hsame y (hin y (List.mem_append_left _ hy))
          exact ⟨hmem.1, hmem.2.1⟩
      · exact (hstay y (List.mem_append_left _ hy)).trans (hothers y hy).parent
      · exact ((hsame y (hin y (List.mem_append_left _ hy))).2.2 b).trans ((hothers y hy).child b)
      · rw [hchild]
        exact ihl hleft (fun y hy => hsame y (hin y (hlow y hy))) (fun y hy _ => hstay y (hlow y hy))
          (hsub false left hlow hleft) hnodupl fun hmem => hnull (hin _ (hlow _ hmem))
      · rw [hchild]
        exact ihr hright (fun y hy => hsame y (hin y (hhigh y hy))) (fun y hy _ => hstay y (hhigh y hy))
          (hsub true right hhigh hright) hnodupr fun hmem => hnull (hin _ (hhigh _ hmem))

/-- A trie whose links are the same. -/
theorem Hangs.congr (h : Hangs H null q p T) (hsame : ∀ y ∈ nodes T, SameLinks H H' y) : Hangs H' null q p T := by
  induction T generalizing q p with
  | nil => exact h
  | node t first others left right ihl ihr =>
      obtain ⟨rfl, hparent, hring, hothers, hleft, hright⟩ := h
      have hfirst := hsame p List.mem_cons_self
      have hmem : ∀ y ∈ others, SameLinks H H' y := fun y hy =>
        hsame y (List.mem_cons_of_mem _ (List.mem_append_left _ hy))
      refine ⟨rfl, hfirst.parent.trans hparent, ring_congr hring fun y hy => ?_,
        fun y hy => (hothers y hy).congr (hmem y hy), ?_, ?_⟩
      · obtain rfl | hy := List.mem_cons.mp hy
        · exact ⟨hfirst.next, hfirst.prev⟩
        · exact ⟨(hmem y hy).next, (hmem y hy).prev⟩
      · rw [hfirst.child]
        exact ihl hleft fun y hy =>
          hsame y (List.mem_cons_of_mem _ (List.mem_append_right _ (List.mem_append_left _ hy)))
      · rw [hfirst.child]
        exact ihr hright fun y hy =>
          hsame y (List.mem_cons_of_mem _ (List.mem_append_right _ (List.mem_append_right _ hy)))

/-! ### Subtries -/

variable [DecidableEq α] {S S' : Trie α} {p' z : α} {b : Bool}

/-- The subtrie with a root. -/
def find (y : α) : Trie α → Option (Trie α)
  | .nil => none
  | .node t first others left right =>
      if first = y then some (.node t first others left right) else (find y left).or (find y right)

/-- Another trie in the place of the subtrie with a root. -/
def subst (y : α) (S : Trie α) : Trie α → Trie α
  | .nil => .nil
  | .node t first others left right =>
      if first = y then S else .node t first others (subst y S left) (subst y S right)

theorem subst_of_notMem (hy : y ∉ nodes T) : subst y S T = T := by
  induction T with
  | nil => rfl
  | node t first others left right ihl ihr =>
      simp only [nodes, List.mem_cons, List.mem_append, not_or] at hy
      rw [subst, if_neg (Ne.symm hy.1), ihl hy.2.2.1, ihr hy.2.2.2]

theorem find_nodes (h : find y T = some S) : y ∈ nodes S ∧ ∀ z ∈ nodes S, z ∈ nodes T := by
  induction T with
  | nil => cases h
  | node t first others left right ihl ihr =>
      rw [find] at h
      split at h
      · next heq =>
          cases h
          exact ⟨heq ▸ List.mem_cons_self, fun _ => id⟩
      · obtain hleft | ⟨-, hright⟩ := Option.or_eq_some_iff.mp h
        · obtain ⟨hy, hsub⟩ := ihl hleft
          exact ⟨hy, fun z hz =>
            List.mem_cons_of_mem _ (List.mem_append_right _ (List.mem_append_left _ (hsub z hz)))⟩
        · obtain ⟨hy, hsub⟩ := ihr hright
          exact ⟨hy, fun z hz =>
            List.mem_cons_of_mem _ (List.mem_append_right _ (List.mem_append_right _ (hsub z hz)))⟩

theorem find_of_notMem (hy : y ∉ nodes T) : find y T = none := by
  rw [Option.eq_none_iff_forall_ne_some]
  exact fun S hS => hy ((find_nodes hS).2 y (find_nodes hS).1)

/-- A subtrie of a child is one of the trie. -/
theorem find_child (hnodup : (nodes (.node t first others left right)).Nodup) (hy : y ∈ nodes left ++ nodes right) :
    find y (.node t first others left right) = if y ∈ nodes left then find y left else find y right := by
  obtain ⟨hout, hrest⟩ := List.nodup_cons.mp hnodup
  obtain ⟨-, hboth, -⟩ := List.nodup_append'.mp hrest
  obtain ⟨-, -, hdisjoint⟩ := List.nodup_append'.mp hboth
  have hne : first ≠ y := fun heq => hout (List.mem_append_right _ (heq ▸ hy))
  rw [find, if_neg hne]
  split
  · next hleft => rw [find_of_notMem (T := right) fun hright => hdisjoint hleft hright, Option.or_none]
  · next hleft => rw [find_of_notMem hleft, Option.none_or]

/-- A node is the root of a subtrie, or is in the ring of one. -/
theorem mem_nodes_cases (hnodup : (nodes T).Nodup) (hx : x ∈ nodes T) : ∃ t first others left right,
    find first T = some (.node t first others left right) ∧ (x = first ∨ x ∈ others) := by
  induction T with
  | nil => cases hx
  | node t first others left right ihl ihr =>
      obtain ⟨-, hrest⟩ := List.nodup_cons.mp hnodup
      obtain ⟨-, hboth, -⟩ := List.nodup_append'.mp hrest
      obtain ⟨hnodupl, hnodupr, hdisjoint⟩ := List.nodup_append'.mp hboth
      obtain heq | hx := List.mem_cons.mp hx
      · exact ⟨t, first, others, left, right, if_pos rfl, Or.inl heq⟩
      obtain hx | hx := List.mem_append.mp hx
      · exact ⟨t, first, others, left, right, if_pos rfl, Or.inr hx⟩
      obtain hx | hx := List.mem_append.mp hx
      · obtain ⟨t', y, others', left', right', hfind, hcase⟩ := ihl hnodupl hx
        have hy := (find_nodes hfind).2 y (find_nodes hfind).1
        refine ⟨t', y, others', left', right', ?_, hcase⟩
        rw [find_child hnodup (List.mem_append_left _ hy), if_pos hy, hfind]
      · obtain ⟨t', y, others', left', right', hfind, hcase⟩ := ihr hnodupr hx
        have hy := (find_nodes hfind).2 y (find_nodes hfind).1
        refine ⟨t', y, others', left', right', ?_, hcase⟩
        rw [find_child hnodup (List.mem_append_right _ hy), if_neg fun hin => hdisjoint hin hy, hfind]

theorem find_nodup (hnodup : (nodes T).Nodup) (h : find y T = some S) : (nodes S).Nodup := by
  induction T with
  | nil => cases h
  | node t first others left right ihl ihr =>
      rw [find] at h
      split at h
      · cases h
        exact hnodup
      · obtain ⟨-, hrest⟩ := List.nodup_cons.mp hnodup
        obtain ⟨-, hboth, -⟩ := List.nodup_append'.mp hrest
        obtain ⟨hnodupl, hnodupr, -⟩ := List.nodup_append'.mp hboth
        obtain hleft | ⟨-, hright⟩ := Option.or_eq_some_iff.mp h
        · exact ihl hnodupl hleft
        · exact ihr hnodupr hright

omit [DecidableEq α] in
/-- The parent of what a pointer leads to. -/
theorem Hangs.parent_eq (h : Hangs H null q p T) (hp : p ≠ null) : H.parent p = q := by
  cases T with
  | nil => exact absurd h hp
  | node t first others left right =>
      obtain ⟨rfl, hparent, -⟩ := h
      exact hparent

omit [DecidableEq α] in
/-- A child of a node is another node of the trie, and knows its parent. -/
theorem Hangs.child_mem (h : Hangs H null q p T) (hz : z ∈ nodes T) :
    H.child b z = null ∨ (H.child b z ∈ nodes T ∧ H.parent (H.child b z) = z) := by
  induction T generalizing q p with
  | nil => cases hz
  | node t first others left right ihl ihr =>
      obtain ⟨rfl, -, -, hothers, hleft, hright⟩ := h
      have hlow : ∀ z ∈ nodes left, z ∈ nodes (.node t p others left right) := fun z hz =>
        List.mem_cons_of_mem _ (List.mem_append_right _ (List.mem_append_left _ hz))
      have hhigh : ∀ z ∈ nodes right, z ∈ nodes (.node t p others left right) := fun z hz =>
        List.mem_cons_of_mem _ (List.mem_append_right _ (List.mem_append_right _ hz))
      obtain rfl | hz := List.mem_cons.mp hz
      · by_cases hnone : H.child b z = null
        · exact Or.inl hnone
        · right
          cases b with
          | false => exact ⟨hlow _ (hleft.mem_nodes hnone), hleft.parent_eq hnone⟩
          | true => exact ⟨hhigh _ (hright.mem_nodes hnone), hright.parent_eq hnone⟩
      obtain hz | hz := List.mem_append.mp hz
      · exact Or.inl ((hothers z hz).child b)
      obtain hz | hz := List.mem_append.mp hz
      · exact (ihl hleft hz).imp_right (And.imp_left (hlow _))
      · exact (ihr hright hz).imp_right (And.imp_left (hhigh _))

omit [DecidableEq α] in
/-- A node is in a ring of nodes of the trie. -/
theorem Hangs.ring_mem (h : Hangs H null q p T) (hz : z ∈ nodes T) : (H.next z ∈ nodes T ∧ H.prev z ∈ nodes T) ∧
    H.prev (H.next z) = z ∧ H.next (H.prev z) = z := by
  induction T generalizing q p with
  | nil => cases hz
  | node t first others left right ihl ihr =>
      obtain ⟨rfl, -, hring, -, hleft, hright⟩ := h
      rw [nodes, ← List.cons_append] at hz ⊢
      obtain hz | hz := List.mem_append.mp hz
      · exact ⟨(hring.ring_mem hz).imp (List.mem_append_left _) (List.mem_append_left _), hring.ring_inverse hz⟩
      obtain hz | hz := List.mem_append.mp hz
      · exact (ihl hleft hz).imp_left fun hin => hin.imp
          (fun hin => List.mem_append_right _ (List.mem_append_left _ hin))
          fun hin => List.mem_append_right _ (List.mem_append_left _ hin)
      · exact (ihr hright hz).imp_left fun hin => hin.imp
          (fun hin => List.mem_append_right _ (List.mem_append_right _ hin))
          fun hin => List.mem_append_right _ (List.mem_append_right _ hin)

/-- What the pointer `p` leads to by the links to children and along rings. -/
inductive Reaches (H : Pointers α) (null p : α) : α → Prop
  | root : p ≠ null → Reaches H null p p
  | child {x : α} (b : Bool) : Reaches H null p x → H.child b x ≠ null → Reaches H null p (H.child b x)
  | next {x : α} : Reaches H null p x → Reaches H null p (H.next x)

omit [DecidableEq α] in
theorem Reaches.trans (h : Reaches H null p x) (hy : Reaches H null x y) : Reaches H null p y := by
  induction hy with
  | root => exact h
  | child b _ hne ih => exact .child b ih hne
  | next _ ih => exact .next ih

omit [DecidableEq α] in
theorem Hangs.reaches (h : Hangs H null q p T) (hnull : null ∉ nodes T) : Reaches H null p x ↔ x ∈ nodes T := by
  constructor
  · intro hx
    induction hx with
    | root hne => exact h.mem_nodes hne
    | child b _ hne ih => exact ((h.child_mem ih).resolve_left hne).1
    | next _ ih => exact (h.ring_mem ih).1.1
  · intro hx
    induction T generalizing q p with
    | nil => cases hx
    | node t first others left right ihl ihr =>
        obtain ⟨rfl, -, hring, -, hleft, hright⟩ := h
        have hroot : Reaches H null p p := .root fun heq => hnull (heq ▸ List.mem_cons_self)
        obtain ⟨-, -, houtl, houtr⟩ : null ≠ p ∧ null ∉ others ∧ null ∉ nodes left ∧ null ∉ nodes right := by
          simpa only [nodes, List.mem_cons, List.mem_append, not_or] using hnull
        obtain rfl | hx := List.mem_cons.mp hx
        · exact hroot
        obtain hx | hx := List.mem_append.mp hx
        · exact hring.walk hroot (fun y hy _ => hy.next) x hx
        obtain hx | hx := List.mem_append.mp hx
        · have hne : H.child false p ≠ null := fun heq => by
            rw [(hleft.eq_nil_iff houtl).mpr heq] at hx
            cases hx
          exact (hroot.child false hne).trans (ihl hleft houtl hx)
        · have hne : H.child true p ≠ null := fun heq => by
            rw [(hright.eq_nil_iff houtr).mpr heq] at hx
            cases hx
          exact (hroot.child true hne).trans (ihr hright houtr hx)

omit [DecidableEq α] in
/-- The two children of a node are not the same. -/
theorem Hangs.child_inj (h : Hangs H null q p T) (hnodup : (nodes T).Nodup) (hz : z ∈ nodes T)
    (heq : H.child false z = H.child true z) : H.child false z = null := by
  induction T generalizing q p with
  | nil => cases hz
  | node t first others left right ihl ihr =>
      obtain ⟨rfl, -, -, hothers, hleft, hright⟩ := h
      obtain ⟨-, hrest⟩ := List.nodup_cons.mp hnodup
      obtain ⟨-, hboth, -⟩ := List.nodup_append'.mp hrest
      obtain ⟨hnodupl, hnodupr, hdisjoint⟩ := List.nodup_append'.mp hboth
      obtain rfl | hz := List.mem_cons.mp hz
      · by_contra hne
        exact hdisjoint (hleft.mem_nodes hne) (heq ▸ hright.mem_nodes (heq ▸ hne))
      obtain hz | hz := List.mem_append.mp hz
      · exact (hothers z hz).child false
      obtain hz | hz := List.mem_append.mp hz
      · exact ihl hleft hnodupl hz
      · exact ihr hright hnodupr hz

omit [DecidableEq α] in
theorem Hangs.child_ne_root (h : Hangs H null q p T) (hp : p ≠ null) (hq : q ∉ nodes T) (hz : z ∈ nodes T) :
    H.child b z ≠ p := by
  rintro rfl
  obtain hzero | ⟨-, hpar⟩ := h.child_mem (b := b) hz
  · exact hp hzero
  · exact hq (hpar.symm.trans (h.parent_eq hp) ▸ hz)

omit [DecidableEq α] in
/-- A node is the child of one node only, and on one side. -/
theorem Hangs.child_iff {b' : Bool} (h : Hangs H null q p T) (hnodup : (nodes T).Nodup) (hx : x ≠ null)
    (hy : y ∈ nodes T) (hb' : H.child b' y = x) (hz : z ∈ nodes T) : H.child b z = x ↔ z = y ∧ b = b' := by
  constructor
  · intro heq
    have hparent : ∀ u ∈ nodes T, ∀ d, H.child d u = x → H.parent x = u := fun u hu d hud => by
      obtain hzero | hpar := h.child_mem (b := d) hu
      · exact absurd (hud.symm.trans hzero) hx
      · exact hud ▸ hpar.2
    have hzy : z = y :=
      calc z = H.parent x := (hparent z hz b heq).symm
        _ = y := hparent y hy b' hb'
    subst hzy
    refine ⟨rfl, ?_⟩
    by_contra hdiff
    have hboth : H.child false z = x ∧ H.child true z = x := by
      cases b <;> cases b'
      · exact absurd rfl hdiff
      · exact ⟨heq, hb'⟩
      · exact ⟨hb', heq⟩
      · exact absurd rfl hdiff
    have hsame : H.child false z = H.child true z :=
      calc H.child false z = x := hboth.1
        _ = H.child true z := hboth.2.symm
    exact hx (hboth.1.symm.trans (h.child_inj hnodup hz hsame))
  · rintro ⟨rfl, rfl⟩
    exact hb'

/-- A subtrie hangs where its root does, and its root is a child of its parent. -/
theorem Hangs.subtrie (h : Hangs H null q p T) (hnodup : (nodes T).Nodup) (hnull : null ∉ nodes T)
    (hfind : find y T = some S) : Hangs H null (H.parent y) y S ∧
      (y ≠ p → H.parent y ∈ nodes T ∧ H.parent y ∉ nodes S ∧ ∃ b, H.child b (H.parent y) = y) := by
  induction T generalizing q p with
  | nil => cases hfind
  | node t first others left right ihl ihr =>
      have hwhole := h
      obtain ⟨rfl, hparent, hring, hothers, hleft, hright⟩ := h
      obtain ⟨hout, hrest⟩ := List.nodup_cons.mp hnodup
      obtain ⟨-, hboth, -⟩ := List.nodup_append'.mp hrest
      obtain ⟨hnodupl, hnodupr, hdisjoint⟩ := List.nodup_append'.mp hboth
      rw [find] at hfind
      split at hfind
      · next heq =>
          cases hfind
          subst heq
          exact ⟨hparent ▸ hwhole, fun hne => absurd rfl hne⟩
      · next hroot =>
          -- The root of the subtrie is a child of `p` or further down.
          have hunder : ∀ b C, Hangs H null p (H.child b p) C → (∀ z ∈ nodes C, z ∈ nodes left ++ nodes right) →
              (∀ z ∈ nodes S, z ∈ nodes C) → y ∈ nodes C → Hangs H null (H.parent y) y S ∧ (y ≠ H.child b p →
              H.parent y ∈ nodes C ∧ H.parent y ∉ nodes S ∧ ∃ b, H.child b (H.parent y) = y) →
              Hangs H null (H.parent y) y S ∧ (y ≠ p → H.parent y ∈ p :: (others ++ (nodes left ++ nodes right)) ∧
                H.parent y ∉ nodes S ∧ ∃ b, H.child b (H.parent y) = y) := by
            rintro b C hC hmem hS hy ⟨hhangs, hup⟩
            refine ⟨hhangs, fun _ => ?_⟩
            by_cases heq : y = H.child b p
            · have hnone : H.child b p ≠ null := fun hzero =>
                hnull (List.mem_cons_of_mem _ (List.mem_append_right _ (hmem _ (hzero ▸ heq ▸ hy))))
              have hpar : H.parent y = p := heq ▸ hC.parent_eq hnone
              rw [hpar]
              exact ⟨List.mem_cons_self, fun hp => hout (List.mem_append_right _ (hmem p (hS p hp))), b, heq.symm⟩
            · obtain ⟨hin, hnot, hchild⟩ := hup heq
              exact ⟨List.mem_cons_of_mem _ (List.mem_append_right _ (hmem _ hin)), hnot, hchild⟩
          obtain hfind | ⟨-, hfind⟩ := Option.or_eq_some_iff.mp hfind
          · exact hunder false left hleft (fun z => List.mem_append_left _) (find_nodes hfind).2
              ((find_nodes hfind).2 y (find_nodes hfind).1) (ihl hleft hnodupl (fun hmem => hnull
                (List.mem_cons_of_mem _ (List.mem_append_right _ (List.mem_append_left _ hmem)))) hfind)
          · exact hunder true right hright (fun z => List.mem_append_right _) (find_nodes hfind).2
              ((find_nodes hfind).2 y (find_nodes hfind).1) (ihr hright hnodupr (fun hmem => hnull
                (List.mem_cons_of_mem _ (List.mem_append_right _ (List.mem_append_right _ hmem)))) hfind)

/-- One subtrie takes the place of another. -/
theorem Hangs.replace (h : Hangs H null q p T) (hnodup : (nodes T).Nodup) (hnull : null ∉ nodes T)
    (hfind : find y T = some S) (hS : Hangs H' null (H.parent y) p' S')
    (hslot : ∀ z ∈ nodes T, ∀ b, H.child b z = y → H'.child b z = p')
    (hother : ∀ z ∈ nodes T, z ∉ nodes S → ∀ b, H.child b z ≠ y → H'.child b z = H.child b z)
    (hsame : ∀ z ∈ nodes T, z ∉ nodes S → H'.next z = H.next z ∧ H'.prev z = H.prev z ∧ H'.parent z = H.parent z) :
    Hangs H' null q (if p = y then p' else p) (subst y S' T) := by
  induction T generalizing q p with
  | nil => cases hfind
  | node t first others left right ihl ihr =>
      obtain ⟨rfl, hparent, hring, hothers, hleft, hright⟩ := h
      rw [subst]
      by_cases hroot : p = y
      · subst hroot
        rw [if_pos rfl, if_pos rfl]
        exact hparent ▸ hS
      rw [find, if_neg hroot] at hfind
      rw [if_neg hroot, if_neg hroot]
      obtain ⟨hout, hrest⟩ := List.nodup_cons.mp hnodup
      obtain ⟨-, hboth, hapart⟩ := List.nodup_append'.mp hrest
      obtain ⟨hnodupl, hnodupr, hdisjoint⟩ := List.nodup_append'.mp hboth
      have hlow : ∀ z ∈ nodes left, z ∈ p :: (others ++ (nodes left ++ nodes right)) := fun z hz =>
        List.mem_cons_of_mem _ (List.mem_append_right _ (List.mem_append_left _ hz))
      have hhigh : ∀ z ∈ nodes right, z ∈ p :: (others ++ (nodes left ++ nodes right)) := fun z hz =>
        List.mem_cons_of_mem _ (List.mem_append_right _ (List.mem_append_right _ hz))
      -- The root and its ring are not in the subtrie.
      have hsub : ∀ z ∈ nodes S, z ∈ nodes left ++ nodes right := by
        intro z hz
        obtain hfind | ⟨-, hfind⟩ := Option.or_eq_some_iff.mp hfind
        · exact List.mem_append_left _ ((find_nodes hfind).2 z hz)
        · exact List.mem_append_right _ ((find_nodes hfind).2 z hz)
      have hpS : p ∉ nodes S := fun hp => hout (List.mem_append_right _ (hsub p hp))
      have hothersS : ∀ z ∈ others, z ∉ nodes S := fun z hz hS => hapart hz (hsub z hS)
      have hy : y ≠ null := fun heq => hnull (by
        rw [← heq]
        exact List.mem_cons_of_mem _ (List.mem_append_right _ (hsub y (by
          obtain hfind | ⟨-, hfind⟩ := Option.or_eq_some_iff.mp hfind <;> exact (find_nodes hfind).1))))
      -- A subtrie of the root either has the subtrie or is as it was.
      have hunder : ∀ b C, Hangs H null p (H.child b p) C →
          (∀ z ∈ nodes C, z ∈ p :: (others ++ (nodes left ++ nodes right))) →
          (y ∉ nodes C ∧ (∀ z ∈ nodes C, z ∉ nodes S) ∨ Hangs H' null p (if H.child b p = y then p' else H.child b p)
            (subst y S' C)) → Hangs H' null p (H'.child b p) (subst y S' C) := by
        intro b C hC hmem hcase
        obtain ⟨hnot, hCS⟩ | hnew := hcase
        · have hne : H.child b p ≠ y := by
            rintro heq
            by_cases hzero : H.child b p = null
            · exact hy (heq ▸ hzero)
            · exact hnot (heq ▸ hC.mem_nodes hzero)
          rw [subst_of_notMem hnot, hother p List.mem_cons_self hpS b hne]
          refine hC.congr fun z hz => ?_
          obtain ⟨hn, hp, hq⟩ := hsame z (hmem z hz) (hCS z hz)
          refine ⟨hn, hp, hq, fun b => hother z (hmem z hz) (hCS z hz) b fun heq => ?_⟩
          obtain hzero | ⟨hin, -⟩ := hC.child_mem (b := b) hz
          · exact hy (heq ▸ hzero)
          · exact hnot (heq ▸ hin)
        · split at hnew
          · next heq =>
              rw [hslot p List.mem_cons_self b heq]
              exact hnew
          · next hne =>
              rw [hother p List.mem_cons_self hpS b hne]
              exact hnew
      refine ⟨rfl, ?_, ring_congr hring fun z hz => ?_, fun z hz => ⟨?_, fun b => ?_⟩, ?_, ?_⟩
      · rw [(hsame p List.mem_cons_self hpS).2.2, hparent]
      · obtain rfl | hz := List.mem_cons.mp hz
        · exact ⟨(hsame z List.mem_cons_self hpS).1, (hsame z List.mem_cons_self hpS).2.1⟩
        · have hmem := hsame z (List.mem_cons_of_mem _ (List.mem_append_left _ hz)) (hothersS z hz)
          exact ⟨hmem.1, hmem.2.1⟩
      · rw [(hsame z (List.mem_cons_of_mem _ (List.mem_append_left _ hz)) (hothersS z hz)).2.2]
        exact (hothers z hz).parent
      · have hnone := (hothers z hz).child b
        rw [hother z (List.mem_cons_of_mem _ (List.mem_append_left _ hz)) (hothersS z hz) b (hnone ▸ hy.symm)]
        exact hnone
      · refine hunder false left hleft hlow ?_
        obtain hfind | ⟨-, hfind⟩ := Option.or_eq_some_iff.mp hfind
        · exact Or.inr (ihl hleft hnodupl (fun hmem => hnull (hlow _ hmem)) hfind
            (fun z hz => hslot z (hlow z hz)) (fun z hz => hother z (hlow z hz)) fun z hz => hsame z (hlow z hz))
        · exact Or.inl ⟨fun hin => hdisjoint hin ((find_nodes hfind).2 y (find_nodes hfind).1),
            fun z hz hS => hdisjoint hz ((find_nodes hfind).2 z hS)⟩
      · refine hunder true right hright hhigh ?_
        obtain hfind | ⟨-, hfind⟩ := Option.or_eq_some_iff.mp hfind
        · exact Or.inl ⟨fun hin => hdisjoint ((find_nodes hfind).2 y (find_nodes hfind).1) hin,
            fun z hz hS => hdisjoint ((find_nodes hfind).2 z hS) hz⟩
        · exact Or.inr (ihr hright hnodupr (fun hmem => hnull (hhigh _ hmem)) hfind
            (fun z hz => hslot z (hhigh z hz)) (fun z hz => hother z (hhigh z hz)) fun z hz => hsame z (hhigh z hz))

/-! ### A node comes in -/

/-- The node that an item of size `s` goes behind, or the one that it becomes a child of. -/
def place {n : Nat} (s : Nat) : BitVec n → Trie α → Option (α × Option Bool)
  | _, .nil => none
  | k, .node t first _ left right =>
      if t = s then some (first, none)
      else if k.msb then (place s (k <<< 1) right).or (some (first, some true))
      else (place s (k <<< 1) left).or (some (first, some false))

/-- The trie in which `x` has come in under the root of a subtrie. -/
def enter (x : α) (s : Nat) : Option Bool → Trie α → Trie α
  | _, .nil => .nil
  | none, .node t first others left right => .node t first (x :: others) left right
  | some false, .node t first others _ right => .node t first others (.node s x [] .nil .nil) right
  | some true, .node t first others left _ => .node t first others left (.node s x [] .nil .nil)

variable {n s : Nat} {k : BitVec n} {side : Option Bool}

omit [DecidableEq α] in
theorem place_eq_none : place s k T = none ↔ T = .nil := by
  cases T with
  | nil => exact iff_of_true rfl rfl
  | node t first others left right =>
      refine iff_of_false (fun h => ?_) nofun
      rw [place] at h
      split at h
      · cases h
      · split at h <;> simp at h

theorem subst_child (hnodup : (nodes (.node t first others left right)).Nodup)
    (hy : y ∈ nodes left ++ nodes right) : subst y S (.node t first others left right) =
      .node t first others (subst y S left) (subst y S right) := by
  rw [subst, if_neg]
  rintro rfl
  exact (List.nodup_cons.mp hnodup).1 (List.mem_append_right _ hy)

/-- `insert` changes the subtrie that the place is the root of. -/
theorem insert_eq_subst (hnodup : (nodes T).Nodup) (h : place s k T = some (y, side)) :
    ∃ t others left right, find y T = some (.node t y others left right) ∧ (side = none → t = s) ∧
      (side = some false → left = .nil) ∧ (side = some true → right = .nil) ∧
      T.insert x s k = subst y (enter x s side (.node t y others left right)) T := by
  induction T generalizing k with
  | nil => cases h
  | node t first others left right ihl ihr =>
      obtain ⟨-, hrest⟩ := List.nodup_cons.mp hnodup
      obtain ⟨-, hboth, -⟩ := List.nodup_append'.mp hrest
      obtain ⟨hnodupl, hnodupr, hdisjoint⟩ := List.nodup_append'.mp hboth
      rw [place] at h
      rw [Trie.insert]
      split at h
      · next heq =>
          cases h
          refine ⟨t, others, left, right, if_pos rfl, fun _ => heq, by simp, by simp, ?_⟩
          rw [if_pos heq, subst, if_pos rfl]
          rfl
      next hne =>
      rw [if_neg hne]
      split at h
      · next hbit =>
          rw [if_pos hbit]
          obtain h | ⟨hnone, h⟩ := Option.or_eq_some_iff.mp h
          · obtain ⟨t', others', left', right', hfind, hring, hlow, hhigh, heq⟩ := ihr hnodupr h
            have hy := (find_nodes hfind).2 y (find_nodes hfind).1
            have hnot : y ∉ nodes left := fun hin => hdisjoint hin hy
            refine ⟨t', others', left', right', ?_, hring, hlow, hhigh, ?_⟩
            · rw [find_child hnodup (List.mem_append_right _ hy), if_neg hnot, hfind]
            · rw [subst_child hnodup (List.mem_append_right _ hy), subst_of_notMem hnot, heq]
          · obtain rfl := place_eq_none.mp hnone
            cases h
            refine ⟨t, others, left, .nil, if_pos rfl, by simp, by simp, fun _ => rfl, ?_⟩
            rw [subst, if_pos rfl]
            rfl
      · next hbit =>
          rw [if_neg hbit]
          obtain h | ⟨hnone, h⟩ := Option.or_eq_some_iff.mp h
          · obtain ⟨t', others', left', right', hfind, hring, hlow, hhigh, heq⟩ := ihl hnodupl h
            have hy := (find_nodes hfind).2 y (find_nodes hfind).1
            have hnot : y ∉ nodes right := fun hin => hdisjoint hy hin
            refine ⟨t', others', left', right', ?_, hring, hlow, hhigh, ?_⟩
            · rw [find_child hnodup (List.mem_append_left _ hy), if_pos hy, hfind]
            · rw [subst_child hnodup (List.mem_append_left _ hy), subst_of_notMem hnot, heq]
          · obtain rfl := place_eq_none.mp hnone
            cases h
            refine ⟨t, others, .nil, right, if_pos rfl, by simp, fun _ => rfl, by simp, ?_⟩
            rw [subst, if_pos rfl]
            rfl

/-- How the links change when `x` comes in behind `y`, or as a child of `y`. -/
structure Entered (H H' : Pointers α) (null x y : α) (side : Option Bool) (T : Trie α) : Prop where
  child : ∀ b, H'.child b x = null
  alone : side ≠ none → H'.next x = x ∧ H'.prev x = x ∧ H'.parent x = y
  ringed : side = none → H'.next x = H.next y ∧ H'.prev x = y ∧ H'.parent x = null
  next : ∀ z ∈ nodes T, H'.next z = if side = none ∧ z = y then x else H.next z
  prev : ∀ z ∈ nodes T, H'.prev z = if side = none ∧ z = H.next y then x else H.prev z
  parent : ∀ z ∈ nodes T, H'.parent z = H.parent z
  children : ∀ z ∈ nodes T, ∀ b, H'.child b z = if side = some b ∧ z = y then x else H.child b z

omit [DecidableEq α] in
theorem Path.next_mem_first (h : Path H y others y) : H.next y ∈ y :: others := by
  obtain hmem | hmem := List.mem_append.mp h.next_mem
  · exact List.mem_cons_of_mem _ hmem
  · rw [List.mem_singleton.mp hmem]
    exact List.mem_cons_self

/-- What is not `y` or its ring keeps its links. -/
theorem Entered.keep (he : Entered H H' null x y side T) (hpath : Path H y others y) (hz : z ∈ nodes T)
    (hnot : z ∉ y :: others) : SameLinks H H' z := by
  have hne : z ≠ y := fun heq => hnot (heq ▸ List.mem_cons_self)
  refine ⟨?_, ?_, he.parent z hz, fun b => ?_⟩
  · rw [he.next z hz, if_neg fun hboth => hne hboth.2]
  · rw [he.prev z hz, if_neg]
    rintro ⟨-, rfl⟩
    exact hnot hpath.next_mem_first
  · rw [he.children z hz, if_neg fun hboth => hne hboth.2]

/-- A node comes in under the root of a subtrie. -/
theorem Entered.hangs (he : Entered H H' null x y side T) (h : Hangs H null q y (.node t y others left right))
    (hnodup : (nodes (.node t y others left right)).Nodup)
    (hsub : ∀ z ∈ nodes (.node t y others left right), z ∈ nodes T) :
    Hangs H' null q y (enter x s side (.node t y others left right)) := by
  obtain ⟨hout, hrest⟩ := List.nodup_cons.mp hnodup
  obtain ⟨hring, hboth, hapart⟩ := List.nodup_append'.mp hrest
  obtain ⟨-, hparent, hpath, hothers, hleft, hright⟩ := h
  have hfirst := hpath.next_mem_first
  have hmem : ∀ z ∈ y :: others, z ∈ nodes T := fun z hz => hsub z (by
    obtain rfl | hz := List.mem_cons.mp hz
    · exact List.mem_cons_self
    · exact List.mem_cons_of_mem _ (List.mem_append_left _ hz))
  have hleft' : Hangs H' null y (H.child false y) left := hleft.congr fun z hz =>
    he.keep hpath (hsub z (List.mem_cons_of_mem _ (List.mem_append_right _ (List.mem_append_left _ hz)))) fun hin => by
      obtain rfl | hin := List.mem_cons.mp hin
      · exact hout (List.mem_append_right _ (List.mem_append_left _ hz))
      · exact hapart hin (List.mem_append_left _ hz)
  have hright' : Hangs H' null y (H.child true y) right := hright.congr fun z hz =>
    he.keep hpath (hsub z (List.mem_cons_of_mem _ (List.mem_append_right _ (List.mem_append_right _ hz)))) fun hin => by
      obtain rfl | hin := List.mem_cons.mp hin
      · exact hout (List.mem_append_right _ (List.mem_append_right _ hz))
      · exact hapart hin (List.mem_append_right _ hz)
  have hringed : ∀ z ∈ others, Ringed H' null z := by
    intro z hz
    have hin := hmem z (List.mem_cons_of_mem _ hz)
    have hne : z ≠ y := fun heq => hout (heq ▸ List.mem_append_left _ hz)
    refine ⟨(he.parent z hin).trans (hothers z hz).parent, fun b => ?_⟩
    rw [he.children z hin, if_neg fun hboth => hne hboth.2]
    exact (hothers z hz).child b
  have hyin := hmem y List.mem_cons_self
  have hparent : H'.parent y = q := (he.parent y hyin).trans hparent
  cases side with
  | none =>
      obtain ⟨hnext, hprev, hparent'⟩ := he.ringed rfl
      have hchildy : ∀ b, H'.child b y = H.child b y := fun b => by
        rw [he.children y hyin, if_neg fun hboth => by cases hboth.1]
      refine ⟨rfl, hparent, ?_, fun z hz => ?_, ?_, ?_⟩
      · refine hpath.insert (List.nodup_cons.mpr ⟨fun hin => hout (List.mem_append_left _ hin), hring⟩) ?_ hprev hnext
          ?_ (fun z hz => ?_) fun z hz hne => ?_
        · rw [he.next y hyin, if_pos ⟨rfl, rfl⟩]
        · rw [he.prev _ (hmem _ hfirst), if_pos ⟨rfl, rfl⟩]
        · rw [he.next z (hmem z (List.mem_cons_of_mem _ hz)), if_neg]
          rintro ⟨-, rfl⟩
          exact hout (List.mem_append_left _ hz)
        · rw [he.prev z (hmem z hz), if_neg fun hboth => hne hboth.2]
      · obtain rfl | hz := List.mem_cons.mp hz
        · exact ⟨hparent', he.child⟩
        · exact hringed z hz
      · rw [hchildy]
        exact hleft'
      · rw [hchildy]
        exact hright'
  | some b =>
      obtain ⟨hnext, hprev, hparent'⟩ := he.alone nofun
      have hpath' : Path H' y others y := ring_congr hpath fun z hz => by
        rw [he.next z (hmem z hz), he.prev z (hmem z hz), if_neg (fun hboth => by cases hboth.1),
          if_neg (fun hboth => by cases hboth.1)]
        exact ⟨rfl, rfl⟩
      have hleaf : Hangs H' null y x (.node s x [] .nil .nil) :=
        ⟨rfl, hparent', ⟨hnext, hprev⟩, nofun, he.child false, he.child true⟩
      cases b with
      | false =>
          refine ⟨rfl, hparent, hpath', hringed, ?_, ?_⟩
          · rw [he.children y hyin, if_pos ⟨rfl, rfl⟩]
            exact hleaf
          · rw [he.children y hyin, if_neg fun hboth => by cases hboth.1]
            exact hright'
      | true =>
          refine ⟨rfl, hparent, hpath', hringed, ?_, ?_⟩
          · rw [he.children y hyin, if_neg fun hboth => by cases hboth.1]
            exact hleft'
          · rw [he.children y hyin, if_pos ⟨rfl, rfl⟩]
            exact hleaf

/-- A node comes into a trie. -/
theorem Hangs.insert (h : Hangs H null q p T) (hnodup : (nodes T).Nodup) (hnull : null ∉ nodes T)
    (hplace : place s k T = some (y, side)) (he : Entered H H' null x y side T) :
    Hangs H' null q p (T.insert x s k) := by
  obtain ⟨t, others, left, right, hfind, -, -, -, heq⟩ := insert_eq_subst (x := x) hnodup hplace
  obtain ⟨hy, hsub⟩ := find_nodes hfind
  obtain ⟨hhangs, -⟩ := h.subtrie hnodup hnull hfind
  have hentered := he.hangs (s := s) hhangs (find_nodup hnodup hfind) hsub
  obtain ⟨hout, -⟩ := List.nodup_cons.mp (find_nodup hnodup hfind)
  have hynull : y ≠ null := fun heq => hnull (heq ▸ hsub y hy)
  obtain ⟨-, -, hpath, -, hleft, hright⟩ := hhangs
  rw [heq]
  have hwhole : Hangs H' null q (if p = y then y else p) _ :=
    h.replace hnodup hnull hfind hentered (fun z hz b heq => ?_) (fun z hz hS b _ => ?_) fun z hz hS => ?_
  · rwa [ite_eq_right_iff.mpr fun heq => heq.symm] at hwhole
  · by_cases hy : z = y
    · -- A node is no child of its own.
      exfalso
      subst hy
      have hne : H.child b z ≠ null := heq.symm ▸ hynull
      cases b with
      | false => exact hout (List.mem_append_right _ (List.mem_append_left _ (heq ▸ hleft.mem_nodes hne)))
      | true => exact hout (List.mem_append_right _ (List.mem_append_right _ (heq ▸ hright.mem_nodes hne)))
    · rw [he.children z hz, if_neg fun hboth => hy hboth.2, heq]
  all_goals
    have hz' := he.keep hpath hz fun hin => hS (by
      obtain rfl | hin := List.mem_cons.mp hin
      · exact hy
      · exact List.mem_cons_of_mem _ (List.mem_append_left _ hin))
  · exact hz'.child b
  · exact ⟨hz'.next, hz'.prev, hz'.parent⟩

/-! ### A node goes out -/

theorem unlink_eq_subst (hnodup : (nodes T).Nodup) (hfind : find y T = some (.node t y others left right)) :
    T.unlink y = subst y (Trie.dropFirst t others left right) T ∧
      ∀ x ∈ others, T.unlink x = subst y (.node t y (others.erase x) left right) T := by
  induction T with
  | nil => cases hfind
  | node t' first others' left' right' ihl ihr =>
      obtain ⟨hout, hrest⟩ := List.nodup_cons.mp hnodup
      obtain ⟨hring, hboth, hapart⟩ := List.nodup_append'.mp hrest
      obtain ⟨hnodupl, hnodupr, hdisjoint⟩ := List.nodup_append'.mp hboth
      rw [find] at hfind
      split at hfind
      · next heq =>
          cases hfind
          refine ⟨?_, fun x hx => ?_⟩
          · rw [Trie.unlink, if_pos rfl, subst, if_pos rfl]
          · rw [Trie.unlink, if_neg, if_pos hx, subst, if_pos rfl]
            rintro rfl
            exact hout (List.mem_append_left _ hx)
      · next hne =>
          -- What goes out is in a child of the root, and not in the other one.
          have hskip : ∀ x ∈ nodes left' ++ nodes right', x ≠ first ∧ x ∉ others' := fun x hx =>
            ⟨fun heq => hout (List.mem_append_right _ (heq ▸ hx)), fun hin => hapart hin hx⟩
          have hstep : ∀ x ∈ nodes left' ++ nodes right', ∀ S, left'.unlink x = subst y S left' →
              right'.unlink x = subst y S right' → (Trie.node t' first others' left' right').unlink x =
                subst y S (.node t' first others' left' right') := by
            intro x hx S hl hr
            rw [Trie.unlink, if_neg (hskip x hx).1, if_neg (hskip x hx).2, subst, if_neg hne, hl, hr]
          have hsame : ∀ x C S, x ∉ nodes C → y ∉ nodes C → Trie.unlink x C = subst y S C := fun x C S hx hy => by
            rw [Trie.unlink_of_notMem (items_nodes ▸ hx), subst_of_notMem hy]
          obtain hfind | ⟨-, hfind⟩ := Option.or_eq_some_iff.mp hfind
          · obtain ⟨hfirst, hothers⟩ := ihl hnodupl hfind
            have hsub := (find_nodes hfind).2
            have hy := hsub y List.mem_cons_self
            refine ⟨hstep y (List.mem_append_left _ hy) _ hfirst (hsame _ _ _ (hdisjoint hy) (hdisjoint hy)),
              fun x hx => ?_⟩
            have hin := hsub x (List.mem_cons_of_mem _ (List.mem_append_left _ hx))
            exact hstep x (List.mem_append_left _ hin) _ (hothers x hx) (hsame _ _ _ (hdisjoint hin) (hdisjoint hy))
          · obtain ⟨hfirst, hothers⟩ := ihr hnodupr hfind
            have hsub := (find_nodes hfind).2
            have hy := hsub y List.mem_cons_self
            have hnot : ∀ z ∈ nodes right', z ∉ nodes left' := fun z hz hin => hdisjoint hin hz
            refine ⟨hstep y (List.mem_append_right _ hy) _ (hsame _ _ _ (hnot y hy) (hnot y hy)) hfirst,
              fun x hx => ?_⟩
            have hin := hsub x (List.mem_cons_of_mem _ (List.mem_append_left _ hx))
            exact hstep x (List.mem_append_right _ hin) _ (hsame _ _ _ (hnot x hin) (hnot y hy)) (hothers x hx)

/-- The leaf that `takeLeaf` takes is a subtrie without children. -/
theorem takeLeaf_eq_subst (hnodup : (nodes T).Nodup) (h : T.takeLeaf = some ((t, y, others), S)) :
    find y T = some (.node t y others .nil .nil) ∧ S = subst y .nil T := by
  induction T generalizing S with
  | nil => cases h
  | node t' first others' left' right' ihl ihr =>
      obtain ⟨-, hrest⟩ := List.nodup_cons.mp hnodup
      obtain ⟨-, hboth, -⟩ := List.nodup_append'.mp hrest
      obtain ⟨hnodupl, hnodupr, hdisjoint⟩ := List.nodup_append'.mp hboth
      rw [Trie.takeLeaf] at h
      split at h
      · next leaf right hright =>
          cases h
          obtain ⟨hfind, rfl⟩ := ihr hnodupr hright
          have hy := (find_nodes hfind).2 y List.mem_cons_self
          have hnot : y ∉ nodes left' := fun hin => hdisjoint hin hy
          refine ⟨?_, ?_⟩
          · rw [find_child hnodup (List.mem_append_right _ hy), if_neg hnot, hfind]
          · rw [subst_child hnodup (List.mem_append_right _ hy), subst_of_notMem hnot]
      · next hright =>
          obtain rfl := Trie.takeLeaf_eq_none.mp hright
          split at h
          · next leaf left hleft =>
              cases h
              obtain ⟨hfind, rfl⟩ := ihl hnodupl hleft
              have hy := (find_nodes hfind).2 y List.mem_cons_self
              refine ⟨?_, ?_⟩
              · rw [find_child hnodup (List.mem_append_left _ hy), if_pos hy, hfind]
              · rw [subst_child hnodup (List.mem_append_left _ hy)]
                rfl
          · next hleft =>
              obtain rfl := Trie.takeLeaf_eq_none.mp hleft
              cases h
              exact ⟨if_pos rfl, by rw [subst, if_pos rfl]⟩

omit [DecidableEq α] in
/-- The parent of a node that is not the root. -/
theorem Hangs.parent_mem (h : Hangs H null q p T) (hz : z ∈ nodes T) (hp : z ≠ p) :
    H.parent z = null ∨ (H.parent z ∈ nodes T ∧ ∃ b, H.child b (H.parent z) = z) := by
  induction T generalizing q p with
  | nil => cases hz
  | node t first others left right ihl ihr =>
      obtain ⟨rfl, -, -, hothers, hleft, hright⟩ := h
      have hunder : ∀ b C, Hangs H null p (H.child b p) C → z ∈ nodes C → (z ≠ H.child b p →
          H.parent z = null ∨ (H.parent z ∈ nodes C ∧ ∃ b, H.child b (H.parent z) = z)) →
          (∀ y ∈ nodes C, y ∈ nodes left ++ nodes right) →
          H.parent z = null ∨ (H.parent z ∈ p :: (others ++ (nodes left ++ nodes right)) ∧
            ∃ b, H.child b (H.parent z) = z) := by
        intro b C hC hz hup hmem
        by_cases heq : z = H.child b p
        · cases C with
          | nil => cases hz
          | node t' first others' left' right' =>
              obtain ⟨hfirst, hparent, -⟩ := hC
              rw [heq, hfirst, hparent]
              exact Or.inr ⟨List.mem_cons_self, b, hfirst⟩
        · exact (hup heq).imp_right (And.imp_left fun hin =>
            List.mem_cons_of_mem _ (List.mem_append_right _ (hmem _ hin)))
      obtain heq | hz := List.mem_cons.mp hz
      · exact absurd heq hp
      obtain hz | hz := List.mem_append.mp hz
      · exact Or.inl (hothers z hz).parent
      obtain hz | hz := List.mem_append.mp hz
      · exact hunder false left hleft hz (ihl hleft hz) fun y => List.mem_append_left _
      · exact hunder true right hright hz (ihr hright hz) fun y => List.mem_append_right _

omit [DecidableEq α] in
/-- A node whose parent is `x` is a child of `x`. -/
theorem Hangs.exists_child (h : Hangs H null q p T) (hnull : null ∉ nodes T) (hq : q ≠ x) (hx : x ≠ null)
    (hz : z ∈ nodes T) (hpar : H.parent z = x) : ∃ b, H.child b x = z := by
  by_cases hp : z = p
  · subst hp
    have hznull : z ≠ null := fun heq => hnull (heq ▸ hz)
    exact absurd ((h.parent_eq hznull).symm.trans hpar) hq
  · obtain hzero | ⟨-, b, hb⟩ := h.parent_mem hz hp
    · exact absurd (hpar.symm.trans hzero) hx
    · exact ⟨b, hpar ▸ hb⟩

theorem subst_nil_sublist : (nodes (subst y .nil T)).Sublist (nodes T) := by
  induction T with
  | nil => exact List.Sublist.refl _
  | node t first others left right ihl ihr =>
      rw [subst]
      split
      · exact List.nil_sublist _
      · exact (List.Sublist.append (List.Sublist.refl others) (ihl.append ihr)).cons_cons first

theorem notMem_subst_nil (hnodup : (nodes T).Nodup) (hy : find y T ≠ none ∨ y ∉ nodes T) :
    y ∉ nodes (subst y .nil T) := by
  obtain hy | hy := hy
  · induction T with
    | nil => exact absurd rfl hy
    | node t first others left right ihl ihr =>
        obtain ⟨hout, hrest⟩ := List.nodup_cons.mp hnodup
        obtain ⟨-, hboth, hapart⟩ := List.nodup_append'.mp hrest
        obtain ⟨hnodupl, hnodupr, hdisjoint⟩ := List.nodup_append'.mp hboth
        rw [find] at hy
        rw [subst]
        split
        · exact List.not_mem_nil
        · next hne =>
            rw [if_neg hne] at hy
            have hunder : y ∈ nodes left ++ nodes right → y ∉ nodes (subst y .nil left) →
                y ∉ nodes (subst y .nil right) →
                y ∉ nodes (.node t first others (subst y .nil left) (subst y .nil right)) := by
              intro hin hl hr hmem
              obtain heq | hmem := List.mem_cons.mp hmem
              · exact hne heq.symm
              obtain hmem | hmem := List.mem_append.mp hmem
              · exact hapart hmem hin
              · exact (List.mem_append.mp hmem).elim hl hr
            by_cases hl : find y left = none
            · rw [hl, Option.none_or] at hy
              obtain ⟨S, hS⟩ := Option.ne_none_iff_exists'.mp hy
              have hin := (find_nodes hS).2 y (find_nodes hS).1
              have hnot : y ∉ nodes left := fun hleft => hdisjoint hleft hin
              exact hunder (List.mem_append_right _ hin) (by rwa [subst_of_notMem hnot]) (ihr hnodupr hy)
            · obtain ⟨S, hS⟩ := Option.ne_none_iff_exists'.mp hl
              have hin := (find_nodes hS).2 y (find_nodes hS).1
              have hnot : y ∉ nodes right := fun hright => hdisjoint hin hright
              exact hunder (List.mem_append_left _ hin) (ihl hnodupl hl) (by rwa [subst_of_notMem hnot])
  · exact fun hin => hy (subst_nil_sublist.subset hin)

/-- How the links change when `r` takes the place of the root `x` of a subtrie: what led to `r` leads nowhere, and
what led to `x` leads to `r`. -/
structure Relinked (H H' : Pointers α) (null x r : α) (T : Trie α) : Prop where
  parent_root : r ≠ null → H'.parent r = H.parent x
  child_root : r ≠ null → ∀ b, H'.child b r = if H.child b x = r then null else H.child b x
  parent : ∀ z ∈ nodes T, z ≠ r → z ≠ x → H'.parent z = if H.parent z = x then r else H.parent z
  child : ∀ z ∈ nodes T, z ≠ r → z ≠ x → ∀ b,
    H'.child b z = if H.child b z = x then r else if H.child b z = r then null else H.child b z

variable {r : α} {C : Trie α}

/-- A child of `x` becomes one of `r`, which is no longer in it. -/
theorem Relinked.under (hr : Relinked H H' null x r T) (hC : Hangs H null x (H.child b x) C)
    (hsub : ∀ z ∈ nodes C, z ∈ nodes T) (hnodup : (nodes C).Nodup) (hnull : null ∉ nodes T) (hx : x ∉ nodes C)
    (hxnull : x ≠ null) (hrnull : r ≠ null) (hin : r ∉ nodes C ∨ find r C ≠ none)
    (hring : ∀ z ∈ nodes C, z ≠ r → H'.next z = H.next z ∧ H'.prev z = H.prev z) :
    Hangs H' null r (H'.child b r) (subst r .nil C) := by
  have hnullC : null ∉ nodes C := fun hmem => hnull (hsub _ hmem)
  -- First `r` goes out, and then the root gets another parent.
  obtain ⟨H₁, hH₁⟩ : ∃ H₁ : Pointers α, H₁ = { H with
      child := fun b z => if H.child b z = r then null else H.child b z } := ⟨_, rfl⟩
  have hchild : ∀ b z, H₁.child b z = if H.child b z = r then null else H.child b z := by
    rw [hH₁]
    exact fun _ _ => rfl
  have hrest : ∀ z, H₁.next z = H.next z ∧ H₁.prev z = H.prev z ∧ H₁.parent z = H.parent z := by
    rw [hH₁]
    exact fun _ => ⟨rfl, rfl, rfl⟩
  have hcut : Hangs H₁ null x (if H.child b x = r then null else H.child b x) (subst r .nil C) := by
    by_cases hmem : r ∈ nodes C
    · obtain ⟨S, hS⟩ := Option.ne_none_iff_exists'.mp (hin.resolve_left fun hnot => hnot hmem)
      have hnil : Hangs H₁ null (H.parent r) null .nil := rfl
      refine hC.replace hnodup hnullC hS hnil (fun z _ b heq => ?_) (fun z _ _ b hne => ?_) fun z _ _ => hrest z
      · rw [hchild, if_pos heq]
      · rw [hchild, if_neg hne]
    · rw [subst_of_notMem hmem, if_neg]
      · refine hC.congr fun z hz => ⟨(hrest z).1, (hrest z).2.1, (hrest z).2.2, fun b => ?_⟩
        rw [hchild, if_neg]
        rintro rfl
        obtain hnone | ⟨hin, -⟩ := hC.child_mem (b := b) hz
        · exact hrnull hnone
        · exact hmem hin
      · rintro rfl
        exact hmem (hC.mem_nodes hrnull)
  have hmem : ∀ z ∈ nodes (subst r .nil C), z ∈ nodes C ∧ z ≠ r := fun z hz =>
    ⟨subst_nil_sublist.subset hz, fun heq => notMem_subst_nil hnodup hin.symm (heq ▸ hz)⟩
  have hnot : ∀ z ∈ nodes C, z ≠ x := fun z hz heq => hx (heq ▸ hz)
  rw [hr.child_root hrnull]
  refine hcut.reparent (fun z hz => ?_) (fun z hz hne => ?_) (fun hne => ?_)
    (hnodup.sublist subst_nil_sublist) fun hz => hnullC (hmem _ hz).1
  · obtain ⟨hz, hzr⟩ := hmem z hz
    obtain ⟨hnext, hprev⟩ := hring z hz hzr
    refine ⟨hnext.trans (hrest z).1.symm, hprev.trans (hrest z).2.1.symm, fun b => ?_⟩
    rw [hr.child z (hsub z hz) hzr (hnot z hz), hchild, if_neg]
    rintro heq
    obtain hnone | ⟨hin, -⟩ := hC.child_mem (b := b) hz
    · exact hxnull (heq ▸ hnone)
    · exact hx (heq ▸ hin)
  · obtain ⟨hz, hzr⟩ := hmem z hz
    rw [hr.parent z (hsub z hz) hzr (hnot z hz), (hrest z).2.2, if_neg]
    intro heq
    have hroot : z ≠ H.child b x := by
      rintro rfl
      rw [if_neg hzr] at hne
      exact hne rfl
    obtain hnone | ⟨hin, -⟩ := hC.parent_mem hz hroot
    · exact hxnull (heq ▸ hnone)
    · exact hx (heq ▸ hin)
  · split at hne
    · exact absurd rfl hne
    · next hcr =>
        rw [if_neg hcr]
        have hz := hC.mem_nodes hne
        rw [hr.parent _ (hsub _ hz) hcr (hnot _ hz), hC.parent_eq hne, if_pos rfl]

/-- The trie around a subtrie whose root `r` has taken the place of `x`. -/
theorem Hangs.relink (h : Hangs H null q p T) (hnodup : (nodes T).Nodup) (hnull : null ∉ nodes T) (hq : q ∉ nodes T)
    (hfind : find x T = some S) (hr : Relinked H H' null x r T)
    (hin : r ≠ null → r ∈ nodes S ∧ r ≠ x ∧ ∀ b, H.child b r = null)
    (hring : ∀ z ∈ nodes T, z ∉ nodes S → H'.next z = H.next z ∧ H'.prev z = H.prev z)
    (hS : Hangs H' null (H.parent x) r S') : Hangs H' null q (if p = x then r else p) (subst x S' T) := by
  obtain ⟨hhangs, hup⟩ := h.subtrie hnodup hnull hfind
  obtain ⟨hx, hsub⟩ := find_nodes hfind
  have hxnull : x ≠ null := fun heq => hnull (heq ▸ hsub x hx)
  -- What leads to `x` or to `r` from outside of the subtrie is the parent of `x`.
  have hparent : ∀ z ∈ nodes T, z ∉ nodes S → H.parent z ≠ x := by
    intro z hz hout heq
    by_cases hroot : z = p
    · subst hroot
      rw [h.parent_eq fun hzero => hnull (hzero ▸ hz)] at heq
      exact hq (heq ▸ hsub x hx)
    · obtain hnone | ⟨-, b, hchild⟩ := h.parent_mem hz hroot
      · exact hxnull (heq ▸ hnone)
      · rw [heq] at hchild
        obtain hnone | ⟨hmem, -⟩ := hhangs.child_mem (b := b) hx
        · exact hnull (hnone ▸ hchild ▸ hz)
        · exact hout (hchild ▸ hmem)
  have hchildr : ∀ z ∈ nodes T, z ∉ nodes S → r ≠ null → ∀ b, H.child b z ≠ r := by
    intro z hz hout hne b heq
    obtain ⟨hrS, hrx, -⟩ := hin hne
    obtain hnone | ⟨-, hpar⟩ := h.child_mem (b := b) hz
    · exact hne (heq ▸ hnone)
    · rw [heq] at hpar
      obtain hnone | ⟨hmem, -⟩ := hhangs.parent_mem hrS hrx
      · exact hnull (hnone ▸ hpar ▸ hz)
      · exact hout (hpar ▸ hmem)
  refine h.replace hnodup hnull hfind hS (fun z hz b heq => ?_) (fun z hz hout b hne => ?_) fun z hz hout => ?_
  · have hzr : z ≠ r := by
      rintro rfl
      have hzero : z ≠ null := fun hzero => hnull (hzero ▸ hz)
      exact hxnull (heq ▸ (hin hzero).2.2 b)
    have hzx : z ≠ x := by
      rintro rfl
      obtain hnone | ⟨-, hpar⟩ := h.child_mem (b := b) hz
      · exact hxnull (heq ▸ hnone)
      · rw [heq] at hpar
        by_cases hroot : z = p
        · subst hroot
          rw [h.parent_eq hxnull] at hpar
          exact hq (hpar.symm ▸ hz)
        · exact (hup hroot).2.1 (hpar.symm ▸ hx)
    rw [hr.child z hz hzr hzx, if_pos heq]
  · have hzx : z ≠ x := fun heq => hout (heq ▸ hx)
    by_cases hrnull : r = null
    · subst hrnull
      rw [hr.child z hz (fun heq => hnull (heq ▸ hz)) hzx, if_neg hne]
      split
      · next heq => exact heq.symm
      · rfl
    · have hzr : z ≠ r := fun heq => hout (heq ▸ (hin hrnull).1)
      rw [hr.child z hz hzr hzx, if_neg hne, if_neg (hchildr z hz hout hrnull b)]
  · have hzx : z ≠ x := fun heq => hout (heq ▸ hx)
    have hzr : z ≠ r := by
      rintro rfl
      exact hout (hin fun heq => hnull (heq ▸ hz)).1
    obtain ⟨hnext, hprev⟩ := hring z hz hout
    rw [hr.parent z hz hzr hzx, if_neg (hparent z hz hout)]
    exact ⟨hnext, hprev, rfl⟩

/-- The nodes before and behind `x` in its ring are linked with each other. -/
structure Unringed (H H' : Pointers α) (x : α) (l : List α) : Prop where
  next : ∀ z ∈ l, H'.next z = if z = H.prev x then H.next x else H.next z
  prev : ∀ z ∈ l, H'.prev z = if z = H.next x then H.prev x else H.prev z

theorem Path.unring (h : Path H u (l ++ x :: l') u) (hnodup : (u :: (l ++ x :: l')).Nodup) {ns : List α}
    (hu : Unringed H H' x ns) (hmem : ∀ z ∈ u :: (l ++ x :: l'), z ∈ ns) : Path H' u (l ++ l') u := by
  have hrest : ∀ z ∈ u :: (l ++ l'), z ∈ ns := fun z hz => hmem z (by
    simp only [List.mem_cons, List.mem_append] at hz ⊢
    exact hz.imp_right (Or.imp_right Or.inr))
  obtain ⟨hleft, hright⟩ := path_append.mp h
  have hprev : H.prev x ∈ ns := hmem _ (by
    have hin := hleft.prev_mem
    simp only [List.mem_cons, List.mem_append] at hin ⊢
    exact hin.imp_right Or.inl)
  have hnext : H.next x ∈ ns := hmem _ (by
    have hin := hright.next_mem
    simp only [List.mem_cons, List.mem_append, List.not_mem_nil, or_false] at hin ⊢
    exact hin.elim (fun hin => Or.inr (Or.inr (Or.inr hin))) Or.inl)
  refine h.remove hnodup ?_ ?_ (fun z hz hne => ?_) fun z hz hne => ?_
  · rw [hu.next _ hprev, if_pos rfl]
  · rw [hu.prev _ hnext, if_pos rfl]
  · rw [hu.next z (hrest z hz), if_neg hne]
  · rw [hu.prev z (hrest z hz), if_neg hne]

/-- A node that is in the ring of another goes out. -/
theorem Hangs.unlink_ringed (h : Hangs H null q p T) (hnodup : (nodes T).Nodup) (hnull : null ∉ nodes T)
    (hfind : find y T = some (.node t y others left right)) (hx : x ∈ others) (hu : Unringed H H' x (nodes T))
    (hsame : ∀ z ∈ nodes T, H'.parent z = H.parent z ∧ ∀ b, H'.child b z = H.child b z) :
    Hangs H' null q p (T.unlink x) := by
  obtain ⟨hy, hsub⟩ := find_nodes hfind
  obtain ⟨-, hparent, hpath, hothers, hleft, hright⟩ := (h.subtrie hnodup hnull hfind).1
  obtain ⟨hout, hrest⟩ := List.nodup_cons.mp (find_nodup hnodup hfind)
  obtain ⟨hring, hboth, hapart⟩ := List.nodup_append'.mp hrest
  obtain ⟨l, l', rfl⟩ := List.append_of_mem hx
  have hnodupring : (y :: (l ++ x :: l')).Nodup :=
    List.nodup_cons.mpr ⟨fun hin => hout (List.mem_append_left _ hin), hring⟩
  have hmem : ∀ z ∈ y :: (l ++ x :: l'), z ∈ nodes (.node t y (l ++ x :: l') left right) := fun z hz => by
    obtain rfl | hz := List.mem_cons.mp hz
    · exact List.mem_cons_self
    · exact List.mem_cons_of_mem _ (List.mem_append_left _ hz)
  have herase : (l ++ x :: l').erase x = l ++ l' := by
    have hnot : x ∉ l := fun hin => (List.nodup_append'.mp hring).2.2 hin List.mem_cons_self
    rw [List.erase_append_right _ hnot, List.erase_cons_head]
  -- The neighbours of `x` are in its ring.
  obtain ⟨hbefore, hbehind⟩ := path_append.mp hpath
  have hprev : H.prev x ∈ y :: (l ++ x :: l') := by
    have hin := hbefore.prev_mem
    simp only [List.mem_cons, List.mem_append] at hin ⊢
    exact hin.imp_right Or.inl
  have hnext : H.next x ∈ y :: (l ++ x :: l') := by
    have hin := hbehind.next_mem
    simp only [List.mem_cons, List.mem_append, List.not_mem_nil, or_false] at hin ⊢
    exact hin.elim (fun hin => Or.inr (Or.inr (Or.inr hin))) Or.inl
  have hkeep : ∀ z ∈ nodes T, z ∉ y :: (l ++ x :: l') → SameLinks H H' z := by
    intro z hz hnot
    refine ⟨?_, ?_, (hsame z hz).1, (hsame z hz).2⟩
    · rw [hu.next z hz, if_neg]
      rintro rfl
      exact hnot hprev
    · rw [hu.prev z hz, if_neg]
      rintro rfl
      exact hnot hnext
  have hchild : ∀ b, H'.child b y = H.child b y := (hsame y (hsub y hy)).2
  have hunder : ∀ b C, Hangs H null y (H.child b y) C → (∀ z ∈ nodes C, z ∈ nodes left ++ nodes right) →
      Hangs H' null y (H'.child b y) C := by
    intro b C hC hC'
    rw [hchild]
    refine hC.congr fun z hz => hkeep z (hsub z (List.mem_cons_of_mem _ (List.mem_append_right _ (hC' z hz)))) ?_
    intro hin
    obtain rfl | hin := List.mem_cons.mp hin
    · exact hout (List.mem_append_right _ (hC' z hz))
    · exact hapart hin (hC' z hz)
  rw [(unlink_eq_subst hnodup hfind).2 x hx, herase]
  have hS : Hangs H' null (H.parent y) y (.node t y (l ++ l') left right) := by
    refine ⟨rfl, (hsame y (hsub y hy)).1, hpath.unring hnodupring hu fun z hz => hsub z (hmem z hz), fun z hz => ?_,
      hunder false left hleft fun z => List.mem_append_left _, hunder true right hright fun z => List.mem_append_right _⟩
    have hz : z ∈ l ++ x :: l' := by
      simp only [List.mem_append, List.mem_cons] at hz ⊢
      exact hz.imp_right Or.inr
    obtain ⟨hpar, hch⟩ := hsame z (hsub z (hmem z (List.mem_cons_of_mem _ hz)))
    exact ⟨hpar.trans (hothers z hz).parent, fun b => (hch b).trans ((hothers z hz).child b)⟩
  have hwhole := h.replace hnodup hnull hfind hS (fun z hz b heq => ((hsame z hz).2 b).trans heq)
    (fun z hz _ b _ => (hsame z hz).2 b) fun z hz hnot => ?_
  · rwa [ite_eq_right_iff.mpr fun heq => heq.symm] at hwhole
  · have hz' := hkeep z hz fun hin => hnot (hmem z hin)
    exact ⟨hz'.next, hz'.prev, hz'.parent⟩

/-- The leaf that `takeLeaf` takes. -/
def leaf (null : α) (T : Trie α) : α :=
  match T.takeLeaf with
  | some ((_, y, _), _) => y
  | none => null

theorem leaf_node : leaf null (.node t first others left right) =
    if right ≠ .nil then leaf null right else if left ≠ .nil then leaf null left else first := by
  by_cases hright : right = .nil
  · subst hright
    by_cases hleft : left = .nil
    · subst hleft
      rfl
    · obtain ⟨⟨⟨t', y, os⟩, C⟩, hsome⟩ := Option.ne_none_iff_exists'.mp (Trie.takeLeaf_eq_none.not.mpr hleft)
      rw [if_neg (not_not.mpr rfl), if_pos hleft, leaf, leaf, Trie.takeLeaf, hsome]
      rfl
  · obtain ⟨⟨⟨t', y, os⟩, C⟩, hsome⟩ := Option.ne_none_iff_exists'.mp (Trie.takeLeaf_eq_none.not.mpr hright)
    rw [if_pos hright, leaf, leaf, Trie.takeLeaf, hsome]

/-- What takes the place of the root of a trie: the last of its ring, or else a leaf. -/
def heir (H : Pointers α) (null : α) : Trie α → α
  | .nil => null
  | .node _ first others left right =>
      if others ≠ [] then H.prev first else if right ≠ .nil then leaf null right else leaf null left

/-- What is left of a trie whose root has no ring, when a leaf takes the root's place. -/
theorem dropFirst_alone (hnodup : (nodes (.node t first [] left right)).Nodup)
    (hsome : left ≠ .nil ∨ right ≠ .nil) : ∃ t' y os C,
      heir H null (.node t first [] left right) = y ∧ (C = left ∨ C = right) ∧
        find y C = some (.node t' y os .nil .nil) ∧
        (y ∉ nodes left ∨ find y left ≠ none) ∧ (y ∉ nodes right ∨ find y right ≠ none) ∧
        Trie.dropFirst t [] left right = .node t' y os (subst y .nil left) (subst y .nil right) := by
  have hboth : (nodes left ++ nodes right).Nodup := (List.nodup_cons.mp hnodup).2
  obtain ⟨hnodupl, hnodupr, hdisjoint⟩ := List.nodup_append'.mp hboth
  by_cases hright : right = .nil
  · subst hright
    have hleft := hsome.resolve_right (not_not.mpr rfl)
    obtain ⟨⟨⟨t', y, os⟩, C⟩, hleaf⟩ := Option.ne_none_iff_exists'.mp (Trie.takeLeaf_eq_none.not.mpr hleft)
    obtain ⟨hfind, rfl⟩ := takeLeaf_eq_subst hnodupl hleaf
    refine ⟨t', y, os, left, ?_, Or.inl rfl, hfind, Or.inr (by simp [hfind]), Or.inl List.not_mem_nil, ?_⟩
    · rw [heir, if_neg (not_not.mpr rfl), if_neg (not_not.mpr rfl), leaf, hleaf]
    · rw [Trie.dropFirst, List.getLast?_nil, Trie.takeLeaf, hleaf]
      rfl
  · obtain ⟨⟨⟨t', y, os⟩, C⟩, hleaf⟩ := Option.ne_none_iff_exists'.mp (Trie.takeLeaf_eq_none.not.mpr hright)
    obtain ⟨hfind, rfl⟩ := takeLeaf_eq_subst hnodupr hleaf
    have hnot : y ∉ nodes left := fun hin => hdisjoint hin ((find_nodes hfind).2 y (find_nodes hfind).1)
    refine ⟨t', y, os, right, ?_, Or.inr rfl, hfind, Or.inl hnot, Or.inr (by simp [hfind]), ?_⟩
    · rw [heir, if_neg (not_not.mpr rfl), if_pos hright, leaf, hleaf]
    · rw [Trie.dropFirst, List.getLast?_nil, hleaf, subst_of_notMem hnot]

omit [DecidableEq α] in
theorem Path.prev_last (h : Path H u (l ++ [x]) v) : H.prev v = x := (path_append.mp h).2.2

/-- The root of a subtrie goes out that has no other of its size: a leaf takes its place, if there is one. -/
theorem Hangs.unlink_alone (h : Hangs H null q p T) (hnodup : (nodes T).Nodup) (hnull : null ∉ nodes T)
    (hq : q ∉ nodes T) (hfind : find x T = some (.node t x [] left right))
    (hr : Relinked H H' null x (heir H null (.node t x [] left right)) T)
    (hring : ∀ z ∈ nodes T, H'.next z = H.next z ∧ H'.prev z = H.prev z) :
    Hangs H' null q (if p = x then heir H null (.node t x [] left right) else p) (T.unlink x) := by
  obtain ⟨hx, hsub⟩ := find_nodes hfind
  obtain ⟨-, -, hpath, hothers, hleft, hright⟩ := (h.subtrie hnodup hnull hfind).1
  have hnodupS := find_nodup hnodup hfind
  obtain ⟨hout, hrest⟩ := List.nodup_cons.mp hnodupS
  obtain ⟨hnodupl, hnodupr, hdisjoint⟩ := List.nodup_append'.mp (List.nil_append _ ▸ hrest)
  have hxnull : x ≠ null := fun heq => hnull (heq ▸ hsub x hx)
  have hlow : ∀ z ∈ nodes left, z ∈ nodes T := fun z hz =>
    hsub z (List.mem_cons_of_mem _ (List.mem_append_right _ (List.mem_append_left _ hz)))
  have hhigh : ∀ z ∈ nodes right, z ∈ nodes T := fun z hz =>
    hsub z (List.mem_cons_of_mem _ (List.mem_append_right _ (List.mem_append_right _ hz)))
  have hxl : x ∉ nodes left := fun hin => hout (List.mem_append_right _ (List.mem_append_left _ hin))
  have hxr : x ∉ nodes right := fun hin => hout (List.mem_append_right _ (List.mem_append_right _ hin))
  rw [(unlink_eq_subst hnodup hfind).1]
  by_cases hnone : left = .nil ∧ right = .nil
  · -- Nothing takes its place.
    obtain ⟨rfl, rfl⟩ := hnone
    exact h.relink hnodup hnull hq hfind hr (fun hne => absurd rfl hne) (fun z hz _ => hring z hz) rfl
  -- A leaf takes its place.
  obtain ⟨t', r, os, C, hheir, hC, hfindr, hl, hrt, hdrop⟩ :=
    dropFirst_alone hnodupS (by rwa [← not_and_or])
  rw [hheir] at hr ⊢
  rw [hdrop]
  obtain ⟨hrC, hleafC⟩ := find_nodes hfindr
  have hCS : ∀ z ∈ nodes C, z ∈ nodes left ++ nodes right := by
    obtain rfl | rfl := hC
    · exact fun z => List.mem_append_left _
    · exact fun z => List.mem_append_right _
  have hCx : ∃ b, Hangs H null x (H.child b x) C ∧ (nodes C).Nodup := by
    obtain rfl | rfl := hC
    · exact ⟨false, hleft, hnodupl⟩
    · exact ⟨true, hright, hnodupr⟩
  obtain ⟨b, hCx, hnodupC⟩ := hCx
  have hCT : ∀ z ∈ nodes C, z ∈ nodes T := fun z hz => hsub z (List.mem_cons_of_mem _ (hCS z hz))
  have hnullC : null ∉ nodes C := fun hin => hnull (hCT _ hin)
  have hrin := hleafC r hrC
  have hrnull : r ≠ null := fun heq => hnullC (heq ▸ hrin)
  have hrx : r ≠ x := fun heq => hout (heq ▸ hCS r hrin)
  obtain ⟨-, -, hpathr, hothersr, hchildl, hchildr⟩ := (hCx.subtrie hnodupC hnullC hfindr).1
  have hnodupr' := find_nodup hnodupC hfindr
  refine h.relink hnodup hnull hq hfind hr (fun _ => ⟨List.mem_cons_of_mem _ (hCS r hrin), hrx, fun b => ?_⟩)
    (fun z hz _ => hring z hz) ?_
  · cases b
    · exact hchildl
    · exact hchildr
  · refine ⟨rfl, hr.parent_root hrnull, ring_congr hpathr fun z hz => ?_, fun z hz => ?_, ?_, ?_⟩
    · refine hring z (hCT z (hleafC z ?_))
      obtain rfl | hz := List.mem_cons.mp hz
      · exact List.mem_cons_self
      · exact List.mem_cons_of_mem _ (List.mem_append_left _ hz)
    · have hzC := hleafC z (List.mem_cons_of_mem _ (List.mem_append_left _ hz))
      have hzr : z ≠ r := fun heq => (List.nodup_cons.mp hnodupr').1 (List.mem_append_left _ (heq ▸ hz))
      have hzx : z ≠ x := fun heq => hout (heq ▸ hCS z hzC)
      refine ⟨?_, fun b => ?_⟩
      · rw [hr.parent z (hCT z hzC) hzr hzx, (hothersr z hz).parent, if_neg hxnull.symm]
      · rw [hr.child z (hCT z hzC) hzr hzx, (hothersr z hz).child, if_neg hxnull.symm, if_neg hrnull.symm]
    · exact hr.under hleft hlow hnodupl hnull hxl hxnull hrnull hl fun z hz _ => hring z (hlow z hz)
    · exact hr.under hright hhigh hnodupr hnull hxr hxnull hrnull hrt fun z hz _ => hring z (hhigh z hz)

/-- The root of a subtrie goes out, and the last of its ring takes its place. -/
theorem Hangs.unlink_foremost {os : List α} {r : α} (h : Hangs H null q p T) (hnodup : (nodes T).Nodup)
    (hnull : null ∉ nodes T) (hq : q ∉ nodes T) (hfind : find x T = some (.node t x (os ++ [r]) left right))
    (hr : Relinked H H' null x (heir H null (.node t x (os ++ [r]) left right)) T)
    (hring : Unringed H H' x (nodes T)) :
    Hangs H' null q (if p = x then heir H null (.node t x (os ++ [r]) left right) else p) (T.unlink x) := by
  obtain ⟨hx, hsub⟩ := find_nodes hfind
  obtain ⟨-, -, hpath, hothers, hleft, hright⟩ := (h.subtrie hnodup hnull hfind).1
  obtain ⟨hout, hrest⟩ := List.nodup_cons.mp (find_nodup hnodup hfind)
  obtain ⟨hnodupring, hboth, hapart⟩ := List.nodup_append'.mp hrest
  obtain ⟨hnodupl, hnodupr, -⟩ := List.nodup_append'.mp hboth
  have hxnull : x ≠ null := fun heq => hnull (heq ▸ hsub x hx)
  rw [(unlink_eq_subst hnodup hfind).1]
  have hprev : H.prev x = r := hpath.prev_last
  have hheir : heir H null (.node t x (os ++ [r]) left right) = r := by
    rw [heir, if_pos (by simp), hprev]
  rw [hheir] at hr ⊢
  have hrin : r ∈ os ++ [r] := List.mem_append_right _ List.mem_cons_self
  have hrS : r ∈ nodes (.node t x (os ++ [r]) left right) := List.mem_cons_of_mem _ (List.mem_append_left _ hrin)
  have hrnull : r ≠ null := fun heq => hnull (heq ▸ hsub r hrS)
  have hrx : r ≠ x := fun heq => hout (heq ▸ List.mem_append_left _ hrin)
  have hrl : r ∉ nodes left := fun hin => hapart hrin (List.mem_append_left _ hin)
  have hrr : r ∉ nodes right := fun hin => hapart hrin (List.mem_append_right _ hin)
  have hnext : H.next x ∈ x :: (os ++ [r]) := by
    have hin := hpath.next_mem
    simp only [List.mem_cons, List.mem_append, List.not_mem_nil, or_false] at hin ⊢
    exact hin.elim Or.inr Or.inl
  have hkeep : ∀ z ∈ nodes T, z ∉ x :: (os ++ [r]) → H'.next z = H.next z ∧ H'.prev z = H.prev z := by
    intro z hz hnot
    rw [hring.next z hz, hring.prev z hz, if_neg, if_neg]
    · exact ⟨rfl, rfl⟩
    · rintro rfl
      exact hnot hnext
    · rw [hprev]
      rintro rfl
      exact hnot (List.mem_cons_of_mem _ hrin)
  have hdrop : Trie.dropFirst t (os ++ [r]) left right = .node t r os left right := by
    rw [Trie.dropFirst, List.getLast?_concat, List.dropLast_concat]
  rw [hdrop]
  have hunder : ∀ b C, Hangs H null x (H.child b x) C → (∀ z ∈ nodes C, z ∈ nodes left ++ nodes right) →
      (nodes C).Nodup → Hangs H' null r (H'.child b r) C := by
    intro b C hC hC' hnodupC
    have hnotr : r ∉ nodes C := fun hin => hapart hrin (hC' r hin)
    have hsubC : ∀ z ∈ nodes C, z ∈ nodes T := fun z hz =>
      hsub z (List.mem_cons_of_mem _ (List.mem_append_right _ (hC' z hz)))
    have hside := hr.under hC hsubC hnodupC hnull (fun hin => hout (List.mem_append_right _ (hC' x hin))) hxnull
      hrnull (Or.inl hnotr) fun z hz _ => hkeep z (hsubC z hz) fun hin => by
        obtain rfl | hin := List.mem_cons.mp hin
        · exact hout (List.mem_append_right _ (hC' z hz))
        · exact hapart hin (hC' z hz)
    rwa [subst_of_notMem hnotr] at hside
  refine h.relink hnodup hnull hq hfind hr (fun _ => ⟨hrS, hrx, (hothers r hrin).child⟩) (fun z hz hnot => ?_) ?_
  · exact hkeep z hz fun hin => hnot (by
      obtain rfl | hin := List.mem_cons.mp hin
      · exact List.mem_cons_self
      · exact List.mem_cons_of_mem _ (List.mem_append_left _ hin))
  · refine ⟨rfl, hr.parent_root hrnull, ?_, fun z hz => ?_, hunder false left hleft (fun z => List.mem_append_left _)
      hnodupl, hunder true right hright (fun z => List.mem_append_right _) hnodupr⟩
    · have hring' : Path H r (x :: os) r := path_rotate.mp hpath
      refine Path.unring (l := []) hring' ?_ hring fun z hz => ?_
      · have hperm : (r :: ([] ++ x :: os)).Perm (x :: (os ++ [r])) := by
          rw [List.nil_append]
          exact (List.perm_append_singleton r (x :: os)).symm
        exact hperm.nodup_iff.mpr (List.nodup_cons.mpr ⟨fun hin => hout (List.mem_append_left _ hin), hnodupring⟩)
      · refine hsub z ?_
        simp only [List.nil_append, List.mem_cons, nodes, List.mem_append] at hz ⊢
        obtain rfl | rfl | hz := hz
        · simp
        · simp
        · simp [hz]
    · have hzin : z ∈ os ++ [r] := List.mem_append_left _ hz
      have hzT := hsub z (List.mem_cons_of_mem _ (List.mem_append_left _ hzin))
      have hzx : z ≠ x := fun heq => hout (heq ▸ List.mem_append_left _ hzin)
      have hzr : z ≠ r := fun heq => (List.nodup_append'.mp hnodupring).2.2 hz (heq ▸ List.mem_cons_self)
      have hz' := hothers z hzin
      refine ⟨?_, fun b => ?_⟩
      · rw [hr.parent z hzT hzr hzx, hz'.parent, if_neg hxnull.symm]
      · rw [hr.child z hzT hzr hzx, hz'.child, if_neg hxnull.symm, if_neg hrnull.symm]

/-- The root of a subtrie goes out. -/
theorem Hangs.unlink_first (h : Hangs H null q p T) (hnodup : (nodes T).Nodup) (hnull : null ∉ nodes T)
    (hq : q ∉ nodes T) (hfind : find x T = some (.node t x others left right))
    (hr : Relinked H H' null x (heir H null (.node t x others left right)) T)
    (hring : if others ≠ [] then Unringed H H' x (nodes T)
      else ∀ z ∈ nodes T, H'.next z = H.next z ∧ H'.prev z = H.prev z) :
    Hangs H' null q (if p = x then heir H null (.node t x others left right) else p) (T.unlink x) := by
  obtain rfl | ⟨os, r, rfl⟩ := others.eq_nil_or_concat
  · rw [if_neg (not_not.mpr rfl)] at hring
    exact h.unlink_alone hnodup hnull hq hfind hr hring
  · rw [List.concat_eq_append] at *
    rw [if_pos (by simp)] at hring
    exact h.unlink_foremost hnodup hnull hq hfind hr hring

end Kiznix.LinkedTrie
