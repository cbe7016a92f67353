import Kiznix.ByteMemory

/-! Blocks that fill a stretch of memory one after the other. What holds of a block is a matter of its own bytes
and of the kind of the block before it. -/

namespace Kiznix.BlockRow

open ByteMemory

variable {κ : Type}

structure Block (κ : Type) where
  kind : κ
  size : Nat
  deriving DecidableEq

def total (row : List (Block κ)) : Nat := (row.map Block.size).sum

/-- The kind of the last block; `k` is the kind before the first. -/
def lastKind (k : κ) : List (Block κ) → κ
  | [] => k
  | b :: row => lastKind b.kind row

/-- In a row that starts at `p` after a block of kind `k`, block `b` is at `q` after a block of kind `k'`. -/
def Placed (k : κ) (p : Nat) : List (Block κ) → κ → Nat → Block κ → Prop
  | [], _, _, _ => False
  | c :: row, k', q, b => (k' = k ∧ q = p ∧ b = c) ∨ Placed c.kind (p + c.size) row k' q b

/-- `P` holds of each block, at its place and after the kind before it. -/
def Laid (P : κ → Block κ → Nat → Memory → Prop) (m : Memory) (k : κ) (p : Nat) : List (Block κ) → Prop
  | [] => True
  | b :: row => P k b p m ∧ Laid P m b.kind (p + b.size) row

/-- `P` reads the bytes of the block only, which begin `d` bytes after its place. -/
def Local (d : Nat) (P : κ → Block κ → Nat → Memory → Prop) : Prop :=
  ∀ k b p m m', P k b p m → (∀ x, p + d ≤ x → x < p + d + b.size → m' x = m x) → P k b p m'

variable {P : κ → Block κ → Nat → Memory → Prop} {m m' : Memory} {d p q q' : Nat} {k k' k'' : κ} {b b' : Block κ}
  {row row' pre mid mid' post : List (Block κ)}

@[simp] theorem total_nil : total ([] : List (Block κ)) = 0 := rfl

@[simp] theorem total_cons : total (b :: row) = b.size + total row := by
  rw [total, List.map_cons, List.sum_cons]
  rfl

@[simp] theorem total_append : total (row ++ row') = total row + total row' := by
  rw [total, List.map_append, List.sum_append]
  rfl

@[simp] theorem lastKind_nil : lastKind k ([] : List (Block κ)) = k := rfl

@[simp] theorem lastKind_cons : lastKind k (b :: row) = lastKind b.kind row := rfl

@[simp] theorem lastKind_append : lastKind k (row ++ row') = lastKind (lastKind k row) row' := by
  induction row generalizing k with
  | nil => rfl
  | cons b row ih => exact ih

/-! ### Places -/

@[simp] theorem placed_nil : ¬ Placed k p [] k' q b := id

@[simp] theorem placed_cons : Placed k p (b' :: row) k' q b ↔
    (k' = k ∧ q = p ∧ b = b') ∨ Placed b'.kind (p + b'.size) row k' q b := Iff.rfl

theorem exists_placed_nil : ¬ ∃ k', Placed k p [] k' q b := fun ⟨_, h⟩ => h

theorem exists_placed_cons : (∃ k', Placed k p (b' :: row) k' q b) ↔
    (q = p ∧ b = b') ∨ ∃ k', Placed b'.kind (p + b'.size) row k' q b := by
  simp only [placed_cons, exists_or, exists_eq_left]

theorem placed_append : Placed k p (row ++ row') k' q b ↔
    Placed k p row k' q b ∨ Placed (lastKind k row) (p + total row) row' k' q b := by
  induction row generalizing k p with
  | nil => exact (iff_of_eq (false_or _)).symm
  | cons c row ih =>
      rw [List.cons_append, placed_cons, placed_cons, ih, or_assoc, total_cons, Nat.add_assoc]
      rfl

theorem Placed.bounds (h : Placed k p row k' q b) : p ≤ q ∧ q + b.size ≤ p + total row := by
  induction row generalizing k p with
  | nil => exact h.elim
  | cons c row ih =>
      rw [total_cons]
      obtain ⟨-, rfl, rfl⟩ | h := h
      · exact ⟨Nat.le_refl _, by omega⟩
      · obtain ⟨hlow, hhigh⟩ := ih h
        exact ⟨by omega, by omega⟩

/-- What is before a block and what is after it. -/
theorem Placed.split (h : Placed k p row k' q b) :
    ∃ pre post, row = pre ++ b :: post ∧ q = p + total pre ∧ k' = lastKind k pre := by
  induction row generalizing k p with
  | nil => exact h.elim
  | cons c row ih =>
      obtain ⟨rfl, rfl, rfl⟩ | h := h
      · exact ⟨[], row, rfl, rfl, rfl⟩
      · obtain ⟨pre, post, rfl, rfl, rfl⟩ := ih h
        exact ⟨c :: pre, post, rfl, by rw [total_cons, Nat.add_assoc], rfl⟩

theorem Placed.mem (h : Placed k p row k' q b) : b ∈ row := by
  obtain ⟨pre, post, rfl, -, -⟩ := h.split
  exact List.mem_append_right _ List.mem_cons_self

/-- After a kind that no block of the row has, there is the first block only. -/
theorem Placed.first (h : Placed k p row k' q b) (hk : ∀ c ∈ row, c.kind ≠ k') : k' = k ∧ q = p := by
  obtain ⟨pre, post, rfl, rfl, rfl⟩ := h.split
  induction pre generalizing k p with
  | nil => exact ⟨rfl, rfl⟩
  | cons c pre ih =>
      exfalso
      have hlast : lastKind c.kind pre ∈ (c :: pre).map Block.kind := by
        clear h hk ih
        induction pre generalizing c with
        | nil => exact List.mem_cons_self
        | cons d pre ih => exact List.mem_cons_of_mem _ (ih d)
      obtain ⟨d, hd, heq⟩ := List.mem_map.mp hlast
      exact hk d (List.mem_append_left _ hd) heq

/-- Two blocks are the same or apart. -/
theorem Placed.apart (h : Placed k p row k' q b) (h' : Placed k p row k'' q' b') :
    (k' = k'' ∧ q = q' ∧ b = b') ∨ q + b.size ≤ q' ∨ q' + b'.size ≤ q := by
  induction row generalizing k p with
  | nil => exact h.elim
  | cons c row ih =>
      obtain ⟨rfl, rfl, rfl⟩ | h := h
      · obtain ⟨rfl, rfl, rfl⟩ | h' := h'
        · exact Or.inl ⟨rfl, rfl, rfl⟩
        · exact Or.inr (Or.inl h'.bounds.1)
      · obtain ⟨rfl, rfl, rfl⟩ | h' := h'
        · exact Or.inr (Or.inr h.bounds.1)
        · exact ih h h'

/-- A place holds one block that is not empty. -/
theorem Placed.unique (h : Placed k p row k' q b) (h' : Placed k p row k'' q b') (hb : 0 < b.size)
    (hb' : 0 < b'.size) : k' = k'' ∧ b = b' := by
  obtain ⟨hk, -, heq⟩ | hlow | hhigh := h.apart h'
  · exact ⟨hk, heq⟩
  · omega
  · omega

/-- A block before or after `mid`. -/
def Around (k : κ) (p : Nat) (pre mid post : List (Block κ)) (k' : κ) (q : Nat) (b : Block κ) : Prop :=
  Placed k p pre k' q b ∨ Placed (lastKind (lastKind k pre) mid) (p + total pre + total mid) post k' q b

theorem placed_around : Placed k p (pre ++ (mid ++ post)) k' q b ↔
    Around k p pre mid post k' q b ∨ Placed (lastKind k pre) (p + total pre) mid k' q b := by
  rw [placed_append, placed_append]
  exact ⟨fun h => h.elim (Or.inl ∘ Or.inl) fun h => h.elim Or.inr (Or.inl ∘ Or.inr),
    fun h => h.elim (fun h => h.elim Or.inl (Or.inr ∘ Or.inr)) (Or.inr ∘ Or.inl)⟩

theorem Around.bounds (h : Around k p pre mid post k' q b) :
    q + b.size ≤ p + total pre ∨ p + total pre + total mid ≤ q :=
  h.elim (fun h => Or.inl h.bounds.2) fun h => Or.inr h.bounds.1

/-- Other blocks in the place of `mid` leave those around it. -/
theorem around_congr (htotal : total mid' = total mid)
    (hkind : lastKind (lastKind k pre) mid' = lastKind (lastKind k pre) mid) :
    Around k p pre mid' post k' q b ↔ Around k p pre mid post k' q b := by
  rw [Around, Around, htotal, hkind]

/-! ### Rows in memory -/

theorem laid_append : Laid P m k p (row ++ row') ↔
    Laid P m k p row ∧ Laid P m (lastKind k row) (p + total row) row' := by
  induction row generalizing k p with
  | nil => exact (iff_of_eq (true_and _)).symm
  | cons b row ih =>
      rw [List.cons_append, total_cons, ← Nat.add_assoc]
      exact (and_congr_right fun _ => ih).trans and_assoc.symm

theorem Laid.placed (h : Laid P m k p row) (hb : Placed k p row k' q b) : P k' b q m := by
  obtain ⟨pre, post, rfl, rfl, rfl⟩ := hb.split
  exact (laid_append.mp h).2.1

theorem laid_iff : Laid P m k p row ↔ ∀ k' q b, Placed k p row k' q b → P k' b q m := by
  refine ⟨fun h k' q b hb => h.placed hb, fun h => ?_⟩
  induction row generalizing k p with
  | nil => trivial
  | cons b row ih => exact ⟨h k p b (Or.inl ⟨rfl, rfl, rfl⟩), ih fun k' q c hc => h k' q c (Or.inr hc)⟩

theorem Laid.congr (hP : Local d P) (h : Laid P m k p row)
    (hmem : ∀ x, p + d ≤ x → x < p + d + total row → m' x = m x) : Laid P m' k p row := by
  induction row generalizing k p with
  | nil => trivial
  | cons b row ih =>
      rw [total_cons] at hmem
      refine ⟨hP _ _ _ _ _ h.1 fun x hlow hhigh => hmem x hlow (by omega), ih h.2 fun x hlow hhigh => ?_⟩
      exact hmem x (by omega) (by omega)

/-- Blocks take the place of others that fill the same bytes. -/
theorem Laid.replace (hP : Local d P) (h : Laid P m k p (pre ++ (mid ++ post))) (htotal : total mid' = total mid)
    (hkind : lastKind (lastKind k pre) mid' = lastKind (lastKind k pre) mid)
    (hmid : Laid P m' (lastKind k pre) (p + total pre) mid')
    (hmem : ∀ x, x < p + total pre + d ∨ p + total pre + total mid + d ≤ x → m' x = m x) :
    Laid P m' k p (pre ++ (mid' ++ post)) := by
  obtain ⟨hpre, hrest⟩ := laid_append.mp h
  obtain ⟨-, hpost⟩ := laid_append.mp hrest
  refine laid_append.mpr ⟨hpre.congr hP fun x hlow hhigh => hmem x (by omega), laid_append.mpr ⟨hmid, ?_⟩⟩
  rw [hkind, htotal]
  exact hpost.congr hP fun x hlow hhigh => hmem x (by omega)

end Kiznix.BlockRow
