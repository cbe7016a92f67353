import Mathlib.Algebra.Order.Ring.Nat
import Mathlib.Data.List.Basic
import Mathlib.Data.List.Infix
import Mathlib.Data.List.TakeWhile

/-! Trees of tables over arbitrary types of frames and indices. `next f i` is the frame that entry `i` of
the table in frame `f` refers to. A tree of depth `n` has tables above depth `n` and data below; an entry
of the top table refers to the top table itself, so that a path through it reaches the tables as data. -/

namespace Kiznix.RadixTree

variable {F I : Type} {next next' : F → I → Option F} {top f g t : F} {own i x : I} {n : Nat}
  {p q r : List I}

def follow (next : F → I → Option F) : F → List I → Option F
  | f, [] => some f
  | f, i :: p => (next f i).bind fun g => follow next g p

theorem follow_append : follow next f (p ++ q) = (follow next f p).bind fun g => follow next g q := by
  induction p generalizing f with
  | nil => rfl
  | cons i p ih =>
      rw [List.cons_append, follow, follow, Option.bind_assoc]
      congr 1
      funext g
      exact ih

theorem follow_concat : follow next f (p ++ [i]) = (follow next f p).bind fun g => next g i := by
  rw [follow_append]
  congr 1
  funext g
  rw [follow]
  cases next g i <;> rfl

/-- A path is followed in the same way when the entries on it are the same. -/
theorem follow_congr
    (h : ∀ q i, q ++ [i] <+: p → ∀ f, follow next top q = some f → next' f i = next f i) :
    follow next' top p = follow next top p := by
  induction p using List.reverseRecOn with
  | nil => rfl
  | append_singleton p i ih =>
      have hinit : follow next' top p = follow next top p :=
        ih fun q j hq => h q j (hq.trans (List.prefix_append p [i]))
      rw [follow_concat, follow_concat, hinit]
      cases hp : follow next top p with
      | none => rfl
      | some f => exact h p i List.prefix_rfl f hp

/-- The frames that hold tables. -/
def IsTable (next : F → I → Option F) (top : F) (n : Nat) (f : F) : Prop :=
  ∃ p, p.length < n ∧ follow next top p = some f

theorem isTable_top (hn : 0 < n) : IsTable next top n top := ⟨[], hn, rfl⟩

/-- The top table refers to itself at `own`, and every table is referred to once. -/
structure RecursiveTree (next : F → I → Option F) (top : F) (own : I) (n : Nat) : Prop where
  recursive : next top own = some top
  unique : ∀ p q f, p.length < n → q.length < n → p.head? ≠ some own → q.head? ≠ some own →
    follow next top p = some f → follow next top q = some f → p = q

section Congruence

/-- Only entries of tables matter to a path of at most the tree's depth. -/
theorem follow_of_tables (h : ∀ f i, IsTable next top n f → next' f i = next f i) (hp : p.length ≤ n) :
    follow next' top p = follow next top p := by
  refine follow_congr fun q i hq f hf => h f i ⟨q, ?_, hf⟩
  have hlength := hq.length_le
  rw [List.length_append, List.length_singleton] at hlength
  omega

variable (h : ∀ q, q.length < n → follow next' top q = follow next top q)

include h

theorem isTable_congr : IsTable next' top n f ↔ IsTable next top n f := by
  constructor
  · rintro ⟨p, hlength, hp⟩
    exact ⟨p, hlength, by rwa [h p hlength] at hp⟩
  · rintro ⟨p, hlength, hp⟩
    exact ⟨p, hlength, by rwa [h p hlength]⟩

/-- The shape of a tree is a matter of the paths to its tables. -/
theorem RecursiveTree.congr (htree : RecursiveTree next top own n) (hown : next' top own = some top) :
    RecursiveTree next' top own n := by
  refine ⟨hown, fun p q f hp hq hpown hqown hpf hqf => ?_⟩
  rw [h p hp] at hpf
  rw [h q hq] at hqf
  exact htree.unique p q f hp hq hpown hqown hpf hqf

end Congruence

/-- Data may change freely. -/
theorem RecursiveTree.of_tables (htree : RecursiveTree next top own n) (hn : 0 < n)
    (h : ∀ f i, IsTable next top n f → next' f i = next f i) : RecursiveTree next' top own n := by
  refine htree.congr (fun q hq => follow_of_tables h hq.le) ?_
  rw [h top own (isTable_top hn), htree.recursive]

/-- The entry `x` of the table that the path `p` leads to. -/
structure Entry (next : F → I → Option F) (top : F) (own : I) (n : Nat) (p : List I) (t : F) (x : I) :
    Prop where
  table : follow next top p = some t
  depth : p.length < n
  outside : (p ++ [x]).head? ≠ some own

theorem Entry.isTable (h : Entry next top own n p t x) : IsTable next top n t := ⟨p, h.depth, h.table⟩

theorem Entry.head (h : Entry next top own n p t x) : p.head? ≠ some own := by
  cases p with
  | nil => simp
  | cons i p => exact h.outside

variable [DecidableEq I]

/-- The path without its detours through the top table. -/
def strip (own : I) (p : List I) : List I := p.dropWhile (· = own)

theorem strip_of_head (h : p.head? ≠ some own) : strip own p = p := by
  cases p with
  | nil => rfl
  | cons i p =>
      have hne : i ≠ own := fun heq => h (by rw [heq]; rfl)
      simp [strip, hne]

theorem strip_head : (strip own p).head? ≠ some own := by
  intro h
  have hnot := List.head?_dropWhile_not (fun i => decide (i = own)) p
  rw [strip] at h
  rw [h] at hnot
  simp at hnot

theorem strip_length_le : (strip own p).length ≤ p.length :=
  (List.dropWhile_suffix _).length_le

theorem strip_replicate {m : Nat} : strip own (List.replicate m own ++ p) = strip own p := by
  induction m with
  | zero => rfl
  | succ m ih => simp [strip, List.replicate_succ]

theorem follow_strip (h : next top own = some top) : follow next top (strip own p) = follow next top p := by
  induction p with
  | nil => rfl
  | cons i p ih =>
      by_cases hi : i = own
      · rw [hi, follow, h, Option.bind_some, ← ih]
        simp [strip]
      · rw [strip_of_head]
        simpa using hi

/-- A path that starts with detours through the top table shows a table as data. -/
theorem follow_replicate (h : next top own = some top) {m : Nat} :
    follow next top (List.replicate m own ++ p) = follow next top p := by
  rw [← follow_strip h, strip_replicate, follow_strip h]

theorem RecursiveTree.isTable_iff (h : RecursiveTree next top own n) :
    IsTable next top n f ↔ ∃ p, p.length < n ∧ p.head? ≠ some own ∧ follow next top p = some f := by
  constructor
  · rintro ⟨p, hlength, hp⟩
    exact ⟨strip own p, strip_length_le.trans_lt hlength, strip_head, by rwa [follow_strip h.recursive]⟩
  · rintro ⟨p, hlength, -, hp⟩
    exact ⟨p, hlength, hp⟩

theorem Entry.strip (h : Entry next top own n p t x) : strip own (p ++ [x]) = p ++ [x] :=
  strip_of_head h.outside

variable [DecidableEq F]

/-- One entry changed. -/
def setEntry (next : F → I → Option F) (t : F) (x : I) (v : Option F) : F → I → Option F :=
  fun f i => if f = t ∧ i = x then v else next f i

/-- One table emptied. -/
def clear (next : F → I → Option F) (g : F) : F → I → Option F :=
  fun f i => if f = g then none else next f i

/-- An empty table put in as entry `x` of the table `t`. -/
def link (next : F → I → Option F) (t : F) (x : I) (g : F) : F → I → Option F :=
  setEntry (clear next g) t x (some g)

variable {v : Option F}

theorem setEntry_same : setEntry next t x v t x = v := if_pos ⟨rfl, rfl⟩

theorem setEntry_of_ne (h : ¬ (f = t ∧ i = x)) : setEntry next t x v f i = next f i := if_neg h

omit [DecidableEq I] in
theorem clear_same : clear next g g i = none := if_pos rfl

omit [DecidableEq I] in
theorem clear_of_ne (h : f ≠ g) : clear next g f i = next f i := if_neg h

omit [DecidableEq I] in
theorem clear_tables (hg : ¬ IsTable next top n g) (f : F) (i : I) (hf : IsTable next top n f) :
    clear next g f i = next f i :=
  clear_of_ne fun heq => hg (heq ▸ hf)

namespace Entry

variable (h : Entry next top own n p t x) (htree : RecursiveTree next top own n)

include h htree

theorem recursive_setEntry : setEntry next t x v top own = some top := by
  rw [setEntry_of_ne, htree.recursive]
  rintro ⟨rfl, rfl⟩
  have hnil : p = [] :=
    htree.unique p [] top h.depth (h.depth.trans_le' (Nat.zero_le _)) h.head (by simp) h.table rfl
  have hout := h.outside
  rw [hnil] at hout
  exact hout rfl

/-- A change of one entry shows only on paths through this entry. -/
theorem follow_setEntry (hq : q.length ≤ n) (hnot : ¬ p ++ [x] <+: RadixTree.strip own q) :
    follow (setEntry next t x v) top q = follow next top q := by
  rw [← follow_strip (h.recursive_setEntry htree), ← follow_strip htree.recursive]
  refine follow_congr fun r i hr f hf => setEntry_of_ne ?_
  rintro ⟨rfl, rfl⟩
  have hlength := hr.length_le
  rw [List.length_append, List.length_singleton] at hlength
  have hle : (RadixTree.strip own q).length ≤ q.length := strip_length_le
  have hhead : r.head? ≠ some own := by
    cases r with
    | nil => simp
    | cons j r =>
        intro hj
        obtain ⟨tail, htail⟩ := hr
        have hq : (RadixTree.strip own q).head? ≠ some own := strip_head
        rw [← htail] at hq
        exact hq hj
  have heq : r = p := htree.unique r p f (by omega) h.depth hhead h.head hf h.table
  exact hnot (heq ▸ hr)

theorem follow_setEntry_short (hq : q.length ≤ p.length) :
    follow (setEntry next t x v) top q = follow next top q := by
  refine h.follow_setEntry htree (hq.trans h.depth.le) fun hprefix => ?_
  have hlength := hprefix.length_le.trans strip_length_le
  rw [List.length_append, List.length_singleton] at hlength
  omega

theorem follow_setEntry_same (hq : RadixTree.strip own q = p ++ [x]) :
    follow (setEntry next t x v) top q = v := by
  rw [← follow_strip (h.recursive_setEntry htree), hq, follow_concat,
    h.follow_setEntry_short htree le_rfl, h.table, Option.bind_some, setEntry_same]

theorem setEntry_follow_leaf (hleaf : p.length + 1 = n) (hq : q.length < n) :
    follow (setEntry next t x v) top q = follow next top q :=
  h.follow_setEntry_short htree (by omega)

/-- A change of a leaf entry keeps the tree's shape. -/
theorem setEntry_tree (hleaf : p.length + 1 = n) : RecursiveTree (setEntry next t x v) top own n :=
  htree.congr (fun _ hq => h.setEntry_follow_leaf htree hleaf hq) (h.recursive_setEntry htree)

section Link

variable (hempty : next t x = none) (hg : ¬ IsTable next top n g)

include hg

omit [DecidableEq I] htree in
theorem clear_entry : Entry (clear next g) top own n p t x :=
  ⟨by rw [follow_of_tables (clear_tables hg) h.depth.le, h.table], h.depth, h.outside⟩

omit [DecidableEq I] in
theorem clear_tree : RecursiveTree (clear next g) top own n :=
  htree.of_tables (Nat.zero_lt_of_lt h.depth) (clear_tables hg)

theorem recursive_link : link next t x g top own = some top :=
  (h.clear_entry hg).recursive_setEntry (h.clear_tree htree hg)

theorem follow_link_same (hq : RadixTree.strip own q = p ++ [x]) : follow (link next t x g) top q = some g :=
  (h.clear_entry hg).follow_setEntry_same (h.clear_tree htree hg) hq

include hempty

/-- An empty table that is put in changes no path but the one to itself. -/
theorem follow_link (hq : q.length ≤ n) (hne : RadixTree.strip own q ≠ p ++ [x]) :
    follow (link next t x g) top q = follow next top q := by
  by_cases hprefix : p ++ [x] <+: RadixTree.strip own q
  · obtain ⟨r, hr⟩ := hprefix
    have hgt : g ≠ t := fun heq => hg (heq ▸ h.isTable)
    have hsame := h.follow_link_same htree hg h.strip
    rw [← follow_strip (h.recursive_link htree hg), ← follow_strip htree.recursive, ← hr]
    cases r with
    | nil => exact absurd (by rw [← hr, List.append_nil]) hne
    | cons i r =>
        rw [follow_append, hsame, Option.bind_some, follow, link, setEntry_of_ne fun heq => hgt heq.1,
          clear_same, follow_append, follow_concat, h.table, Option.bind_some, hempty]
        rfl
  · rw [link, (h.clear_entry hg).follow_setEntry (h.clear_tree htree hg) hq hprefix,
      follow_of_tables (clear_tables hg) hq]

theorem isTable_link (hdepth : p.length + 1 < n) :
    IsTable (link next t x g) top n f ↔ IsTable next top n f ∨ f = g := by
  constructor
  · rintro ⟨q, hlength, hq⟩
    by_cases hne : RadixTree.strip own q = p ++ [x]
    · rw [h.follow_link_same htree hg hne] at hq
      exact Or.inr (Option.some.inj hq).symm
    · rw [h.follow_link htree hempty hg hlength.le hne] at hq
      exact Or.inl ⟨q, hlength, hq⟩
  · rintro (⟨q, hlength, hq⟩ | rfl)
    · refine ⟨q, hlength, ?_⟩
      rw [h.follow_link htree hempty hg hlength.le, hq]
      intro heq
      rw [← follow_strip htree.recursive, heq, follow_concat, h.table, Option.bind_some, hempty] at hq
      cases hq
    · exact ⟨p ++ [x], by simpa using hdepth, h.follow_link_same htree hg h.strip⟩

/-- An empty table that is put in is one more table of the tree. -/
theorem link_tree : RecursiveTree (link next t x g) top own n := by
  refine ⟨h.recursive_link htree hg, fun a b f ha hb haown hbown haf hbf => ?_⟩
  have hnot : ∀ c : List I, c.length < n → c.head? ≠ some own → c ≠ p ++ [x] →
      follow (link next t x g) top c = some f → follow next top c = some f ∧ f ≠ g := by
    intro c hc hcown hne hcf
    rw [h.follow_link htree hempty hg hc.le (by rwa [strip_of_head hcown])] at hcf
    exact ⟨hcf, fun heq => hg ⟨c, hc, heq ▸ hcf⟩⟩
  by_cases hax : a = p ++ [x] <;> by_cases hbx : b = p ++ [x]
  · rw [hax, hbx]
  · rw [hax, h.follow_link_same htree hg h.strip] at haf
    exact absurd (Option.some.inj haf).symm (hnot b hb hbown hbx hbf).2
  · rw [hbx, h.follow_link_same htree hg h.strip] at hbf
    exact absurd (Option.some.inj hbf).symm (hnot a ha haown hax haf).2
  · exact htree.unique a b f ha hb haown hbown (hnot a ha haown hax haf).1 (hnot b hb hbown hbx hbf).1

end Link

end Entry

end Kiznix.RadixTree
