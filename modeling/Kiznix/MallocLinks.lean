import Kiznix.LinkedTrie
import Kiznix.MallocBins

/-! The bins in memory: the links of free chunks, from the arrays of `_gm_`, are those of the lists and tries. Each
operation on the links changes them as the operation on lists and tries does, no check of it fails, and nothing but
links changes. -/

namespace Kiznix.Malloc

open ByteMemory SizeTrie LinkedTrie
open Switch (Arch)

variable {a : Arch} {m m' : State} {gm p q s t n i j x y v : Nat} {f g : Field} {F F' : Nat → Nat → Prop}

theorem word_cases (a : Arch) : a.word = 4 ∨ a.word = 8 := by
  cases a
  · exact Or.inl rfl
  · exact Or.inr rfl

theorem pow_bits (a : Arch) : 2 ^ a.bits = 256 ^ a.word := by
  cases a <;> rfl

/-! ### Where links are -/

/-- Chunks that are apart from each other and from `_gm_`. -/
structure Spread (a : Arch) (m : State) (F : Nat → Nat → Prop) : Prop where
  min : ∀ q n, F q n → minChunkSize a ≤ n
  least : ∀ q n, F q n → m.leastAddr ≤ q
  outside : ∀ q n, F q n → m.gm + gmSize a ≤ q
  bound : ∀ q n, F q n → q + n ≤ 2 ^ a.bits
  apart : ∀ q n q' n', F q n → F q' n' → (q = q' ∧ n = n') ∨ q + n ≤ q' ∨ q' + n' ≤ q

theorem Spread.mono (h : Spread a m F) (hF : ∀ q n, F' q n → F q n) : Spread a m F' where
  min q n hq := h.min q n (hF q n hq)
  least q n hq := h.least q n (hF q n hq)
  outside q n hq := h.outside q n (hF q n hq)
  bound q n hq := h.bound q n (hF q n hq)
  apart q n q' n' hq hq' := h.apart q n q' n' (hF q n hq) (hF q' n' hq')

theorem Spread.unique (h : Spread a m F) {n' : Nat} (hq : F q n) (hq' : F q n') : n = n' := by
  have hmin := h.min q n hq
  have hmin' := h.min q n' hq'
  rw [minChunkSize] at hmin hmin'
  have hword := word_cases a
  obtain ⟨-, heq⟩ | hlow | hhigh := h.apart q n q n' hq hq'
  · exact heq
  · omega
  · omega

/-- `_gm_` has the fields of the bins, and the chunks of `F` those of their bin. -/
def Linkable (a : Arch) (gm : Nat) (F : Nat → Nat → Prop) (x : Nat) : Field → Prop
  | .root => ∃ i < 32, x = gm + treebinsOffset a + i * a.word
  | .fd | .bk => (∃ i < 32, x = gm + smallbinsOffset a + 2 * i * a.word) ∨ ∃ n, F x n
  | .child _ | .parent | .index => ∃ n, F x n ∧ isSmall n = false

theorem Linkable.mono (h : Linkable a gm F x f) (hF : ∀ q n, F q n → F' q n) : Linkable a gm F' x f := by
  cases f with
  | root => exact h
  | fd => exact h.imp_right fun ⟨n, hn⟩ => ⟨n, hF x n hn⟩
  | bk => exact h.imp_right fun ⟨n, hn⟩ => ⟨n, hF x n hn⟩
  | child b => exact h.imp fun n hn => ⟨hF x n hn.1, hn.2⟩
  | parent => exact h.imp fun n hn => ⟨hF x n hn.1, hn.2⟩
  | index => exact h.imp fun n hn => ⟨hF x n hn.1, hn.2⟩

/-- A byte of a field. -/
def Field.Has (a : Arch) (x : Nat) (f : Field) (z : Nat) : Prop := x + f.offset a ≤ z ∧ z < x + f.offset a + f.size a

/-- The fields of a chunk are in it, behind its tags. -/
theorem Spread.field_chunk (h : Spread a m F) (hF : F x n) (hx : Linkable a m.gm F x f) :
    2 * a.word ≤ f.offset a ∧ f.offset a + f.size a ≤ n := by
  have hout := h.outside x n hF
  have hmin := h.min x n hF
  rw [minChunkSize] at hmin
  have hword := word_cases a
  have hlarge : ∀ t, F x t → isSmall t = false → 256 ≤ n := fun t ht hs => by
    rw [h.unique hF ht]
    exact Nat.not_lt.mp (Bins.isSmall_iff.not.mp (Bool.eq_false_iff.mp hs))
  cases f with
  | root =>
      exfalso
      obtain ⟨i, hi, rfl⟩ := hx
      rw [gmSize, segOffset] at hout
      obtain hw | hw := hword <;> rw [hw] at hout <;> omega
  | fd => exact ⟨le_rfl, by rw [Field.offset, Field.size]; omega⟩
  | bk => exact ⟨by rw [Field.offset]; omega, by rw [Field.offset, Field.size]; omega⟩
  | child b =>
      obtain ⟨t, ht, hs⟩ := hx
      have hn := hlarge t ht hs
      cases b <;> exact ⟨by rw [Field.offset]; omega, by rw [Field.offset, Field.size]; omega⟩
  | parent =>
      obtain ⟨t, ht, hs⟩ := hx
      have hn := hlarge t ht hs
      exact ⟨by rw [Field.offset]; omega, by rw [Field.offset, Field.size]; omega⟩
  | index =>
      obtain ⟨t, ht, hs⟩ := hx
      have hn := hlarge t ht hs
      exact ⟨by rw [Field.offset]; omega, by rw [Field.offset, Field.size]; omega⟩

/-- A field is the pointer of a tree bin, a link of a small bin, or in a chunk. -/
theorem Linkable.cases (hx : Linkable a gm F x f) : (f = .root ∧ ∃ i < 32, x = gm + treebinsOffset a + i * a.word) ∨
    ((f = .fd ∨ f = .bk) ∧ ∃ i < 32, x = gm + smallbinsOffset a + 2 * i * a.word) ∨ (f ≠ .root ∧ ∃ n, F x n) := by
  cases f with
  | root => exact Or.inl ⟨rfl, hx⟩
  | fd => exact Or.inr (hx.imp (⟨Or.inl rfl, ·⟩) (⟨nofun, ·⟩))
  | bk => exact Or.inr (hx.imp (⟨Or.inr rfl, ·⟩) (⟨nofun, ·⟩))
  | child b => exact Or.inr (Or.inr ⟨nofun, hx.imp fun _ hn => hn.1⟩)
  | parent => exact Or.inr (Or.inr ⟨nofun, hx.imp fun _ hn => hn.1⟩)
  | index => exact Or.inr (Or.inr ⟨nofun, hx.imp fun _ hn => hn.1⟩)

theorem Field.ends (a : Arch) (hf : f = .fd ∨ f = .bk) :
    (f = .fd ∧ f.offset a = 2 * a.word ∨ f = .bk ∧ f.offset a = 3 * a.word) ∧ f.size a = a.word := by
  obtain rfl | rfl := hf
  · exact ⟨Or.inl ⟨rfl, rfl⟩, rfl⟩
  · exact ⟨Or.inr ⟨rfl, rfl⟩, rfl⟩

/-- Two fields of a chunk are apart. -/
theorem Field.apart (a : Arch) (hf : f ≠ .root) (hg : g ≠ .root) (hne : f ≠ g) :
    f.offset a + f.size a ≤ g.offset a ∨ g.offset a + g.size a ≤ f.offset a := by
  have hword := word_cases a
  rcases f with _ | _ | (_ | _) | _ | _ | _ <;> rcases g with _ | _ | (_ | _) | _ | _ | _ <;>
    first | exact absurd rfl hne | exact absurd rfl hf | exact absurd rfl hg | (simp only [Field.offset, Field.size]; omega)

/-- Two fields are the same or apart. -/
theorem Spread.fields_apart (h : Spread a m F) (hx : Linkable a m.gm F x f) (hy : Linkable a m.gm F y g) :
    (x = y ∧ f = g) ∨ x + f.offset a + f.size a ≤ y + g.offset a ∨ y + g.offset a + g.size a ≤ x + f.offset a := by
  have hword := word_cases a
  have hoffset : Field.root.offset a = 0 := rfl
  have hsize : Field.root.size a = a.word := rfl
  have htreebins : treebinsOffset a = smallbinsOffset a + 66 * a.word := rfl
  have hgm : gmSize a = treebinsOffset a + 41 * a.word + 8 := by
    rw [gmSize, segOffset]
    omega
  obtain ⟨rfl, i, hi, rfl⟩ | ⟨hf, i, hi, rfl⟩ | ⟨hf, n, hn⟩ := hx.cases
  · obtain ⟨rfl, j, hj, rfl⟩ | ⟨hg, j, hj, rfl⟩ | ⟨hg, n, hn⟩ := hy.cases
    · by_cases heq : i = j
      · exact Or.inl ⟨by rw [heq], rfl⟩
      · generalize a.word = w at *
        obtain rfl | rfl := hword <;> omega
    · have hends := Field.ends a hg
      generalize a.word = w at *
      obtain rfl | rfl := hword <;> omega
    · have hout := h.outside y n hn
      generalize a.word = w at *
      obtain rfl | rfl := hword <;> omega
  · have hends := Field.ends a hf
    obtain ⟨rfl, j, hj, rfl⟩ | ⟨hg, j, hj, rfl⟩ | ⟨hg, n, hn⟩ := hy.cases
    · generalize a.word = w at *
      obtain rfl | rfl := hword <;> omega
    · have hends' := Field.ends a hg
      by_cases heq : i = j ∧ f = g
      · exact Or.inl ⟨by rw [heq.1], heq.2⟩
      · by_cases hij : i = j
        · subst hij
          have hne : f ≠ g := fun hfg => heq ⟨rfl, hfg⟩
          obtain ⟨⟨rfl, hfo⟩ | ⟨rfl, hfo⟩, hfs⟩ := hends <;> obtain ⟨⟨rfl, hgo⟩ | ⟨rfl, hgo⟩, hgs⟩ := hends'
          · exact absurd rfl hne
          · omega
          · omega
          · exact absurd rfl hne
        · generalize a.word = w at *
          obtain rfl | rfl := hword <;> omega
    · have hout := h.outside y n hn
      generalize a.word = w at *
      obtain rfl | rfl := hword <;> omega
  · have hout := h.outside x n hn
    have hchunk := h.field_chunk hn hx
    obtain ⟨rfl, j, hj, rfl⟩ | ⟨hg, j, hj, rfl⟩ | ⟨hg, n', hn'⟩ := hy.cases
    · generalize a.word = w at *
      obtain rfl | rfl := hword <;> omega
    · have hends := Field.ends a hg
      generalize a.word = w at *
      obtain rfl | rfl := hword <;> omega
    · have hchunk' := h.field_chunk hn' hy
      obtain ⟨rfl, rfl⟩ | hapart := h.apart x n y n' hn hn'
      · by_cases heq : f = g
        · exact Or.inl ⟨rfl, heq⟩
        · have hapart := Field.apart a hf hg heq
          omega
      · omega

/-! ### Stores of links -/

/-- A field has got another value. -/
def update (H : Nat → Field → Nat) (x : Nat) (f : Field) (v : Nat) : Nat → Field → Nat := fun y g =>
  if y = x ∧ g = f then v else H y g

/-- Nothing but links has changed, and the maps of the bins. -/
structure BinStep (a : Arch) (F : Nat → Nat → Prop) (m m' : State) : Prop where
  mem : ∀ z, (∀ x f, Linkable a m.gm F x f → ¬ f.Has a x z) → m'.mem z = m.mem z
  rest : m' = { m with mem := m'.mem, smallmap := m'.smallmap, treemap := m'.treemap }

/-- Stores of links have led from `m` to `m'`, whose fields are those of `H`. -/
structure Writes (a : Arch) (F : Nat → Nat → Prop) (m m' : State) (H : Nat → Field → Nat) : Prop where
  step : BinStep a F m m'
  shows : ∀ x f, Linkable a m.gm F x f → m'.get a x f = H x f

variable {H H' : Nat → Field → Nat}

theorem BinStep.refl : BinStep a F m m := ⟨fun _ _ => rfl, rfl⟩

theorem BinStep.gm_eq (h : BinStep a F m m') : m'.gm = m.gm := by rw [h.rest]

theorem BinStep.okAddress (h : BinStep a F m m') : m'.okAddress x = m.okAddress x := by
  rw [h.rest]
  rfl

theorem BinStep.trans {m'' : State} (h : BinStep a F m m') (h' : BinStep a F m' m'') : BinStep a F m m'' where
  mem z hz := (h'.mem z (h.gm_eq ▸ hz)).trans (h.mem z hz)
  rest := by rw [h'.rest, h.rest]

theorem BinStep.mono (h : BinStep a F m m') (hF : ∀ q n, F q n → F' q n) : BinStep a F' m m' :=
  ⟨fun z hz => h.mem z fun x f hx => hz x f (hx.mono hF), h.rest⟩

theorem Writes.refl : Writes a F m m (m.get a) := ⟨.refl, fun _ _ _ => rfl⟩

theorem Writes.put (h : Writes a F m m' H) (hspread : Spread a m F) (hx : Linkable a m.gm F x f)
    (hv : v < 256 ^ f.size a) : Writes a F m (m'.put a x f v) (update H x f v) where
  step := h.step.trans ⟨fun z hz => store_outside (by
    have hout := hz x f (h.step.gm_eq ▸ hx)
    rw [Field.Has] at hout
    omega), rfl⟩
  shows y g hy := by
    rw [update]
    split
    · next heq =>
        obtain ⟨rfl, rfl⟩ := heq
        exact load_store_of_lt hv
    · next hne =>
        rw [← h.shows y g hy]
        refine load_store_outside ?_
        obtain heq | hapart := hspread.fields_apart hy hx
        · exact absurd heq hne
        · exact hapart

/-- The maps of the bins change. -/
theorem Writes.map (h : Writes a F m m' H) (smallmap treemap : BitVec 32) :
    Writes a F m { m' with smallmap := smallmap, treemap := treemap } H where
  step := h.step.trans ⟨fun _ _ => rfl, rfl⟩
  shows := h.shows

/-! ### Lists and tries of links -/

/-- The links of fields. -/
def links (H : Nat → Field → Nat) : Pointers Nat where
  next x := H x .fd
  prev x := H x .bk
  parent x := H x .parent
  child b x := H x (.child b)

/-- The links are those of the lists and tries of the bins that have chunks. -/
structure Linked (a : Arch) (gm : Nat) (bins : Bins) (H : Nat → Field → Nat) : Prop where
  small : ∀ i, bins.smallbins i ≠ [] → Path (links H) (gm + smallbinsOffset a + 2 * i * a.word) (bins.smallbins i)
    (gm + smallbinsOffset a + 2 * i * a.word)
  tree : ∀ i < 32, Hangs (links H) 0 (gm + treebinsOffset a + i * a.word)
    (H (gm + treebinsOffset a + i * a.word) .root) (bins.treebins i)
  index : ∀ i, ∀ x ∈ nodes (bins.treebins i), H x .index = i

/-- The bins in memory are `bins`. -/
structure Binned (a : Arch) (m : State) (bins : Bins) : Prop where
  smallmap : m.smallmap = bins.smallmap
  treemap : m.treemap = bins.treemap
  linked : Linked a m.gm bins (m.get a)

variable {bins : Bins}

theorem Bins.Ok.small_lt (h : bins.Ok) (hi : bins.smallbins i ≠ []) : i < 32 :=
  BitVec.lt_of_getLsbD ((h.small_map i).mpr hi)

theorem Bins.Ok.tree_lt (h : bins.Ok) (hi : bins.treebins i ≠ .nil) : i < 32 :=
  BitVec.lt_of_getLsbD ((h.tree_map i).mpr hi)

theorem Bins.Ok.small_holds (h : bins.Ok) (hx : x ∈ bins.smallbins i) :
    bins.Holds x (smallIndex2size i) ∧ isSmall (smallIndex2size i) = true := by
  have hi := h.small_lt (List.ne_nil_of_mem hx)
  have hsmall : isSmall (smallIndex2size i) = true := by
    rw [isSmall, smallIndex2size]
    simpa using hi
  have hindex : smallIndex (smallIndex2size i) = i := by
    rw [smallIndex, smallIndex2size]
    omega
  rw [Bins.holds_small hsmall, hindex]
  exact ⟨⟨Nat.mul_mod_left _ _, hx⟩, hsmall⟩

theorem Bins.Ok.tree_holds (h : bins.Ok) (hx : x ∈ nodes (bins.treebins i)) :
    ∃ t, bins.Holds x t ∧ isSmall t = false ∧ treeIndex t = i := by
  rw [← items_nodes] at hx
  obtain ⟨⟨y, t⟩, hitem, rfl⟩ := List.mem_map.mp hx
  obtain ⟨hindex, hlarge⟩ := h.tree_index i _ hitem
  exact ⟨t, (Bins.holds_large hlarge).mpr (hindex ▸ hitem), hlarge, hindex⟩

theorem Bins.Ok.tree_nodes_nodup (h : bins.Ok) (i : Nat) : (nodes (bins.treebins i)).Nodup :=
  items_nodes ▸ h.tree_nodup i

/-- Which bin a chunk is in. -/
theorem Bins.Holds.bin (hx : bins.Holds x s) :
    if isSmall s then x ∈ bins.smallbins (smallIndex s) else x ∈ nodes (bins.treebins (treeIndex s)) := by
  split
  · next hs => exact ((Bins.holds_small hs).mp hx).2
  · next hs =>
      rw [← items_nodes]
      exact List.mem_map_of_mem ((Bins.holds_large (Bool.eq_false_iff.mpr hs)).mp hx)

theorem Linked.congr (h : Linked a gm bins H) (hok : bins.Ok)
    (hsame : ∀ x f, Linkable a gm bins.Holds x f → H' x f = H x f) : Linked a gm bins H' where
  small i hi := by
    have hlt := hok.small_lt hi
    have hmem : ∀ x ∈ (gm + smallbinsOffset a + 2 * i * a.word) :: bins.smallbins i,
        (links H').next x = (links H).next x ∧ (links H').prev x = (links H).prev x := by
      intro x hx
      obtain rfl | hx := List.mem_cons.mp hx
      · exact ⟨hsame _ .fd (Or.inl ⟨i, hlt, rfl⟩), hsame _ .bk (Or.inl ⟨i, hlt, rfl⟩)⟩
      · have hheld := (hok.small_holds hx).1
        exact ⟨hsame x .fd (Or.inr ⟨_, hheld⟩), hsame x .bk (Or.inr ⟨_, hheld⟩)⟩
    exact ring_congr (h.small i hi) hmem
  tree i hi := by
    rw [hsame _ .root ⟨i, hi, rfl⟩]
    refine (h.tree i hi).congr fun x hx => ?_
    obtain ⟨t, hheld, hlarge, -⟩ := hok.tree_holds hx
    exact ⟨hsame x .fd (Or.inr ⟨t, hheld⟩), hsame x .bk (Or.inr ⟨t, hheld⟩), hsame x .parent ⟨t, hheld, hlarge⟩,
      fun b => hsame x (.child b) ⟨t, hheld, hlarge⟩⟩
  index i x hx := by
    obtain ⟨t, hheld, hlarge, -⟩ := hok.tree_holds hx
    rw [hsame x .index ⟨t, hheld, hlarge⟩]
    exact h.index i x hx

/-- A link is in `_gm_`, or in a chunk behind its tags. -/
theorem Spread.link_in (h : Spread a m F) (hx : Linkable a m.gm F x f) {z : Nat} (hz : f.Has a x z) :
    (m.gm + smallbinsOffset a ≤ z ∧ z < m.gm + segOffset a) ∨ ∃ n, F x n ∧ x + 2 * a.word ≤ z ∧ z < x + n := by
  obtain ⟨hlow, hhigh⟩ := hz
  have hword := word_cases a
  rw [segOffset, treebinsOffset]
  obtain ⟨rfl, i, hi, rfl⟩ | ⟨hf, i, hi, rfl⟩ | ⟨hf, n, hn⟩ := hx.cases
  · left
    rw [Field.offset, treebinsOffset] at hlow
    rw [Field.offset, Field.size, treebinsOffset] at hhigh
    generalize a.word = w at *
    obtain rfl | rfl := hword <;> omega
  · left
    have hends := Field.ends a hf
    generalize a.word = w at *
    obtain rfl | rfl := hword <;> omega
  · right
    have hchunk := h.field_chunk hn hx
    exact ⟨n, hn, by omega, by omega⟩

/-- The tags of a chunk are no links. -/
theorem BinStep.tags (h : BinStep a F m m') (hspread : Spread a m F) (hq : F q n) {z : Nat} (hlow : q ≤ z)
    (hhigh : z < q + 2 * a.word) : m'.mem z = m.mem z := by
  refine h.mem z fun x f hx hz => ?_
  have hout := hspread.outside q n hq
  have hmin := hspread.min q n hq
  rw [gmSize] at hout
  rw [minChunkSize] at hmin
  obtain hgm | ⟨n', hn', hin⟩ := hspread.link_in hx hz
  · omega
  · have hapart := hspread.apart q n x n' hq hn'
    omega

theorem BinStep.head (h : BinStep a F m m') (hspread : Spread a m F) (hq : F q n) : m'.head a q = m.head a q :=
  load_congr fun z hlow hhigh => h.tags hspread hq (by omega) (by omega)

/-- The chunks of the bins are among those of `F`, and the links in memory are theirs. -/
structure Filed (a : Arch) (m : State) (bins : Bins) (F : Nat → Nat → Prop) : Prop where
  binned : Binned a m bins
  ok : bins.Ok
  spread : Spread a m F
  held : ∀ q n, bins.Holds q n → F q n

variable {bins' : Bins}

theorem Spread.step (h : Spread a m F) (hstep : BinStep a F m m') : Spread a m' F := by
  rw [hstep.rest]
  exact ⟨h.min, h.least, h.outside, h.bound, h.apart⟩

/-- Stores of links have made the bins what `bins'` says. -/
theorem Writes.filed (h : Writes a F m m' H) (hspread : Spread a m F) (hok : bins'.Ok)
    (hheld : ∀ q n, bins'.Holds q n → F q n) (hlinked : Linked a m.gm bins' H) (hsmall : m'.smallmap = bins'.smallmap)
    (htree : m'.treemap = bins'.treemap) : Filed a m' bins' F where
  ok := hok
  spread := hspread.step h.step
  held := hheld
  binned :=
    { smallmap := hsmall
      treemap := htree
      linked := by
        rw [h.step.gm_eq]
        exact hlinked.congr hok fun x f hx => h.shows x f (hx.mono hheld) }

theorem Spread.okAddress (h : Spread a m F) (hp : F p n) : m.okAddress p = true := decide_eq_true (h.least p n hp)

theorem Spread.lt (h : Spread a m F) (hp : F p n) : p < 256 ^ a.word := by
  have hmin := h.min p n hp
  have hbound := h.bound p n hp
  rw [minChunkSize] at hmin
  have hword := word_cases a
  rw [← pow_bits]
  omega

/-- The addresses of bins are below those of chunks. -/
theorem Spread.bins_lt (h : Spread a m F) (hp : F p n) (hi : i < 32) :
    m.smallbinAt a i < p ∧ m.treebinAt a i < p ∧ 0 < p ∧ m.smallbinAt a i < 256 ^ a.word ∧
      m.treebinAt a i < 256 ^ a.word := by
  have hout := h.outside p n hp
  have hlt := h.lt hp
  have hword := word_cases a
  rw [gmSize, segOffset, treebinsOffset] at hout
  have hmul : i * a.word ≤ 31 * a.word := Nat.mul_le_mul_right _ (by omega)
  rw [State.smallbinAt, State.treebinAt, treebinsOffset, Nat.mul_assoc]
  omega

/-! ### Operations on small bins -/

/-- The small bin `i`, and the chunks that are in no other bin. -/
def OfSmall (a : Arch) (m : State) (bins : Bins) (F : Nat → Nat → Prop) (i x : Nat) : Prop :=
  x = m.smallbinAt a i ∨ (∃ n, F x n) ∧ ∀ t, bins.Holds x t → isSmall t = true ∧ smallIndex t = i

/-- A small bin has changed, and the links of its chunks. -/
theorem Linked.of_small (h : Filed a m bins F) {l : List Nat} (hi : i < 32)
    (hsmall : bins'.smallbins = Function.update bins.smallbins i l) (htree : bins'.treebins = bins.treebins)
    (hring : l ≠ [] → Path (links H) (m.smallbinAt a i) l (m.smallbinAt a i))
    (hsame : ∀ x f, ¬ OfSmall a m bins F i x ∨ (f ≠ .fd ∧ f ≠ .bk) → H x f = m.get a x f) :
    Linked a m.gm bins' H where
  small j hj := by
    rw [hsmall] at hj ⊢
    rw [Function.update_apply] at hj ⊢
    split at hj
    · next heq =>
        subst heq
        rw [if_pos rfl]
        exact hring hj
    · next hne =>
        rw [if_neg hne]
        refine ring_congr (h.binned.linked.small j hj) fun x hx => ?_
        have hout : ¬ OfSmall a m bins F i x := by
          rintro (hbin | ⟨⟨n, hn⟩, hown⟩)
          · obtain rfl | hx := List.mem_cons.mp hx
            · rw [State.smallbinAt] at hbin
              have hword := word_cases a
              generalize a.word = w at *
              obtain rfl | rfl := hword <;> omega
            · have hlt := h.spread.bins_lt (h.held _ _ (h.ok.small_holds hx).1) hi
              omega
          · obtain rfl | hx := List.mem_cons.mp hx
            · have hlt := (h.spread.bins_lt hn (h.ok.small_lt hj)).1
              exact absurd hlt (lt_irrefl _)
            · obtain ⟨-, hindex⟩ := hown _ (h.ok.small_holds hx).1
              rw [smallIndex, smallIndex2size] at hindex
              omega
        exact ⟨hsame x .fd (Or.inl hout), hsame x .bk (Or.inl hout)⟩
  tree j hj := by
    rw [htree, hsame _ .root (Or.inr ⟨by simp, by simp⟩)]
    refine (h.binned.linked.tree j hj).congr fun x hx => ?_
    obtain ⟨t, hheld, hlarge, -⟩ := h.ok.tree_holds hx
    have hout : ¬ OfSmall a m bins F i x := by
      rintro (hbin | ⟨-, hown⟩)
      · have hlt := h.spread.bins_lt (h.held _ _ hheld) hi
        omega
      · rw [(hown t hheld).1] at hlarge
        cases hlarge
    exact ⟨hsame x .fd (Or.inl hout), hsame x .bk (Or.inl hout), hsame x .parent (Or.inl hout),
      fun b => hsame x (.child b) (Or.inl hout)⟩
  index j x hx := by
    rw [htree] at hx
    rw [hsame x .index (Or.inr ⟨by simp, by simp⟩)]
    exact h.binned.linked.index j x hx

theorem OfSmall.link (hi : i < 32) (hx : OfSmall a m bins F i x) (hf : f = .fd ∨ f = .bk) :
    Linkable a m.gm F x f := by
  obtain rfl | rfl := hf
  · exact hx.imp (⟨i, hi, ·⟩) And.left
  · exact hx.imp (⟨i, hi, ·⟩) And.left

theorem Filed.ofSmall (h : Filed a m bins F) (hi : x ∈ bins.smallbins i) : OfSmall a m bins F i x := by
  obtain ⟨hheld, hsmall⟩ := h.ok.small_holds hi
  refine Or.inr ⟨⟨_, h.held _ _ hheld⟩, fun t ht => ?_⟩
  rw [h.spread.unique (h.held _ _ ht) (h.held _ _ hheld)]
  refine ⟨hsmall, ?_⟩
  rw [smallIndex, smallIndex2size]
  omega

theorem update_of_ne (h : ¬ (y = x ∧ g = f)) : update H x f v y g = H y g := if_neg h

theorem update_self : update H x f v x f = v := if_pos ⟨rfl, rfl⟩

/-- A chunk comes in between the chunks or the bin at `b` and `f`. -/
theorem Writes.linkBetween (h : Writes a F m m' H) (hspread : Spread a m F) {b c : Nat}
    (hb : Linkable a m.gm F b .fd) (hc : Linkable a m.gm F c .bk) (hp : F p n) (hbl : b < 256 ^ a.word)
    (hcl : c < 256 ^ a.word) : Writes a F m (m'.linkBetween a b p c)
      (update (update (update (update H b .fd p) c .bk p) p .fd c) p .bk b) :=
  have hfd : Linkable a m.gm F p .fd := Or.inr ⟨n, hp⟩
  have hbk : Linkable a m.gm F p .bk := Or.inr ⟨n, hp⟩
  (((h.put hspread hb (hspread.lt hp)).put hspread hc (hspread.lt hp)).put hspread hfd hcl).put hspread hbk hbl

/-- The links of a bin when a chunk has come in before what was the first one. -/
theorem Filed.insertSmall (h : Filed a m bins F) (hs : isSmall s = true) (hp : F p s) (hnew : ∀ t, ¬ bins.Holds p t)
    {c : Nat} (hc : OfSmall a m bins F (smallIndex s) c)
    (hempty : bins.smallbins (smallIndex s) = [] → c = m.smallbinAt a (smallIndex s))
    (hfirst : bins.smallbins (smallIndex s) ≠ [] → c = m.get a (m.smallbinAt a (smallIndex s)) .fd) :
    Linked a m.gm (bins.insertSmallChunk p s) (update (update (update (update (m.get a)
      (m.smallbinAt a (smallIndex s)) .fd p) c .bk p) p .fd c) p .bk (m.smallbinAt a (smallIndex s))) := by
  have hi := Bins.smallIndex_lt hs
  have hlt := h.spread.bins_lt hp hi
  have hbin : OfSmall a m bins F (smallIndex s) (m.smallbinAt a (smallIndex s)) := Or.inl rfl
  have hown : OfSmall a m bins F (smallIndex s) p := Or.inr ⟨⟨s, hp⟩, fun t ht => absurd ht (hnew t)⟩
  have hbins := Bins.insertSmallChunk_smallbins (p := p) (s := s) h.ok
  have htrees := Bins.insertSmallChunk_trees (b := bins) (p := p) (s := s)
  generalize hb : m.smallbinAt a (smallIndex s) = b at *
  refine Linked.of_small h hi hbins htrees.1 (fun _ => ?_) fun x f hxf => ?_
  · rw [hb]
    have hpb : p ≠ b := by omega
    cases hl : bins.smallbins (smallIndex s) with
    | nil =>
        rw [hempty hl]
        refine ⟨?_, ?_, ?_, ?_⟩ <;> simp [links, update, hpb.symm]
    | cons y l =>
        have hring := h.binned.linked.small (smallIndex s) (by rw [hl]; nofun)
        have hbaddr : m.gm + smallbinsOffset a + 2 * smallIndex s * a.word = b := hb
        rw [hbaddr, hl] at hring
        have hcy : c = y := (hfirst (by rw [hl]; nofun)).trans hring.1
        have hout : ∀ z ∈ y :: l, z ≠ b ∧ z ≠ p := by
          intro z hz
          have hin := (h.ok.small_holds (hl ▸ hz)).1
          have hlow := (h.spread.bins_lt (h.held _ _ hin) hi).1
          refine ⟨by omega, ?_⟩
          rintro rfl
          exact hnew _ hin
        have hnodup : (b :: y :: l).Nodup :=
          List.nodup_cons.mpr ⟨fun hin => (hout b hin).1 rfl, hl ▸ h.ok.small_nodup _⟩
        have hyb := hout y List.mem_cons_self
        subst hcy
        refine Path.insert hring hnodup ?_ ?_ ?_ ?_ (fun z hz => ?_) fun z hz hne => ?_
        · simp [links, update, hpb.symm]
        · simp [links, update]
        · rw [hring.1]
          simp [links, update]
        · rw [hring.1]
          simp [links, update, hyb.2]
        · have hzb := hout z hz
          simp [links, update, hzb.1, hzb.2]
        · rw [hring.1] at hne
          have hzp : z ≠ p := by
            obtain rfl | hz := List.mem_cons.mp hz
            · exact hpb.symm
            · exact (hout z hz).2
          simp [links, update, hne, hzp]
  · obtain hx | hf := hxf
    · have hne : x ≠ b ∧ x ≠ c ∧ x ≠ p := by
        refine ⟨?_, ?_, ?_⟩
        · rintro rfl
          exact hx hbin
        · rintro rfl
          exact hx hc
        · rintro rfl
          exact hx hown
      simp [update, hne]
    · simp [update, hf]

theorem insertSmallChunk_spec (h : Filed a m bins F) (hs : isSmall s = true) (hmod : s % 8 = 0) (hp : F p s)
    (hnew : ∀ t, ¬ bins.Holds p t) : ∃ m', insertSmallChunk a m p s = some m' ∧
      Filed a m' (bins.insertSmallChunk p s) F ∧ BinStep a F m m' := by
  obtain ⟨hok, hholds⟩ := h.ok.insertSmallChunk hs hmod (hnew s)
  have hheld : ∀ q n, (bins.insertSmallChunk p s).Holds q n → F q n := fun q n hq =>
    ((hholds q n).mp hq).elim (h.held q n) fun heq => heq.1 ▸ heq.2 ▸ hp
  have hi := Bins.smallIndex_lt hs
  have hlt := h.spread.bins_lt hp hi
  have hbin : OfSmall a m bins F (smallIndex s) (m.smallbinAt a (smallIndex s)) := Or.inl rfl
  have htrees := Bins.insertSmallChunk_trees (b := bins) (p := p) (s := s)
  have hbit := h.ok.small_map (smallIndex s)
  rw [← h.binned.smallmap] at hbit
  rw [insertSmallChunk]
  split
  · next hmap =>
      have hnil := not_not.mp (hbit.not.mp hmap)
      refine ⟨_, rfl, ?_, ?_⟩
      all_goals
        have hwrites := (Writes.refl.map (m.smallmap ||| idx2bit (smallIndex s)) m.treemap).linkBetween h.spread
          (hbin.link hi (Or.inl rfl)) (hbin.link hi (Or.inr rfl)) hp hlt.2.2.2.1 hlt.2.2.2.1
      · refine hwrites.filed h.spread hok hheld (h.insertSmall hs hp hnew hbin (fun _ => rfl) fun hne => absurd hnil hne) ?_ ?_
        · rw [Bins.insertSmallChunk, if_neg (by rwa [← h.binned.smallmap]), ← h.binned.smallmap]
          rfl
        · exact h.binned.treemap.trans htrees.2.symm
      · exact hwrites.step
  · next hmap =>
      have hne := hbit.mp (not_not.mp hmap)
      obtain ⟨y, l, hl⟩ := List.exists_cons_of_ne_nil hne
      have hfirst : m.get a (m.smallbinAt a (smallIndex s)) .fd = y := by
        have hring := h.binned.linked.small _ hne
        rw [hl] at hring
        exact hring.1
      have hy : y ∈ bins.smallbins (smallIndex s) := hl ▸ List.mem_cons_self
      have hyF := h.held _ _ (h.ok.small_holds hy).1
      rw [hfirst, if_pos (h.spread.okAddress hyF)]
      have hwrites := (Writes.refl (F := F) (a := a) (m := m)).linkBetween h.spread
        (hbin.link hi (Or.inl rfl)) ((h.ofSmall hy).link hi (Or.inr rfl)) hp hlt.2.2.2.1
        (h.spread.lt hyF)
      refine ⟨_, rfl, ?_, hwrites.step⟩
      refine hwrites.filed h.spread hok hheld (h.insertSmall hs hp hnew (h.ofSmall hy) (fun hnil => absurd hnil hne)
        fun _ => hfirst.symm) ?_ ?_
      · rw [Bins.insertSmallChunk, if_pos (by rw [← h.binned.smallmap]; exact not_not.mp hmap)]
        exact h.binned.smallmap
      · exact h.binned.treemap.trans htrees.2.symm

theorem Filed.small_nodup (h : Filed a m bins F) (hi : i < 32) : (m.smallbinAt a i :: bins.smallbins i).Nodup := by
  refine List.nodup_cons.mpr ⟨fun hin => ?_, h.ok.small_nodup i⟩
  have hlt := (h.spread.bins_lt (h.held _ _ (h.ok.small_holds hin).1) hi).1
  exact lt_irrefl _ hlt

/-- A chunk of a small bin has two neighbours that lead to it, and goes out between them. -/
theorem Filed.takeSmall (h : Filed a m bins F) (hp : p ∈ bins.smallbins i) {b c : Nat} (hc : m.get a p .fd = c)
    (hb : m.get a p .bk = b) : (m.get a c .bk = p ∧ m.get a b .fd = p) ∧
      ((c = m.smallbinAt a i ∨ m.okAddress c = true) ∧ (b = m.smallbinAt a i ∨ m.okAddress b = true)) ∧
      (b = c → Filed a (m.clearSmallmap i) (bins.setSmallbin i ((bins.smallbins i).erase p)) F ∧
        BinStep a F m (m.clearSmallmap i)) ∧
      (b ≠ c → Filed a ((m.put a c .bk b).put a b .fd c) (bins.setSmallbin i ((bins.smallbins i).erase p)) F ∧
        BinStep a F m ((m.put a c .bk b).put a b .fd c)) := by
  have hne := List.ne_nil_of_mem hp
  have hi := h.ok.small_lt hne
  obtain ⟨hok, hholds⟩ := h.ok.setSmallbin hi (List.perm_cons_erase hp)
  have hheld : ∀ q n, (bins.setSmallbin i ((bins.smallbins i).erase p)).Holds q n → F q n := fun q n hq =>
    h.held q n ((hholds q n).mp hq).1
  have hring := h.binned.linked.small i hne
  have hpF := h.held _ _ (h.ok.small_holds hp).1
  have hlt := h.spread.bins_lt hpF hi
  have hnodup := h.small_nodup hi
  obtain ⟨l, l', hl⟩ := List.append_of_mem hp
  have herase : (bins.smallbins i).erase p = l ++ l' := by
    have hnot : p ∉ l := fun hin => by
      have hnodupl := h.ok.small_nodup i
      rw [hl] at hnodupl
      exact (List.nodup_append'.mp hnodupl).2.2 hin List.mem_cons_self
    rw [hl, List.erase_append_right _ hnot, List.erase_cons_head]
  rw [show m.gm + smallbinsOffset a + 2 * i * a.word = m.smallbinAt a i from rfl, hl] at hring
  rw [hl] at hnodup
  obtain ⟨hleft, hright⟩ := path_append.mp hring
  have hcn : (links (m.get a)).next p = c := hc
  have hbp : (links (m.get a)).prev p = b := hb
  have hback : m.get a c .bk = p := hcn ▸ hright.prev_next
  have hfore : m.get a b .fd = p := hbp ▸ hleft.next_prev
  have hcmem : c = m.smallbinAt a i ∨ c ∈ bins.smallbins i := by
    have hin := hright.next_mem
    rw [hcn] at hin
    rw [hl]
    simp only [List.mem_append, List.mem_cons, List.not_mem_nil, or_false] at hin ⊢
    exact hin.elim (fun hin => Or.inr (Or.inr (Or.inr hin))) Or.inl
  have hbmem : b = m.smallbinAt a i ∨ b ∈ bins.smallbins i := by
    have hin := hleft.prev_mem
    rw [hbp] at hin
    rw [hl]
    simp only [List.mem_append, List.mem_cons] at hin ⊢
    exact hin.imp_right Or.inl
  have hokay : ∀ z, z = m.smallbinAt a i ∨ z ∈ bins.smallbins i → z = m.smallbinAt a i ∨ m.okAddress z = true :=
    fun z hz => hz.imp_right fun hin => h.spread.okAddress (h.held _ _ (h.ok.small_holds hin).1)
  have hown : ∀ z, z = m.smallbinAt a i ∨ z ∈ bins.smallbins i → OfSmall a m bins F i z := fun z hz =>
    hz.elim Or.inl h.ofSmall
  have hbound : ∀ z, z = m.smallbinAt a i ∨ z ∈ bins.smallbins i → z < 256 ^ a.word := fun z hz =>
    hz.elim (fun heq => heq ▸ hlt.2.2.2.1) fun hin => h.spread.lt (h.held _ _ (h.ok.small_holds hin).1)
  have halone := hring.prev_eq_next hnodup
  rw [hcn, hbp] at halone
  refine ⟨⟨hback, hfore⟩, ⟨hokay c hcmem, hokay b hbmem⟩, fun heq => ?_, fun hneq => ?_⟩
  · obtain ⟨rfl, rfl⟩ := halone.mp heq
    rw [List.append_nil] at herase
    have hwrites := (Writes.refl (F := F) (a := a) (m := m)).map (m.smallmap &&& ~~~idx2bit i) m.treemap
    refine ⟨hwrites.filed h.spread hok hheld ?_ ?_ h.binned.treemap, hwrites.step⟩
    · exact Linked.of_small h hi rfl rfl (fun hnil => absurd herase hnil) fun _ _ _ => rfl
    · show m.smallmap &&& ~~~idx2bit i = ite _ _ _
      rw [if_pos herase, h.binned.smallmap]
  · have hsome : (bins.smallbins i).erase p ≠ [] := by
      rw [herase]
      intro hnil
      exact hneq (halone.mpr (List.append_eq_nil_iff.mp hnil))
    have hwrites := ((Writes.refl (F := F) (a := a) (m := m)).put h.spread ((hown c hcmem).link hi (Or.inr rfl))
      (hbound b hbmem)).put h.spread ((hown b hbmem).link hi (Or.inl rfl)) (hbound c hcmem)
    refine ⟨hwrites.filed h.spread hok hheld ?_ ?_ h.binned.treemap, hwrites.step⟩
    · refine Linked.of_small h hi rfl rfl (fun _ => ?_) fun x f hxf => ?_
      · rw [herase]
        refine hring.remove hnodup ?_ ?_ (fun z hz hne => ?_) fun z hz hne => ?_
        · rw [hbp, hcn]
          simp [links, update]
        · rw [hcn, hbp]
          simp [links, update]
        · rw [hbp] at hne
          simp [links, update, hne]
        · rw [hcn] at hne
          simp [links, update, hne]
      · obtain hx | hf := hxf
        · have hxc : x ≠ c := by
            rintro rfl
            exact hx (hown x hcmem)
          have hxb : x ≠ b := by
            rintro rfl
            exact hx (hown x hbmem)
          simp [update, hxc, hxb]
        · simp [update, hf]
    · show m.smallmap = ite _ _ _
      rw [if_neg hsome, h.binned.smallmap]

theorem unlinkSmallChunk_spec (h : Filed a m bins F) (hs : isSmall s = true) (hp : bins.Holds p s) :
    ∃ m', unlinkSmallChunk a m p s = some m' ∧ Filed a m' (bins.unlinkSmallChunk p s) F ∧ BinStep a F m m' := by
  have hmem := ((Bins.holds_small hs).mp hp).2
  obtain ⟨⟨hback, hfore⟩, ⟨hc, hb⟩, hlast, hmore⟩ := h.takeSmall hmem rfl rfl
  rw [unlinkSmallChunk, if_pos (hc.imp_right (⟨·, hback⟩))]
  split
  · next heq => exact ⟨_, rfl, hlast heq⟩
  · next hne =>
      rw [if_pos (hb.imp_right (⟨·, hfore⟩))]
      exact ⟨_, rfl, hmore hne⟩

theorem unlinkFirstSmallChunk_spec (h : Filed a m bins F) {rest : List Nat} (hbin : bins.smallbins i = p :: rest) :
    ∃ m', unlinkFirstSmallChunk a m (m.smallbinAt a i) p i = some m' ∧
      Filed a m' (bins.unlinkFirstSmallChunk i) F ∧ BinStep a F m m' := by
  have hring := h.binned.linked.small i (hbin ▸ List.cons_ne_nil p rest)
  rw [hbin] at hring
  have hb : m.get a p .bk = m.smallbinAt a i := hring.2.1
  obtain ⟨⟨hback, -⟩, ⟨hc, -⟩, hlast, hmore⟩ := h.takeSmall (hbin ▸ List.mem_cons_self) rfl hb
  rw [hbin, List.erase_cons_head] at hlast hmore
  rw [Bins.unlinkFirstSmallChunk, hbin, List.tail_cons, unlinkFirstSmallChunk]
  split
  · next heq => exact ⟨_, rfl, hlast heq⟩
  · next hne =>
      rw [if_pos ⟨hc.resolve_left (Ne.symm hne), hback⟩]
      exact ⟨_, rfl, hmore hne⟩

end Kiznix.Malloc
