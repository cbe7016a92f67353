import Kiznix.MallocSearch
import Kiznix.MallocStored

/-! Requests that the allocator serves from what it has: from a bin, from the designated victim or from the top
chunk. -/

namespace Kiznix.Malloc

open ByteMemory BlockRow LinkedTrie
open Switch (Arch)

variable {a : Arch} {m m' m₁ : State} {row row' : List (Block Kind)} {p q n r s t nb mem stop : Nat}

/-- A chunk size for a request: aligned and large enough. -/
structure ChunkSize (a : Arch) (nb : Nat) : Prop where
  aligned : nb % mallocAlignment a = 0
  min : minChunkSize a ≤ nb

/-- A client gets a new chunk of at least `nb` bytes at `mem`, and the others keep theirs. Blocks go on to `stop` at
most when there are more of them than before. -/
structure Gives (a : Arch) (m : State) (row : List (Block Kind)) (stop nb : Nat) (m' : State) (mem : Nat)
    (row' : List (Block Kind)) (p n : Nat) : Prop where
  mem : mem = chunk2mem a p
  enough : nb ≤ n
  inv : Inv a m' row'
  moves : Moves a row row' m.mem m'.mem
  fresh : ∀ t, ¬ Live a row p t
  live : ∀ q t, Live a row' q t ↔ Live a row q t ∨ (q = p ∧ t = n)
  within : total row' ≤ max (total row) stop

def Allocates (a : Arch) (m : State) (row : List (Block Kind)) (stop nb : Nat) (m' : State) (mem : Nat) : Prop :=
  ∃ row' p n, Gives a m row stop nb m' mem row' p n

/-- A request has been served, or the state is as before. -/
def Served (a : Arch) (m : State) (row : List (Block Kind)) (stop nb : Nat) (fails : Prop)
    (result : Option (State × Nat)) : Prop :=
  ∃ m' mem, result = some (m', mem) ∧ (Allocates a m row stop nb m' mem ∨ (m' = m ∧ mem = 0 ∧ fails))

variable {fails : Prop} {result : Option (State × Nat)}

theorem ChunkSize.pos (h : ChunkSize a nb) : 0 < nb := by
  have hmin := h.min
  rw [minChunkSize] at hmin
  obtain hw | hw := word_cases a <;> omega

theorem Allocates.served (h : Allocates a m row stop nb m' mem) : Served a m row stop nb fails (some (m', mem)) :=
  ⟨m', mem, rfl, Or.inl h⟩

/-- An idle step before a request. -/
theorem Allocates.of_idle (h : Allocates a m₁ row stop nb m' mem) (hmoves : Moves a row row m.mem m₁.mem) :
    Allocates a m row stop nb m' mem := by
  obtain ⟨row', p, n, hgives⟩ := h
  exact ⟨row', p, n, hgives.mem, hgives.enough, hgives.inv, hmoves.trans hgives.moves fun _ _ hold _ => hold,
    hgives.fresh, hgives.live, hgives.within⟩

theorem Served.of_idle (h : Served a m₁ row stop nb False result) (hmoves : Moves a row row m.mem m₁.mem) :
    Served a m row stop nb fails result := by
  obtain ⟨m', mem, rfl, hgives | ⟨-, -, hfalse⟩⟩ := h
  · exact (hgives.of_idle hmoves).served
  · exact hfalse.elim

theorem chunk2mem_ne_zero : chunk2mem a p ≠ 0 := by
  rw [chunk2mem]
  obtain hw | hw := word_cases a <;> omega

/-! ### A free chunk -/

/-- A free chunk that is in no bin is handed out whole. -/
theorem Layout.use (h : Layout a m row) (hp : FreeIn row p n) (hnb : nb ≤ n)
    (hstored : Stored a m fun q t => FreeIn row q t ∧ q ≠ p) :
    Allocates a m row stop nb (m.setInuseAndPinuse a p n) (chunk2mem a p) := by
  obtain ⟨k, hk⟩ := hp
  obtain ⟨pre, ⟨c, t⟩, post, rfl, rfl, rfl, hbefore, hgap⟩ := h.laid.next hk (Or.inr rfl)
  have hc := used_of_before hbefore
  obtain ⟨-, -, -, hcgap, hctop, hcfree⟩ := hc.facts
  have htag := h.laid.tagged hk
  have hnpos : 0 < n := (htag.size nofun).1
  obtain ⟨hmoves, hsame⟩ := h.laid.use (s := m)
  have hlayout : Layout a (m.setInuseAndPinuse a (total pre) n) _ := h.replace hmoves hsame ⟨rfl, rfl, rfl, rfl⟩ rfl
    rfl (by simp) (by simp [hcgap, hctop]) (by simp [hctop]) rfl ⟨nofun, nofun⟩
  have haround : ∀ k q b, Around .gap 0 pre [⟨.client, n⟩, ⟨c, t⟩] post k q b ↔
      Around .gap 0 pre [⟨.free, n⟩, ⟨c, t⟩] post k q b := fun k q b => around_congr rfl rfl
  have hout : ∀ {k q b}, Around .gap 0 pre [⟨.free, n⟩, ⟨c, t⟩] post k q b → b.kind ≠ .gap → q ≠ total pre := by
    intro k q b hb hgap
    have hplace := h.laid.around_place hb hgap
    simp only [total_cons] at hplace
    omega
  have hfree : ∀ q t', FreeIn (pre ++ ([⟨.client, n⟩, ⟨c, t⟩] ++ post)) q t' ↔
      FreeIn (pre ++ ([⟨.free, n⟩, ⟨c, t⟩] ++ post)) q t' ∧ q ≠ total pre := by
    intro q t'
    simp only [at_around, haround, exists_placed_cons, exists_placed_nil, Block.mk.injEq, reduceCtorEq, false_and,
      and_false, or_false, hcfree.symm, true_and]
    constructor
    · rintro ⟨k, hk'⟩
      exact ⟨Or.inl ⟨k, hk'⟩, hout hk' nofun⟩
    · rintro ⟨hk' | ⟨heq, -⟩, hne⟩
      · exact hk'
      · exact absurd heq hne
  obtain ⟨bins, hstocked, hbinned⟩ := hstored
  have hbinned' : Binned a (m.setInuseAndPinuse a (total pre) n) bins := by
    refine h.binned_around (by simp [hcgap]) (by simp) hstocked (fun q t hq => hq.1) ?_ hbinned hsame rfl rfl rfl
    rintro k q t' (⟨-, rfl, -⟩ | ⟨-, -, heq⟩ | hnil) hq
    · exact absurd rfl hq.2
    · exact absurd (congrArg Block.kind heq).symm hcfree
    · exact hnil.elim
  refine ⟨_, total pre, n, rfl, hnb, ⟨hlayout, bins, hstocked.congr hfree, hbinned'⟩, hmoves,
    fun t' => h.laid.not_live hk nofun nofun nofun, fun q t' => ?_,
    by simp only [total_append, total_cons, total_nil]; omega⟩
  simp only [Live, at_around, haround, exists_placed_cons, exists_placed_nil, Block.mk.injEq, reduceCtorEq, false_and,
    and_false, or_false, true_and]
  grind

/-! ### Part of a chunk -/

/-- The tags of a chunk of `n` bytes in use at `p` and of the rest behind it, which ends `r` bytes further. -/
structure SplitAt (a : Arch) (m m' : Memory) (p n r : Nat) : Prop where
  head : load m' (p + a.word) a.word = n + 3
  rest : load m' (p + n + a.word) a.word = r + 1
  frame : ∀ x, x < p + a.word ∨ p + (n + r) + a.word ≤ x → m' x = m x

theorem ChunkSize.rest (h : ChunkSize a nb) (hn : (nb + r) % mallocAlignment a = 0) : r % mallocAlignment a = 0 := by
  have hnb := h.aligned
  rw [alignment_eq] at hnb hn ⊢
  obtain hw | hw := word_cases a <;> rw [hw] at hnb hn ⊢ <;> omega

theorem add_aligned (hp : p % mallocAlignment a = 0) (hn : n % mallocAlignment a = 0) :
    (p + n) % mallocAlignment a = 0 := by
  rw [alignment_eq] at hp hn ⊢
  obtain hw | hw := word_cases a <;> rw [hw] at hp hn ⊢ <;> omega

/-- The first part of a free chunk has become a chunk of `nb` bytes in use, and the rest of it, a free chunk, is not in
a bin yet. -/
structure Carves (a : Arch) (m : State) (row : List (Block Kind)) (m' : State) (row' : List (Block Kind))
    (p nb r : Nat) : Prop where
  layout : Layout a m' row'
  moves : Moves a row row' m.mem m'.mem
  free : ∀ q t, FreeIn row' q t ↔ (FreeIn row q t ∧ q ≠ p) ∨ (q = p + nb ∧ t = r)
  stored : Stored a m' fun q t => FreeIn row q t ∧ q ≠ p
  fresh : ∀ t, ¬ Live a row p t
  live : ∀ q t, Live a row' q t ↔ Live a row q t ∨ (q = p ∧ t = nb)
  within : total row' = total row

/-- The first part of a free chunk that is in no bin is handed out. -/
theorem Layout.split (h : Layout a m row) (hp : FreeIn row p (nb + r)) (hnb : ChunkSize a nb) (hr : minChunkSize a ≤ r)
    (hsplit : SplitAt a m.mem m'.mem p nb r) (hfoot : load m'.mem (p + nb + r) a.word = r)
    (hrest : m' = { m with mem := m'.mem }) (hstored : Stored a m fun q t => FreeIn row q t ∧ q ≠ p) :
    ∃ row', Carves a m row m' row' p nb r := by
  obtain ⟨k, hk⟩ := hp
  obtain ⟨pre, post, rfl, rfl, rfl⟩ := After.split hk
  have htag := h.laid.tagged hk
  have hfits := htag.fits (by simp)
  have hpos := hnb.pos
  have hpos' : 0 < r := by
    have hmin := hr
    rw [minChunkSize] at hmin
    obtain hw | hw := word_cases a <;> omega
  have hsame : SameAround a pre [⟨.free, nb + r⟩] m.mem m'.mem := hsplit.frame
  have hmoves := h.laid.split (Or.inl rfl) ⟨hfits.place, ⟨hpos, hnb.aligned⟩, fun _ => hnb.min⟩
    ⟨⟨by omega, add_aligned hfits.place.2 hnb.aligned⟩, ⟨hpos', hnb.rest hfits.size.2⟩, fun _ => hr⟩ hsplit.head
    hsplit.rest (fun _ => hfoot) hsame
  have htop : SameTop m m' := by
    rw [hrest]
    exact ⟨rfl, rfl, rfl, rfl⟩
  have hlayout := h.replace hmoves hsame htop rfl rfl (by simp) (by simp) (by simp) rfl ⟨by simp, by simp⟩
  have haround : ∀ k q b, Around .gap 0 pre [⟨.client, nb⟩, ⟨.free, r⟩] post k q b ↔
      Around .gap 0 pre [⟨.free, nb + r⟩] post k q b := fun k q b => around_congr rfl rfl
  have hout : ∀ {k q b}, Around .gap 0 pre [⟨.free, nb + r⟩] post k q b → b.kind ≠ .gap → q ≠ total pre := by
    intro k q b hb hgap
    have hplace := h.laid.around_place hb hgap
    simp only [total_cons] at hplace
    omega
  obtain ⟨bins, hstocked, hbinned⟩ := hstored
  have hbinned' : Binned a m' bins := by
    refine h.binned_around (by simp) (by simp) hstocked (fun q t hq => hq.1) ?_ hbinned hsame htop.gm (by rw [hrest])
      (by rw [hrest])
    rintro k q t (⟨-, rfl, -⟩ | hnil) hq
    · exact absurd rfl hq.2
    · exact hnil.elim
  have hdv : m'.dv = m.dv ∧ m'.dvsize = m.dvsize := by
    rw [hrest]
    exact ⟨rfl, rfl⟩
  rw [← hdv.1, ← hdv.2] at hstocked
  refine ⟨_, hlayout, hmoves, fun q t => ?_, ⟨bins, hstocked, hbinned'⟩,
    fun t => h.laid.not_live hk (by simp) (by simp) (by simp), fun q t => ?_,
    by simp only [total_append, total_cons, total_nil]; omega⟩
  · simp only [at_around, haround, exists_placed_cons, exists_placed_nil, Block.mk.injEq, reduceCtorEq, false_and,
      and_false, false_or, or_false, true_and]
    grind
  · simp only [Live, at_around, haround, exists_placed_cons, exists_placed_nil, Block.mk.injEq, reduceCtorEq, false_and,
      and_false, or_false, true_and]
    grind

/-- The rest has gone to a bin, or has become the designated victim. -/
theorem Carves.gives (h : Carves a m row m₁ row' p nb r) (hidle : Idle a row' m₁ m')
    (hstored : Stored a m' fun q t => (FreeIn row q t ∧ q ≠ p) ∨ (q = p + nb ∧ t = r)) :
    Allocates a m row stop nb m' (chunk2mem a p) := by
  obtain ⟨hlayout, hmoves⟩ := h.layout.idle hidle
  exact ⟨row', p, nb, rfl, le_rfl, ⟨hlayout, hstored.congr h.free⟩, h.moves.trans hmoves fun _ _ _ hnew => hnew, h.fresh,
    h.live, h.within.trans_le (le_max_left _ _)⟩

/-- The first part of the top chunk is handed out. -/
theorem Inv.splitTop (h : Inv a m row) (hnb : ChunkSize a nb) (hlt : nb < m.topsize) :
    Allocates a m row stop nb (splitTop a m nb).1 (splitTop a m nb).2 := by
  have hinit : m.top ≠ 0 := fun hzero => by
    have hsize := (h.bare hzero).1
    omega
  obtain ⟨k, hk⟩ := (h.top _ _).mpr ⟨hinit, rfl, rfl⟩
  obtain ⟨r, hr⟩ := Nat.exists_eq_add_of_le hlt.le
  rw [hr] at hk
  obtain ⟨pre, post, rfl, hplace, rfl⟩ := After.split hk
  have hfits := (h.laid.tagged hk).fits (by simp)
  have hsize : nb + r + 8 ≤ 2 ^ a.bits := h.laid.size_lt hk (by simp)
  have hpos := hnb.pos
  have hpos' : 0 < r := by omega
  have hnb8 := mod_eight hnb.aligned
  have hr8 := mod_eight (hnb.rest hfits.size.2)
  rw [hplace] at hfits
  have hword : 2 * a.word ≤ nb := by
    have hmin := hnb.min
    rw [minChunkSize] at hmin
    omega
  have hword' : 2 * a.word ≤ r := by
    have hrest := hnb.rest hfits.size.2
    rw [alignment_eq] at hrest
    exact Nat.le_of_dvd hpos' (Nat.dvd_of_mod_eq_zero hrest)
  have hmem : (Malloc.splitTop a m nb).1.mem =
      store (store m.mem (total pre + nb + a.word) a.word (r + 1)) (total pre + a.word) a.word (nb + 3) := by
    rw [← or_inuse hnb8, ← or_pinuse hr8, ← hplace, show r = m.topsize - nb by omega]
    rfl
  have hsame : SameAround a pre [⟨.top, nb + r⟩] m.mem (Malloc.splitTop a m nb).1.mem := fun x hx => by
    rw [total_cons, total_nil] at hx
    dsimp only at hx
    rw [hmem]
    exact (store_outside (by omega)).trans (store_outside (by omega))
  have hmoves : Moves a _ _ m.mem (Malloc.splitTop a m nb).1.mem := h.laid.split (Or.inr rfl)
    ⟨hfits.place, ⟨hpos, hnb.aligned⟩, fun _ => hnb.min⟩
    ⟨⟨by omega, add_aligned hfits.place.2 hnb.aligned⟩, ⟨hpos', hnb.rest hfits.size.2⟩, fun hne => absurd rfl hne⟩
    (by rw [hmem]; exact load_word (by omega))
    (by rw [hmem]; exact (load_store_outside (by omega)).trans (load_word (by omega))) (by simp) hsame
  have hlayout : Layout a (Malloc.splitTop a m nb).1 (pre ++ (([⟨.client, nb⟩] ++ [⟨.top, r⟩]) ++ post)) :=
    Layout.retop (show Layout a m (pre ++ (([] ++ [⟨.top, nb + r⟩]) ++ post)) from h.toLayout) hmoves hsame (by simp)
      (by simp) (by simp) (by simp [Malloc.splitTop, State.setHead, State.setSizeAndPinuseOfInuseChunk, hplace])
      (Nat.sub_eq_of_eq_add (by omega)) rfl rfl
  have haround : ∀ k q b, Around .gap 0 pre [⟨.client, nb⟩, ⟨.top, r⟩] post k q b ↔
      Around .gap 0 pre [⟨.top, nb + r⟩] post k q b := fun k q b => around_congr rfl rfl
  obtain ⟨bins, hstocked, hbinned⟩ := h.stored
  have hbinned' : Binned a (Malloc.splitTop a m nb).1 bins := by
    refine h.binned_around (by simp) (by simp) hstocked (fun q t hq => hq) ?_ hbinned hsame rfl rfl rfl
    rintro k q t (⟨-, -, heq⟩ | hnil) -
    · cases heq
    · exact hnil.elim
  refine ⟨_, total pre, nb, congrArg (chunk2mem a) hplace, le_rfl,
    ⟨hlayout, bins, hstocked.congr fun q t' => ?_, hbinned'⟩, hmoves,
    fun t' => hplace ▸ h.laid.not_live hk (by simp) (by simp) (by simp), fun q t' => ?_,
    by simp only [total_append, total_cons, total_nil]; omega⟩
  · show At (pre ++ ([⟨.client, nb⟩, ⟨.top, r⟩] ++ post)) _ _ ↔ _
    simp only [at_around, haround, exists_placed_cons, exists_placed_nil, Block.mk.injEq, reduceCtorEq, false_and,
      and_false, or_false]
  · show Live a (pre ++ ([⟨.client, nb⟩, ⟨.top, r⟩] ++ post)) _ _ ↔ _
    simp only [Live, at_around, haround, exists_placed_cons, exists_placed_nil, Block.mk.injEq, reduceCtorEq, false_and,
      and_false, or_false, true_and]
    grind

/-! ### What is left of a chunk -/

/-- `keep` puts a free chunk into a bin, or makes it the designated victim. -/
def Stows (a : Arch) (dvsize : Nat) (keep : State → Nat → Nat → Option State) : Prop :=
  ∀ {s row r t} {F : Nat → Nat → Prop}, Layout a s row → s.dvsize = dvsize → Stored a s F →
    (∀ q n, F q n → FreeIn row q n) → FreeIn row r t → (∀ n, ¬ F r n) →
    ∃ s', keep s r t = some s' ∧ Idle a row s s' ∧ Stored a s' fun q n => F q n ∨ (q = r ∧ n = t)

theorem stows_insertChunk {dvsize : Nat} : Stows a dvsize (insertChunk a) := by
  intro s row r t F h _ hstored hF hr hnew
  obtain ⟨s', heq, hstep, hstored'⟩ := h.inserted hstored hF hr hnew
  exact ⟨s', heq, h.idle_of_step hstep, hstored'⟩

theorem stows_replaceDv {dvsize : Nat} (hsmall : isSmall dvsize = true) : Stows a dvsize (replaceDv a) := by
  rintro s row r t F h rfl hstored hF hr hnew
  exact h.replacedDv hstored hF hsmall hr hnew

/-- The rest of the designated victim is the next one. -/
theorem stows_dv : Stows a 0 fun s r t => some { s with dv := r, dvsize := t } := by
  rintro s row r t F h hzero ⟨bins, hstocked, hbinned⟩ hF hr hnew
  obtain ⟨hr₀, ht₀, hmod, -⟩ := h.free_chunk hr
  rw [hstocked.vacant hzero, hzero] at hstocked
  exact ⟨_, rfl, .of_mem rfl ⟨rfl, rfl, rfl, rfl⟩, bins, hstocked.setDv hnew hr₀ ht₀ hmod,
    ⟨hbinned.smallmap, hbinned.treemap, hbinned.linked⟩⟩

/-- A chunk in use and a free one behind it are written, in either order. -/
theorem splitAt_store (hn : n % 8 = 0) (hr : r % 8 = 0) (hword : 2 * a.word ≤ n) (hword' : 2 * a.word ≤ r)
    (hlt : n + r + 8 ≤ 2 ^ a.bits)
    (hm' : m' = (m.setSizeAndPinuseOfInuseChunk a p n).setSizeAndPinuseOfFreeChunk a (p + n) r ∨
      m' = (m.setSizeAndPinuseOfFreeChunk a (p + n) r).setSizeAndPinuseOfInuseChunk a p n) :
    SplitAt a m.mem m'.mem p n r ∧ load m'.mem (p + n + r) a.word = r ∧ m' = { m with mem := m'.mem } := by
  rw [State.setSizeAndPinuseOfInuseChunk, State.setSizeAndPinuseOfFreeChunk, State.setSizeAndPinuseOfInuseChunk,
    State.setSizeAndPinuseOfFreeChunk, or_inuse hn, or_pinuse hr] at hm'
  obtain rfl | rfl := hm'
  · refine ⟨⟨?_, ?_, fun x hx => ?_⟩, load_word (by omega), rfl⟩
    · exact (load_store_outside (by omega)).trans ((load_store_outside (by omega)).trans (load_word (by omega)))
    · exact (load_store_outside (by omega)).trans (load_word (by omega))
    · exact (store_outside (by omega)).trans ((store_outside (by omega)).trans (store_outside (by omega)))
  · refine ⟨⟨load_word (by omega), ?_, fun x hx => ?_⟩, (load_store_outside (by omega)).trans (load_word (by omega)), rfl⟩
    · exact (load_store_outside (by omega)).trans ((load_store_outside (by omega)).trans (load_word (by omega)))
    · exact (store_outside (by omega)).trans ((store_outside (by omega)).trans (store_outside (by omega)))

/-- A free chunk that is in no bin serves the request: whole when the rest is no chunk, else the first part of it. -/
theorem Layout.serve (h : Layout a m row) (hp : FreeIn row p n) (hnb : ChunkSize a nb) (hle : nb ≤ n)
    (hstored : Stored a m fun q t => FreeIn row q t ∧ q ≠ p) {keep : State → Nat → Nat → Option State}
    (hkeep : Stows a m.dvsize keep)
    (hm' : m' = (m.setSizeAndPinuseOfInuseChunk a p nb).setSizeAndPinuseOfFreeChunk a (p + nb) (n - nb) ∨
      m' = (m.setSizeAndPinuseOfFreeChunk a (p + nb) (n - nb)).setSizeAndPinuseOfInuseChunk a p nb) :
    Served a m row stop nb fails (if n - nb < minChunkSize a then some (m.setInuseAndPinuse a p n, chunk2mem a p)
      else (keep m' (p + nb) (n - nb)).map (·, chunk2mem a p)) := by
  split
  · exact (h.use hp hle hstored).served
  · next hrest =>
      obtain ⟨r, rfl⟩ := Nat.exists_eq_add_of_le hle
      rw [Nat.add_sub_cancel_left] at hrest hm' ⊢
      have hr := Nat.not_lt.mp hrest
      obtain ⟨k, hk⟩ := hp
      have hfits := (h.laid.tagged hk).fits (by simp)
      have hsize : nb + r + 8 ≤ 2 ^ a.bits := h.laid.size_lt hk (by simp)
      have hr8 := mod_eight (hnb.rest hfits.size.2)
      have hword : 2 * a.word ≤ nb ∧ 2 * a.word ≤ r ∧ 0 < r := by
        have hmin := hnb.min
        rw [minChunkSize] at hmin hr
        obtain hw | hw := word_cases a <;> omega
      obtain ⟨hsplit, hfoot, hrest'⟩ := splitAt_store (mod_eight hnb.aligned) hr8 hword.1 hword.2.1 hsize hm'
      obtain ⟨row', hcarves⟩ := h.split ⟨k, hk⟩ hnb hr hsplit hfoot hrest' hstored
      have hnew : ∀ t, ¬ (FreeIn row (p + nb) t ∧ p + nb ≠ p) := by
        rintro t ⟨⟨k', hk'⟩, hne⟩
        have hpos := ((h.laid.tagged hk').size (by simp)).1
        have hpos' := hnb.pos
        obtain ⟨-, heq, -⟩ | hapart | hapart := hk.apart hk' <;> dsimp only at * <;> omega
      obtain ⟨m'', heq, hidle, hstored'⟩ := hkeep hcarves.layout (by rw [hrest']) hcarves.stored
        (fun q t hq => (hcarves.free q t).mpr (Or.inl hq)) ((hcarves.free _ _).mpr (Or.inr ⟨rfl, rfl⟩)) hnew
      rw [heq]
      exact (hcarves.gives hidle hstored').served

/-! ### The bins -/

variable {i : Nat}

/-- The first chunk of a small bin is free, and can be taken. -/
theorem Inv.smallbin (h : Inv a m row) (hi : m.smallmap.getLsbD i = true) :
    ∃ m', unlinkFirstSmallChunk a m (m.smallbinAt a i) (m.get a (m.smallbinAt a i) .fd) i = some m' ∧
      FreeIn row (m.get a (m.smallbinAt a i) .fd) (smallIndex2size i) ∧ BinStep a (FreeIn row) m m' ∧
      Stored a m' fun q t => FreeIn row q t ∧ q ≠ m.get a (m.smallbinAt a i) .fd := by
  obtain ⟨bins, hstocked, hbinned⟩ := h.stored
  rw [hbinned.smallmap] at hi
  obtain ⟨p, rest, hbin⟩ := List.exists_cons_of_ne_nil ((hstocked.ok.small_map i).mp hi)
  have hlt : i < 32 := BitVec.lt_of_getLsbD hi
  have hfirst : m.get a (m.smallbinAt a i) .fd = p := by
    have hring := hbinned.linked.small i (hbin ▸ List.cons_ne_nil p rest)
    rw [hbin] at hring
    exact hring.1
  have hheld := (hstocked.ok.small_holds (hbin ▸ List.mem_cons_self : p ∈ bins.smallbins i)).1
  obtain ⟨hfree, hdv⟩ := (hstocked.holds _ _).mp hheld
  obtain ⟨m', heq, hfiled, hstep⟩ := unlinkFirstSmallChunk_spec (h.filed hstocked hbinned fun _ _ hq => hq) hbin
  rw [hfirst]
  exact ⟨m', heq, hfree, hstep, _,
    hstep.stocked (hstocked.unlink hfree hdv (hstocked.ok.unlinkFirstSmallChunk hlt hbin)), hfiled.binned⟩

theorem unlinkChunk_large (hlarge : isSmall n = false) : unlinkChunk a m p n = unlinkLargeChunk a m p := by
  rw [unlinkChunk, hlarge, if_neg Bool.false_ne_true]

/-- A chunk of a tree serves the request. -/
theorem Inv.splitTreeChunk (h : Inv a m row) (hp : FreeIn row p n) (hdv : p ≠ m.dv) (hlarge : isSmall n = false)
    (hnb : ChunkSize a nb) (hle : nb ≤ n) {keep : State → Nat → Nat → Option State} (hkeep : Stows a m.dvsize keep) :
    Served a m row stop nb fails (splitTreeChunk a m keep p (n - nb) nb) := by
  obtain ⟨m₁, hunlink, hstep, hstored⟩ := h.unlinked h.stored (fun _ _ hq => hq) hp hdv
  rw [unlinkChunk_large hlarge] at hunlink
  obtain ⟨hlayout, hmoves⟩ := h.idle (h.idle_of_step hstep)
  have hok : m.okAddress p = true ∧ p < p + nb :=
    ⟨h.spread.okAddress hp, Nat.lt_add_of_pos_right hnb.pos⟩
  rw [Malloc.splitTreeChunk, if_pos hok, hunlink, Option.bind_eq_bind, Option.bind_some, Nat.sub_add_cancel hle]
  have hdvsize : m₁.dvsize = m.dvsize := by rw [hstep.rest]
  have hkeep' : Stows a m₁.dvsize keep := by
    rw [hdvsize]
    exact hkeep
  have hserve : Served a m₁ row stop nb False _ := hlayout.serve hp hnb hle hstored hkeep' (Or.inl rfl)
  convert hserve.of_idle hmoves using 1
  split
  · rfl
  · exact (Option.map_eq_bind ..).symm

/-- A free chunk that is in a tree. -/
def InTree (m : State) (row : List (Block Kind)) (x t : Nat) : Prop :=
  FreeIn row x t ∧ x ≠ m.dv ∧ isSmall t = false

/-- The trees are of free chunks, and each marked tree has one. -/
theorem Inv.grown (h : Inv a m row) (hi : i < 32) : ∃ T, Grown a m (InTree m row) (m.get a (m.treebinAt a i) .root) T ∧
    (nodes T).length < 2 ^ a.bits ∧ (m.treemap.getLsbD i = true → m.get a (m.treebinAt a i) .root ≠ 0) := by
  obtain ⟨bins, hstocked, hbinned⟩ := h.stored
  have hfiled := h.filed hstocked hbinned fun _ _ hq => hq
  have hgrown := hfiled.grown (fun q n hq => h.free_size (hfiled.held q n hq)) hi
  refine ⟨_, hgrown.mono fun x n hx => ?_, hfiled.length_lt, fun hbit hzero => ?_⟩
  · obtain ⟨hfree, hdv⟩ := (hstocked.holds x n).mp hx.1
    exact ⟨hfree, hdv, hx.2⟩
  · rw [hbinned.treemap] at hbit
    obtain ⟨q, hangs⟩ := hgrown.hangs
    exact (hstocked.ok.tree_map i).mp hbit ((hangs.eq_nil_iff hgrown.null).mpr hzero)

/-- The chunk that a search has found serves the request, when the rest of it can be kept. -/
theorem Inv.found (h : Inv a m row) (hnb : ChunkSize a nb) {best : Best} (hbest : best.Sound a nb (InTree m row))
    (hsome : best.1 ≠ 0) {keep : State → Nat → Nat → Option State} (hkeep : Stows a m.dvsize keep) :
    Served a m row stop nb fails (Malloc.splitTreeChunk a m keep best.1 best.2 nb) := by
  obtain ⟨n, ⟨hfree, hdv, hlarge⟩, hle, hrest⟩ := hbest.fits hsome
  rw [hrest]
  exact h.splitTreeChunk hfree hdv hlarge hnb hle hkeep

theorem Inv.tmallocSmall (h : Inv a m row) (hnb : ChunkSize a nb) (hsmall : nb < 256) (hbits : nb ≤ 2 ^ a.bits)
    (hdv : m.dvsize < nb) (hmap : m.treemap ≠ 0) : Served a m row stop nb fails (tmallocSmall a m nb) := by
  have hbit := (bit2idx_leastBit hmap).1
  obtain ⟨T, hT, hlength, hroot⟩ := h.grown (BitVec.lt_of_getLsbD hbit)
  have ht := hroot hbit
  rw [Malloc.tmallocSmall]
  revert hT ht
  generalize m.get a _ .root = t
  intro hT ht
  obtain ⟨n, hS, hhead, hn⟩ := hT.root ht
  have hle : nb ≤ n := by
    have hbound := Bins.isSmall_iff.not.mp (Bool.eq_false_iff.mp hS.2.2)
    omega
  have hstart : Best.Sound a nb (InTree m row) (t, sizeSub a (chunksize (m.head a t)) nb) := by
    rw [hhead, sizeSub_of_le hle hn]
    exact ⟨by dsimp only; omega, fun _ => ⟨n, hS, hle, rfl⟩⟩
  obtain ⟨C, hC, hless⟩ := hT.leftmost ht
  obtain ⟨best, heq, hsound, hsome⟩ := smallestLoop_spec hC (hless.trans hlength) hbits hstart
  dsimp only
  rw [heq]
  exact h.found hnb hsound (hsome ht) (stows_replaceDv (Bins.isSmall_iff.mpr (by omega)))

/-- A large request is served from a tree, or left to the designated victim and the top chunk. -/
theorem Inv.tmallocLarge (h : Inv a m row) (hnb : ChunkSize a nb) (hbits : nb ≤ 2 ^ a.bits) :
    Served a m row stop nb True (tmallocLarge a m nb) := by
  have hnull : Best.Sound a nb (InTree m row) (0, sizeSub a 0 nb) := Best.sound_null hnb.pos hbits
  have hpos : 0 < 2 ^ a.bits := Nat.two_pow_pos _
  obtain ⟨t, best, T, heq, hT, hlength, hbest⟩ : ∃ t best T, exactSearch a m nb = some (t, best) ∧
      Grown a m (InTree m row) t T ∧ (nodes T).length < 2 ^ a.bits ∧ best.Sound a nb (InTree m row) := by
    obtain ⟨T, hT, hlength, -⟩ := h.grown (Bins.treeIndex_lt (s := nb))
    rw [exactSearch]
    split
    · next ht => exact exactLoop_spec hT ht hlength hbits hlength .nil hpos hnull (treeKey a nb)
    · exact ⟨0, _, .nil, rfl, .nil, hpos, hnull⟩
  rw [Malloc.tmallocLarge, heq]
  dsimp only [Option.bind_eq_bind, Option.bind_some]
  -- The search goes on in the subtree, or in the least tree of larger chunks.
  obtain ⟨T', hT', hlength'⟩ : ∃ T', Grown a m (InTree m row) (if t = 0 ∧ best.1 = 0 ∧
      leftBits (idx2bit (treeIndex nb)) &&& m.treemap ≠ 0 then
        m.get a (m.treebinAt a (bit2idx (leastBit (leftBits (idx2bit (treeIndex nb)) &&& m.treemap)))) .root else t) T' ∧
      (nodes T').length < 2 ^ a.bits := by
    split
    · next hleft =>
        obtain ⟨T', hT', hlength', -⟩ := h.grown (BitVec.lt_of_getLsbD (bit2idx_leastBit hleft.2.2).1)
        exact ⟨T', hT', hlength'⟩
    · exact ⟨T, hT, hlength⟩
  obtain ⟨best', heq', hsound, -⟩ := smallestLoop_spec hT' hlength' hbits hbest
  rw [heq']
  dsimp only [Option.bind_some]
  split
  · next hsome => exact h.found hnb hsound hsome.1 stows_insertChunk
  · exact ⟨m, 0, rfl, Or.inr ⟨rfl, rfl, trivial⟩⟩

/-- What no tree serves is left to the rest of `dlmalloc`. -/
theorem orRest_served {mmap mmap' : Mmap} {tree : Option (State × Nat)} (htree : Served a m row stop nb True tree)
    (hrest : Served a m row stop nb fails (mallocRest a m mmap mmap' nb)) :
    Served a m row stop nb fails (orRest a m mmap mmap' nb tree) := by
  obtain ⟨m', mem, rfl, hcase⟩ := htree
  rw [orRest]
  obtain ⟨row', p, n, hgives⟩ | ⟨-, rfl, -⟩ := hcase
  · rw [if_pos (hgives.mem ▸ chunk2mem_ne_zero)]
    exact Allocates.served ⟨row', p, n, hgives⟩
  · rw [if_neg (not_not.mpr rfl)]
    exact hrest

/-! ### `dlmalloc` before it asks the system -/

variable {mmap mmap' : Mmap}

/-- The designated victim serves a request that it has room for, and the top chunk the next one. -/
theorem Inv.mallocRest (h : Inv a m row) (hnb : ChunkSize a nb)
    (hsys : Served a m row stop nb fails (sysAlloc a m mmap mmap' nb)) :
    Served a m row stop nb fails (mallocRest a m mmap mmap' nb) := by
  rw [Malloc.mallocRest]
  split
  · next hle =>
      have hpos := hnb.pos
      obtain ⟨bins, hstocked, hbinned⟩ := h.stored
      have hdv := hstocked.victim (by omega)
      have hidle : Idle a row m { m with dvsize := 0, dv := 0 } := .of_mem rfl ⟨rfl, rfl, rfl, rfl⟩
      obtain ⟨hlayout, hmoves⟩ := h.idle hidle
      have hserve : Served a { m with dvsize := 0, dv := 0 } row stop nb False _ := hlayout.serve hdv hnb hle
        ⟨bins, hstocked.takeDv, hbinned.smallmap, hbinned.treemap, hbinned.linked⟩ stows_dv (Or.inr rfl)
      convert hserve.of_idle hmoves using 1
      dsimp only
      split
      · next hrest =>
          rw [if_neg (Nat.not_lt.mpr hrest)]
          rfl
      · next hrest => rw [if_pos (Nat.not_le.mp hrest)]
  · split
    · next hlt => exact (h.splitTop hnb hlt).served
    · exact hsys

theorem Inv.mallocSmall (h : Inv a m row) (hnb : ChunkSize a nb) (hsmall : nb < 256) (hbits : nb ≤ 2 ^ a.bits)
    (hrest : Served a m row stop nb fails (Malloc.mallocRest a m mmap mmap' nb)) :
    Served a m row stop nb fails (mallocSmall a m mmap mmap' nb) := by
  have hmod := mod_eight hnb.aligned
  have hindex : smallIndex nb < 32 := Bins.smallIndex_lt (Bins.isSmall_iff.mpr hsmall)
  rw [Malloc.mallocSmall]
  split
  · next hnear =>
      -- The bin of the size or the next one has a chunk.
      obtain ⟨hbit, hone⟩ := getLsbD_not_and_one hnear
      rw [BitVec.getLsbD_ushiftRight] at hbit
      obtain ⟨m₁, heq, hfree, hstep, hstored⟩ := h.smallbin hbit
      obtain ⟨hlayout, hmoves⟩ := h.idle (h.idle_of_step hstep)
      dsimp only
      rw [heq]
      refine ((hlayout.use hfree ?_ hstored).of_idle hmoves).served
      rw [smallIndex2size, smallIndex]
      omega
  · next hnear =>
      split
      · next hdv =>
          split
          · next hleft =>
              -- The least bin above the next one is split.
              obtain ⟨hbit, hge⟩ := nextSmall_spec hindex (not_not.mp hnear) hleft
              obtain ⟨m₁, heq, hfree, hstep, hstored⟩ := h.smallbin hbit
              obtain ⟨hlayout, hmoves⟩ := h.idle (h.idle_of_step hstep)
              dsimp only
              rw [heq]
              dsimp only [Option.bind_eq_bind, Option.bind_some]
              revert hge hfree hstored
              generalize bit2idx (leastBit _) = i
              generalize m.get a _ .fd = p
              intro hge hfree hstored
              have hsize : nb + 16 ≤ smallIndex2size i := by
                rw [smallIndex] at hge
                rw [smallIndex2size]
                omega
              have hdvsize : m₁.dvsize = m.dvsize := by rw [hstep.rest]
              have hsmall' : isSmall m₁.dvsize = true := Bins.isSmall_iff.mpr (by omega)
              have hserve : Served a m₁ row stop nb False _ :=
                hlayout.serve hfree hnb (by omega) hstored (stows_replaceDv hsmall') (Or.inl rfl)
              convert hserve.of_idle hmoves using 1
              split
              · next hshort => rw [if_pos hshort.2]
              · next hlong =>
                  have hmin : ¬ smallIndex2size i - nb < minChunkSize a := by
                    intro hshort
                    refine hlong ⟨fun hword => ?_, hshort⟩
                    rw [minChunkSize, hword] at hshort
                    omega
                  rw [if_neg hmin]
                  exact (Option.map_eq_bind ..).symm
          · split
            · next hmap => exact orRest_served (h.tmallocSmall hnb hsmall hbits hdv hmap) hrest
            · exact hrest
      · exact hrest

end Kiznix.Malloc
