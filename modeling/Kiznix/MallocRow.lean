import Kiznix.BlockRow
import Kiznix.MallocTrees

/-! Chunks in memory as a row of tagged blocks: the allocator's own and its clients' chunks, and the gaps between
them, which belong to others. -/

namespace Kiznix.Malloc

open ByteMemory BlockRow
open Switch (Arch)

variable {a : Arch} {m m' : Memory} {n s p q f g : Nat}

/-! ### Words -/

theorem alignment_eq (a : Arch) : mallocAlignment a = 2 * a.word := rfl

theorem topFootSize_eq (a : Arch) : topFootSize a = 10 * a.word := by
  cases a <;> decide

theorem segmentChunkSize_eq (a : Arch) : segmentChunkSize a = 6 * a.word := by
  cases a <;> decide

/-- A size in chunks of eight bytes. -/
theorem mod_eight (h : n % mallocAlignment a = 0) : n % 8 = 0 := by
  rw [alignment_eq] at h
  obtain hw | hw := word_cases a <;> rw [hw] at h <;> omega

theorem add_or (hn : n % 8 = 0) (hf : f < 8) (hg : g < 8) : (n + f) ||| g = n + (f ||| g) := by
  have hor : f ||| g < 8 := Nat.or_lt_two_pow (n := 3) hf hg
  have hshift : n = (n / 8) <<< 3 := by
    rw [Nat.shiftLeft_eq]
    omega
  rw [hshift, Nat.shiftLeft_add_eq_or_of_lt hf, Nat.shiftLeft_add_eq_or_of_lt hor, Nat.or_assoc]

theorem or_pinuse (hn : n % 8 = 0) : n ||| pinuseBit = n + 1 := add_or (f := 0) hn (by decide) (by decide)

theorem or_inuse (hn : n % 8 = 0) : n ||| pinuseBit ||| cinuseBit = n + 3 := by
  rw [or_pinuse hn]
  exact add_or hn (by decide) (by decide)

theorem chunksize_add (hn : n % 8 = 0) (hf : f < 8) : chunksize (n + f) = n := by
  rw [chunksize]
  omega

theorem State.markPinuse_eq {s : State} (hn : n % 8 = 0) (h : s.head a p = n + 2) :
    s.markPinuse a p = s.setHead a p (n + 3) := by
  rw [State.markPinuse, h]
  exact congrArg _ (add_or hn (by decide) (by decide))

theorem State.clearPinuse_eq {s : State} (hn : n % 8 = 0) (h : s.head a p = n + 3) :
    s.clearPinuse a p = s.setHead a p (n + 2) := by
  rw [State.clearPinuse, h]
  exact congrArg _ (by omega)

/-! ### Blocks -/

inductive Kind where
  /-- Memory that is not the allocator's, fenceposts, and chunks that are lost. -/
  | gap
  | client
  /-- A chunk that holds the record of a segment. -/
  | record
  | free
  | top
  /-- A chunk that `mmap` has made for a client. -/
  | mapped
  deriving DecidableEq

/-- What may come before a block. -/
def Kind.before : Kind → Kind → Bool
  | k, .gap => k = .gap || k = .record || k = .top || k = .mapped
  | k, .client => k = .gap || k = .client || k = .free
  | k, .record => k = .gap || k = .client || k = .free
  | k, .free => k = .gap || k = .client
  | k, .top => k = .gap || k = .client
  | k, .mapped => k = .gap

/-- The flags in the head of a block after one of kind `k`. -/
def Kind.flags (k : Kind) : Kind → Nat
  | .client | .record => if k = .free then 2 else 3
  | .free | .top => 1
  | .gap | .mapped => 0

/-- The kinds of chunks in use. -/
def Kind.Used (c : Kind) : Prop := c = .client ∨ c = .record

theorem used_of_before {c : Kind} (h : Kind.free.before c = true) : c.Used := by
  cases c <;> first | exact Or.inl rfl | exact Or.inr rfl | cases h

theorem Kind.Used.facts {c : Kind} (h : c.Used) : Kind.free.flags c = 2 ∧ Kind.client.flags c = 3 ∧
    Kind.client.before c = true ∧ c ≠ .gap ∧ c ≠ .top ∧ c ≠ .free := by
  obtain rfl | rfl := h <;> decide

theorem Kind.Used.ne_mapped {c : Kind} (h : c.Used) : c ≠ .mapped := by
  obtain rfl | rfl := h <;> nofun

/-- What may come before a chunk that is not in use. -/
def Kind.Open (k : Kind) : Prop := k = .gap ∨ k = .client

theorem open_of_before {k c : Kind} (h : k.before c = true) (hc : c = .free ∨ c = .top) : k.Open := by
  obtain rfl | rfl := hc <;> cases k <;> first | exact Or.inl rfl | exact Or.inr rfl | cases h

theorem Kind.Open.facts {k : Kind} (h : k.Open) : k.flags .client = 3 ∧ k.flags .record = 3 ∧
    k.before .client = true ∧ k.before .record = true ∧ k.before .free = true ∧ k.before .top = true := by
  obtain rfl | rfl := h <;> decide

/-- The block at `p` has its tags in memory. -/
structure Tagged (a : Arch) (k : Kind) (b : Block Kind) (p : Nat) (m : Memory) : Prop where
  before : k.before b.kind = true
  place : b.kind ≠ .gap → 0 < p ∧ p % mallocAlignment a = 0
  size : b.kind ≠ .gap → 0 < b.size ∧ b.size % mallocAlignment a = 0
  min : b.kind ≠ .gap → b.kind ≠ .top → minChunkSize a ≤ b.size
  head : b.kind ≠ .gap → load m (p + a.word) a.word = b.size + k.flags b.kind
  foot : b.kind = .free → load m (p + b.size) a.word = b.size

theorem Tagged.word_le {k : Kind} {b : Block Kind} (h : Tagged a k b p m) (hb : b.kind ≠ .gap) :
    2 * a.word ≤ b.size := by
  obtain ⟨hpos, hmod⟩ := h.size hb
  rw [alignment_eq] at hmod
  exact Nat.le_of_dvd hpos (Nat.dvd_of_mod_eq_zero hmod)

theorem tagged_gap {k : Kind} (hk : k.before .gap = true) : Tagged a k ⟨.gap, n⟩ p m where
  before := hk
  place h := absurd rfl h
  size h := absurd rfl h
  min h := absurd rfl h
  head h := absurd rfl h
  foot := nofun

theorem Tagged.multiple {k : Kind} {b : Block Kind} (h : Tagged a k b p m) (hb : b.kind ≠ .gap) : b.size % 8 = 0 :=
  mod_eight (h.size hb).2

/-- A chunk is well placed when its size is a multiple of the alignment that is large enough. -/
structure Fits (a : Arch) (c : Kind) (p n : Nat) : Prop where
  place : 0 < p ∧ p % mallocAlignment a = 0
  size : 0 < n ∧ n % mallocAlignment a = 0
  min : c ≠ .top → minChunkSize a ≤ n

theorem Tagged.fits {k c : Kind} (h : Tagged a k ⟨c, n⟩ p m) (hc : c ≠ .gap) : Fits a c p n :=
  ⟨h.place hc, h.size hc, h.min hc⟩

theorem Fits.tagged {k c : Kind} (h : Fits a c p n) (hbefore : k.before c = true)
    (hhead : load m (p + a.word) a.word = n + k.flags c) (hfoot : c = .free → load m (p + n) a.word = n) :
    Tagged a k ⟨c, n⟩ p m :=
  ⟨hbefore, fun _ => h.place, fun _ => h.size, fun _ => h.min, fun _ => hhead, hfoot⟩

/-- The tags of a block are in its own bytes, which begin with its head. -/
theorem tagged_local : Local a.word (Tagged a) := by
  intro k b p m m' h hmem
  refine ⟨h.before, h.place, h.size, h.min, fun hb => ?_, fun hb => ?_⟩
  · have hword := h.word_le hb
    rw [← h.head hb]
    exact load_congr fun x hlow hhigh => hmem x hlow (by omega)
  · have hword := h.word_le (by rw [hb]; nofun)
    exact (load_congr fun x hlow hhigh => hmem x (by omega) (by omega)).trans (h.foot hb)

/-- The row of blocks from address 0, which ends with a gap. -/
structure Row (a : Arch) (m : Memory) (row : List (Block Kind)) : Prop where
  laid : Laid (Tagged a) m .gap 0 row
  last : lastKind .gap row = .gap
  bound : total row ≤ 2 ^ a.bits

/-- A block of the row, after one of kind `k`. -/
abbrev After (row : List (Block Kind)) (k : Kind) (q : Nat) (b : Block Kind) : Prop := Placed .gap 0 row k q b

/-- A block of the row. -/
def At (row : List (Block Kind)) (q : Nat) (b : Block Kind) : Prop := ∃ k, After row k q b

/-- A chunk that belongs to a client. It ends with its `n` bytes and the word behind them, which is no longer the
chunk's own in one that `mmap` has made. -/
def Live (a : Arch) (row : List (Block Kind)) (q n : Nat) : Prop :=
  At row q ⟨.client, n⟩ ∨ At row q ⟨.mapped, n + a.word⟩

/-- The bytes of a chunk from its second word on are the same. -/
def SameBody (a : Arch) (m m' : Memory) (q n : Nat) : Prop :=
  ∀ x, q + 2 * a.word ≤ x → x < q + a.word + n → m' x = m x

/-- A step from one row to another: the clients' chunks that stay keep their contents, and the records stay. -/
structure Moves (a : Arch) (row row' : List (Block Kind)) (m m' : Memory) : Prop where
  target : Row a m' row'
  kept : ∀ q n, Live a row q n → Live a row' q n → SameBody a m m' q n
  records : ∀ q n, At row q ⟨.record, n + a.word⟩ → At row' q ⟨.record, n + a.word⟩ ∧ SameBody a m m' q n

/-- Memory is the same but for the tags from the first block of `mid` on. -/
def SameAround (a : Arch) (pre mid : List (Block Kind)) (m m' : Memory) : Prop :=
  ∀ x, x < total pre + a.word ∨ total pre + total mid + a.word ≤ x → m' x = m x

variable {row : List (Block Kind)} {b b' : Block Kind} {k k' : Kind}

theorem Row.tagged (h : Row a m row) (hb : After row k q b) : Tagged a k b q m := h.laid.placed hb

theorem Row.unique (h : Row a m row) (hb : At row q b) (hb' : At row q b') (hk : b.kind ≠ .gap)
    (hk' : b'.kind ≠ .gap) : b = b' := by
  obtain ⟨k, hb⟩ := hb
  obtain ⟨k', hb'⟩ := hb'
  exact (hb.unique hb' ((h.tagged hb).size hk).1 ((h.tagged hb').size hk').1).2

theorem Row.not_live (h : Row a m row) (hb : After row k q b) (hgap : b.kind ≠ .gap) (hclient : b.kind ≠ .client)
    (hmapped : b.kind ≠ .mapped) : ¬ Live a row q n := by
  rintro (hlive | hlive)
  · rw [h.unique ⟨k, hb⟩ hlive hgap nofun] at hclient
    exact hclient rfl
  · rw [h.unique ⟨k, hb⟩ hlive hgap nofun] at hmapped
    exact hmapped rfl

theorem After.split (h : After row k q b) :
    ∃ pre post, row = pre ++ ([b] ++ post) ∧ q = total pre ∧ k = lastKind .gap pre := by
  obtain ⟨pre, post, rfl, rfl, rfl⟩ := Placed.split h
  exact ⟨pre, post, rfl, Nat.zero_add _, rfl⟩

/-- A block that is no gap is followed by another or by a gap, and a free or used one by no gap. -/
theorem Row.next (h : Row a m row) (hb : After row k q b) (hk : b.kind = .client ∨ b.kind = .free) :
    ∃ pre c post, row = pre ++ ([b, c] ++ post) ∧ q = total pre ∧ k = lastKind .gap pre ∧
      b.kind.before c.kind = true ∧ c.kind ≠ .gap := by
  obtain ⟨pre, post, rfl, rfl, rfl⟩ := Placed.split hb
  cases post with
  | nil =>
      have hlast := h.last
      rw [lastKind_append] at hlast
      obtain hk | hk := hk <;> · rw [lastKind_cons, lastKind_nil, hk] at hlast; cases hlast
  | cons c post =>
      have hbefore := ((laid_append.mp h.laid).2.2.1).before
      refine ⟨pre, c, post, rfl, Nat.zero_add _, rfl, hbefore, fun hgap => ?_⟩
      rw [hgap] at hbefore
      obtain hk | hk := hk <;> rw [hk] at hbefore <;> cases hbefore

theorem load_word (hn : n < 2 ^ a.bits) : load (store m p a.word n) p a.word = n :=
  load_store_of_lt (by rwa [← pow_bits])

theorem Row.size_lt (h : Row a m row) (hb : After row k q b) (hk : b.kind ≠ .gap) : b.size + 8 ≤ 2 ^ a.bits := by
  have htag := h.tagged hb
  obtain ⟨hpos, hmod⟩ := htag.place hk
  have hmod := mod_eight hmod
  have hbounds := hb.bounds
  have hbound := h.bound
  omega

/-! ### Links of free chunks -/

/-- A byte that is none of the links of a free chunk. -/
def Solid (a : Arch) (row : List (Block Kind)) (x : Nat) : Prop :=
  ∀ q n, At row q ⟨.free, n⟩ → x < q + 2 * a.word ∨ q + n ≤ x

/-- The chunks but for the free ones, and the tags, are as they were when the solid bytes from the first chunk on
are. -/
theorem Row.idle (h : Row a m row) {base : Nat} (hbase : ∀ q b, At row q b → b.kind ≠ .gap → base ≤ q)
    (hmem : ∀ x, base ≤ x → Solid a row x → m' x = m x) : Moves a row row m m' := by
  -- What is in a block that is not free, or behind it, is solid, and so are the tags.
  have houtside : ∀ {k q b x}, After row k q b → b.kind ≠ .gap → q ≤ x → x < q + b.size + a.word →
      (b.kind = .free → x < q + 2 * a.word ∨ q + b.size ≤ x) → m' x = m x := by
    intro k q b x hb hgap hlow hhigh hfree
    have hplace := hbase q b ⟨k, hb⟩ hgap
    refine hmem x (by omega) fun q' n' ⟨k', hk'⟩ => ?_
    obtain ⟨-, rfl, rfl⟩ | hapart | hapart := hb.apart hk'
    · exact hfree rfl
    · exact Or.inl (by omega)
    · exact Or.inr (by dsimp only at hapart; omega)
  refine ⟨⟨laid_iff.mpr fun k q b hb => ?_, h.last, h.bound⟩, fun q n hlive _ x hlow hhigh => ?_,
    fun q n hold => ⟨hold, fun x hlow hhigh => ?_⟩⟩
  · have htag := h.tagged hb
    refine ⟨htag.before, htag.place, htag.size, htag.min, fun hgap => ?_, fun hfree => ?_⟩
    · have hword := htag.word_le hgap
      rw [← htag.head hgap]
      exact load_congr fun x hlow hhigh => houtside hb hgap (by omega) (by omega) fun _ => Or.inl (by omega)
    · have hgap : b.kind ≠ .gap := by
        rw [hfree]
        nofun
      calc load m' (q + b.size) a.word
        _ = load m (q + b.size) a.word :=
          load_congr fun x hlow hhigh => houtside hb hgap (by omega) (by omega) fun _ => Or.inr hlow
        _ = b.size := htag.foot hfree
  · obtain ⟨k, hb⟩ | ⟨k, hb⟩ := hlive
    · exact houtside hb nofun (by omega) (by dsimp only; omega) nofun
    · exact houtside hb nofun (by omega) (by dsimp only; omega) nofun
  · obtain ⟨k, hb⟩ := hold
    exact houtside hb nofun (by omega) (by dsimp only; omega) nofun

/-! ### More blocks behind the row -/

section Extend

variable {row' row'' ext : List (Block Kind)} {m'' : Memory}

theorem Moves.trans (h : Moves a row row' m m') (h' : Moves a row' row'' m' m'')
    (hmid : ∀ q n, Live a row q n → Live a row'' q n → Live a row' q n) : Moves a row row'' m m'' where
  target := h'.target
  kept q n hold hnew x hlow hhigh :=
    calc m'' x = m' x := h'.kept q n (hmid q n hold hnew) hnew x hlow hhigh
      _ = m x := h.kept q n hold (hmid q n hold hnew) x hlow hhigh
  records q n hold := by
    obtain ⟨hmid, hsame⟩ := h.records q n hold
    obtain ⟨hnew, hsame'⟩ := h'.records q n hmid
    refine ⟨hnew, fun x hlow hhigh => ?_⟩
    calc m'' x = m' x := hsame' x hlow hhigh
      _ = m x := hsame x hlow hhigh

/-- A chunk that no gap follows ends before the row does. -/
theorem Row.room (h : Row a m row) (hb : After row k q b) (hk : b.kind = .client ∨ b.kind = .free) :
    q + b.size + a.word ≤ total row := by
  obtain ⟨pre, c, post, rfl, rfl, rfl, -, hgap⟩ := h.next hb hk
  have hnext : After (pre ++ ([b, c] ++ post)) b.kind (0 + total pre + b.size) c :=
    placed_around.mpr (Or.inr (Or.inr (Or.inl ⟨rfl, rfl, rfl⟩)))
  have hword := (h.tagged hnext).word_le hgap
  have hbounds := hnext.bounds
  omega

theorem Row.after_extend (h : Row a m row) :
    After (row ++ ext) k q b ↔ After row k q b ∨ Placed .gap (total row) ext k q b := by
  rw [After, placed_append, h.last, Nat.zero_add]

theorem Row.at_extend (h : Row a m row) :
    At (row ++ ext) q b ↔ At row q b ∨ ∃ k, Placed .gap (total row) ext k q b := by
  rw [At, At, ← exists_or]
  exact exists_congr fun k => h.after_extend

theorem Row.extend (h : Row a m row) (hext : Laid (Tagged a) m' .gap (total row) ext)
    (hlast : lastKind .gap ext = .gap) (hbound : total row + total ext ≤ 2 ^ a.bits)
    (hmem : ∀ x < total row, m' x = m x) : Moves a row (row ++ ext) m m' where
  target := by
    refine ⟨laid_append.mpr ⟨laid_iff.mpr fun k q b hb => ?_, ?_⟩, ?_, ?_⟩
    · have htag := h.tagged hb
      have hbounds := hb.bounds
      refine ⟨htag.before, htag.place, htag.size, htag.min, fun hgap => ?_, fun hfree => ?_⟩
      · have hword := htag.word_le hgap
        rw [← htag.head hgap]
        exact load_congr fun x hlow hhigh => hmem x (by omega)
      · have hroom := h.room hb (Or.inr hfree)
        calc load m' (q + b.size) a.word
          _ = load m (q + b.size) a.word := load_congr fun x hlow hhigh => hmem x (by omega)
          _ = b.size := htag.foot hfree
    · rw [h.last, Nat.zero_add]
      exact hext
    · rw [lastKind_append, h.last, hlast]
    · rwa [total_append]
  kept q n hold _ x hlow hhigh := by
    obtain ⟨k, hb⟩ | ⟨k, hb⟩ := hold
    · have hroom := h.room hb (Or.inl rfl)
      exact hmem x (by dsimp only at hroom; omega)
    · have hbounds := hb.bounds
      exact hmem x (by dsimp only at hbounds; omega)
  records q n hold := by
    obtain ⟨k, hb⟩ := hold
    have hbounds := hb.bounds
    exact ⟨h.at_extend.mpr (Or.inl ⟨k, hb⟩), fun x _ hhigh => hmem x (by dsimp only at hbounds; omega)⟩

end Extend

/-! ### Blocks in the place of others -/

section Replace

variable {pre mid mid' post : List (Block Kind)} {t : Nat} {c : Kind}

theorem after_around : After (pre ++ (mid ++ post)) k q b ↔
    Around .gap 0 pre mid post k q b ∨ Placed (lastKind .gap pre) (total pre) mid k q b := by
  rw [After, placed_around, Nat.zero_add]

theorem around_apart (h : Around .gap 0 pre mid post k q ⟨c, n⟩) :
    q + n ≤ total pre ∨ total pre + total mid ≤ q := by
  have hbounds := h.bounds
  rwa [Nat.zero_add] at hbounds

/-- A chunk around `mid` does not begin in it. -/
theorem Row.around_place (h : Row a m (pre ++ (mid ++ post))) (hb : Around .gap 0 pre mid post k q b)
    (hgap : b.kind ≠ .gap) : q < total pre ∨ total pre + total mid ≤ q := by
  have hsize := ((h.tagged (after_around.mpr (Or.inl hb))).size hgap).1
  have hbounds := hb.bounds
  omega

theorem Row.replace (h : Row a m (pre ++ (mid ++ post))) (htotal : total mid' = total mid)
    (hkind : lastKind (lastKind .gap pre) mid' = lastKind (lastKind .gap pre) mid)
    (hmid : Laid (Tagged a) m' (lastKind .gap pre) (total pre) mid')
    (hmem : SameAround a pre mid m m') (hmapped : ∀ c ∈ mid', c.kind ≠ .mapped)
    (hbody : ∀ k q n, Placed (lastKind .gap pre) (total pre) mid' k q ⟨.client, n⟩ →
      Live a (pre ++ (mid ++ post)) q n → SameBody a m m' q n)
    (hrecord : ∀ k q n, Placed (lastKind .gap pre) (total pre) mid k q ⟨.record, n⟩ →
      (∃ k', Placed (lastKind .gap pre) (total pre) mid' k' q ⟨.record, n⟩) ∧
        ∀ x, q + 2 * a.word ≤ x → x < q + n → m' x = m x) :
    Moves a (pre ++ (mid ++ post)) (pre ++ (mid' ++ post)) m m' := by
  have hlaid : Laid (Tagged a) m' .gap 0 (pre ++ (mid' ++ post)) := by
    refine h.laid.replace tagged_local htotal hkind ?_ fun x hx => hmem x ?_
    · rwa [Nat.zero_add]
    · rwa [Nat.zero_add] at hx
  refine ⟨⟨hlaid, ?_, ?_⟩, fun q n hold hnew => ?_, fun q n hold => ?_⟩
  · have hlast := h.last
    rw [lastKind_append, lastKind_append] at hlast ⊢
    rwa [hkind]
  · have hbound := h.bound
    rw [total_append, total_append] at hbound ⊢
    rwa [htotal]
  · have haround : ∀ {k c t}, t ≤ n + a.word → n ≤ t → Around .gap 0 pre mid' post k q ⟨c, t⟩ →
        SameBody a m m' q n := by
      intro k c t ht htn hb x hlow hhigh
      have hapart := around_apart hb
      rw [htotal] at hapart
      exact hmem x (by omega)
    obtain ⟨k, hafter⟩ | ⟨k, hafter⟩ := hnew
    · obtain hb | hplaced := after_around.mp hafter
      · exact haround (by omega) le_rfl hb
      · exact hbody k q n hplaced hold
    · obtain hb | hplaced := after_around.mp hafter
      · exact haround le_rfl (by omega) hb
      · exact absurd rfl (hmapped _ hplaced.mem)
  · obtain ⟨k, hafter⟩ := hold
    obtain hb | hplaced := after_around.mp hafter
    · have hapart := around_apart hb
      exact ⟨⟨k, after_around.mpr (Or.inl ((around_congr htotal hkind).mpr hb))⟩,
        fun x hlow hhigh => hmem x (by omega)⟩
    · obtain ⟨⟨k', hnew⟩, hsame⟩ := hrecord k q _ hplaced
      exact ⟨⟨k', after_around.mpr (Or.inr hnew)⟩, fun x hlow hhigh => hsame x hlow (by omega)⟩

/-- A free chunk is handed out whole: the chunk after it learns that it is in use. -/
theorem Row.use {s : State} (h : Row a s.mem (pre ++ ([⟨.free, n⟩, ⟨c, t⟩] ++ post))) :
    Moves a (pre ++ ([⟨.free, n⟩, ⟨c, t⟩] ++ post)) (pre ++ ([⟨.client, n⟩, ⟨c, t⟩] ++ post)) s.mem
        (s.setInuseAndPinuse a (total pre) n).mem ∧
      SameAround a pre [⟨.free, n⟩, ⟨c, t⟩] s.mem (s.setInuseAndPinuse a (total pre) n).mem := by
  have hfree : After (pre ++ ([⟨.free, n⟩, ⟨c, t⟩] ++ post)) (lastKind .gap pre) (total pre) ⟨.free, n⟩ :=
    after_around.mpr (Or.inr (Or.inl ⟨rfl, rfl, rfl⟩))
  have hnext : After (pre ++ ([⟨.free, n⟩, ⟨c, t⟩] ++ post)) .free (total pre + n) ⟨c, t⟩ :=
    after_around.mpr (Or.inr (Or.inr (Or.inl ⟨rfl, rfl, rfl⟩)))
  have htag := h.tagged hfree
  have htag' := h.tagged hnext
  have hword : 2 * a.word ≤ n := htag.word_le nofun
  have hn8 := mod_eight (htag.size nofun).2
  have hlt := h.size_lt hfree nofun
  have hc := used_of_before htag'.before
  obtain ⟨hflags, hflags', hbefore, hgap, -, hnotfree⟩ := hc.facts
  have hword' : 2 * a.word ≤ t := htag'.word_le hgap
  have ht8 := mod_eight (htag'.size hgap).2
  have hlt' := h.size_lt hnext hgap
  have hnexthead : (s.setSizeAndPinuseOfInuseChunk a (total pre) n).head a (total pre + n) = t + 2 := by
    rw [← hflags]
    exact (load_store_outside (by omega)).trans (htag'.head hgap)
  rw [State.setInuseAndPinuse, State.markPinuse_eq ht8 hnexthead, State.setSizeAndPinuseOfInuseChunk, or_inuse hn8]
  obtain ⟨hthree, -, hclient, -⟩ := (open_of_before htag.before (Or.inl rfl)).facts
  have hfits : Fits a .client (total pre) n := ⟨htag.place nofun, htag.size nofun, fun _ => htag.min nofun nofun⟩
  have hsame : SameAround a pre [⟨.free, n⟩, ⟨c, t⟩] s.mem
      ((s.setHead a (total pre) (n + 3)).setHead a (total pre + n) (t + 3)).mem := by
    intro x hx
    simp only [total_cons, total_nil] at hx
    exact (store_outside (by omega)).trans (store_outside (by omega))
  refine ⟨h.replace rfl rfl ⟨hfits.tagged hclient ?_ nofun, (htag'.fits hgap).tagged hbefore ?_ ?_, trivial⟩ hsame
    (by simp [hc.ne_mapped]) ?_ ?_, hsame⟩
  · rw [hthree]
    exact (load_store_outside (by omega)).trans (load_word (by omega))
  · rw [hflags']
    exact load_word (by omega)
  · exact fun hfree => absurd hfree hnotfree
  · rintro k q n' (⟨-, rfl, -⟩ | ⟨-, hq, heq⟩ | h') hold
    · exact absurd hold (h.not_live hfree nofun nofun nofun)
    · cases heq
      have hq : q = total pre + n := hq
      exact fun x hlow hhigh => (store_outside (by omega)).trans (store_outside (by omega))
    · exact h'.elim
  · rintro k q n' (⟨-, -, heq⟩ | ⟨hk, hq, heq⟩ | h')
    · cases heq
    · have hq' : q = total pre + n := hq
      exact ⟨⟨_, Or.inr (Or.inl ⟨rfl, hq, heq⟩)⟩,
        fun x hlow hhigh => (store_outside (by omega)).trans (store_outside (by omega))⟩
    · exact h'.elim

/-- The first part of a free chunk or of the top chunk is handed out. -/
theorem Row.split {r : Nat} (h : Row a m (pre ++ ([⟨c, n + r⟩] ++ post))) (hc : c = .free ∨ c = .top)
    (hn : Fits a .client (total pre) n) (hr : Fits a c (total pre + n) r)
    (hhead : load m' (total pre + a.word) a.word = n + 3)
    (hrest : load m' (total pre + n + a.word) a.word = r + 1)
    (hfoot : c = .free → load m' (total pre + n + r) a.word = r)
    (hmem : SameAround a pre [⟨c, n + r⟩] m m') :
    Moves a (pre ++ ([⟨c, n + r⟩] ++ post)) (pre ++ ([⟨.client, n⟩, ⟨c, r⟩] ++ post)) m m' := by
  have hwhole : After (pre ++ ([⟨c, n + r⟩] ++ post)) (lastKind .gap pre) (total pre) ⟨c, n + r⟩ :=
    after_around.mpr (Or.inr (Or.inl ⟨rfl, rfl, rfl⟩))
  have htag := h.tagged hwhole
  obtain ⟨hthree, -, hclient, -⟩ := (open_of_before htag.before hc).facts
  have hnotlive : ∀ q, q = total pre → ¬ Live a (pre ++ ([⟨c, n + r⟩] ++ post)) q n := by
    rintro _ rfl
    obtain rfl | rfl := hc <;> exact h.not_live hwhole nofun nofun nofun
  have hbefore : Kind.client.before c = true ∧ Kind.client.flags c = 1 := by
    obtain rfl | rfl := hc <;> decide
  refine h.replace rfl rfl ⟨hn.tagged hclient (hhead.trans (by rw [hthree])) nofun,
    hr.tagged hbefore.1 (hrest.trans (by rw [hbefore.2])) hfoot, trivial⟩ hmem (by obtain rfl | rfl := hc <;> simp)
    ?_ ?_
  · rintro k q n' (⟨-, rfl, heq⟩ | ⟨-, hq, heq⟩ | h') hold
    · cases heq
      exact absurd hold (hnotlive _ rfl)
    · cases heq
      obtain hc | hc := hc <;> cases hc
    · exact h'.elim
  · rintro k q n' (⟨-, -, heq⟩ | h')
    · cases heq
      obtain hc | hc := hc <;> cases hc
    · exact h'.elim

/-- The tags that `set_free_with_pinuse` writes: of a free chunk, and of the chunk in use behind it. -/
theorem State.setFreeWithPinuse_spec {s : State} (hn : n % 8 = 0) (ht : t % 8 = 0) (hword : 2 * a.word ≤ n)
    (hlt : n + 8 ≤ 2 ^ a.bits) (hlt' : t + 8 ≤ 2 ^ a.bits) (hhead : s.head a (p + n) = t + 3) :
    load (s.setFreeWithPinuse a p n (p + n)).mem (p + a.word) a.word = n + 1 ∧
      load (s.setFreeWithPinuse a p n (p + n)).mem (p + n + a.word) a.word = t + 2 ∧
      load (s.setFreeWithPinuse a p n (p + n)).mem (p + n) a.word = n ∧
      ∀ x, x < p + a.word ∨ p + 2 * a.word ≤ x ∧ x < p + n ∨ p + n + 2 * a.word ≤ x →
        (s.setFreeWithPinuse a p n (p + n)).mem x = s.mem x := by
  rw [State.setFreeWithPinuse, State.clearPinuse_eq ht hhead, State.setSizeAndPinuseOfFreeChunk, or_pinuse hn]
  refine ⟨?_, ?_, load_word (by omega), fun x hx => ?_⟩
  · exact (load_store_outside (by omega)).trans (load_word (by omega))
  · exact (load_store_outside (by omega)).trans ((load_store_outside (by omega)).trans (load_word (by omega)))
  · exact (store_outside (by omega)).trans ((store_outside (by omega)).trans (store_outside (by omega)))

/-- Chunks become one free chunk, and the chunk after them learns of it. -/
theorem Row.release {s : State} (h : Row a s.mem (pre ++ ((mid ++ [⟨c, t⟩]) ++ post))) (hc : c.Used)
    (hmid : lastKind (lastKind .gap pre) mid = .client) (hrecord : ∀ b ∈ mid, b.kind ≠ .record)
    (hopen : (lastKind .gap pre).Open) (htotal : total mid = n) (hn : Fits a .free (total pre) n) :
    Moves a (pre ++ ((mid ++ [⟨c, t⟩]) ++ post)) (pre ++ ([⟨.free, n⟩, ⟨c, t⟩] ++ post)) s.mem
        (s.setFreeWithPinuse a (total pre) n (total pre + n)).mem ∧
      SameAround a pre (mid ++ [⟨c, t⟩]) s.mem (s.setFreeWithPinuse a (total pre) n (total pre + n)).mem := by
  subst htotal
  have hnext : After (pre ++ ((mid ++ [⟨c, t⟩]) ++ post)) .client (total pre + total mid) ⟨c, t⟩ :=
    after_around.mpr (Or.inr (placed_append.mpr (Or.inr (Or.inl ⟨hmid.symm, rfl, rfl⟩))))
  have htag' := h.tagged hnext
  obtain ⟨hflags, hflags', -, hgap, -, hnotfree⟩ := hc.facts
  have hword : 2 * a.word ≤ total mid := by
    have hmin := hn.min nofun
    rw [minChunkSize] at hmin
    omega
  have hword' : 2 * a.word ≤ t := htag'.word_le hgap
  have hn8 := mod_eight hn.size.2
  have ht8 := mod_eight (htag'.size hgap).2
  have hlt' : t + 8 ≤ 2 ^ a.bits := h.size_lt hnext hgap
  have hlt : total mid + 8 ≤ 2 ^ a.bits := by
    have hplace := mod_eight hn.place.2
    have hpos := hn.place.1
    have hbound := h.bound
    simp only [total_append] at hbound
    omega
  have hnexthead : s.head a (total pre + total mid) = t + 3 := by
    rw [← hflags']
    exact htag'.head hgap
  obtain ⟨hhead, hnewhead, hfoot, hbody⟩ := State.setFreeWithPinuse_spec hn8 ht8 hword hlt hlt' hnexthead
  generalize (s.setFreeWithPinuse a (total pre) (total mid) (total pre + total mid)).mem = M at *
  have hlaid : Laid (Tagged a) M (lastKind .gap pre) (total pre) [⟨.free, total mid⟩, ⟨c, t⟩] := by
    refine ⟨hn.tagged hopen.facts.2.2.2.2.1 hhead fun _ => hfoot, (htag'.fits hgap).tagged ?_ ?_ ?_, trivial⟩
    · obtain rfl | rfl := hc <;> rfl
    · rw [hflags]
      exact hnewhead
    · exact fun hfree => absurd hfree hnotfree
  have hsame : SameAround a pre (mid ++ [⟨c, t⟩]) s.mem M := by
    intro x hx
    simp only [total_append, total_cons, total_nil] at hx
    exact hbody x (by omega)
  refine ⟨h.replace (by simp) (by simp) hlaid hsame (by simp [hc.ne_mapped]) ?_ ?_, hsame⟩
  · rintro k q n' (⟨-, -, heq⟩ | ⟨-, hq, heq⟩ | h') hold
    · cases heq
    · cases heq
      have hq : q = total pre + total mid := hq
      exact fun x hlow hhigh => hbody x (by omega)
    · exact h'.elim
  · intro k q n' hplaced
    obtain hplaced | ⟨-, hq, heq⟩ | h' := placed_append.mp hplaced
    · exact absurd rfl (hrecord _ hplaced.mem)
    · exact ⟨⟨_, Or.inr (Or.inl ⟨rfl, hq, heq⟩)⟩, fun x hlow hhigh => hbody x (by omega)⟩
    · exact h'.elim

/-- Chunks that end with a free one, or with the top chunk, become one. -/
theorem Row.merge (h : Row a m (pre ++ (mid ++ post))) (hc : c = .free ∨ c = .top)
    (hmid : lastKind (lastKind .gap pre) mid = c) (hrecord : ∀ b ∈ mid, b.kind ≠ .record)
    (hopen : (lastKind .gap pre).Open) (htotal : total mid = n) (hn : Fits a c (total pre) n)
    (hhead : load m' (total pre + a.word) a.word = n + 1)
    (hfoot : c = .free → load m' (total pre + n) a.word = n)
    (hmem : SameAround a pre mid m m') :
    Moves a (pre ++ (mid ++ post)) (pre ++ ([⟨c, n⟩] ++ post)) m m' := by
  subst htotal
  have hkind : (lastKind .gap pre).before c = true ∧ (lastKind .gap pre).flags c = 1 ∧ c ≠ .client ∧ c ≠ .mapped := by
    obtain ⟨-, -, -, -, hfree, htop⟩ := hopen.facts
    obtain rfl | rfl := hc
    · exact ⟨hfree, rfl, nofun, nofun⟩
    · exact ⟨htop, rfl, nofun, nofun⟩
  refine h.replace (by simp) (by simp [hmid]) ⟨hn.tagged hkind.1 (hhead.trans (by rw [hkind.2.1])) hfoot, trivial⟩
    hmem (by simpa using hkind.2.2.2) ?_ fun k q n' hplaced => absurd rfl (hrecord _ hplaced.mem)
  rintro k q n' (⟨-, -, heq⟩ | h') hold
  · cases heq
    exact absurd rfl hkind.2.2.1
  · exact h'.elim

end Replace

end Kiznix.Malloc
