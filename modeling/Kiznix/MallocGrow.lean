import Kiznix.MallocAlloc
import Kiznix.MallocRecords

/-! Memory from the system: chunks of their own, the first segment, and more of a segment. -/

namespace Kiznix.Malloc

open ByteMemory BlockRow
open Switch (Arch)

variable {a : Arch} {m m' : State} {row row' : List (Block Kind)} {k : Kind}
  {p q n r s t nb mem unit c base len stop : Nat}

/-! ### Sizes of requests -/

/-- A size that is rounded up and no smaller than the request has not wrapped around. -/
theorem alignSize_of_lt (hunit : 0 < unit) (hc : 2 * c + unit ≤ 2 ^ a.bits) (hnb : nb < 2 ^ a.bits)
    (hlt : nb < alignSize a unit (sizeAdd a nb c)) :
    nb + c ≤ alignSize a unit (sizeAdd a nb c) ∧ alignSize a unit (sizeAdd a nb c) < nb + c + unit := by
  rw [alignSize, sizeAdd, sizeAdd] at hlt ⊢
  have hround : ∀ x, (x + (unit - 1)) / unit * unit ≤ x + (unit - 1) ∧ x ≤ (x + (unit - 1)) / unit * unit := by
    intro x
    have hdiv := Nat.div_add_mod (x + (unit - 1)) unit
    have hmod := Nat.mod_lt (x + (unit - 1)) hunit
    rw [Nat.mul_comm] at hdiv
    omega
  by_cases hwrap : nb + c < 2 ^ a.bits
  · rw [Nat.mod_eq_of_lt hwrap] at hlt ⊢
    by_cases hwrap' : nb + c + (unit - 1) < 2 ^ a.bits
    · rw [Nat.mod_eq_of_lt hwrap'] at hlt ⊢
      have hbounds := hround (nb + c)
      omega
    · have hsmall : (nb + c + (unit - 1)) % 2 ^ a.bits < unit := by
        rw [Nat.mod_eq_sub_mod (by omega), Nat.mod_eq_of_lt (by omega)]
        omega
      rw [Nat.div_eq_of_lt hsmall] at hlt
      omega
  · exfalso
    have hsum : (nb + c) % 2 ^ a.bits = nb + c - 2 ^ a.bits := by
      rw [Nat.mod_eq_sub_mod (by omega), Nat.mod_eq_of_lt (by omega)]
    have hbounds := hround (nb + c - 2 ^ a.bits)
    rw [hsum, Nat.mod_eq_of_lt (show nb + c - 2 ^ a.bits + (unit - 1) < 2 ^ a.bits by omega)] at hlt
    omega

theorem alignSize_mod : alignSize a unit n % unit = 0 := Nat.mul_mod_left _ _

/-! ### Answers of `mmap` -/

/-- `mmap` answers with pages behind all that it has handed out before. -/
structure Fresh (a : Arch) (row : List (Block Kind)) (stop base len : Nat) : Prop where
  aligned : base % pageSize = 0
  pos : 0 < base
  behind : total row ≤ base
  within : base + len ≤ stop
  bound : stop < 2 ^ a.bits

theorem Fresh.fits (h : Fresh a row stop base len) : base + len < 2 ^ a.bits := h.within.trans_lt h.bound

theorem Fresh.place (h : Fresh a row stop base len) : 0 < base ∧ base % mallocAlignment a = 0 := by
  have haligned := h.aligned
  rw [pageSize] at haligned
  rw [alignment_eq]
  refine ⟨h.pos, ?_⟩
  obtain hw | hw := word_cases a <;> rw [hw] <;> omega

theorem alignOffset_eq_zero (hp : p % mallocAlignment a = 0) : alignOffset a (chunk2mem a p) = 0 := by
  have hmem : chunk2mem a p % mallocAlignment a = 0 := by
    rw [chunk2mem, ← alignment_eq, Nat.add_mod_right, hp]
  rw [alignOffset, hmem, Nat.sub_zero, Nat.mod_self]

theorem mod_alignment (hn : n % unit = 0) (hunit : 2 * 8 ∣ unit) : n % mallocAlignment a = 0 := by
  have hdvd := hunit.trans (Nat.dvd_of_mod_eq_zero hn)
  rw [alignment_eq]
  obtain hw | hw := word_cases a <;> rw [hw] <;> omega

/-- More memory, from which no client has got a chunk yet. -/
structure Grows (a : Arch) (m : State) (row : List (Block Kind)) (stop : Nat) (m' : State)
    (row' : List (Block Kind)) : Prop where
  inv : Inv a m' row'
  moves : Moves a row row' m.mem m'.mem
  live : ∀ q n, Live a row' q n ↔ Live a row q n
  within : total row' ≤ stop

theorem Grows.allocates {m'' : State} (h : Grows a m row stop m' row') (h' : Allocates a m' row' stop nb m'' mem) :
    Allocates a m row stop nb m'' mem := by
  obtain ⟨row'', p, n, hgives⟩ := h'
  refine ⟨row'', p, n, hgives.mem, hgives.enough, hgives.inv, h.moves.trans hgives.moves fun q t hold _ =>
    (h.live q t).mpr hold, fun t ht => hgives.fresh t ((h.live p t).mpr ht), fun q t => ?_, ?_⟩
  · rw [hgives.live, h.live]
  · have hwithin : total row' ≤ max (total row) stop := h.within.trans (le_max_right _ _)
    calc total row'' ≤ max (total row') stop := hgives.within
      _ ≤ max (total row) stop := max_le hwithin (le_max_right _ _)

/-! ### A chunk of its own -/

/-- The memory of a chunk that `mmap_alloc` has made. -/
def mappedMemory (a : Arch) (m : Memory) (base psize : Nat) : Memory :=
  store (store (store (store m base a.word 0) (base + a.word) a.word psize) (base + psize + a.word) a.word
    (fencepostHead a)) (base + psize + a.word + a.word) a.word 0

theorem mappedMemory_below {M : Memory} {x psize : Nat} (hx : x < base) : mappedMemory a M base psize x = M x :=
  (store_outside (by omega)).trans ((store_outside (by omega)).trans
    ((store_outside (by omega)).trans (store_outside (by omega))))

theorem mappedMemory_head {M : Memory} {psize : Nat} (hword : a.word ≤ psize) (hpsize : psize < 2 ^ a.bits) :
    load (mappedMemory a M base psize) (base + a.word) a.word = psize := by
  rw [pow_bits] at hpsize
  exact (load_store_outside (by omega)).trans ((load_store_outside (by omega)).trans (load_store_of_lt hpsize))

theorem mmapAlloc_eq {mmap : Mmap} (hlt : nb < mmapSize a nb) (hanswer : mmap (mmapSize a nb) = some base)
    (hplace : base % mallocAlignment a = 0) :
    mmapAlloc a m mmap nb = ({ m with
      mem := mappedMemory a m.mem base (mmapSize a nb - 4 * a.word)
      leastAddr := if m.leastAddr = 0 ∨ base < m.leastAddr then base else m.leastAddr }, chunk2mem a base) := by
  rw [Malloc.mmapAlloc, if_pos hlt, hanswer]
  dsimp only
  rw [alignOffset_eq_zero hplace]
  rfl

theorem Inv.mmapAlloc (h : Inv a m row) (hinit : m.top ≠ 0) (hnb : ChunkSize a nb) (hbits : nb < 2 ^ a.bits)
    {mmap : Mmap} (hmmap : ∀ base, mmap (mmapSize a nb) = some base → Fresh a row stop base (mmapSize a nb)) :
    (mmapAlloc a m mmap nb = (m, 0)) ∨
      Allocates a m row stop nb (mmapAlloc a m mmap nb).1 (mmapAlloc a m mmap nb).2 := by
  by_cases hlt : nb < mmapSize a nb
  case neg =>
    left
    rw [Malloc.mmapAlloc, if_neg hlt]
  cases hanswer : mmap (mmapSize a nb) with
  | none =>
      left
      rw [Malloc.mmapAlloc, if_pos hlt, hanswer]
  | some base =>
      right
      have hfresh := hmmap base hanswer
      obtain ⟨hpos, hplace⟩ := hfresh.place
      have hbehind := hfresh.behind
      have hfits := hfresh.fits
      have hword := word_cases a
      have hpos' := hnb.pos
      have hroom : nb + 8 * a.word - 1 ≤ mmapSize a nb := by
        have hsize := (alignSize_of_lt (show 0 < pageSize by decide) (by cases a <;> decide) hbits hlt).1
        rw [alignment_eq] at hsize
        rw [mmapSize, alignment_eq]
        omega
      have hmod : mmapSize a nb % mallocAlignment a = 0 := mod_alignment alignSize_mod (by decide)
      rw [mmapAlloc_eq hlt hanswer hplace]
      generalize mmapSize a nb = len at *
      obtain ⟨n, rfl⟩ : ∃ n, len = n + 5 * a.word := ⟨len - 5 * a.word, by omega⟩
      obtain ⟨gap, rfl⟩ := Nat.exists_eq_add_of_le hbehind
      rw [alignment_eq] at hmod
      rw [show n + 5 * a.word - 4 * a.word = n + a.word by omega]
      have hfit : Fits a .mapped (total row + gap) (n + a.word) := by
        refine ⟨⟨hpos, hplace⟩, ⟨by omega, ?_⟩, fun _ => ?_⟩
        · rw [alignment_eq]
          obtain hw | hw := hword <;> rw [hw] at hmod ⊢ <;> omega
        · rw [minChunkSize]
          omega
      have hbelow : ∀ x < total row, mappedMemory a m.mem (total row + gap) (n + a.word) x = m.mem x := fun x hx =>
        mappedMemory_below (by omega)
      have hmoves : Moves a row (row ++ [⟨.gap, gap⟩, ⟨.mapped, n + a.word⟩, ⟨.gap, 4 * a.word⟩]) m.mem
          (mappedMemory a m.mem (total row + gap) (n + a.word)) := by
        refine h.laid.extend ⟨tagged_gap rfl, hfit.tagged rfl ?_ (by simp), tagged_gap rfl, trivial⟩ rfl ?_ hbelow
        · exact mappedMemory_head (by omega) (by omega)
        · simp only [total_cons, total_nil]
          omega
      have hat : ∀ q b, At (row ++ [⟨.gap, gap⟩, ⟨.mapped, n + a.word⟩, ⟨.gap, 4 * a.word⟩]) q b ↔ At row q b ∨
          (q = total row ∧ b = ⟨.gap, gap⟩) ∨ (q = total row + gap ∧ b = ⟨.mapped, n + a.word⟩) ∨
          (q = total row + gap + (n + a.word) ∧ b = ⟨.gap, 4 * a.word⟩) := by
        intro q b
        rw [h.laid.at_extend, exists_placed_cons, exists_placed_cons, exists_placed_cons,
          or_iff_left (b := ∃ k, Placed _ _ [] k q b) exists_placed_nil]
      have hstarted := h.started hinit
      have hwithin := hfresh.within
      have hroom' := h.room
      obtain ⟨seg, hrecorded, hsegments⟩ := h.segments
      obtain ⟨bins, hstocked, hbinned⟩ := h.stored
      refine ⟨_, total row + gap, n, rfl, by omega, ⟨⟨hmoves.target, fun q t => ?_, fun hzero => absurd hzero hinit,
        fun q b hb hgap => ?_, fun q b hb hgap => ?_, ?_, fun _ => ?_, seg, ?_, hsegments.extend h.laid⟩, bins,
        hstocked.congr fun q t => ?_, h.binned_below hstocked (fun _ _ hq => hq) hbinned hbelow rfl rfl rfl⟩, hmoves,
        fun t hlive => ?_, fun q t => ?_, by simp only [total_append, total_cons, total_nil]; omega⟩
      · rw [hat, ← h.top]
        simp
      · dsimp only
        obtain hb | ⟨-, rfl⟩ | ⟨rfl, rfl⟩ | ⟨-, rfl⟩ := (hat q b).mp hb
        · have hleast := h.least q b hb hgap
          split <;> omega
        · exact absurd rfl hgap
        · split <;> omega
        · exact absurd rfl hgap
      · obtain hb | ⟨-, rfl⟩ | ⟨rfl, rfl⟩ | ⟨-, rfl⟩ := (hat q b).mp hb
        · exact h.outside q b hb hgap
        · exact absurd rfl hgap
        · exact hroom'.trans (Nat.le_add_right _ _)
        · exact absurd rfl hgap
      · rw [total_append]
        exact hroom'.trans (Nat.le_add_right _ _)
      · dsimp only
        split <;> omega
      · exact hrecorded.congr rfl Iff.rfl (fun x _ hx => hbelow x (by omega)) hmoves.records
      · rw [hat]
        simp
      · obtain ⟨k, hb⟩ | ⟨k, hb⟩ := hlive
        · have hbounds := hb.bounds
          have hsize := ((h.laid.tagged hb).size (by simp)).1
          dsimp only at hbounds hsize
          omega
        · have hbounds := hb.bounds
          dsimp only at hbounds
          omega
      · simp only [Live, hat, Block.mk.injEq, reduceCtorEq, false_and, and_false, or_false, false_or, true_and]
        rw [or_assoc, Nat.add_right_cancel_iff]

/-! ### A new top chunk -/

theorem initTop_eq (hp : p % mallocAlignment a = 0) : initTop a m p n =
    { m with
      mem := store (store m.mem (p + a.word) a.word (n ||| pinuseBit)) (p + n + a.word) a.word (topFootSize a)
      top := p
      topsize := n
      trimCheck := trimThreshold } := by
  rw [initTop, alignOffset_eq_zero hp]
  rfl

/-- The blocks of new memory that is `gap` bytes behind the row. -/
def topBlocks (a : Arch) (gap n : Nat) : List (Block Kind) := [⟨.gap, gap⟩, ⟨.top, n⟩, ⟨.gap, topFootSize a⟩]

theorem Row.newTop {M : Memory} {gap : Nat} (h : Row a M row) (hfit : Fits a .top (total row + gap) n)
    (hbound : total row + gap + n + topFootSize a ≤ 2 ^ a.bits) :
    Moves a row (row ++ topBlocks a gap n) M
      (store (store M (total row + gap + a.word) a.word (n ||| pinuseBit)) (total row + gap + n + a.word) a.word
        (topFootSize a)) := by
  have hword := word_cases a
  have hsize := hfit.size
  have hn8 := mod_eight hsize.2
  rw [alignment_eq] at hsize
  have hn : 2 * a.word ≤ n := Nat.le_of_dvd hsize.1 (Nat.dvd_of_mod_eq_zero hsize.2)
  rw [topFootSize_eq] at hbound ⊢
  rw [or_pinuse hn8, topBlocks]
  refine h.extend ⟨tagged_gap rfl, hfit.tagged rfl ?_ nofun, tagged_gap rfl, trivial⟩ rfl ?_ fun x hx => ?_
  · exact (load_store_outside (by omega)).trans (load_word (by omega))
  · simp only [total_cons, total_nil, topFootSize_eq]
    omega
  · exact (store_outside (by omega)).trans (store_outside (by omega))

theorem Row.at_topBlocks {M : Memory} {gap : Nat} {b : Block Kind} (h : Row a M row) (hb : b.kind ≠ .gap) :
    At (row ++ topBlocks a gap n) q b ↔ At row q b ∨ (q = total row + gap ∧ b = ⟨.top, n⟩) := by
  rw [h.at_extend, topBlocks, exists_placed_cons, exists_placed_cons, exists_placed_cons,
    or_iff_left (b := ∃ k, Placed _ _ [] k q b) exists_placed_nil]
  have hgap : ∀ t, b ≠ ⟨.gap, t⟩ := fun t heq => hb (heq ▸ rfl)
  simp [hgap]

theorem Row.live_topBlocks {M : Memory} {gap : Nat} (h : Row a M row) :
    Live a (row ++ topBlocks a gap n) q t ↔ Live a row q t := by
  have hclient : (⟨.client, t⟩ : Block Kind).kind ≠ .gap := nofun
  have hmapped : (⟨.mapped, t + a.word⟩ : Block Kind).kind ≠ .gap := nofun
  rw [Live, Live, h.at_topBlocks hclient, h.at_topBlocks hmapped]
  simp

theorem Row.after_topBlocks {M : Memory} {gap : Nat} (h : Row a M row) :
    After (row ++ topBlocks a gap n) .gap (total row + gap) ⟨.top, n⟩ :=
  h.after_extend.mpr (Or.inr (Or.inr (Or.inl ⟨rfl, rfl, rfl⟩)))

theorem Row.foot_topBlocks {M : Memory} {gap : Nat} (h : Row a M row) :
    After (row ++ topBlocks a gap n) .top (total row + gap + n) ⟨.gap, topFootSize a⟩ :=
  h.after_extend.mpr (Or.inr (Or.inr (Or.inr (Or.inl ⟨rfl, rfl, rfl⟩))))

theorem total_topBlocks {gap : Nat} : total (topBlocks a gap n) = gap + n + topFootSize a := by
  simp only [topBlocks, total_cons, total_nil]
  omega


/-! ### The first segment -/

/-- A length of memory for a request: whole units, and more than the segment itself takes. -/
structure Length (a : Arch) (len : Nat) : Prop where
  units : len % granularity = 0
  large : granularity ≤ len

theorem Length.fits (h : Length a len) (hp : 0 < p ∧ p % mallocAlignment a = 0) :
    Fits a .top p (len - topFootSize a) := by
  have hunits := h.units
  have hlarge := h.large
  rw [granularity] at hunits hlarge
  rw [topFootSize_eq]
  refine ⟨hp, ?_, fun hne => absurd rfl hne⟩
  rw [alignment_eq]
  obtain hw | hw := word_cases a <;> rw [hw] <;> omega

theorem Length.top_add (h : Length a len) : len - topFootSize a + topFootSize a = len := by
  have hlarge := h.large
  rw [granularity] at hlarge
  rw [topFootSize_eq]
  obtain hw | hw := word_cases a <;> rw [hw] <;> omega

/-- What is written to `_gm_` is no matter of the row. -/
theorem Layout.moves_low {M : Memory} (h : Layout a m row) (hmem : ∀ x, m.gm + gmSize a ≤ x → M x = m.mem x) :
    Moves a row row m.mem M :=
  h.laid.idle h.outside fun x hx _ => hmem x hx

/-- Empty bins, whose rings may be set up at any time. -/
theorem Binned.bare {bins : Bins} (h : Binned a m bins) (hok : bins.Ok) (hnone : ∀ q n, ¬ bins.Holds q n)
    (hgm : m'.gm = m.gm) (hsmall : m'.smallmap = m.smallmap) (htree : m'.treemap = m.treemap)
    (hroots : ∀ x, m.gm + treebinsOffset a ≤ x → x < m.gm + segOffset a → m'.mem x = m.mem x) : Binned a m' bins where
  smallmap := hsmall.trans h.smallmap
  treemap := htree.trans h.treemap
  linked :=
    { small := fun i hi => by
        obtain ⟨x, hx⟩ := List.exists_mem_of_ne_nil _ hi
        exact absurd (hok.small_holds hx).1 (hnone _ _)
      tree := fun i hi => by
        rw [hgm]
        have hold := h.linked.tree i hi
        have hnil : bins.treebins i = .nil := by
          cases hT : bins.treebins i with
          | nil => rfl
          | node t x others left right =>
              obtain ⟨t, hheld, -⟩ := hok.tree_holds (i := i) (x := x) (hT ▸ List.mem_cons_self)
              exact absurd hheld (hnone _ _)
        have hword := word_cases a
        have hmul : i * a.word + a.word ≤ 32 * a.word := by
          rw [← Nat.succ_mul]
          exact Nat.mul_le_mul_right _ hi
        have hroot : m'.get a (m.gm + treebinsOffset a + i * a.word) .root =
            m.get a (m.gm + treebinsOffset a + i * a.word) .root := load_congr fun x hlow hhigh => by
          rw [Field.offset] at hlow
          rw [Field.offset, Field.size] at hhigh
          exact hroots x (by omega) (by rw [segOffset]; omega)
        rw [hnil] at hold ⊢
        exact hroot.trans hold
      index := fun i x hx => by
        obtain ⟨t, hheld, -⟩ := hok.tree_holds hx
        exact absurd hheld (hnone _ _) }

theorem initBins_eq (hn : n ≤ 32) : ∃ M, initBins a n m = { m with mem := M } ∧
    ∀ x, x < m.gm + smallbinsOffset a ∨ m.gm + treebinsOffset a ≤ x → M x = m.mem x := by
  induction n with
  | zero => exact ⟨m.mem, rfl, fun _ _ => rfl⟩
  | succ n ih =>
      obtain ⟨M, heq, hM⟩ := ih (by omega)
      have hmul : n * a.word ≤ 31 * a.word := Nat.mul_le_mul_right _ (by omega)
      refine ⟨_, by rw [initBins, heq]; rfl, fun x hx => ?_⟩
      rw [treebinsOffset] at hx
      refine (store_outside ?_).trans ((store_outside ?_).trans (hM x hx)) <;>
        rw [State.smallbinAt, Field.offset, Field.size, Nat.mul_assoc] <;> dsimp only <;> omega

/-- The state of the first segment, but for its top chunk. -/
theorem useMemory_first (hbare : m.top = 0) (hnext : (m.segment a (m.seg a)).next = 0) (hbase : base < 2 ^ a.bits)
    (hlen : len < 2 ^ a.bits) : ∃ m₁ : State,
      useMemory a m base len nb = some (initTop a m₁ base (len - topFootSize a), 0) ∧ m₁ = { m with
        mem := m₁.mem
        leastAddr := if m.leastAddr = 0 ∨ base < m.leastAddr then base else m.leastAddr
        releaseChecks := maxReleaseCheckRate } ∧
      m₁.segment a (m.seg a) = { base := base, size := len, next := 0, sflags := useMmapBit } ∧
      (∀ x, m.gm + gmSize a ≤ x → m₁.mem x = m.mem x) ∧
      ∀ x, m.gm + treebinsOffset a ≤ x → x < m.gm + segOffset a → m₁.mem x = m.mem x := by
  have hword := word_cases a
  have hsize : treebinsOffset a ≤ segOffset a ∧ segOffset a ≤ gmSize a := by
    rw [gmSize, segOffset]
    omega
  obtain ⟨-, hplace, hend⟩ := State.seg_bounds (a := a) (s := m)
  have hfits : Segment.Fits a ⟨base, len, 0, useMmapBit⟩ := ⟨hbase, hlen, Nat.two_pow_pos _, by
    dsimp only
    decide⟩
  generalize hleast : (if m.leastAddr = 0 ∨ base < m.leastAddr then base else m.leastAddr) = leastAddr
  obtain ⟨M, heq, hM⟩ : ∃ M, initBins a 32 { m with
      mem := (m.setSegment a (m.seg a) ⟨base, len, 0, useMmapBit⟩).mem
      leastAddr := leastAddr
      releaseChecks := maxReleaseCheckRate } = { m with
        mem := M
        leastAddr := leastAddr
        releaseChecks := maxReleaseCheckRate } ∧
      ∀ x, x < m.gm + smallbinsOffset a ∨ m.gm + treebinsOffset a ≤ x →
        M x = (m.setSegment a (m.seg a) ⟨base, len, 0, useMmapBit⟩).mem x := initBins_eq le_rfl
  have hout : ∀ x, m.gm + treebinsOffset a ≤ x → x < m.seg a ∨ m.seg a + 3 * a.word + 4 ≤ x → M x = m.mem x :=
    fun x hx hseg => calc M x
      _ = (m.setSegment a (m.seg a) ⟨base, len, 0, useMmapBit⟩).mem x := hM x (Or.inr hx)
      _ = m.mem x := State.setSegment_mem hseg
  refine ⟨{ m with mem := M, leastAddr := leastAddr, releaseChecks := maxReleaseCheckRate }, ?_, rfl, ?_,
    fun x hx => hout x (by omega) (by omega), fun x hlow hx => hout x hlow (by omega)⟩
  · rw [← hnext] at heq
    rw [← heq, ← hleast, useMemory, if_pos hbare]
    rfl
  · have hset : (m.setSegment a (m.seg a) ⟨base, len, 0, useMmapBit⟩).segment a (m.seg a) = _ :=
      State.segment_setSegment hfits
    rw [← hset]
    exact State.segment_congr fun x hlow _ => hM x (Or.inr (by omega))

theorem Inv.firstSegment (h : Inv a m row) (hbare : m.top = 0) (hfresh : Fresh a row stop base len)
    (hlen : Length a len) :
    ∃ m' row', useMemory a m base len nb = some (m', 0) ∧ Grows a m row stop m' row' ∧
      len - topFootSize a ≤ m'.topsize := by
  obtain ⟨hpos, hplace⟩ := hfresh.place
  have hfits := hfresh.fits
  have hfit := hlen.fits ⟨hpos, hplace⟩
  have hadd := hlen.top_add
  have hroom := h.room
  have hbehind := hfresh.behind
  obtain ⟨-, hgap⟩ := h.bare hbare
  obtain ⟨seg, hrecorded, -⟩ := h.segments
  rw [Recorded, if_pos hbare] at hrecorded
  have hlen' : len < 2 ^ a.bits := by omega
  have hbase : base < 2 ^ a.bits := by omega
  obtain ⟨m₁, heq, hrest, hsegment, hhigh, hroots⟩ := useMemory_first hbare hrecorded.2 hbase hlen'
  rw [heq, initTop_eq hplace]
  have hidle := h.moves_low hhigh
  obtain ⟨gap, rfl⟩ := Nat.exists_eq_add_of_le hbehind
  have hmoves := hidle.trans (hidle.target.newTop hfit (by omega)) fun _ _ hold _ => hold
  have hat : ∀ q b, b.kind ≠ .gap → (At (row ++ topBlocks a gap (len - topFootSize a)) q b ↔
      At row q b ∨ (q = total row + gap ∧ b = ⟨.top, len - topFootSize a⟩)) := fun q b hb => h.laid.at_topBlocks hb
  have hword := word_cases a
  have hseg : m.seg a + 3 * a.word + 4 ≤ m.gm + gmSize a := State.seg_bounds.2.2
  have hgm : m₁.gm = m.gm := by rw [hrest]
  obtain ⟨bins, hstocked, hbinned⟩ := h.stored
  have hnone : ∀ q n, ¬ bins.Holds q n := fun q n hq => by
    cases hgap q _ ((hstocked.holds q n).mp hq).1
  have hF : topFootSize a = 10 * a.word := topFootSize_eq a
  refine ⟨_, row ++ topBlocks a gap (len - topFootSize a), rfl, ⟨⟨⟨hmoves.target, fun q t => ?_, fun hzero =>
    absurd hzero hpos.ne', fun q b hb hkind => ?_, fun q b hb hkind => ?_, ?_, fun _ => ?_,
    [⟨total row + gap, len, 0, useMmapBit⟩], ?_, ?_⟩, bins, ?_, ?_⟩, hmoves, fun q t => h.laid.live_topBlocks, ?_⟩, le_rfl⟩
  · rw [hat q ⟨.top, t⟩ (by simp), h.top, or_iff_right fun hold => hold.1 hbare]
    constructor
    · rintro ⟨hq, heq⟩
      exact ⟨hpos.ne', hq, congrArg Block.size heq⟩
    · rintro ⟨-, hq, ht⟩
      exact ⟨hq, by rw [ht]⟩
  · rw [hrest]
    obtain hb | ⟨rfl, -⟩ := (hat q b hkind).mp hb
    · exact absurd (hgap q b hb) hkind
    · dsimp only
      split <;> omega
  · rw [hrest]
    obtain hb | ⟨rfl, -⟩ := (hat q b hkind).mp hb
    · exact absurd (hgap q b hb) hkind
    · exact hroom.trans (Nat.le_add_right _ _)
  · rw [hrest, total_append]
    exact hroom.trans (Nat.le_add_right _ _)
  · rw [hrest]
    dsimp only
    split <;> omega
  · refine Recorded.intro hpos.ne' ?_ rfl rfl
    have hseg' : m₁.seg a = m.seg a := by rw [State.seg, hgm, State.seg]
    rw [← hsegment, ← hseg']
    refine State.segment_congr fun x _ hx => ?_
    have hx : x < m₁.seg a + 3 * a.word + 4 := hx
    exact (store_outside (by omega)).trans (store_outside (by omega))
  · have hone : ∀ sp ∈ [(⟨total row + gap, len, 0, useMmapBit⟩ : Segment)], sp = ⟨total row + gap, len, 0, useMmapBit⟩ :=
      fun sp => List.mem_singleton.mp
    refine ⟨fun sp hsp => ?_, fun sp hsp => ?_, fun sp hsp => ?_, List.pairwise_singleton _ _,
      fun _ => ⟨_, [], rfl, le_rfl, by dsimp only; omega⟩, fun _ => ?_⟩
    · rw [hone sp hsp]
      exact ⟨_, h.laid.after_topBlocks, by simp, by simp⟩
    · rw [hone sp hsp]
      exact hlen.large
    · rw [hone sp hsp, total_append, total_topBlocks]
      dsimp only
      omega
    · exact h.laid.foot_topBlocks
  · rw [hrest]
    refine hstocked.congr fun q t => ?_
    rw [hat q ⟨.free, t⟩ (by simp)]
    simp
  · refine hbinned.bare hstocked.ok hnone hgm (by rw [hrest]) (by rw [hrest]) fun x hlow hx => ?_
    have hsize : segOffset a ≤ gmSize a := Nat.le_add_right _ _
    exact ((store_outside (by omega)).trans (store_outside (by omega))).trans (hroots x hlow hx)
  · have hwithin := hfresh.within
    rw [total_append, total_topBlocks]
    omega

/-! ### More of the first segment -/

theorem at_append {pre post : List (Block Kind)} {b : Block Kind} : At (pre ++ post) q b ↔
    At pre q b ∨ ∃ k, Placed (lastKind .gap pre) (total pre) post k q b := by
  rw [At, At, ← exists_or]
  exact exists_congr fun k => by rw [After, placed_append, Nat.zero_add]

/-- Blocks without bytes are gaps. -/
theorem Row.gap_of_total {M : Memory} {pre post : List (Block Kind)} {b : Block Kind} (h : Row a M (pre ++ post))
    (hpost : total post = 0) (hb : Placed (lastKind .gap pre) (total pre) post k q b) : b.kind = .gap := by
  by_contra hgap
  have hafter : After (pre ++ post) k q b := placed_append.mpr (Or.inr (by rwa [Nat.zero_add]))
  have hsize := ((h.tagged hafter).size hgap).1
  have hbounds := hb.bounds
  omega

/-- The blocks before the top chunk, the top chunk, and nothing that is no gap behind it. -/
theorem Row.at_last {M : Memory} {pre post : List (Block Kind)} {b : Block Kind}
    (h : Row a M (pre ++ ([⟨.top, n⟩, ⟨.gap, t⟩] ++ post))) (hpost : total post = 0) (hb : b.kind ≠ .gap) :
    At (pre ++ ([⟨.top, n⟩, ⟨.gap, t⟩] ++ post)) q b ↔ At pre q b ∨ (q = total pre ∧ b = ⟨.top, n⟩) := by
  have hgap : ∀ t, b ≠ ⟨.gap, t⟩ := fun t heq => hb (heq ▸ rfl)
  have hnone : ¬ ∃ k, Placed .gap (total pre + n + t) post k q b := by
    rintro ⟨k, hk⟩
    have hrow : Row a M ((pre ++ [⟨.top, n⟩, ⟨.gap, t⟩]) ++ post) := by rwa [List.append_assoc]
    refine hb (hrow.gap_of_total hpost (k := k) (q := q) ?_)
    rw [lastKind_append, total_append]
    simpa [← Nat.add_assoc] using hk
  rw [at_append, List.cons_append, exists_placed_cons, List.cons_append, exists_placed_cons, List.nil_append,
    or_iff_left hnone]
  simp [hgap]

section Extend

variable {pre post : List (Block Kind)} {M : Memory} (h : Row a M row)
  (hrow : row = pre ++ ([⟨.top, n⟩, ⟨.gap, topFootSize a⟩] ++ post)) (hpost : total post = 0)

include h hrow hpost

/-- The top chunk takes in the new memory. -/
theorem Row.moreTop (hfit : Fits a .top (total pre) (n + len)) (hlarge : 2 * a.word ≤ n + len)
    (hbound : total row + len ≤ 2 ^ a.bits) :
    Moves a row (pre ++ ([⟨.top, n + len⟩, ⟨.gap, topFootSize a⟩] ++ [])) M
      (store (store M (total pre + a.word) a.word (n + len + 1)) (total pre + (n + len) + a.word) a.word
        (topFootSize a)) := by
  have hF : topFootSize a = 10 * a.word := topFootSize_eq a
  have hword := word_cases a
  have htotal : total row = total pre + n + topFootSize a + total post := by
    rw [hrow]
    simp only [total_append, total_cons, total_nil]
    omega
  have hk : After row (lastKind .gap pre) (total pre) ⟨.top, n⟩ :=
    hrow ▸ after_around.mpr (Or.inr (Or.inl ⟨rfl, rfl, rfl⟩))
  have hsame : row ++ [⟨.gap, len⟩] =
      pre ++ (([⟨.top, n⟩, ⟨.gap, topFootSize a⟩] ++ (post ++ [⟨.gap, len⟩])) ++ []) := by
    rw [hrow]
    simp
  -- The memory behind the row comes to it as a gap first.
  have hextend : Moves a row (row ++ [⟨.gap, len⟩]) M M := by
    refine h.extend ⟨tagged_gap rfl, trivial⟩ rfl ?_ fun _ _ => rfl
    simp only [total_cons, total_nil]
    omega
  have htarget := hextend.target
  rw [hsame] at htarget
  have hmoves : Moves a (pre ++ (([⟨.top, n⟩, ⟨.gap, topFootSize a⟩] ++ (post ++ [⟨.gap, len⟩])) ++ []))
      (pre ++ ([⟨.top, n + len⟩, ⟨.gap, topFootSize a⟩] ++ [])) M
      (store (store M (total pre + a.word) a.word (n + len + 1)) (total pre + (n + len) + a.word) a.word
        (topFootSize a)) := by
    have hlast := htarget.last
    rw [lastKind_append, List.append_nil] at hlast
    refine htarget.replace (by simp [hpost]; omega) hlast.symm
      ⟨hfit.tagged (h.tagged hk).before ?_ nofun, tagged_gap rfl, trivial⟩ (fun x hx => ?_) (by simp) ?_ ?_
    · exact (load_store_outside (by omega)).trans (load_word (by omega))
    · simp only [total_append, total_cons, total_nil] at hx
      exact (store_outside (by omega)).trans (store_outside (by omega))
    · rintro k q n (⟨-, -, heq⟩ | ⟨-, -, heq⟩ | hnil) -
      · cases heq
      · cases heq
      · exact hnil.elim
    · -- Behind the top chunk there is no record.
      intro k q n' hplaced
      have hat : At (row ++ [⟨.gap, len⟩]) q ⟨.record, n'⟩ := hsame ▸ at_around.mpr (Or.inr ⟨k, hplaced⟩)
      obtain hold | ⟨k', ⟨-, -, heq⟩ | hnil⟩ := h.at_extend.mp hat
      · rw [hrow] at hold
        obtain hold | ⟨-, heq⟩ := (Row.at_last (hrow ▸ h) hpost (b := ⟨.record, n'⟩) nofun).mp hold
        · obtain ⟨k', hk'⟩ := hold
          have hbounds := hk'.bounds
          have hplace := hplaced.bounds
          have hsize : 0 < n' := ((h.tagged (b := ⟨.record, n'⟩) (hrow ▸ placed_append.mpr (Or.inl hk'))).size nofun).1
          dsimp only at hbounds
          omega
        · cases heq
      · cases heq
      · exact hnil.elim
  refine hextend.trans (hsame ▸ hmoves) fun q n hold _ => ?_
  exact hold.imp (fun hb => h.at_extend.mpr (Or.inl hb)) fun hb => h.at_extend.mpr (Or.inl hb)

theorem Segments.more {first : Segment} {rest : List Segment} (hs : Segments a row (first :: rest) (total pre) n)
    (hlow : first.base ≤ total pre) (hends : total pre + n + topFootSize a = first.base + first.size) :
    Segments a (pre ++ ([⟨.top, n + len⟩, ⟨.gap, topFootSize a⟩] ++ []))
      ({ first with size := first.size + len } :: rest) (total pre) (n + len) := by
  have htotal : total row = total pre + n + topFootSize a + total post := by
    rw [hrow]
    simp only [total_append, total_cons, total_nil]
    omega
  have hopens : ∀ sp ∈ first :: rest, ∃ b, After (pre ++ ([⟨.top, n + len⟩, ⟨.gap, topFootSize a⟩] ++ [])) .gap
      sp.base b ∧ b.kind ≠ .gap ∧ b.kind ≠ .mapped := by
    intro sp hsp
    obtain ⟨b, hb, hkind⟩ := hs.opens sp hsp
    have hsize := ((h.tagged hb).size hkind.1).1
    rw [hrow] at hb
    obtain hpre | ⟨hopen, hq, -⟩ | ⟨-, -, rfl⟩ | hnone := placed_append.mp hb
    · exact ⟨b, placed_append.mpr (Or.inl hpre), hkind⟩
    · exact ⟨⟨.top, n + len⟩, placed_append.mpr (Or.inr (Or.inl ⟨hopen, hq, rfl⟩)), nofun, nofun⟩
    · exact absurd rfl hkind.1
    · have hbounds : 0 + total pre + n + topFootSize a ≤ sp.base ∧
        sp.base + b.size ≤ 0 + total pre + n + topFootSize a + total post := Placed.bounds hnone
      omega
  have htotal' : total (pre ++ ([⟨.top, n + len⟩, ⟨.gap, topFootSize a⟩] ++ [])) =
      total pre + (n + len) + topFootSize a := by
    simp only [total_append, total_cons, total_nil]
    omega
  obtain ⟨hbelow, hordered⟩ := List.pairwise_cons.mp hs.ordered
  refine ⟨fun sp hsp => ?_, fun sp hsp => ?_, fun sp hsp => ?_, List.pairwise_cons.mpr ⟨hbelow, hordered⟩, fun _ =>
    ⟨_, rest, rfl, hlow, by dsimp only; omega⟩, fun _ => ?_⟩
  · obtain rfl | hsp := List.mem_cons.mp hsp
    · exact hopens first List.mem_cons_self
    · exact hopens sp (List.mem_cons_of_mem _ hsp)
  · obtain rfl | hsp := List.mem_cons.mp hsp
    · exact (hs.large first List.mem_cons_self).trans (Nat.le_add_right _ _)
    · exact hs.large sp (List.mem_cons_of_mem _ hsp)
  · rw [htotal']
    obtain rfl | hsp := List.mem_cons.mp hsp
    · dsimp only
      omega
    · have hold := hs.below sp (List.mem_cons_of_mem _ hsp)
      omega
  · exact placed_append.mpr (Or.inr (Or.inr (Or.inl ⟨rfl, by dsimp only; omega, rfl⟩)))

end Extend

/-- New memory behind the first segment is found to be so. -/
theorem Current.useMemory {first : Segment} {rest : List Segment} (h : Current a m row first rest) (hinit : m.top ≠ 0)
    (hbase : base = first.base + first.size) : useMemory a m base len nb =
      some (initTop a (m.setSegment a (m.seg a) { first with size := first.size + len }) m.top (m.topsize + len), 0) := by
  have hword := word_cases a
  have hends := h.ends
  have hlow := h.low
  rw [topFootSize_eq] at hends
  obtain ⟨q, heq, -, hfirst⟩ := h.find fun _ r => base = r.base + r.size
  obtain rfl := hfirst (decide_eq_true hbase)
  have hholds : first.holds m.top = true := decide_eq_true ⟨hlow, by omega⟩
  have hown : first.isOwn = true := Segment.isOwn_of_flags h.own
  rw [Malloc.useMemory, if_neg hinit]
  dsimp only
  rw [heq, Option.bind_eq_bind, Option.bind_some, h.segment, if_pos ⟨State.seg_bounds.1.ne', hown, hholds⟩]

theorem Inv.moreOfSegment (h : Inv a m row) (hinit : m.top ≠ 0) {first : Segment} {rest : List Segment}
    (hcurrent : Current a m row first rest) (hbase : base = first.base + first.size) (hfresh : Fresh a row stop base len)
    (hlen : Length a len) : ∃ m' row', useMemory a m base len nb = some (m', 0) ∧ Grows a m row stop m' row' ∧
      len - topFootSize a ≤ m'.topsize := by
  obtain ⟨pre, post, hrow, hplace⟩ := h.toLayout.split_top hinit
  have hends := hcurrent.ends
  have hbelow := hcurrent.segments.below first List.mem_cons_self
  have hbehind := hfresh.behind
  have hfits := hfresh.fits
  have htotal : total row = total pre + m.topsize + topFootSize a + total post := by
    rw [hrow]
    simp only [total_append, total_cons, total_nil]
    omega
  have hpost : total post = 0 := by omega
  have hF : topFootSize a = 10 * a.word := topFootSize_eq a
  have hword := word_cases a
  have hk : After row (lastKind .gap pre) (total pre) ⟨.top, m.topsize⟩ :=
    hrow ▸ after_around.mpr (Or.inr (Or.inl ⟨rfl, rfl, rfl⟩))
  have hfit : Fits a .top (total pre) (m.topsize + len) := by
    obtain ⟨hplace', hsize, -⟩ := (h.laid.tagged hk).fits (by simp)
    exact ⟨hplace', ⟨by omega, add_aligned hsize.2 (mod_alignment hlen.units (by decide))⟩, fun hne => absurd rfl hne⟩
  have hlarge := hlen.large
  have hwordle : 2 * a.word ≤ m.topsize + len := by
    rw [granularity] at hlarge
    omega
  obtain ⟨-, hseg, hsegend⟩ := State.seg_bounds (a := a) (s := m)
  have hroom : m.gm + gmSize a ≤ total pre := h.outside _ _ ⟨_, hk⟩ (by simp)
  have hsize : segOffset a ≤ gmSize a := Nat.le_add_right _ _
  rw [hcurrent.useMemory hinit hbase, hplace, initTop_eq hfit.place.2, or_pinuse (mod_eight hfit.size.2)]
  have hidle := h.moves_low (M := (m.setSegment a (m.seg a) { first with size := first.size + len }).mem)
    fun x hx => State.setSegment_mem (Or.inr (by omega))
  have hmoves := hidle.trans (hidle.target.moreTop hrow hpost hfit hwordle (by omega)) fun _ _ hold _ => hold
  have hat : ∀ q b, b.kind ≠ .gap → (At row q b ↔ At pre q b ∨ (q = total pre ∧ b = ⟨.top, m.topsize⟩)) := by
    intro q b hb
    rw [hrow]
    exact Row.at_last (hrow ▸ h.laid) hpost hb
  have hat' : ∀ q b, b.kind ≠ .gap → (At (pre ++ ([⟨.top, m.topsize + len⟩, ⟨.gap, topFootSize a⟩] ++ [])) q b ↔
      At pre q b ∨ (q = total pre ∧ b = ⟨.top, m.topsize + len⟩)) := fun q b hb => hmoves.target.at_last rfl hb
  have hother : ∀ q b, b.kind ≠ .gap → b.kind ≠ .top →
      (At (pre ++ ([⟨.top, m.topsize + len⟩, ⟨.gap, topFootSize a⟩] ++ [])) q b ↔ At row q b) := by
    intro q b hb htop
    have hne : ∀ t, ¬ (q = total pre ∧ b = ⟨.top, t⟩) := fun t heq => htop (heq.2 ▸ rfl)
    rw [hat q b hb, hat' q b hb, or_iff_left (hne _), or_iff_left (hne _)]
  have hsegments : Segments a row (first :: rest) (total pre) m.topsize := by
    rw [← hplace]
    exact hcurrent.segments
  have hmore : Segments a _ ({ first with size := first.size + len } :: rest) _ _ :=
    hsegments.more h.laid hrow hpost (hplace ▸ hcurrent.low) (by omega)
  have hrecord : Segment.Fits a { first with size := first.size + len } := by
    obtain ⟨hbase', -, hnext, hflags⟩ : first.Fits a := hcurrent.segment ▸ State.segment_fits
    exact ⟨hbase', by dsimp only; omega, hnext, hflags⟩
  obtain ⟨bins, hstocked, hbinned⟩ := h.stored
  have hheld : ∀ q n, bins.Holds q n → FreeIn row q n := fun q n hq => ((hstocked.holds q n).mp hq).1
  refine ⟨_, _, rfl, ⟨⟨⟨hmoves.target, fun q t => ?_, fun hzero => absurd hzero hfit.place.1.ne', fun q b hb hgap => ?_,
    fun q b hb hgap => ?_, ?_, fun _ => h.started hinit, { first with size := first.size + len } :: rest, ?_, hmore⟩, bins,
    hstocked.congr fun q t => hother q _ (by simp) (by simp), ?_⟩, hmoves,
    fun q t => or_congr (hother q _ (by simp) (by simp)) (hother q _ (by simp) (by simp)), ?_⟩, by dsimp only; omega⟩
  · rw [hat' q ⟨.top, t⟩ (by simp)]
    constructor
    · rintro (hpre | ⟨hq, heq⟩)
      · have hrow' := (hat q ⟨.top, t⟩ (by simp)).mpr (Or.inl hpre)
        obtain ⟨-, hq, -⟩ := (h.top q t).mp hrow'
        obtain ⟨k, hk'⟩ := hpre
        obtain ⟨k', hafter⟩ := hrow'
        have hsize := ((h.laid.tagged hafter).size (by simp)).1
        have hbounds := hk'.bounds
        omega
      · exact ⟨hfit.place.1.ne', hq, congrArg Block.size heq⟩
    · rintro ⟨-, rfl, rfl⟩
      exact Or.inr ⟨rfl, rfl⟩
  · obtain hpre | ⟨hq, -⟩ := (hat' q b hgap).mp hb
    · exact h.least q b ((hat q b hgap).mpr (Or.inl hpre)) hgap
    · exact h.least q ⟨.top, m.topsize⟩ ((hat q ⟨.top, m.topsize⟩ (by simp)).mpr (Or.inr ⟨hq, rfl⟩)) (by simp)
  · obtain hpre | ⟨hq, -⟩ := (hat' q b hgap).mp hb
    · exact h.outside q b ((hat q b hgap).mpr (Or.inl hpre)) hgap
    · exact h.outside q ⟨.top, m.topsize⟩ ((hat q ⟨.top, m.topsize⟩ (by simp)).mpr (Or.inr ⟨hq, rfl⟩)) (by simp)
  · rw [total_append]
    exact hroom.trans (Nat.le_add_right _ _)
  · refine Recorded.intro hfit.place.1.ne' ?_ hcurrent.own (hcurrent.chained.congr hmoves.records)
    refine Eq.trans (State.segment_congr (s := m.setSegment a (m.seg a) { first with size := first.size + len })
      fun x _ hx => ?_) (State.segment_setSegment hrecord)
    have hx : x < m.seg a + 3 * a.word + 4 := hx
    exact (store_outside (by omega)).trans (store_outside (by omega))
  · refine hbinned.frame hstocked.ok (h.spread.mono hheld) rfl rfl rfl (fun z _ hz => ?_) fun q n hq z hlow hhigh => ?_
    · exact (store_outside (by omega)).trans ((store_outside (by omega)).trans
        (State.setSegment_mem (Or.inl (by omega))))
    · have hout := h.outside q _ (hheld q n hq) (by simp)
      obtain ⟨k, hk'⟩ | ⟨-, heq⟩ := (hat q ⟨.free, n⟩ (by simp)).mp (hheld q n hq)
      · have hbounds := hk'.bounds
        dsimp only at hbounds
        exact (store_outside (by omega)).trans ((store_outside (by omega)).trans
          (State.setSegment_mem (Or.inr (by omega))))
      · cases heq
  · have hwithin := hfresh.within
    simp only [total_append, total_cons, total_nil]
    omega

end Kiznix.Malloc
