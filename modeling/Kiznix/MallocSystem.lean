import Kiznix.MallocGrow

/-! Memory from the system: further segments, and `sys_alloc`. -/

namespace Kiznix.Malloc

open ByteMemory BlockRow
open Switch (Arch)

variable {a : Arch} {m m' : State} {row row' : List (Block Kind)} {k : Kind}
  {p q n r s t nb mem base len stop : Nat}

/-! ### The old top chunk is retired -/

theorem Layout.top_le (h : Layout a m row) (hinit : m.top ≠ 0) : m.top ≤ total row := by
  obtain ⟨k, hk⟩ := (h.top _ _).mpr ⟨hinit, rfl, rfl⟩
  have hbounds := hk.bounds
  dsimp only at hbounds
  omega

section Retire

variable {pre post mid' : List (Block Kind)} {gap : Nat} {b : Block Kind} (h : Layout a m row)
  (hrow : row = pre ++ ([⟨.top, m.topsize⟩, ⟨.gap, topFootSize a⟩] ++ post))
  (htotal : total mid' = m.topsize + topFootSize a) (hkind : lastKind (lastKind .gap pre) mid' = .gap)

include hrow in
theorem append_topBlocks : row ++ topBlocks a gap n =
    pre ++ ([⟨.top, m.topsize⟩, ⟨.gap, topFootSize a⟩] ++ (post ++ topBlocks a gap n)) := by
  rw [hrow]
  simp

include htotal hkind in
theorem around_retired : Around .gap 0 pre mid' post k q b ↔
    Around .gap 0 pre [⟨.top, m.topsize⟩, ⟨.gap, topFootSize a⟩] post k q b :=
  around_congr (by simp [htotal]) (by simp [hkind])

include hrow htotal in
theorem total_retired :
    total (pre ++ (mid' ++ (post ++ topBlocks a gap n))) = total row + gap + n + topFootSize a := by
  rw [total_append, total_append, total_append, total_topBlocks, htotal, hrow]
  simp only [total_append, total_cons, total_nil]
  omega

include h hrow htotal hkind

/-- Blocks that are neither gaps nor the top chunk stay, and those of `mid'` come to them. -/
theorem Layout.at_retired (hgap : b.kind ≠ .gap) (htop : b.kind ≠ .top) :
    At (pre ++ (mid' ++ (post ++ topBlocks a gap n))) q b ↔
      At row q b ∨ ∃ k, Placed (lastKind .gap pre) (total pre) mid' k q b := by
  have hold : At row q b ↔ ∃ k, Around .gap 0 pre [⟨.top, m.topsize⟩, ⟨.gap, topFootSize a⟩]
      (post ++ topBlocks a gap n) k q b := by
    have hrowB : At (row ++ topBlocks a gap n) q b ↔ At row q b :=
      (h.laid.at_topBlocks hgap).trans (or_iff_left fun heq => htop (heq.2 ▸ rfl))
    rw [← hrowB, append_topBlocks hrow, at_around]
    refine or_iff_left ?_
    rintro ⟨k, ⟨-, -, rfl⟩ | ⟨-, -, rfl⟩ | hnil⟩
    · exact htop rfl
    · exact hgap rfl
    · exact hnil.elim
  rw [at_around, hold]
  simp only [around_retired htotal hkind]

theorem Layout.after_retired : After (pre ++ (mid' ++ (post ++ topBlocks a gap n))) .gap (total row + gap) ⟨.top, n⟩ ∧
    After (pre ++ (mid' ++ (post ++ topBlocks a gap n))) .top (total row + gap + n) ⟨.gap, topFootSize a⟩ := by
  have hF : 0 < topFootSize a := by cases a <;> decide
  have htotalrow : total row = total pre + m.topsize + topFootSize a + total post := by
    rw [hrow]
    simp only [total_append, total_cons, total_nil]
    omega
  have hafter : After (row ++ topBlocks a gap n) .gap (total row + gap) ⟨.top, n⟩ := h.laid.after_topBlocks
  have hfoot : After (row ++ topBlocks a gap n) .top (total row + gap + n) ⟨.gap, topFootSize a⟩ :=
    h.laid.foot_topBlocks
  rw [append_topBlocks hrow] at hafter hfoot
  refine ⟨after_around.mpr (Or.inl ((around_retired htotal hkind).mpr ?_)),
    after_around.mpr (Or.inl ((around_retired htotal hkind).mpr ?_))⟩
  · obtain hout | ⟨-, hq, -⟩ | ⟨-, -, heq⟩ | hnil := after_around.mp hafter
    · exact hout
    · omega
    · cases heq
    · exact hnil.elim
  · obtain hout | ⟨-, -, heq⟩ | ⟨-, hq, -⟩ | hnil := after_around.mp hfoot
    · exact hout
    · cases heq
    · dsimp only at hq
      omega
    · exact hnil.elim

theorem Layout.top_retired (hpos : 0 < total row + gap) (hmid : ∀ c ∈ mid', c.kind ≠ .top) :
    At (pre ++ (mid' ++ (post ++ topBlocks a gap n))) q ⟨.top, t⟩ ↔
      total row + gap ≠ 0 ∧ q = total row + gap ∧ t = n := by
  constructor
  · rintro ⟨k, hk⟩
    obtain hout | hplaced := after_around.mp hk
    · have hout' := (around_retired htotal hkind).mp hout
      have hapart := around_apart hout'
      have hrowB : At (row ++ topBlocks a gap n) q ⟨.top, t⟩ :=
        append_topBlocks hrow ▸ ⟨k, after_around.mpr (Or.inl hout')⟩
      obtain hold | ⟨hq, heq⟩ := (h.laid.at_topBlocks (b := ⟨.top, t⟩) nofun).mp hrowB
      · -- The old top chunk is not around the blocks that have replaced it.
        have hplace : At row (total pre) ⟨.top, m.topsize⟩ :=
          hrow ▸ ⟨_, after_around.mpr (Or.inr (Or.inl ⟨rfl, rfl, rfl⟩))⟩
        obtain ⟨-, hq, rfl⟩ := (h.top q t).mp hold
        obtain ⟨-, hq', -⟩ := (h.top _ _).mp hplace
        obtain ⟨k', hk'⟩ := hold
        have hsize : 0 < m.topsize := ((h.laid.tagged hk').size nofun).1
        simp only [total_cons, total_nil] at hapart
        omega
      · exact ⟨hpos.ne', hq, congrArg Block.size heq⟩
    · exact absurd rfl (hmid _ hplaced.mem)
  · rintro ⟨-, rfl, rfl⟩
    exact ⟨_, (h.after_retired hrow htotal hkind).1⟩

/-- Blocks are where blocks were, or in the place of the old top chunk, or the new one. -/
theorem Layout.low_retired {c : Block Kind} {low : Nat} (hpos : 0 < total row + gap) (hmid : ∀ c ∈ mid', c.kind ≠ .top)
    (hinit : m.top ≠ 0) (hplace : m.top = total pre) (hlow : ∀ q b, At row q b → b.kind ≠ .gap → low ≤ q)
    (hc : At (pre ++ (mid' ++ (post ++ topBlocks a gap n))) q c) (hgap : c.kind ≠ .gap) :
    low ≤ q ∨ q = total row + gap := by
  by_cases htop : c.kind = .top
  · obtain ⟨c, t⟩ := c
    obtain rfl : c = .top := htop
    have hat : At (pre ++ (mid' ++ (post ++ topBlocks a gap n))) q ⟨.top, t⟩ ↔
      total row + gap ≠ 0 ∧ q = total row + gap ∧ t = n := h.top_retired hrow htotal hkind hpos hmid
    exact Or.inr (hat.mp hc).2.1
  · obtain hq | ⟨k, hplaced⟩ := (h.at_retired hrow htotal hkind hgap htop).mp hc
    · exact Or.inl (hlow q c hq hgap)
    · have hle := hlow _ _ ((h.top m.top m.topsize).mpr ⟨hinit, rfl, rfl⟩) nofun
      have hbounds := hplaced.bounds
      exact Or.inl (by omega)

theorem Layout.segments_retired {first : Segment} {rest : List Segment} {next : Nat}
    (hs : Segments a row (first :: rest) m.top m.topsize) (hlen : Length a len) (hfirst : mid'.head? = some b)
    (hb : b.kind ≠ .gap ∧ b.kind ≠ .mapped) :
    Segments a (pre ++ (mid' ++ (post ++ topBlocks a gap (len - topFootSize a))))
      (⟨total row + gap, len, next, useMmapBit⟩ :: first :: rest) (total row + gap) (len - topFootSize a) := by
  have hadd := hlen.top_add
  have hnew : After (pre ++ (mid' ++ (post ++ topBlocks a gap (len - topFootSize a)))) .gap (total row + gap)
        ⟨.top, len - topFootSize a⟩ ∧
      After (pre ++ (mid' ++ (post ++ topBlocks a gap (len - topFootSize a)))) .top
        (total row + gap + (len - topFootSize a)) ⟨.gap, topFootSize a⟩ := h.after_retired hrow htotal hkind
  refine ⟨fun sp hsp => ?_, fun sp hsp => ?_, fun sp hsp => ?_, List.pairwise_cons.mpr ⟨fun sp hsp =>
    (hs.below sp hsp).trans (Nat.le_add_right _ _), hs.ordered⟩, fun _ => ⟨_, _, rfl, le_rfl, by dsimp only; omega⟩,
    fun _ => hnew.2⟩
  · obtain rfl | hsp := List.mem_cons.mp hsp
    · exact ⟨_, hnew.1, nofun, nofun⟩
    · obtain ⟨c, hc, hckind⟩ := hs.opens sp hsp
      have hcB : After (row ++ topBlocks a gap (len - topFootSize a)) .gap sp.base c :=
        h.laid.after_extend.mpr (Or.inl hc)
      rw [append_topBlocks hrow] at hcB
      -- A segment that began with the old top chunk begins with the first of the blocks instead.
      obtain hout | ⟨hopen, hq, -⟩ | ⟨-, -, rfl⟩ | hnil := after_around.mp hcB
      · exact ⟨c, after_around.mpr (Or.inl ((around_retired htotal hkind).mpr hout)), hckind⟩
      · obtain ⟨rest, rfl⟩ : ∃ rest, mid' = b :: rest := by
          cases mid' with
          | nil => cases hfirst
          | cons c rest => exact ⟨rest, by rw [Option.some.inj hfirst]⟩
        exact ⟨b, after_around.mpr (Or.inr (Or.inl ⟨hopen, hq, rfl⟩)), hb⟩
      · exact absurd rfl hckind.1
      · exact hnil.elim
  · obtain rfl | hsp := List.mem_cons.mp hsp
    · exact hlen.large
    · exact hs.large sp hsp
  · rw [total_retired hrow htotal]
    obtain rfl | hsp := List.mem_cons.mp hsp
    · dsimp only
      omega
    · have hold := hs.below sp hsp
      omega

/-- The old top chunk and the gap behind it become other blocks, and new memory behind the row has the top chunk. -/
theorem Layout.retire {first : Segment} {rest : List Segment} {next : Nat} (hinit : m.top ≠ 0) (hplace : m.top = total pre)
    (hs : Segments a row (first :: rest) m.top m.topsize) (hfresh : Fresh a row stop (total row + gap) len)
    (hlen : Length a len) (hmid : ∀ c ∈ mid', c.kind ≠ .top ∧ c.kind ≠ .mapped) (hfirst : mid'.head? = some b)
    (hb : b.kind ≠ .gap)
    (hmoves : Moves a row (pre ++ (mid' ++ (post ++ topBlocks a gap (len - topFootSize a)))) m.mem m'.mem)
    (htop : m'.top = total row + gap) (htopsize : m'.topsize = len - topFootSize a)
    (hleast : m'.leastAddr = m.leastAddr) (hgm : m'.gm = m.gm)
    (hrecorded : Recorded a m' (pre ++ (mid' ++ (post ++ topBlocks a gap (len - topFootSize a))))
      (⟨total row + gap, len, next, useMmapBit⟩ :: first :: rest)) :
    Layout a m' (pre ++ (mid' ++ (post ++ topBlocks a gap (len - topFootSize a)))) := by
  obtain ⟨hpos, -⟩ := hfresh.place
  have hstarted := h.started hinit
  have hroom := h.room
  have htopat : ∀ q t, At (pre ++ (mid' ++ (post ++ topBlocks a gap (len - topFootSize a)))) q ⟨.top, t⟩ ↔
      total row + gap ≠ 0 ∧ q = total row + gap ∧ t = len - topFootSize a :=
    fun q t => h.top_retired hrow htotal hkind hpos fun c hc => (hmid c hc).1
  have hfirst' : b ∈ mid' := List.mem_of_mem_head? hfirst
  have hlow : ∀ {low : Nat}, (∀ q b, At row q b → b.kind ≠ .gap → low ≤ q) → ∀ q b,
      At (pre ++ (mid' ++ (post ++ topBlocks a gap (len - topFootSize a)))) q b → b.kind ≠ .gap →
        low ≤ q ∨ q = total row + gap := fun hold q b hq hgap =>
    h.low_retired hrow htotal hkind hpos (fun c hc => (hmid c hc).1) hinit hplace hold hq hgap
  have hsegments : Segments a (pre ++ (mid' ++ (post ++ topBlocks a gap (len - topFootSize a))))
      (⟨total row + gap, len, next, useMmapBit⟩ :: first :: rest) (total row + gap) (len - topFootSize a) :=
    h.segments_retired hrow htotal hkind hs hlen hfirst ⟨hb, (hmid b hfirst').2⟩
  refine ⟨hmoves.target, fun q t => ?_, fun hzero => absurd (htop ▸ hzero) hpos.ne', fun q b hq hgap => ?_,
    fun q b hq hgap => ?_, ?_, fun _ => ?_, _, hrecorded, ?_⟩
  · rw [htop, htopsize]
    exact htopat q t
  · have hle := h.least _ _ ((h.top m.top m.topsize).mpr ⟨hinit, rfl, rfl⟩) nofun
    have hlast := h.top_le hinit
    rw [hleast]
    obtain hle | rfl := hlow h.least q b hq hgap <;> omega
  · rw [hgm]
    obtain hle | rfl := hlow h.outside q b hq hgap <;> omega
  · rw [hgm, total_retired hrow htotal]
    omega
  · rw [hleast]
    exact hstarted
  · rw [htop, htopsize]
    exact hsegments

end Retire

theorem record_fits (hp : 0 < p ∧ p % mallocAlignment a = 0) : Fits a .record p (segmentChunkSize a) := by
  rw [segmentChunkSize_eq]
  refine ⟨hp, ?_, fun _ => ?_⟩
  · rw [alignment_eq]
    obtain hw | hw := word_cases a <;> rw [hw] <;> decide
  · rw [minChunkSize]
    exact Nat.mul_le_mul_right _ (by decide)

section RetiredRow

variable {pre post : List (Block Kind)} {M M' : Memory}
  (h : Row a M (pre ++ ([⟨.top, n⟩, ⟨.gap, topFootSize a⟩] ++ post)))
  (hmem : SameAround a pre [⟨.top, n⟩, ⟨.gap, topFootSize a⟩] M M')

include h

theorem Row.old_top : Fits a .top (total pre) n ∧ (lastKind .gap pre).Open ∧ n + 8 ≤ 2 ^ a.bits := by
  have hk : After (pre ++ ([⟨.top, n⟩, ⟨.gap, topFootSize a⟩] ++ post)) (lastKind .gap pre) (total pre) ⟨.top, n⟩ :=
    after_around.mpr (Or.inr (Or.inl ⟨rfl, rfl, rfl⟩))
  exact ⟨(h.tagged hk).fits nofun, open_of_before (h.tagged hk).before (Or.inr rfl), h.size_lt hk nofun⟩

include hmem

/-- A top chunk that is too small for a bin becomes the record, with what is behind it. -/
theorem Row.retireSmall (hhead : load M' (total pre + a.word) a.word = segmentChunkSize a + 3) :
    Moves a (pre ++ ([⟨.top, n⟩, ⟨.gap, topFootSize a⟩] ++ post))
      (pre ++ ([⟨.record, segmentChunkSize a⟩, ⟨.gap, n + topFootSize a - segmentChunkSize a⟩] ++ post)) M M' := by
  obtain ⟨hfits, hopen, -⟩ := h.old_top
  have hF := topFootSize_eq a
  have hsix := segmentChunkSize_eq a
  refine h.replace (by simp only [total_cons, total_nil]; omega) rfl
    ⟨(record_fits hfits.place).tagged hopen.facts.2.2.2.1 (hhead.trans (by rw [hopen.facts.2.1])) nofun,
      tagged_gap rfl, trivial⟩ hmem (by simp) ?_ ?_
  · rintro k q n (⟨-, -, heq⟩ | ⟨-, -, heq⟩ | hnil) -
    · cases heq
    · cases heq
    · exact hnil.elim
  · rintro k q n (⟨-, -, heq⟩ | ⟨-, -, heq⟩ | hnil)
    · cases heq
    · cases heq
    · exact hnil.elim

/-- A larger one becomes a free chunk, and the record is behind it. -/
theorem Row.retireLarge (hmin : minChunkSize a ≤ n) (hhead : load M' (total pre + a.word) a.word = n + 1)
    (hrest : load M' (total pre + n + a.word) a.word = segmentChunkSize a + 2)
    (hfoot : load M' (total pre + n) a.word = n) :
    Moves a (pre ++ ([⟨.top, n⟩, ⟨.gap, topFootSize a⟩] ++ post))
      (pre ++ ([⟨.free, n⟩, ⟨.record, segmentChunkSize a⟩, ⟨.gap, topFootSize a - segmentChunkSize a⟩] ++ post))
      M M' := by
  obtain ⟨hfits, hopen, -⟩ := h.old_top
  have hF := topFootSize_eq a
  have hsix := segmentChunkSize_eq a
  have hplace : 0 < total pre + n ∧ (total pre + n) % mallocAlignment a = 0 :=
    ⟨Nat.add_pos_left hfits.place.1 _, add_aligned hfits.place.2 hfits.size.2⟩
  have hfree : Fits a .free (total pre) n := ⟨hfits.place, hfits.size, fun _ => hmin⟩
  refine h.replace (by simp only [total_cons, total_nil]; omega) rfl
    ⟨hfree.tagged hopen.facts.2.2.2.2.1 hhead fun _ => hfoot, (record_fits hplace).tagged rfl hrest nofun,
      tagged_gap rfl, trivial⟩ hmem (by simp) ?_ ?_
  · rintro k q n (⟨-, -, heq⟩ | ⟨-, -, heq⟩ | ⟨-, -, heq⟩ | hnil) -
    · cases heq
    · cases heq
    · cases heq
    · exact hnil.elim
  · rintro k q n (⟨-, -, heq⟩ | ⟨-, -, heq⟩ | hnil)
    · cases heq
    · cases heq
    · exact hnil.elim

end RetiredRow

/-! ### `add_segment` -/

theorem fenceposts_eq {oldEnd : Nat} (hle : p + a.word ≤ oldEnd) : ∃ M, fenceposts a oldEnd p m = { m with mem := M } ∧
    ∀ x, x < p + a.word ∨ oldEnd + a.word ≤ x → M x = m.mem x := by
  have hword := word_cases a
  fun_induction fenceposts a oldEnd p m with
  | case1 p m m' hlt ih =>
      obtain ⟨M, heq, hM⟩ := ih (by omega)
      exact ⟨M, heq, fun x hx => (hM x (by omega)).trans (store_outside (by omega))⟩
  | case2 p m m' hge => exact ⟨_, rfl, fun x hx => store_outside (by omega)⟩

/-- The state with the new top chunk and the record of the old segment in a chunk at `csp`. -/
def recorded (a : Arch) (m : State) (base len oldEnd csp : Nat) : State :=
  let m := (initTop a m base (len - topFootSize a)).setSizeAndPinuseOfInuseChunk a csp (segmentChunkSize a)
  let m := m.setSegment a (chunk2mem a csp) (m.segment a (m.seg a))
  let m := m.setSegment a (m.seg a) { base := base, size := len, next := chunk2mem a csp, sflags := useMmapBit }
  fenceposts a oldEnd (csp + segmentChunkSize a) m

/-- What `add_segment` does when the old top chunk is at the end of its segment. -/
theorem addSegment_eq {first : Segment} {rest : List Segment} (h : Current a m row first rest)
    (hplace : m.top % mallocAlignment a = 0) (hsize : m.topsize % mallocAlignment a = 0) (hpos : 0 < m.topsize) :
    addSegment a m base len =
      if m.topsize < minChunkSize a then some (recorded a m base len (first.base + first.size) m.top)
      else insertChunk a ((recorded a m base len (first.base + first.size) (m.top + m.topsize)).setFreeWithPinuse a
        m.top m.topsize (m.top + m.topsize)) m.top m.topsize := by
  have hends := h.ends
  have hasp : first.base + first.size - (segmentChunkSize a + 4 * a.word + (mallocAlignment a - 1)) +
      alignOffset a (chunk2mem a (first.base + first.size -
        (segmentChunkSize a + 4 * a.word + (mallocAlignment a - 1)))) = m.top + m.topsize := by
    rw [← hends, topFootSize_eq, segmentChunkSize_eq, alignOffset, chunk2mem, alignment_eq]
    rw [alignment_eq] at hplace hsize
    obtain hw | hw := word_cases a <;> rw [hw] at hplace hsize ⊢ <;> omega
  rw [addSegment, h.holding, Option.bind_eq_bind, Option.bind_some, if_neg State.seg_bounds.1.ne', h.segment]
  dsimp only
  rw [hasp]
  simp only [Nat.add_lt_add_iff_left]
  by_cases hsmall : m.topsize < minChunkSize a
  · simp only [hsmall, if_true, ne_eq, not_true_eq_false, if_false]
    rfl
  · simp only [hsmall, if_false, ne_eq, Nat.add_eq_left, hpos.ne', not_false_eq_true, if_true, Nat.add_sub_cancel_left]
    rfl

/-- The record of the old segment, the one of the new segment, and the tag of the chunk for the former. -/
structure Records (a : Arch) (m : State) (base len csp : Nat) (M : Memory) : Prop where
  old : State.segment a { m with mem := M } (chunk2mem a csp) = m.segment a (m.seg a)
  new : State.segment a { m with mem := M } (m.seg a) = ⟨base, len, chunk2mem a csp, useMmapBit⟩

theorem recorded_eq {oldEnd csp : Nat} (hcsp : m.gm + gmSize a ≤ csp) (hend : csp + segmentChunkSize a + a.word ≤ oldEnd)
    (hbase : oldEnd ≤ base) (hplace : base % mallocAlignment a = 0) (hfits : base + len < 2 ^ a.bits) :
    ∃ M, recorded a m base len oldEnd csp =
        { m with mem := M, top := base, topsize := len - topFootSize a, trimCheck := trimThreshold } ∧
      (∀ x, m.gm + gmSize a ≤ x → x < csp + a.word ∨ oldEnd + a.word ≤ x →
        M x = (initTop a m base (len - topFootSize a)).mem x) ∧
      (∀ x < m.gm + segOffset a, M x = m.mem x) ∧ load M (csp + a.word) a.word = segmentChunkSize a + 3 ∧
      Records a m base len csp M := by
  have hword := word_cases a
  have hsix := segmentChunkSize_eq a
  have hmod : segmentChunkSize a % 8 = 0 := by omega
  obtain ⟨hpos, hseg, hsegend⟩ := State.seg_bounds (a := a) (s := m)
  have hbits : segmentChunkSize a + 8 ≤ 2 ^ a.bits := by cases a <;> decide
  rw [recorded]
  have htop : ∀ x < base + a.word, (initTop a m base (len - topFootSize a)).mem x = m.mem x := fun x hx => by
    rw [initTop_eq hplace]
    exact (store_outside (by omega)).trans (store_outside (by omega))
  have hrest : initTop a m base (len - topFootSize a) =
      { m with
        mem := (initTop a m base (len - topFootSize a)).mem
        top := base
        topsize := len - topFootSize a
        trimCheck := trimThreshold } := by
    rw [initTop_eq hplace]
  generalize (initTop a m base (len - topFootSize a)) = m₁ at *
  rw [State.setSizeAndPinuseOfInuseChunk, or_inuse hmod]
  have htag : ∀ x, x < csp + a.word ∨ csp + a.word + a.word ≤ x →
      (m₁.setHead a csp (segmentChunkSize a + 3)).mem x = m₁.mem x := fun x hx => store_outside hx
  have hhead : load (m₁.setHead a csp (segmentChunkSize a + 3)).mem (csp + a.word) a.word = segmentChunkSize a + 3 :=
    load_word (by omega)
  have hrest₂ : m₁.setHead a csp (segmentChunkSize a + 3) =
      { m with
        mem := (m₁.setHead a csp (segmentChunkSize a + 3)).mem
        top := base
        topsize := len - topFootSize a
        trimCheck := trimThreshold } := by
    rw [hrest]
    rfl
  generalize m₁.setHead a csp (segmentChunkSize a + 3) = m₂ at *
  have hm₂ : m₂.seg a = m.seg a := by
    rw [hrest₂]
    rfl
  have hold : m₂.segment a (m₂.seg a) = m.segment a (m.seg a) := by
    rw [hm₂]
    exact State.segment_congr fun x _ hx => (htag x (by omega)).trans (htop x (by omega))
  -- The old record goes to the chunk, then the new one to `_gm_`.
  have hm₃ : (m₂.setSegment a (chunk2mem a csp) (m₂.segment a (m₂.seg a))).seg a = m.seg a := hm₂
  rw [hm₃, hold]
  have hnew : Segment.Fits a ⟨base, len, chunk2mem a csp, useMmapBit⟩ := by
    refine ⟨by dsimp only; omega, by dsimp only; omega, ?_, by dsimp only; decide⟩
    show csp + 2 * a.word < 2 ^ a.bits
    omega
  obtain ⟨M, heq, hM⟩ := fenceposts_eq (a := a) hend (m := (m₂.setSegment a (chunk2mem a csp)
    (m.segment a (m.seg a))).setSegment a (m.seg a) ⟨base, len, chunk2mem a csp, useMmapBit⟩)
  have hout : ∀ x, x < m.seg a ∨ m.seg a + 3 * a.word + 4 ≤ x → x < csp + 2 * a.word ∨ oldEnd + a.word ≤ x →
      M x = m₂.mem x := fun x hx hx' =>
    calc M x = ((m₂.setSegment a (chunk2mem a csp) (m.segment a (m.seg a))).setSegment a (m.seg a)
          ⟨base, len, chunk2mem a csp, useMmapBit⟩).mem x := hM x (by omega)
      _ = (m₂.setSegment a (chunk2mem a csp) (m.segment a (m.seg a))).mem x := State.setSegment_mem hx
      _ = m₂.mem x := State.setSegment_mem (by rw [chunk2mem]; omega)
  refine ⟨M, heq.trans ?_, fun x hx hx' => ?_, fun x hx => ?_, ?_, ⟨?_, ?_⟩⟩
  · rw [hrest₂]
    rfl
  · exact (hout x (by omega) (by omega)).trans (htag x (by omega))
  · exact (hout x (by omega) (by omega)).trans ((htag x (by omega)).trans (htop x (by omega)))
  · rw [← hhead]
    exact load_congr fun x hlow hhigh => hout x (by omega) (by omega)
  · have hset : (m₂.setSegment a (chunk2mem a csp) (m.segment a (m.seg a))).segment a (chunk2mem a csp) = _ :=
      State.segment_setSegment State.segment_fits
    rw [← hset]
    refine State.segment_congr fun x hlow hhigh => ?_
    rw [chunk2mem] at hlow hhigh
    exact (hM x (by omega)).trans (State.setSegment_mem (by omega))
  · refine Eq.trans (State.segment_congr fun x hlow hhigh => hM x (by omega)) (State.segment_setSegment hnew)

/-- New memory that is neither behind nor before a segment is given one of its own. -/
theorem Current.useMemory_new {first : Segment} {rest : List Segment} (h : Current a m row first rest)
    (hlayout : Layout a m row) (hinit : m.top ≠ 0) (hbase : base ≠ first.base + first.size) (hbehind : total row ≤ base) :
    Malloc.useMemory a m base len nb = (addSegment a m base len).map (·, 0) := by
  have hword := word_cases a
  have hF : topFootSize a = 10 * a.word := topFootSize_eq a
  have hlow := h.low
  have htop : ¬ base < m.leastAddr := by
    have hle := hlayout.least _ _ ((hlayout.top m.top m.topsize).mpr ⟨hinit, rfl, rfl⟩) nofun
    have hlast := hlayout.top_le hinit
    omega
  obtain ⟨q, heq, hfound, -⟩ := h.find fun _ r => base = r.base + r.size
  have hnot : ¬ (q ≠ 0 ∧ (m.segment a q).isOwn = true ∧ (m.segment a q).holds m.top = true) := by
    rintro ⟨hq, -, hholds⟩
    obtain ⟨hend, hwhere⟩ := hfound hq
    have hend := of_decide_eq_true hend
    have hholds := of_decide_eq_true hholds
    obtain rfl | hrest := hwhere
    · rw [h.segment] at hend
      exact hbase hend
    · have hbelow := h.below _ hrest
      omega
  obtain ⟨q', heq', hfound', -⟩ := h.find fun _ r => r.base = base + len
  have hzero : q' = 0 := by
    by_contra hq'
    obtain ⟨hstart, hwhere⟩ := hfound' hq'
    have hstart := of_decide_eq_true hstart
    have hmem : m.segment a q' ∈ first :: rest := by
      obtain rfl | hrest := hwhere
      · exact h.segment ▸ List.mem_cons_self
      · exact List.mem_cons_of_mem _ hrest
    have hbelow := h.segments.below _ hmem
    have hlarge := h.segments.large _ hmem
    rw [granularity] at hlarge
    omega
  rw [Malloc.useMemory, if_neg hinit]
  dsimp only
  rw [heq, Option.bind_eq_bind, Option.bind_some, if_neg hnot, if_neg htop]
  show Option.bind (findSegment a m _ _ (m.seg a)) _ = _
  rw [heq', Option.bind_some, hzero, if_neg fun hne => hne.1 rfl]

/-- A move whose last writes are before all blocks. -/
theorem Moves.above {M M' G : Memory} (h : Moves a row row' M G) (hbase : ∀ q b, At row' q b → b.kind ≠ .gap → base ≤ q)
    (hsame : ∀ x, base ≤ x → M' x = G x) : Moves a row row' M M' :=
  h.trans (h.target.idle hbase fun x hx _ => hsame x hx) fun _ _ _ hnew => hnew

section Retired

variable {pre post mid' : List (Block Kind)} {gap csp : Nat} {b : Block Kind} {first : Segment} {rest : List Segment}
  {M : Memory}

/-- The new segment has been set up: the old top chunk has become other blocks, the record of the old segment among
them. A free chunk among them is not in a bin yet. -/
theorem Inv.retired (h : Inv a m row) (hinit : m.top ≠ 0) (hcurrent : Current a m row first rest)
    (hfresh : Fresh a row stop (total row + gap) len) (hlen : Length a len)
    (hrow : row = pre ++ ([⟨.top, m.topsize⟩, ⟨.gap, topFootSize a⟩] ++ post)) (hplace : m.top = total pre)
    (htotal : total mid' = m.topsize + topFootSize a) (hkind : lastKind (lastKind .gap pre) mid' = .gap)
    (hmid : ∀ c ∈ mid', c.kind ≠ .top ∧ c.kind ≠ .client ∧ c.kind ≠ .mapped) (hfirst : mid'.head? = some b)
    (hb : b.kind ≠ .gap) (hrecord : ∃ k, Placed (lastKind .gap pre) (total pre) mid' k csp ⟨.record, segmentChunkSize a⟩)
    (hm' : m' = { m with
      mem := M
      top := total row + gap
      topsize := len - topFootSize a
      trimCheck := trimThreshold })
    (hmem : ∀ x, m.gm + gmSize a ≤ x → x < total pre + a.word ∨
      total pre + (m.topsize + topFootSize a) + a.word ≤ x →
        M x = (initTop a m (total row + gap) (len - topFootSize a)).mem x)
    (hbelow : ∀ x < m.gm + segOffset a, M x = m.mem x) (hrecords : Records a m (total row + gap) len csp M)
    (hretire : ∀ {T G : Memory} {post' : List (Block Kind)},
      Row a T (pre ++ ([⟨.top, m.topsize⟩, ⟨.gap, topFootSize a⟩] ++ post')) →
      SameAround a pre [⟨.top, m.topsize⟩, ⟨.gap, topFootSize a⟩] T G → (∀ x, total pre ≤ x → G x = M x) →
      Moves a (pre ++ ([⟨.top, m.topsize⟩, ⟨.gap, topFootSize a⟩] ++ post')) (pre ++ (mid' ++ post')) T G) :
    ∃ row', Layout a m' row' ∧ Moves a row row' m.mem m'.mem ∧ (∀ q t, Live a row' q t ↔ Live a row q t) ∧
      (∀ q t, FreeIn row' q t ↔ FreeIn row q t ∨ ∃ k, Placed (lastKind .gap pre) (total pre) mid' k q ⟨.free, t⟩) ∧
      Stored a m' (FreeIn row) ∧ total row' ≤ stop := by
  have hword := word_cases a
  have hF : topFootSize a = 10 * a.word := topFootSize_eq a
  have hfits := hfresh.fits
  have hadd := hlen.top_add
  have hfit := hlen.fits hfresh.place
  have hroom := h.room
  have hlast := h.toLayout.top_le hinit
  obtain ⟨-, hseg, hsegend⟩ := State.seg_bounds (a := a) (s := m)
  have hsize : segOffset a ≤ gmSize a := Nat.le_add_right _ _
  have hout : m.gm + gmSize a ≤ total pre := by
    rw [← hplace]
    exact h.outside _ _ ((h.top m.top m.topsize).mpr ⟨hinit, rfl, rfl⟩) nofun
  have hmoves₁ := h.laid.newTop hfit (by omega)
  rw [initTop_eq hfresh.place.2] at hmem
  dsimp only at hmem
  have hT : ∀ x < total row, store (store m.mem (total row + gap + a.word) a.word (len - topFootSize a ||| pinuseBit))
      (total row + gap + (len - topFootSize a) + a.word) a.word (topFootSize a) x = m.mem x := fun x hx =>
    (store_outside (by omega)).trans (store_outside (by omega))
  generalize store (store m.mem (total row + gap + a.word) a.word (len - topFootSize a ||| pinuseBit))
    (total row + gap + (len - topFootSize a) + a.word) a.word (topFootSize a) = T at hmem hT hmoves₁
  rw [append_topBlocks hrow] at hmoves₁
  have hmovesG := hretire hmoves₁.target (G := fun x => if x < m.gm + gmSize a then T x else M x) (fun x hx => by
    simp only [total_cons, total_nil] at hx
    dsimp only
    split
    · rfl
    · exact hmem x (by omega) (by omega)) fun x hx => if_neg (by omega)
  obtain ⟨hpos, -⟩ := hfresh.place
  have houtside : ∀ q b, At (pre ++ (mid' ++ (post ++ topBlocks a gap (len - topFootSize a)))) q b → b.kind ≠ .gap →
      m.gm + gmSize a ≤ q := by
    intro q b hq hgap
    obtain hle | rfl := h.low_retired hrow htotal hkind hpos (fun c hc => (hmid c hc).1) hinit hplace h.outside hq hgap
    · exact hle
    · omega
  have hmoves : Moves a row (pre ++ (mid' ++ (post ++ topBlocks a gap (len - topFootSize a)))) m.mem M :=
    (hmoves₁.trans hmovesG fun q t hold _ => append_topBlocks hrow ▸ h.laid.live_topBlocks.mpr hold).above houtside
      fun x hx => (if_neg (by omega)).symm
  have hat : At (pre ++ (mid' ++ (post ++ topBlocks a gap (len - topFootSize a)))) csp ⟨.record, segmentChunkSize a⟩ :=
    at_around.mpr (Or.inr hrecord)
  have hother : ∀ q b, b.kind ≠ .gap → b.kind ≠ .top →
      (At (pre ++ (mid' ++ (post ++ topBlocks a gap (len - topFootSize a)))) q b ↔
        At row q b ∨ ∃ k, Placed (lastKind .gap pre) (total pre) mid' k q b) :=
    fun q b => h.at_retired hrow htotal hkind
  have hrecorded : Recorded a m' (pre ++ (mid' ++ (post ++ topBlocks a gap (len - topFootSize a))))
      (⟨total row + gap, len, chunk2mem a csp, useMmapBit⟩ :: first :: rest) := by
    rw [hm']
    exact Recorded.intro hpos.ne' hrecords.new rfl ⟨hrecords.old.trans hcurrent.segment, hcurrent.own, ⟨csp, rfl, hat⟩,
      hcurrent.chained.congr hmoves.records⟩
  have hM : m'.mem = M := by rw [hm']
  rw [← hM] at hmoves
  have hlayout := h.toLayout.retire hrow htotal hkind hinit hplace hcurrent.segments hfresh hlen
    (fun c hc => ⟨(hmid c hc).1, (hmid c hc).2.2⟩) hfirst hb hmoves (by rw [hm']) (by rw [hm']) (by rw [hm'])
    (by rw [hm']) hrecorded
  obtain ⟨bins, hstocked, hbinned⟩ := h.stored
  have hheld : ∀ q n, bins.Holds q n → FreeIn row q n := fun q n hq => ((hstocked.holds q n).mp hq).1
  refine ⟨_, hlayout, hmoves, fun q t => ?_, fun q t => hother q _ nofun nofun, ⟨bins, by rwa [hm'], ?_⟩, ?_⟩
  · refine or_congr ?_ ?_
    · rw [hother q ⟨.client, t⟩ nofun nofun, or_iff_left]
      exact fun ⟨k, hplaced⟩ => (hmid _ hplaced.mem).2.1 rfl
    · rw [hother q ⟨.mapped, t + a.word⟩ nofun nofun, or_iff_left]
      exact fun ⟨k, hplaced⟩ => (hmid _ hplaced.mem).2.2 rfl
  · refine hbinned.frame hstocked.ok (h.spread.mono hheld) (by rw [hm']) (by rw [hm']) (by rw [hm'])
      (fun z _ hz => hM ▸ hbelow z hz) fun q n hq z hlow hhigh => ?_
    have hfree := hheld q n hq
    have hplace' := h.outside q _ hfree nofun
    rw [hrow] at hfree
    obtain ⟨k, hk⟩ | ⟨k, ⟨-, -, heq⟩ | ⟨-, -, heq⟩ | hnil⟩ := at_around.mp hfree
    · have hapart := around_apart hk
      have hbounds := (hrow ▸ after_around.mpr (Or.inl hk) : After row k q ⟨.free, n⟩).bounds
      simp only [total_cons, total_nil] at hapart
      dsimp only at hbounds
      rw [hM]
      exact (hmem z (by omega) (by omega)).trans (hT z (by omega))
    · cases heq
    · cases heq
    · exact hnil.elim
  · have hwithin := hfresh.within
    rw [total_retired hrow htotal]
    omega

end Retired

/-- New memory away from the first segment becomes a segment. -/
theorem Inv.newSegment (h : Inv a m row) (hinit : m.top ≠ 0) {first : Segment} {rest : List Segment}
    (hcurrent : Current a m row first rest) (hbase : base ≠ first.base + first.size) (hfresh : Fresh a row stop base len)
    (hlen : Length a len) : ∃ m' row', useMemory a m base len nb = some (m', 0) ∧ Grows a m row stop m' row' ∧
      len - topFootSize a ≤ m'.topsize := by
  obtain ⟨pre, post, hrow, hplace⟩ := h.toLayout.split_top hinit
  have hbehind := hfresh.behind
  have hfits := hfresh.fits
  have hlast := h.toLayout.top_le hinit
  have hroom : m.gm + gmSize a ≤ m.top := h.outside _ _ ((h.top m.top m.topsize).mpr ⟨hinit, rfl, rfl⟩) (by simp)
  have hends := hcurrent.ends
  have hF : topFootSize a = 10 * a.word := topFootSize_eq a
  have hsix := segmentChunkSize_eq a
  have hword := word_cases a
  have hold : Fits a .top m.top m.topsize ∧ m.topsize + 8 ≤ 2 ^ a.bits := by
    obtain ⟨hfits, -, hlt⟩ := (hrow ▸ h.laid : Row a m.mem _).old_top
    exact ⟨hplace ▸ hfits, hlt⟩
  obtain ⟨htop, hlt⟩ := hold
  have htotal : total row = m.top + m.topsize + topFootSize a + total post := by
    rw [hrow]
    simp only [total_append, total_cons, total_nil]
    omega
  rw [hcurrent.useMemory_new h.toLayout hinit hbase hbehind,
    addSegment_eq hcurrent htop.place.2 htop.size.2 htop.size.1]
  obtain ⟨gap, rfl⟩ := Nat.exists_eq_add_of_le hbehind
  have holdend : first.base + first.size ≤ total row + gap := by omega
  by_cases hsmall : m.topsize < minChunkSize a
  · -- The record is where the top chunk was.
    have hend : m.top + segmentChunkSize a + a.word ≤ first.base + first.size := by omega
    obtain ⟨M, heq, hmem, hbelow, hhead, hrecords⟩ := recorded_eq hroom hend holdend hfresh.place.2 hfits
    rw [if_pos hsmall, heq]
    rw [hplace] at hhead hrecords hmem
    have hsum : total [(⟨.record, segmentChunkSize a⟩ : Block Kind),
        ⟨.gap, m.topsize + topFootSize a - segmentChunkSize a⟩] = m.topsize + topFootSize a := by
      simp only [total_cons, total_nil]
      omega
    obtain ⟨row', hlayout, hmoves, hlive, hfree, ⟨bins, hstocked, hbinned⟩, hwithin⟩ := h.retired hinit hcurrent hfresh
      hlen hrow hplace hsum rfl (by simp) (List.head?_cons ..) (by simp) ⟨_, Or.inl ⟨rfl, rfl, rfl⟩⟩
      rfl (fun x hx hout => hmem x hx (by omega)) hbelow hrecords
      (fun hT hsame hG => hT.retireSmall hsame ((load_congr fun x hlow _ => hG x (by omega)).trans hhead))
    refine ⟨_, row', rfl, ⟨⟨hlayout, bins, hstocked.congr fun q t => ?_, hbinned⟩, hmoves, hlive, hwithin⟩, le_rfl⟩
    refine (hfree q t).trans (or_iff_left ?_)
    rintro ⟨k, ⟨-, -, heq⟩ | ⟨-, -, heq⟩ | hnil⟩
    · cases heq
    · cases heq
    · exact hnil.elim
  · -- The top chunk goes to a bin, and the record is behind it.
    have hmin := Nat.not_lt.mp hsmall
    have hlarge : 2 * a.word ≤ m.topsize := by
      rw [minChunkSize] at hmin
      omega
    have hroom' : m.gm + gmSize a ≤ m.top + m.topsize := by omega
    have hend : m.top + m.topsize + segmentChunkSize a + a.word ≤ first.base + first.size := by omega
    obtain ⟨M, heq, hmem, hbelow, hhead, hrecords⟩ := recorded_eq hroom' hend holdend hfresh.place.2 hfits
    rw [if_neg hsmall, heq]
    obtain ⟨hfree₁, hfree₂, hfree₃, hout⟩ := State.setFreeWithPinuse_spec (a := a) (p := m.top) (n := m.topsize)
      (t := segmentChunkSize a) (s := { m with
        mem := M
        top := total row + gap
        topsize := len - topFootSize a
        trimCheck := trimThreshold }) (mod_eight htop.size.2) (by omega) hlarge hlt (by omega) hhead
    dsimp only at hout
    obtain ⟨-, hseg, hsegend⟩ := State.seg_bounds (a := a) (s := m)
    have hsize : segOffset a ≤ gmSize a := Nat.le_add_right _ _
    have hm₆ : State.setFreeWithPinuse a { m with
          mem := M
          top := total row + gap
          topsize := len - topFootSize a
          trimCheck := trimThreshold } m.top m.topsize (m.top + m.topsize) =
        { m with
          mem := (State.setFreeWithPinuse a { m with
            mem := M
            top := total row + gap
            topsize := len - topFootSize a
            trimCheck := trimThreshold } m.top m.topsize (m.top + m.topsize)).mem
          top := total row + gap
          topsize := len - topFootSize a
          trimCheck := trimThreshold } := rfl
    generalize State.setFreeWithPinuse a _ m.top m.topsize (m.top + m.topsize) = m₆ at *
    have hrecords₆ : Records a m (total row + gap) len (m.top + m.topsize) m₆.mem := by
      refine ⟨Eq.trans (State.segment_congr fun x hlow _ => hout x ?_) hrecords.old,
        Eq.trans (State.segment_congr fun x _ hhigh => hout x (Or.inl (by omega))) hrecords.new⟩
      rw [chunk2mem] at hlow
      exact Or.inr (Or.inr hlow)
    rw [hplace] at hfree₁ hfree₂ hfree₃
    have hsum : total [(⟨.free, m.topsize⟩ : Block Kind), ⟨.record, segmentChunkSize a⟩,
        ⟨.gap, topFootSize a - segmentChunkSize a⟩] = m.topsize + topFootSize a := by
      simp only [total_cons, total_nil]
      omega
    obtain ⟨row', hlayout, hmoves, hlive, hfree, hstored, hwithin⟩ := h.retired hinit hcurrent hfresh hlen hrow hplace
      hsum rfl (by simp) (List.head?_cons ..) (by simp)
      ⟨_, Or.inr (Or.inl ⟨rfl, by rw [hplace], rfl⟩)⟩ hm₆
      (fun x hx hx' => (hout x (by omega)).trans (hmem x hx (by omega)))
      (fun x hx => (hout x (Or.inl (by omega))).trans (hbelow x hx)) hrecords₆
      (fun hT hsame hG => hT.retireLarge hsame hmin
        ((load_congr fun x hlow _ => hG x (by omega)).trans hfree₁)
        ((load_congr fun x hlow _ => hG x (by omega)).trans hfree₂)
        ((load_congr fun x hlow _ => hG x (by omega)).trans hfree₃))
    have hnew : ∀ t, ¬ FreeIn row m.top t := fun t ht => by
      cases h.laid.unique ht ((h.top _ _).mpr ⟨hinit, rfl, rfl⟩) (by simp) (by simp)
    obtain ⟨m', hinsert, hstep, hstored'⟩ := hlayout.inserted hstored (fun q t hq => (hfree q t).mpr (Or.inl hq))
      ((hfree m.top m.topsize).mpr (Or.inr ⟨_, Or.inl ⟨rfl, hplace, rfl⟩⟩)) hnew
    obtain ⟨hlayout', hidle⟩ := hlayout.idle (hlayout.idle_of_step hstep)
    refine ⟨m', row', by rw [hinsert]; rfl, ⟨⟨hlayout', hstored'.congr fun q t => (hfree q t).trans ?_⟩,
      hmoves.trans hidle fun _ _ _ hlive => hlive, hlive, hwithin⟩, ?_⟩
    · refine or_congr_right ?_
      rw [exists_placed_cons, exists_placed_cons, exists_placed_cons, or_iff_left (b := ∃ k, Placed _ _ [] k q _)
        exists_placed_nil]
      simp [hplace]
    · rw [hstep.rest, hm₆]

/-! ### `sys_alloc` -/

theorem Inv.useMemory (h : Inv a m row) (hfresh : Fresh a row stop base len) (hlen : Length a len) :
    ∃ m' row', useMemory a m base len nb = some (m', 0) ∧ Grows a m row stop m' row' ∧
      len - topFootSize a ≤ m'.topsize := by
  by_cases hinit : m.top = 0
  · exact h.firstSegment hinit hfresh hlen
  · obtain ⟨first, rest, hcurrent⟩ := h.toLayout.current hinit
    by_cases hbase : base = first.base + first.size
    · exact h.moreOfSegment hinit hcurrent hbase hfresh hlen
    · exact h.newSegment hinit hcurrent hbase hfresh hlen

/-- What `sys_alloc` asks `mmap` for is answered with new memory. -/
structure Answers (a : Arch) (row : List (Block Kind)) (stop : Nat) (mmap : Mmap) : Prop where
  fresh : ∀ len base, mmap len = some base → Fresh a row stop base len

/-- The system has no memory for the request. -/
def Exhausted (a : Arch) (mmap' : Mmap) (nb : Nat) : Prop := allocSize a nb ≤ nb ∨ mmap' (allocSize a nb) = none

theorem Inv.sysAlloc (h : Inv a m row) (hnb : ChunkSize a nb) (hbits : nb < 2 ^ a.bits) {mmap mmap' : Mmap}
    (hmmap : Answers a row stop mmap) (hmmap' : Answers a row stop mmap') :
    Served a m row stop nb (Exhausted a mmap' nb) (sysAlloc a m mmap mmap' nb) := by
  have hdirect : ∀ direct : State × Nat, direct = (if mmapThreshold ≤ nb ∧ m.topsize ≠ 0 then
      Malloc.mmapAlloc a m mmap nb else (m, 0)) → direct = (m, 0) ∨ Allocates a m row stop nb direct.1 direct.2 := by
    rintro _ rfl
    split
    · next hlarge =>
        exact h.mmapAlloc (fun hzero => hlarge.2 (h.bare hzero).1) hnb hbits fun base => hmmap.fresh _ base
    · exact Or.inl rfl
  rw [Malloc.sysAlloc]
  dsimp only
  generalize hd : (if mmapThreshold ≤ nb ∧ m.topsize ≠ 0 then Malloc.mmapAlloc a m mmap nb else (m, 0)) = direct
  obtain rfl | ⟨row', p, n, hgives⟩ := hdirect direct hd.symm
  case inr =>
    rw [if_pos (hgives.mem ▸ chunk2mem_ne_zero)]
    exact Allocates.served ⟨row', p, n, hgives⟩
  rw [if_neg (not_not.mpr rfl)]
  split
  · next hwrap => exact ⟨m, 0, rfl, Or.inr ⟨rfl, rfl, Or.inl hwrap⟩⟩
  · next hfits =>
      have hlt := Nat.not_le.mp hfits
      obtain ⟨hroom, -⟩ := alignSize_of_lt (a := a) (show 0 < granularity by decide) (by cases a <;> decide)
        hbits hlt
      have hmod : allocSize a nb % granularity = 0 := alignSize_mod
      have hlen : Length a (allocSize a nb) := by
        refine ⟨hmod, ?_⟩
        rw [granularity] at hmod ⊢
        omega
      have hpad : nb + 12 * a.word ≤ allocSize a nb := by
        rw [sysAllocPadding, topFootSize_eq, alignment_eq] at hroom
        rw [allocSize, sysAllocPadding, topFootSize_eq, alignment_eq]
        omega
      cases hanswer : mmap' (allocSize a nb) with
      | none => exact ⟨m, 0, rfl, Or.inr ⟨rfl, rfl, Or.inr hanswer⟩⟩
      | some base =>
          obtain ⟨m', row', huse, hgrows, hsize⟩ : ∃ m' row',
              Malloc.useMemory a m base (allocSize a nb) nb = some (m', 0) ∧ Grows a m row stop m' row' ∧
                allocSize a nb - topFootSize a ≤ m'.topsize :=
            h.useMemory (hmmap'.fresh _ _ hanswer) hlen
          have hlt' : nb < m'.topsize := by
            have hword := word_cases a
            rw [topFootSize_eq] at hsize
            omega
          have hserved : Served a m row stop nb (Exhausted a mmap' nb) _ :=
            (hgrows.allocates (hgrows.inv.splitTop hnb hlt')).served
          simp only [huse, Option.bind_eq_bind, Option.bind_some, ne_eq, not_true_eq_false, if_false, if_pos hlt']
          exact hserved

end Kiznix.Malloc
