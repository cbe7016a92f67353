import Kiznix.MallocStored

/-! The records of segments in memory: what is stored in one, and the loops that look for one. -/

namespace Kiznix.Malloc

open ByteMemory BlockRow
open Switch (Arch)

variable {a : Arch} {s : State} {row : List (Block Kind)} {seg rest : List Segment} {sp n x : Nat} {r : Segment}

/-! ### One record -/

/-- The fields of a record are words of memory. -/
structure Segment.Fits (a : Arch) (r : Segment) : Prop where
  base : r.base < 2 ^ a.bits
  size : r.size < 2 ^ a.bits
  next : r.next < 2 ^ a.bits
  sflags : r.sflags < 2 ^ 32

theorem State.setSegment_mem (hx : x < sp ∨ sp + 3 * a.word + 4 ≤ x) : (s.setSegment a sp r).mem x = s.mem x := by
  have hword := word_cases a
  exact (store_outside (by omega)).trans ((store_outside (by omega)).trans ((store_outside (by omega)).trans
    (store_outside (by omega))))

theorem State.segment_setSegment (hr : r.Fits a) : (s.setSegment a sp r).segment a sp = r := by
  have hword := word_cases a
  have hbits := pow_bits a
  obtain ⟨hbase, hsize, hnext, hflags⟩ := hr
  rw [hbits] at hbase hsize hnext
  obtain ⟨base, size, next, sflags⟩ := r
  rw [State.segment, Segment.mk.injEq]
  refine ⟨?_, ?_, ?_, load_store_of_lt hflags⟩
  · exact (load_store_outside (by omega)).trans ((load_store_outside (by omega)).trans
      ((load_store_outside (by omega)).trans (load_store_of_lt hbase)))
  · exact (load_store_outside (by omega)).trans ((load_store_outside (by omega)).trans (load_store_of_lt hsize))
  · exact (load_store_outside (by omega)).trans (load_store_of_lt hnext)

theorem State.segment_fits : (s.segment a sp).Fits a where
  base := pow_bits a ▸ load_lt
  size := pow_bits a ▸ load_lt
  next := pow_bits a ▸ load_lt
  sflags := load_lt

theorem Segment.isOwn_of_flags (h : r.sflags = useMmapBit) : r.isOwn = true := by
  rw [Segment.isOwn, h]
  decide

/-- The first record is in `_gm_` behind the bins. -/
theorem State.seg_bounds : 0 < s.seg a ∧ s.seg a = s.gm + segOffset a ∧
    s.seg a + 3 * a.word + 4 ≤ s.gm + gmSize a := by
  have hword := word_cases a
  rw [State.seg, gmSize, segOffset]
  omega

/-! ### All records -/

theorem segments_length (hordered : seg.Pairwise fun sp sp' => sp'.base + sp'.size ≤ sp.base)
    (hlarge : ∀ sp ∈ seg, granularity ≤ sp.size) (hbelow : ∀ sp ∈ seg, sp.base + sp.size ≤ n) :
    seg.length * granularity ≤ n := by
  induction seg generalizing n with
  | nil => exact (Nat.zero_mul _).trans_le (Nat.zero_le _)
  | cons sp rest ih =>
      obtain ⟨hfirst, hrest⟩ := List.pairwise_cons.mp hordered
      have hlength := ih hrest (fun sp hsp => hlarge sp (List.mem_cons_of_mem _ hsp)) hfirst
      have hsize := hlarge sp List.mem_cons_self
      have hend := hbelow sp List.mem_cons_self
      rw [List.length_cons, Nat.add_mul]
      omega

/-- There are fewer segments than addresses. -/
theorem Segments.length_lt {M : Memory} {top topsize : Nat} (h : Segments a row seg top topsize) (hrow : Row a M row) :
    seg.length + 1 < 2 ^ a.bits := by
  have hlength := segments_length h.ordered h.large h.below
  have hbound := hrow.bound
  have hbits : 2 ^ 32 ≤ 2 ^ a.bits := by cases a <;> decide
  rw [granularity] at hlength
  omega

theorem Recorded.intro {first : Segment} (hinit : s.top ≠ 0) (hfirst : s.segment a (s.seg a) = first)
    (hown : first.sflags = useMmapBit) (hrest : Chained a s row first.next rest) : Recorded a s row (first :: rest) := by
  rw [Recorded, if_neg hinit, hfirst]
  exact ⟨rest, rfl, hown, hrest⟩

/-- The first segment is that of the top chunk. -/
structure Current (a : Arch) (s : State) (row : List (Block Kind)) (first : Segment) (rest : List Segment) :
    Prop where
  segment : s.segment a (s.seg a) = first
  own : first.sflags = useMmapBit
  chained : Chained a s row first.next rest
  segments : Segments a row (first :: rest) s.top s.topsize
  low : first.base ≤ s.top
  ends : s.top + s.topsize + topFootSize a = first.base + first.size
  below : ∀ sp ∈ rest, sp.base + sp.size ≤ first.base
  length : rest.length + 2 < 2 ^ a.bits

theorem Layout.current (h : Layout a s row) (hinit : s.top ≠ 0) : ∃ first rest, Current a s row first rest := by
  obtain ⟨seg, hrecorded, hsegments⟩ := h.segments
  rw [Recorded, if_neg hinit] at hrecorded
  obtain ⟨rest, rfl, hflags, hchained⟩ := hrecorded
  obtain ⟨first, rest', heq, hlow, hends⟩ := hsegments.current hinit
  obtain ⟨rfl, rfl⟩ := List.cons.inj heq
  exact ⟨_, rest, rfl, hflags, hchained, hsegments, hlow, hends, (List.pairwise_cons.mp hsegments.ordered).1,
    hsegments.length_lt h.laid⟩

/-! ### Loops over the records -/

variable {found : Nat → Segment → Bool} {fuel : Nat}

theorem findSegment_spec (h : Chained a s row sp rest) (hfuel : rest.length < fuel) :
    ∃ q, findSegment a s found fuel sp = some q ∧
      (q ≠ 0 → found q (s.segment a q) = true ∧ s.segment a q ∈ rest) := by
  induction rest generalizing sp fuel with
  | nil =>
      obtain rfl : sp = 0 := h
      cases fuel with
      | zero => exact absurd hfuel (Nat.not_lt_zero _)
      | succ fuel => exact ⟨0, if_pos rfl, fun hne => absurd rfl hne⟩
  | cons r rest ih =>
      obtain ⟨rfl, -, ⟨q, rfl, -⟩, hrest⟩ := h
      cases fuel with
      | zero => exact absurd hfuel (Nat.not_lt_zero _)
      | succ fuel =>
          have hword := word_cases a
          have hne : chunk2mem a q ≠ 0 := by
            rw [chunk2mem]
            omega
          rw [findSegment, if_neg hne]
          split
          · next hfound => exact ⟨_, rfl, fun _ => ⟨hfound, List.mem_cons_self⟩⟩
          · obtain ⟨q', heq, hq'⟩ := ih hrest (Nat.lt_of_succ_lt_succ hfuel)
            exact ⟨q', heq, fun hne => (hq' hne).imp_right (List.mem_cons_of_mem _)⟩

/-- A search from the first record on ends there, or behind it, or with `NULL`. -/
theorem Current.find {first : Segment} (h : Current a s row first rest) (found : Nat → Segment → Bool) :
    ∃ q, findSegment a s found (2 ^ a.bits) (s.seg a) = some q ∧
      (q ≠ 0 → found q (s.segment a q) = true ∧ (q = s.seg a ∨ s.segment a q ∈ rest)) ∧
      (found (s.seg a) first = true → q = s.seg a) := by
  have hlength := h.length
  have hseg : s.seg a ≠ 0 := State.seg_bounds.1.ne'
  obtain ⟨fuel, hfuel⟩ := Nat.exists_eq_add_of_lt (Nat.zero_lt_of_lt hlength)
  rw [Nat.zero_add] at hfuel
  rw [hfuel, findSegment, if_neg hseg, h.segment]
  split
  · next hfound => exact ⟨_, rfl, fun _ => ⟨h.segment ▸ hfound, Or.inl rfl⟩, fun _ => rfl⟩
  · next hnot =>
      have hfuel' : rest.length < fuel := by omega
      obtain ⟨q, heq, hq⟩ := findSegment_spec h.chained hfuel'
      exact ⟨q, heq, fun hne => (hq hne).imp_right Or.inr, fun hfound => absurd hfound hnot⟩

/-- The segment of the top chunk is the first. -/
theorem Current.holding {first : Segment} (h : Current a s row first rest) :
    segmentHolding a s s.top = some (s.seg a) := by
  have hword := word_cases a
  have hends := h.ends
  rw [topFootSize_eq] at hends
  obtain ⟨q, heq, -, hfirst⟩ := h.find fun _ r => r.holds s.top
  rw [segmentHolding, heq, hfirst (decide_eq_true ⟨h.low, by omega⟩)]

theorem Current.hasSegmentLink {first : Segment} (h : Current a s row first rest) (r : Segment) :
    ∃ b, hasSegmentLink a s r = some b := by
  obtain ⟨q, heq, -⟩ := h.find fun sp _ => r.holds sp
  rw [Malloc.hasSegmentLink, heq]
  exact ⟨_, rfl⟩

end Kiznix.Malloc
